import Rabin.Frames

/-!
# Writes that stop short or fail

`send_file` goes on after a `write` that did not accept its whole buffer. Up to the first such write
the connection stands where it would stand if all were complete (`Follows`), so what it takes is a
prefix of the intended stream as long as nothing is accepted after it (`accepted_prefix_of_halts`).
-/

namespace Rabin
open Mirror

/-- Once a write has not accepted its whole buffer, no byte is accepted any more. -/
def HaltsOnShort (log : List Write) : Prop := log.Pairwise fun w w' => w.Complete ∨ w'.accepted = []

instance (log : List Write) : Decidable (HaltsOnShort log) := inferInstanceAs (Decidable (List.Pairwise _ _))

/-- `s` has made a write that was not complete, and up to it has written what `t` has. -/
def Broken (s t : Socket) : Prop :=
  ∃ pre w post, s.log = pre ++ w :: post ∧ ¬ w.Complete ∧ pre.flatMap Write.accepted ++ w.accepted <+: t.accepted

namespace Broken
variable {s s' t t' : Socket}

theorem mono (h : Broken s t) (hs : s.log <+: s'.log) (ht : t.accepted <+: t'.accepted) : Broken s' t' := by
  rcases h with ⟨pre, w, post, hl, hw, hp⟩
  rcases hs with ⟨more, hmore⟩
  rw [hl, List.append_assoc] at hmore
  exact ⟨pre, w, post ++ more, hmore.symm, hw, hp.trans ht⟩

/-- All that is accepted is a prefix if the rest of the log accepts nothing. -/
theorem accepted_prefix (h : Broken s t) (hh : HaltsOnShort s.log) : s.accepted <+: t.accepted := by
  rcases h with ⟨pre, w, post, hl, hw, hp⟩
  have hpost : post.flatMap Write.accepted = [] := by
    rw [List.flatMap_eq_nil_iff]
    intro w' hw'
    rw [HaltsOnShort, hl] at hh
    have hww := (List.pairwise_cons.1 (List.pairwise_append.1 hh).2.1).1 w' hw'
    exact hww.resolve_left hw
  rw [Socket.accepted, hl, List.flatMap_append, List.flatMap_cons, hpost, List.append_nil]
  exact hp

end Broken

theorem Socket.write_same {s t : Socket} (hl : s.log = t.log) (ht : t.plan = []) (msg : Msg) (buf : List UInt8) :
    (s.ret buf.length = some buf.length ∧ (s.write msg buf).2.log = (t.write msg buf).2.log) ∨
      Broken (s.write msg buf).2 (t.write msg buf).2 := by
  by_cases hc : s.ret buf.length = some buf.length
  · refine .inl ⟨hc, ?_⟩
    rw [write_log, write_log, hl, hc, ret_of_plan_nil ht]
  · refine .inr ⟨s.log, _, [], rfl, hc, ?_⟩
    rw [accepted_write_of_plan_nil ht, accepted, ← hl]
    exact (List.prefix_append_right_inj _).2 (Write.accepted_prefix _)

theorem Socket.accepted_mono {s t : Socket} (h : s.log <+: t.log) : s.accepted <+: t.accepted := by
  rcases h with ⟨more, hmore⟩
  rw [accepted, accepted, ← hmore, List.flatMap_append]
  exact List.prefix_append ..

/-- The run of `srv` beside one whose writes are all complete. -/
def Follows (srv ref : RabinServer) : Prop :=
  (srv.blocks = ref.blocks ∧ srv.sock.log = ref.sock.log) ∨ Broken srv.sock ref.sock

namespace Params
variable {p : Params} {srv ref : RabinServer}

theorem log_prefix_offer (srv : RabinServer) (b : List UInt8) :
    (srv.sock.write (.desc (p.entry b srv.blocks)) (p.descImage (p.entry b srv.blocks))).2.log <+:
      (p.offer srv b).sock.log := by
  rcases p.offer_log srv b with ⟨-, h⟩ | ⟨-, -, r, h⟩
  · rw [h]
    exact List.prefix_rfl
  · rw [h]
    exact ⟨[⟨.data (p.entry b srv.blocks), b, r⟩], by rw [Socket.write_log, List.append_assoc]; rfl⟩

theorem offer_of_ret (srv : RabinServer) {b : List UInt8}
    (hr : srv.sock.ret (p.descImage (p.entry b srv.blocks)).length ≠ none) :
    p.offer srv b =
      let e := p.entry b srv.blocks
      let w := srv.sock.write (.desc e) (p.descImage e)
      if e.old then ⟨srv.blocks.put e, w.2⟩ else ⟨srv.blocks.put e.setOld, (w.2.write (.data e) e.data).2⟩ := by
  unfold offer
  exact if_neg hr

theorem follows_offer (h : Follows srv ref) (hp : ref.sock.plan = []) (b : List UInt8) :
    Follows (p.offer srv b) (p.offer ref b) := by
  rcases h with ⟨hb, hl⟩ | h
  · set e := p.entry b ref.blocks with he
    have hr : ref.sock.ret (p.descImage e).length = some (p.descImage e).length := Socket.ret_of_plan_nil hp _
    have href := offer_of_ret (p := p) ref (b := b) (by rw [hr]; exact Option.some_ne_none _)
    rcases Socket.write_same hl hp (.desc e) (p.descImage e) with ⟨hc, hl'⟩ | hbr
    · have hsrv := offer_of_ret (p := p) srv (b := b) (by rw [hb, hc]; exact Option.some_ne_none _)
      rw [hsrv, href, hb]
      dsimp only
      rw [← he]
      cases ho : e.old with
      | true =>
        simp only [if_true]
        exact .inl ⟨rfl, hl'⟩
      | false =>
        simp only [Bool.false_eq_true, if_false]
        have hp' : (ref.sock.write (.desc e) (p.descImage e)).2.plan = [] := by rw [Socket.write_plan, hp]; rfl
        rcases Socket.write_same hl' hp' (.data e) e.data with ⟨-, hl''⟩ | hbr
        · exact .inl ⟨rfl, hl''⟩
        · exact .inr hbr
    · -- the descriptor is not complete
      refine .inr (hbr.mono ?_ (Socket.accepted_mono (log_prefix_offer _ b)))
      have hlog := log_prefix_offer (p := p) srv b
      rwa [hb] at hlog
  · refine .inr (h.mono ?_ ?_)
    · exact (List.prefix_append ..).trans (log_prefix_offer _ b)
    · rw [accepted_offer p hp]
      exact List.prefix_append ..

theorem follows_sendEof (h : Follows srv ref) (hp : ref.sock.plan = []) :
    Follows (p.sendEof srv) (p.sendEof ref) := by
  rcases h with ⟨hb, hl⟩ | h
  · rcases Socket.write_same hl hp .eof p.eofFrame with ⟨-, hl'⟩ | hbr
    · exact .inl ⟨hb, hl'⟩
    · exact .inr hbr
  · refine .inr (h.mono (List.prefix_append ..) ?_)
    rw [accepted_sendEof p hp]
    exact List.prefix_append ..

theorem follows_offerAll {bs : List (List UInt8)} (h : Follows srv ref) (hp : ref.sock.plan = []) :
    Follows (p.offerAll srv bs) (p.offerAll ref bs) := by
  induction bs generalizing srv ref with
  | nil => exact h
  | cons b bs ih => exact ih (follows_offer h hp b) (p.plan_offer hp b)

theorem follows_sendFiles {files : List (List UInt8)} (h : Follows srv ref) (hp : ref.sock.plan = []) :
    Follows (files.foldl p.sent srv) (files.foldl p.sent ref) := by
  induction files generalizing srv ref with
  | nil => exact h
  | cons f fs ih =>
    refine ih (follows_sendEof (follows_offerAll h hp) ?_) (p.plan_sent hp f)
    exact (p.offerAll_spec hp _).1

variable (p) in
/-- The files go over a connection whose writes go by `plan`; `ref` is the same server on one that accepts
everything. `log` is the writes up to any moment. -/
theorem accepted_prefix_of_halts (m : Blocks) (plan : List Outcome) {files : List (List UInt8)}
    {ns ns' : List (ℤ × List UInt8)} (hr : p.sendFiles ⟨m, .open' plan⟩ files = some (ns, srv))
    (href : p.sendFiles ⟨m, .open' []⟩ files = some (ns', ref))
    (hh : HaltsOnShort srv.sock.log) :
    ∀ log, log <+: srv.sock.log → log.flatMap Write.accepted <+: ref.sock.accepted := by
  intro log hlog
  have hsame : Follows (⟨m, .open' plan⟩ : RabinServer) ⟨m, .open' []⟩ := .inl ⟨rfl, rfl⟩
  have hf : Follows srv ref := by
    rw [p.sendFiles_eq hr, p.sendFiles_eq href]
    exact follows_sendFiles hsame rfl
  have hacc : srv.sock.accepted <+: ref.sock.accepted := by
    rcases hf with ⟨-, hl⟩ | hbr
    · exact Socket.accepted_mono (hl ▸ List.prefix_rfl)
    · exact hbr.accepted_prefix hh
  exact (Socket.accepted_mono (s := ⟨plan, log⟩) hlog).trans hacc

theorem accepted_prefix_of_halts_small :
    let srv := [[97], [98]].foldl small.sent (.fresh [.accept 64, .accept 64, .accept 5, .error, .error])
    let ref := [[97], [98]].foldl small.sent (.fresh [])
    srv.sock.accepted.length = 19 ∧
      ∀ log, log <+: srv.sock.log → log.flatMap Write.accepted <+: ref.sock.accepted := by
  intro srv ref
  have hf : ∀ f ∈ ([[97], [98]] : List (List UInt8)), f.length < 2 ^ 32 := by decide
  rcases small.exists_sendFiles hf (.fresh [.accept 64, .accept 64, .accept 5, .error, .error]) with ⟨ns, h1⟩
  rcases small.exists_sendFiles hf (.fresh []) with ⟨ns', h2⟩
  exact ⟨by decide, small.accepted_prefix_of_halts .empty _ h1 h2 (by decide)⟩

/-- The first descriptor is cut after 5 bytes, and the data follow it. -/
theorem short_descriptor :
    ∃ ns srv ns' ref, small.sendFiles (.fresh [.accept 5]) [[97]] = some (ns, srv) ∧
      small.sendFiles (.fresh []) [[97]] = some (ns', ref) ∧
      srv.sock.accepted = (small.header (fun _ => none) [97]).take 5 ++ [97] ++ small.eofFrame ∧
      ¬ srv.sock.accepted <+: ref.sock.accepted := by
  have hf : ∀ f ∈ ([[97]] : List (List UInt8)), f.length < 2 ^ 32 := by decide
  rcases small.exists_sendFiles hf (.fresh [.accept 5]) with ⟨ns, h1⟩
  rcases small.exists_sendFiles hf (.fresh []) with ⟨ns', h2⟩
  exact ⟨ns, _, ns', _, h1, h2, by decide, by decide⟩

end Params
end Rabin
