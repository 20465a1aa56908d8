import Rabin.Pairing

/-!
# What timeouts between two frames do

A timeout of `hrd` between two frames may end a request too early, and from then on browsers are sent what belongs to
others. But as long as `hrd` passes the requests on and can open its files, the responses come out whole: `Conserved`
says that what the browsers were sent, one after the other, and what is still on the way make up the responses
(`responses_conserved`).
-/

namespace Rabin
open Reads Mirror
namespace Params
variable (p : Params)

/-- `hrd` passes the request on and can open the next file. The call of `receive_file` comes to the end of a file, or
times out between two frames of it, whether or not it has read one. -/
def BetweenFrames (s : Pairing) : PairAct → Prop
  | .browser _ connected n => connected = true ∧ 0 < n
  | .noFile => False
  | .receive n => p.WholeFile s.wire n ∨ ∃ (bs : List (List UInt8)) (more : List Item),
      s.wire.pending = bs.map .block ++ more ∧ n = (p.emit s.wire.cli.cache (bs.map .block)).length
  | _ => True

/-- The files on the way, each with no more blocks than its count can tell. -/
structure Conserved (s : Pairing) (fs : List (List (List UInt8))) : Prop where
  steady : p.Steady s.wire
  pending : s.wire.pending = fileParts fs
  length_le : ∀ bs ∈ fs, bs.length ≤ 1000
  data : s.browsers.flatten ++ fs.flatten.flatten = s.responses.flatten
  aborted : s.aborted = false

variable {p} {s s' : Pairing} {fs : List (List (List UInt8))}

theorem blocks_front {bs bs' : List (List UInt8)} {xs ys : List Item}
    (h : bs.map Item.block ++ xs = bs'.map Item.block ++ .eof :: ys) :
    ∃ rest, bs' = bs ++ rest ∧ xs = rest.map .block ++ .eof :: ys := by
  match xs with
  | [] =>
    have hmem : Item.eof ∈ bs.map Item.block ++ [] := by simp [h]
    simp at hmem
  | .eof :: xs =>
    obtain ⟨rfl, rfl⟩ := blocks_eof_inj h
    exact ⟨[], by simp, rfl⟩
  | .block b :: xs =>
    obtain ⟨rest, rfl, rfl⟩ := blocks_inside h
    exact ⟨b :: rest, rfl, rfl⟩

theorem flatten_browsers_receive {b : List UInt8} {bs : List (List UInt8)} {r : Received} {w : Pipe}
    (hb : s.browser = some b) (hlast : r.last ≠ .outOfRange) (hfile : r.file = bs.flatten)
    (hcount : r.numBlocks.toNat = bs.length + 1) (hs : s' =
      if r.last = .outOfRange then { s with wire := w, aborted := true }
      else if 1 < r.numBlocks then { s with wire := w, browser := some (b ++ r.file) }
      else { s with wire := w, served := s.served ++ [b], browser := none }) :
    s'.browsers.flatten = s.browsers.flatten ++ bs.flatten ∧ s'.responses = s.responses ∧ s'.wire = w ∧
      s'.aborted = s.aborted := by
  rw [if_neg hlast] at hs
  by_cases hlt : 1 < r.numBlocks
  · rw [if_pos hlt] at hs
    subst hs
    refine ⟨?_, rfl, rfl, rfl⟩
    simp [Pairing.browsers, hb, hfile]
  · rw [if_neg hlt] at hs
    have hnil : bs = [] := by
      rw [UInt32.lt_iff_toNat_lt, hcount] at hlt
      exact List.eq_nil_of_length_eq_zero (by simpa using hlt)
    subst hs
    refine ⟨?_, rfl, rfl, rfl⟩
    simp [Pairing.browsers, hb, hnil]

theorem Conserved.receive (h : p.Conserved s fs) {n : ℕ} (hg : p.BetweenFrames s (.receive n))
    (hs : p.pairStep s (.receive n) = some s') : ∃ fs', p.Conserved s' fs' := by
  obtain ⟨b, r, w, hb, hr, hs⟩ := pairStep_receive hs
  rcases hg with ⟨bs, more, hp, hn⟩ | ⟨bs, more, hp, hn⟩
  · cases fs with
    | nil =>
      rw [h.pending] at hp
      exact absurd hp.symm (by simp [fileParts])
    | cons bs' fs =>
      have heq : bs.map Item.block ++ .eof :: more = bs'.map Item.block ++ .eof :: fileParts fs := by
        rw [← hp, h.pending, fileParts_cons]
      obtain ⟨rfl, rfl⟩ := blocks_eof_inj heq
      have hle := h.length_le bs List.mem_cons_self
      obtain ⟨hlast, hfile, hcount, hw', hpend'⟩ := h.steady.receive_whole hp (by omega) hn hr
      obtain ⟨h1, h2, rfl, h4⟩ :=
        flatten_browsers_receive hb (by rw [hlast]; exact Got.noConfusion) hfile hcount hs
      refine ⟨fs, hw', hpend', fun x hx => h.length_le x (List.mem_cons_of_mem _ hx), ?_, h4.trans h.aborted⟩
      rw [h1, h2, ← h.data, List.append_assoc, List.flatten_cons, List.flatten_append]
  · obtain ⟨rest, hbs, hmore, hle⟩ : ∃ fs', fs.flatten.flatten = bs.flatten ++ fs'.flatten.flatten ∧
        more = fileParts fs' ∧ bs.length ≤ 1000 ∧ ∀ x ∈ fs', x.length ≤ 1000 := by
      rw [h.pending] at hp
      cases fs with
      | nil =>
        obtain ⟨hnil, rfl⟩ := List.append_eq_nil_iff.1 (show bs.map Item.block ++ more = [] from hp.symm)
        rw [List.map_eq_nil_iff.1 hnil]
        refine ⟨[], rfl, rfl, Nat.zero_le _, fun x hx => ?_⟩
        cases hx
      | cons bs' fs =>
        rw [fileParts_cons] at hp
        obtain ⟨rest, rfl, hmore⟩ := blocks_front hp.symm
        have hle := h.length_le _ List.mem_cons_self
        rw [List.length_append] at hle
        refine ⟨rest :: fs, ?_, hmore.trans (fileParts_cons rest fs).symm, by omega, fun x hx => ?_⟩
        · simp [List.flatten_append]
        · rcases List.mem_cons.1 hx with rfl | hx
          · omega
          · exact h.length_le x (List.mem_cons_of_mem _ hx)
    obtain ⟨hlast, hfile, hcount, hw', hpend'⟩ := h.steady.receive_stop hp (by omega) hn hr
    obtain ⟨h1, h2, rfl, h4⟩ := flatten_browsers_receive hb (by rw [hlast]; exact Got.noConfusion) hfile hcount hs
    refine ⟨rest, hw', hpend'.trans hmore, hle.2, ?_, h4.trans h.aborted⟩
    rw [h1, h2, ← h.data, hbs, List.append_assoc]

theorem Conserved.step (h : p.Conserved s fs) {a : PairAct} (hg : p.BetweenFrames s a)
    (hs : p.pairStep s a = some s') : ∃ fs', p.Conserved s' fs' := by
  cases a with
  | receive n => exact h.receive hg hs
  | browser c connected n =>
    obtain ⟨rfl, hn⟩ := hg
    obtain ⟨hb, request, -, rfl⟩ := pairStep_browser hn hs
    refine ⟨fs, h.steady, h.pending, h.length_le, ?_, h.aborted⟩
    simpa [Pairing.browsers, Pairing.responses, hb] using h.data
  | accept connected n =>
    obtain ⟨hu, c, -, hs⟩ := pairStep_accept hs
    have hdata : s'.browsers.flatten ++ fs.flatten.flatten = s'.responses.flatten := by
      rcases hs with ⟨-, rfl⟩ | rfl | rfl <;> simpa [Pairing.browsers, Pairing.responses, hu] using h.data
    rcases hs with ⟨-, rfl⟩ | rfl | rfl
    · exact ⟨fs, h.steady, h.pending, h.length_le, hdata, h.aborted⟩
    · exact ⟨fs, h.steady, h.pending, h.length_le, hdata, h.aborted⟩
    · exact ⟨fs, h.steady, h.pending, h.length_le, hdata, h.aborted⟩
  | recv q =>
    obtain ⟨u, w, hu, hq, hsend, rfl⟩ := pairStep_recv hs
    obtain ⟨hw', hpend', -⟩ := h.steady.send hsend
    refine ⟨fs ++ [p.chunks q], hw', ?_, fun x hx => ?_, ?_, h.aborted⟩
    · rw [hpend', h.pending, fileParts_concat]
      rfl
    · rcases List.mem_append.1 hx with hx | hx
      · exact h.length_le x hx
      · rw [List.mem_singleton.1 hx]
        exact (chunks_of_piece hq).2
    · have hdata := congrArg (· ++ q) h.data
      simpa [Pairing.browsers, Pairing.responses, hu, flatten_chunks] using hdata
  | finish =>
    obtain ⟨u, w, hu, hsend, rfl⟩ := pairStep_finish hs
    obtain ⟨hw', hpend', -⟩ := h.steady.send hsend
    refine ⟨fs ++ [[]], hw', ?_, fun x hx => ?_, ?_, h.aborted⟩
    · rw [hpend', h.pending, fileParts_concat]
      rfl
    · rcases List.mem_append.1 hx with hx | hx
      · exact h.length_le x hx
      · rw [List.mem_singleton.1 hx]
        exact Nat.zero_le _
    · simpa [Pairing.browsers, Pairing.responses, hu] using h.data
  | noFile => exact hg.elim

theorem blocksOf_fileParts (fs : List (List (List UInt8))) : blocksOf (fileParts fs) = fs.flatten := by
  induction fs with
  | nil => rfl
  | cons bs fs ih =>
    rw [fileParts_cons, blocksOf_append, blocksOf_map, List.flatten_cons, ← ih]
    rfl

variable (p) in
/-- In a run in which `hrd` passes every request on and opens every file, and every timeout falls between two frames,
`hrd` goes on, and what it has sent to the browsers, one after the other, is the front of all responses: nothing is
lost, sent twice or sent in another order, and what is missing is on the way. -/
theorem responses_conserved (as : List PairAct) (hg : Lts.Guarded p.pairStep p.BetweenFrames .init as)
    (hr : Lts.run p.pairStep .init as = some s) :
    s.aborted = false ∧ s.wire.flight = p.emit s.wire.cli.cache s.wire.pending ∧
      s.browsers.flatten ++ (blocksOf s.wire.pending).flatten = s.responses.flatten := by
  obtain ⟨fs, h⟩ : ∃ fs, p.Conserved s fs := by
    refine Lts.invariant_of_guarded (I := fun s => ∃ fs, p.Conserved s fs) ?_ hg ?_ hr
    · rintro s a s' ⟨fs, h⟩ hok hs
      exact h.step hok hs
    · exact ⟨[], steady_init, rfl, (fun _ hbs => nomatch hbs), rfl, rfl⟩
  refine ⟨h.aborted, h.steady.bytes, ?_⟩
  rw [h.pending, blocksOf_fileParts]
  exact h.data

/-- The first browser has gone when its response comes in. -/
theorem responses_conserved_small :
    ∃ s, Lts.run small.pairStep .init lateRun = some s ∧
      s.browsers.flatten ++ (blocksOf s.wire.pending).flatten = s.responses.flatten := by
  have hg : Lts.Guarded small.pairStep small.BetweenFrames .init lateRun := by
    refine Lts.guarded_cons ⟨rfl, Int.one_pos⟩ rfl (Lts.guarded_cons trivial rfl ?_)
    refine Lts.guarded_cons (.inr ⟨[], [], rfl, rfl⟩) rfl (Lts.guarded_cons ⟨rfl, Int.one_pos⟩ rfl ?_)
    refine Lts.guarded_cons trivial rfl (Lts.guarded_cons (.inl ⟨[[97]], [], ?_, ?_⟩) rfl trivial)
    · decide
    · decide
  exact ⟨_, rfl, (small.responses_conserved _ hg rfl).2.2⟩

end Params
end Rabin
