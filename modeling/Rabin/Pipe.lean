import Rabin.RoundTrip

/-!
# The Rabin connection between two programs

`Pipe` is the connection as two programs share it: one calls `send_file`, the other `receive_file`.
`Steady` holds while the reader stands between two frames and holds what the writer's cache held there.
-/

namespace Rabin
open Reads Mirror

structure Pipe where
  srv : RabinServer
  /-- how many of the accepted bytes have been read -/
  taken : ℕ
  cli : Blocks
  /-- all that was sent, and how many descriptors of it were decoded -/
  sent : List Item
  seen : ℕ

/-- How many descriptors a call of `receive_file` has decoded. -/
def Received.frames (r : Received) : ℕ := if r.last = .eof then r.numBlocks.toNat else r.numBlocks.toNat - 1

namespace Pipe

def init : Pipe := ⟨.fresh [], 0, .empty, [], 0⟩

def flight (w : Pipe) : List UInt8 := w.srv.sock.accepted.drop w.taken

def pending (w : Pipe) : List Item := w.sent.drop w.seen

end Pipe

namespace Params
variable (p : Params)

/-- A call of `send_file`. -/
def pipeSend (w : Pipe) (file : List UInt8) : Option Pipe :=
  (p.sendFile w.srv file).map fun (_, srv) => { w with srv := srv, sent := w.sent ++ p.fileItems file }

/-- A call of `receive_file` that times out after `n` bytes, unless it comes back before. -/
def pipeReceive (w : Pipe) (n : ℕ) : Option (Received × Pipe) :=
  if n ≤ w.flight.length then
    (p.host.receiveFile w.cli [.piece (w.flight.take n), .fail]).map fun r =>
      (r, { w with taken := w.taken + (n - (unread r.conn).length), cli := r.blocks, seen := w.seen + r.frames })
  else none

structure Steady (w : Pipe) : Prop where
  plan : w.srv.sock.plan = []
  taken_le : w.taken ≤ w.srv.sock.accepted.length
  seen_le : w.seen ≤ w.sent.length
  bytes : w.flight = p.emit w.cli.cache w.pending
  cache : w.srv.blocks.cache = p.after w.cli.cache w.pending
  sized : ∀ b, .block b ∈ w.sent → Sized b

/-- The call comes to the end of a file, -/
def WholeFile (w : Pipe) (n : ℕ) : Prop :=
  ∃ (bs : List (List UInt8)) (more : List Item), w.pending = bs.map .block ++ .eof :: more ∧
    (p.emit w.cli.cache (bs.map .block ++ [.eof])).length ≤ n

/-- or times out behind one of its blocks and before another one of the same file. -/
def BetweenBlocks (w : Pipe) (n : ℕ) : Prop :=
  ∃ (bs : List (List UInt8)) (b : List UInt8) (more : List Item),
    w.pending = bs.map .block ++ .block b :: more ∧ bs ≠ [] ∧ n = (p.emit w.cli.cache (bs.map .block)).length

variable {p} {w w' : Pipe}

theorem steady_init : p.Steady .init := ⟨rfl, Nat.le_refl _, Nat.le_refl _, rfl, rfl, fun _ hb => nomatch hb⟩

theorem pending_send (h : p.Steady w) (file : List UInt8) :
    (w.sent ++ p.fileItems file).drop w.seen = w.pending ++ p.fileItems file :=
  List.drop_append_of_le_length h.seen_le

theorem Steady.send (h : p.Steady w) {file : List UInt8} (hs : p.pipeSend w file = some w') :
    p.Steady w' ∧ w'.pending = w.pending ++ p.fileItems file ∧ w'.cli = w.cli := by
  obtain ⟨⟨n, srv⟩, hsend, hs⟩ := Option.map_eq_some_iff.1 hs
  rw [p.sendFile_eq_sent (p.length_lt_of_sendFile file hsend), Option.some.injEq, Prod.mk.injEq] at hsend
  rcases hsend with ⟨-, rfl⟩
  subst hs
  have hpend := pending_send h file
  have hacc := p.accepted_sent h.plan file
  obtain ⟨h1, h2, h3⟩ :=
    p.stream_append h.taken_le (show [] ++ w.flight = _ from h.bytes) h.cache hacc (cache_sent ..)
  rw [← hpend] at h2 h3
  refine ⟨⟨p.plan_sent h.plan file, h1, ?_, h2, h3, ?_⟩, hpend, rfl⟩
  · show w.seen ≤ (w.sent ++ p.fileItems file).length
    rw [List.length_append]
    exact Nat.le_add_right_of_le h.seen_le
  · intro b hb
    rcases List.mem_append.1 hb with hb | hb
    · exact h.sized b hb
    · exact p.sized_of_mem_fileItems hb

theorem Steady.take (h : p.Steady w) {is js : List Item} (hp : w.pending = is ++ js)
    (ht : w'.taken = w.taken + (p.emit w.cli.cache is).length) (hc : w'.cli.cache = p.after w.cli.cache is)
    (hsrv : w'.srv = w.srv) (hsent : w'.sent = w.sent) (hseen : w'.seen = w.seen + is.length) :
    p.Steady w' ∧ w'.pending = js := by
  have hflight := h.bytes
  rw [hp, emit_append] at hflight
  have hpend : w'.pending = js := by
    rw [Pipe.pending, hsent, hseen, ← List.drop_drop]
    exact (congrArg (List.drop is.length) hp).trans List.drop_left
  have hlen := congrArg List.length hflight
  rw [Pipe.flight, List.length_drop, List.length_append] at hlen
  have hplen := congrArg List.length hp
  rw [Pipe.pending, List.length_drop, List.length_append] at hplen
  have htaken := h.taken_le
  have hseenle := h.seen_le
  refine ⟨⟨hsrv ▸ h.plan, ?_, ?_, ?_, ?_, hsent ▸ h.sized⟩, hpend⟩
  · rw [ht, hsrv]
    omega
  · rw [hseen, hsent]
    omega
  · rw [hpend, hc, Pipe.flight, hsrv, ht, ← List.drop_drop]
    exact (congrArg (List.drop _) hflight).trans List.drop_left
  · rw [hsrv, h.cache, hpend, hc, hp, after_append]

/-! ### A call of `receive_file` on it -/

theorem sized_of_pending (h : p.Steady w) {b : List UInt8} (hb : .block b ∈ w.pending) : Sized b :=
  h.sized b (List.mem_of_mem_drop hb)

theorem cache_absorbAll_self (m : Blocks) (bs : List (List UInt8)) :
    (p.absorbAll m.cache m bs).cache = p.after m.cache (bs.map .block) := by
  rw [cache_absorbAll p (decodable_self _), after, blocksOf_map]

theorem pipeReceive_eq {n : ℕ} {r : Received} (hr : p.pipeReceive w n = some (r, w')) :
    n ≤ w.flight.length ∧ p.host.receiveFile w.cli [.piece (w.flight.take n), .fail] = some r ∧
      w' = { w with
        taken := w.taken + (n - (unread r.conn).length)
        cli := r.blocks
        seen := w.seen + r.frames } := by
  rw [pipeReceive] at hr
  split at hr
  · rename_i hle
    obtain ⟨r', hr', heq⟩ := Option.map_eq_some_iff.1 hr
    cases heq
    exact ⟨hle, hr', rfl⟩
  · cases hr

theorem toNat_ofNat_succ {n : ℕ} (h : n < 2 ^ 31) : (UInt32.ofNat (n + 1)).toNat = n + 1 :=
  Nat.mod_eq_of_lt (show n + 1 < 2 ^ 32 by omega)

theorem Steady.receive_whole (h : p.Steady w) {bs : List (List UInt8)} {more : List Item} {n : ℕ}
    (hp : w.pending = bs.map .block ++ .eof :: more) (hbs : bs.length < 2 ^ 31)
    (hn : (p.emit w.cli.cache (bs.map .block ++ [.eof])).length ≤ n) {r : Received}
    (hr : p.pipeReceive w n = some (r, w')) :
    r.last = .eof ∧ r.file = bs.flatten ∧ r.numBlocks.toNat = bs.length + 1 ∧ p.Steady w' ∧ w'.pending = more := by
  obtain ⟨hle, hrec, rfl⟩ := pipeReceive_eq hr
  have hpend : w.pending = (bs.map .block ++ [.eof]) ++ more := by rw [hp, List.append_assoc]; rfl
  have hb : ∀ b ∈ bs, Sized b := fun b hb => sized_of_pending h (by rw [hp]; simp [hb])
  set front := p.emit w.cli.cache (bs.map .block ++ [.eof]) with hfront
  obtain ⟨rest, hrest⟩ : ∃ rest, w.flight.take n = front ++ rest := by
    refine ⟨(p.emit (p.after w.cli.cache (bs.map .block ++ [.eof])) more).take (n - front.length), ?_⟩
    rw [h.bytes, hpend, emit_append, ← hfront, List.take_append, List.take_of_length_le hn]
  have ht : tokens [.piece (w.flight.take n), .fail] = front.map some ++ (rest.map some ++ [none]) := by
    rw [tokens_piece, tokens_fail, tokens_nil, hrest, List.map_append, List.append_assoc]
  obtain ⟨conn', h1, h2⟩ := p.receiveFile_whole hb (decodable_self _) ht
  rw [h2, Option.some.injEq] at hrec
  subst hrec
  have hunread : unread conn' = rest := by
    rw [unread, h1, List.filterMap_append, List.filterMap_map]
    simp
  have hlen := congrArg List.length hrest
  rw [List.length_take_of_le hle, List.length_append] at hlen
  refine ⟨rfl, rfl, toNat_ofNat_succ hbs, h.take hpend ?_ ?_ rfl rfl ?_⟩
  · show w.taken + (n - (unread conn').length) = _
    rw [hunread, ← hfront]
    omega
  · show (p.absorbAll w.cli.cache w.cli bs).cache = _
    rw [cache_absorbAll_self, after_append]
    rfl
  · show w.seen + (UInt32.ofNat (bs.length + 1)).toNat = _
    rw [toNat_ofNat_succ hbs, List.length_append, List.length_map]
    rfl

theorem Steady.length_le_of_eof (h : p.Steady w) {file : List UInt8} {more : List Item} {n : ℕ}
    (hp : w.pending = p.fileItems file ++ more) {r : Received} (hr : p.pipeReceive w n = some (r, w'))
    (hlast : r.last = .eof) : (p.emit w.cli.cache (p.fileItems file)).length ≤ n := by
  obtain ⟨hle, hrec, -⟩ := pipeReceive_eq hr
  by_contra hlt
  have hflight := h.bytes
  rw [hp, emit_append] at hflight
  have hpart : w.flight.take n <+: p.emit w.cli.cache (p.fileItems file) := by
    rw [hflight, List.take_append_of_le_length (by omega)]
    exact List.take_prefix ..
  obtain ⟨last, conn', hend, hrun⟩ := p.receiveFile_part rfl hpart (.inr rfl) (tokens_piece _ [.fail])
  rw [hrun, Option.some.injEq] at hrec
  subst hrec
  have hlen := congrArg List.length (hend hlast)
  rw [List.length_take_of_le hle] at hlen
  omega

theorem Steady.receive_stop (h : p.Steady w) {bs : List (List UInt8)} {more : List Item} {n : ℕ}
    (hp : w.pending = bs.map .block ++ more) (hbs : bs.length < 2 ^ 31)
    (hn : n = (p.emit w.cli.cache (bs.map .block)).length) {r : Received} (hr : p.pipeReceive w n = some (r, w')) :
    r.last = .lost ∧ r.file = bs.flatten ∧ r.numBlocks.toNat = bs.length + 1 ∧ p.Steady w' ∧ w'.pending = more := by
  obtain ⟨hle, hrec, rfl⟩ := pipeReceive_eq hr
  have hb : ∀ b ∈ bs, Sized b := fun b hb => sized_of_pending h (by rw [hp]; simp [hb])
  have hi : ∀ b, Item.eof = .block b → Sized b := fun b he => Item.noConfusion he
  have htake : w.flight.take n = p.emit w.cli.cache (bs.map .block) ++ [] := by
    rw [h.bytes, hp, emit_append, hn, List.take_left, List.append_nil]
  have ht : tokens [.piece (w.flight.take n), .fail] =
      (p.emit w.cli.cache (bs.map .block) ++ []).map some ++ [none] := by
    rw [tokens_piece, tokens_fail, tokens_nil, htake]
  have hpos := p.itemFrame_pos (learnAll p.hashFunction w.cli.cache bs) .eof
  obtain ⟨conn', h1, h2⟩ := p.receiveFile_short hb (decodable_self _) hi (List.nil_prefix) hpos ht (.inr rfl)
  rw [h2, Option.some.injEq] at hrec
  subst hrec
  have hunread : unread conn' = [] := by rw [unread, h1]; rfl
  refine ⟨rfl, rfl, toNat_ofNat_succ hbs, h.take hp ?_ ?_ rfl rfl ?_⟩
  · show w.taken + (n - (unread conn').length) = _
    rw [hunread, hn]
    rfl
  · show (p.absorbAll w.cli.cache w.cli bs).cache = _
    exact cache_absorbAll_self w.cli bs
  · show w.seen + ((UInt32.ofNat (bs.length + 1)).toNat - 1) = _
    rw [toNat_ofNat_succ hbs, List.length_map]
    rfl

end Params
end Rabin
