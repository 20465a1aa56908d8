import Mathlib.Data.List.ReduceOption
import Rabin.Pairing

/-!
# Sending files by name

The programs around the library. The server takes names from its input or its arguments and sends the files that it
can open, each from an array on its stack; the client receives into the same file again and again, as long as it is
told to go on. If a round of the client starts before there is a file for it, it times out and leaves the file empty.
The other rounds get the files in the order in which they were named, if all of them fit on the stack
(`rounds_in_order`).
-/

namespace Rabin
open Reads Mirror

structure Transfer where
  /-- the Rabin connection -/
  wire : Pipe
  /-- the server has not crashed -/
  up : Bool
  /-- the files that were sent, and for each the number of blocks that the server prints -/
  sent : List (List UInt8 × ℤ)
  /-- `go` -/
  go : Bool
  /-- after each round what is in the client's file, and the number of blocks that it prints -/
  rounds : List (List UInt8 × ℤ)
  /-- `blocks.at` has thrown in the client -/
  aborted : Bool

inductive TransferAct (ν : Type*)
  /-- the server comes to the next name -/
  | name (s : ν)
  /-- the client calls `receive_file`, which may time out after `n` bytes, and reads `go` -/
  | round (n : ℕ) (go : ℤ)

/-- The names the server has come to. -/
def TransferAct.name? {ν : Type*} : TransferAct ν → Option ν
  | .name s => some s
  | .round .. => none

namespace Transfer

def init : Transfer := ⟨.init, true, [], true, [], false⟩

end Transfer

namespace Params
variable (p : Params) {ν : Type*} (dir : ν → Option (List UInt8)) (interactive : Bool) (stack : ℕ)

/-- `stack` is the number of bytes that there is room for in `char c[n]`. -/
def transferStep (s : Transfer) : TransferAct ν → Option Transfer
  | .name t =>
    if !s.up then none
    else
      match dir t with
      | some c =>
        if stack < c.length then some { s with up := false }
        else do
          let (a, _) ← p.sendFile s.wire.srv c
          let w ← p.pipeSend s.wire c
          pure { s with wire := w, sent := s.sent ++ [(c, a)] }
      -- `continue`, or `fseek` of a null pointer
      | none => some { s with up := interactive }
  | .round n go =>
    if !s.go || s.aborted then none
    else
      (p.pipeReceive s.wire n).map fun (r, w) =>
        if r.last = .outOfRange then { s with wire := w, aborted := true }
        else { s with wire := w, go := go ≠ 0, rounds := s.rounds ++ [(r.file, wrapInt r.numBlocks.toNat)] }

/-- The client waits for a file, or comes to the end of one. -/
def WaitsForFile (s : Transfer) : TransferAct ν → Prop
  | .round n _ => p.WholeFile s.wire n ∨ s.wire.pending = [] ∧ n = 0
  | _ => True

/-- The number of blocks both programs print. -/
def printed (c : List UInt8) : List UInt8 × ℤ := (c, (p.chunks c).length + 1)

/-- `got` are the files of the rounds so far, `none` where there was none, and `fs` is on the way. -/
structure Delivers (s : Transfer) (got : List (Option (List UInt8))) (fs : List (List UInt8)) : Prop where
  steady : p.Steady s.wire
  pending : s.wire.pending = fs.flatMap p.fileItems
  length_lt : ∀ f ∈ fs, f.length < 2 ^ 31
  sent : s.sent = (got.reduceOption ++ fs).map p.printed
  rounds : s.rounds = got.map fun f => f.elim ([], 1) p.printed
  aborted : s.aborted = false

variable {p dir interactive stack} {s s' : Transfer} {got : List (Option (List UInt8))} {fs : List (List UInt8)}

theorem Delivers.name (h : p.Delivers s got fs)
    (hsize : ∀ t c, dir t = some c → c.length < 2 ^ 31 ∧ c.length ≤ stack) {t : ν}
    (hs : p.transferStep dir interactive stack s (.name t) = some s') : ∃ fs', p.Delivers s' got fs' := by
  rw [transferStep, Option.ite_none_left_eq_some] at hs
  obtain ⟨-, hs⟩ := hs
  cases hd : dir t with
  | none =>
    rw [hd] at hs
    cases hs
    exact ⟨fs, h.steady, h.pending, h.length_lt, h.sent, h.rounds, h.aborted⟩
  | some c =>
    rw [hd] at hs
    obtain ⟨hlt, hle⟩ := hsize t c hd
    dsimp only at hs
    rw [if_neg (Nat.not_lt.2 hle)] at hs
    obtain ⟨⟨a, srv⟩, h1, hs⟩ := Option.bind_eq_some_iff.1 hs
    obtain ⟨w, h2, hs⟩ := Option.bind_eq_some_iff.1 hs
    cases hs
    obtain ⟨hw, hpend, -⟩ := h.steady.send h2
    rw [p.sendFile_eq_sent (show c.length < 2 ^ 32 by omega), Option.some.injEq, Prod.mk.injEq,
      p.wrapInt_length_chunks hlt] at h1
    refine ⟨fs ++ [c], hw, ?_, fun f hf => ?_, ?_, h.rounds, h.aborted⟩
    · rw [hpend, h.pending, List.flatMap_append, List.flatMap_singleton]
    · rcases List.mem_append.1 hf with hf | hf
      · exact h.length_lt f hf
      · rwa [List.mem_singleton.1 hf]
    · show s.sent ++ [(c, a)] = _
      have hc : [(c, (((p.chunks c).length + 1 : ℕ) : ℤ))] = [c].map p.printed := rfl
      rw [h.sent, ← h1.1, hc, ← List.map_append, List.append_assoc]

theorem transferStep_round {n : ℕ} {go : ℤ} (hs : p.transferStep dir interactive stack s (.round n go) = some s') :
    ∃ r w, p.pipeReceive s.wire n = some (r, w) ∧ s' =
      if r.last = .outOfRange then { s with wire := w, aborted := true }
      else { s with wire := w, go := go ≠ 0, rounds := s.rounds ++ [(r.file, wrapInt r.numBlocks.toNat)] } := by
  rw [transferStep, Option.ite_none_left_eq_some] at hs
  obtain ⟨⟨r, w⟩, hr, hs⟩ := Option.map_eq_some_iff.1 hs.2
  exact ⟨r, w, hr, hs.symm⟩

theorem Delivers.round (h : p.Delivers s got fs) {n : ℕ} {go : ℤ}
    (hg : p.WholeFile s.wire n ∨ s.wire.pending = [] ∧ n = 0)
    (hs : p.transferStep dir interactive stack s (.round n go) = some s') : ∃ got' fs', p.Delivers s' got' fs' := by
  obtain ⟨r, w, hr, rfl⟩ := transferStep_round hs
  rcases hg with ⟨bs, more, hp, hn⟩ | ⟨hp, rfl⟩
  · cases fs with
    | nil =>
      rw [h.pending] at hp
      exact absurd hp.symm (by simp)
    | cons f fs =>
      have hlt := h.length_lt f List.mem_cons_self
      have heq : bs.map Item.block ++ .eof :: more =
          (p.chunks f).map Item.block ++ .eof :: fs.flatMap p.fileItems := by
        rw [← hp, h.pending, List.flatMap_cons, fileItems, List.append_assoc]
        rfl
      obtain ⟨rfl, rfl⟩ := blocks_eof_inj heq
      have hle := p.length_chunks_le f
      obtain ⟨hlast, hfile, hcount, hw, hpend⟩ := h.steady.receive_whole hp (by omega) hn hr
      rw [hlast, if_neg Got.noConfusion]
      refine ⟨got ++ [some f], fs, hw, hpend, fun x hx => h.length_lt x (List.mem_cons_of_mem f hx), ?_, ?_,
        h.aborted⟩
      · show s.sent = _
        rw [h.sent, List.reduceOption_append, List.append_assoc]
        rfl
      · show s.rounds ++ [_] = _
        rw [h.rounds, hfile, flatten_chunks, hcount, List.map_append, Nat.cast_succ, p.wrapInt_length_chunks hlt]
        rfl
  · have hp' : s.wire.pending = ([] : List (List UInt8)).map .block ++ [] := hp
    obtain ⟨hlast, hfile, hcount, hw, hpend⟩ := h.steady.receive_stop hp' (Nat.two_pow_pos 31) rfl hr
    rw [hlast, if_neg Got.noConfusion]
    refine ⟨got ++ [none], fs, hw, hpend.trans (hp.symm.trans h.pending), h.length_lt, ?_, ?_, h.aborted⟩
    · show s.sent = _
      rw [h.sent, List.reduceOption_append]
      simp
    · show s.rounds ++ [_] = _
      rw [h.rounds, hfile, hcount, List.map_append]
      rfl

theorem sent_run (hsize : ∀ t c, dir t = some c → c.length < 2 ^ 31 ∧ c.length ≤ stack) {acts : List (TransferAct ν)}
    (hr : Lts.run (p.transferStep dir interactive stack) s acts = some s') :
    s'.sent = s.sent ++ ((acts.filterMap TransferAct.name?).filterMap dir).map p.printed := by
  induction acts generalizing s with
  | nil =>
    cases hr
    exact (List.append_nil _).symm
  | cons a acts ih =>
    obtain ⟨s₁, h1, h2⟩ := Lts.run_cons hr
    rw [ih h2]
    cases a with
    | name t =>
      rw [transferStep, Option.ite_none_left_eq_some] at h1
      obtain ⟨-, h1⟩ := h1
      rw [List.filterMap_cons_some (show (TransferAct.name t).name? = some t from rfl)]
      cases hd : dir t with
      | none =>
        rw [hd] at h1
        cases h1
        rw [List.filterMap_cons_none hd]
      | some c =>
        obtain ⟨hlt, hle⟩ := hsize t c hd
        rw [hd] at h1
        dsimp only at h1
        rw [if_neg (Nat.not_lt.2 hle)] at h1
        obtain ⟨⟨a, srv⟩, h3, h1⟩ := Option.bind_eq_some_iff.1 h1
        obtain ⟨w, -, h1⟩ := Option.bind_eq_some_iff.1 h1
        cases h1
        rw [p.sendFile_eq_sent (show c.length < 2 ^ 32 by omega), Option.some.injEq, Prod.mk.injEq,
          p.wrapInt_length_chunks hlt] at h3
        rw [List.filterMap_cons_some hd, List.map_cons, ← h3.1, List.append_assoc]
        rfl
    | round n go =>
      obtain ⟨r, w, -, rfl⟩ := transferStep_round h1
      rw [List.filterMap_cons_none (show (TransferAct.round (ν := ν) n go).name? = none from rfl)]
      split <;> rfl

variable (p) in
/-- Whatever the names are, however the server and the rounds of the client take turns, and however long the client
waits in a round: if all files fit on the stack, those that can be opened come out one by one, in order and complete,
with the same count of blocks on both sides. A round that found no file leaves the client's file empty and counts one
block. -/
theorem rounds_in_order (hsize : ∀ t c, dir t = some c → c.length < 2 ^ 31 ∧ c.length ≤ stack)
    {acts : List (TransferAct ν)} (hg : Lts.Guarded (p.transferStep dir interactive stack) p.WaitsForFile .init acts)
    (hr : Lts.run (p.transferStep dir interactive stack) .init acts = some s) :
    s.aborted = false ∧ s.sent = ((acts.filterMap TransferAct.name?).filterMap dir).map p.printed ∧
      ∃ got : List (Option (List UInt8)), s.rounds = got.map (fun f => f.elim ([], 1) p.printed) ∧
        got.reduceOption <+: (acts.filterMap TransferAct.name?).filterMap dir ∧
        (s.wire.flight = [] → got.reduceOption = (acts.filterMap TransferAct.name?).filterMap dir) := by
  obtain ⟨got, fs, h⟩ : ∃ got fs, p.Delivers s got fs := by
    refine Lts.invariant_of_guarded (I := fun s => ∃ got fs, p.Delivers s got fs) ?_ hg ?_ hr
    · rintro s (t | ⟨n, go⟩) s' ⟨got, fs, h⟩ hok hs
      · exact ⟨got, h.name hsize hs⟩
      · exact h.round hok hs
    · exact ⟨[], [], steady_init, rfl, (fun _ hf => nomatch hf), rfl, rfl, rfl⟩
  have hsent := sent_run hsize hr
  have hfiles : got.reduceOption ++ fs = (acts.filterMap TransferAct.name?).filterMap dir := by
    have hinj : Function.Injective p.printed := fun c c' hc => congrArg Prod.fst hc
    exact List.map_injective_iff.2 hinj (h.sent.symm.trans hsent)
  refine ⟨h.aborted, hsent, got, h.rounds, hfiles ▸ List.prefix_append .., fun hf => ?_⟩
  have hbytes := h.steady.bytes
  have hlen := p.length_le_emit s.wire.cli.cache s.wire.pending
  have hitems := p.length_le_items fs
  rw [← hbytes, hf, List.length_nil] at hlen
  rw [← h.pending] at hitems
  rw [← hfiles, List.eq_nil_of_length_eq_zero (show fs.length = 0 by omega), List.append_nil]

/-- The client starts too early, the second name is wrong, and the last round finds nothing. -/
theorem rounds_in_order_small :
    ∃ s, Lts.run (small.transferStep (fun t : Bool => if t then some [97] else none) true 8388608) .init
        [.round 0 1, .name true, .name false, .round 27 1, .round 0 0] = some s ∧
      s.rounds = [([], 1), ([97], 2), ([], 1)] ∧ s.sent = [([97], 2)] := by
  have hg : Lts.Guarded (small.transferStep (fun t : Bool => if t then some [97] else none) true 8388608)
      small.WaitsForFile .init [.round 0 1, .name true, .name false, .round 27 1, .round 0 0] := by
    refine Lts.guarded_cons (.inr ⟨rfl, rfl⟩) rfl (Lts.guarded_cons trivial rfl (Lts.guarded_cons trivial rfl ?_))
    refine Lts.guarded_cons (.inl ⟨[[97]], [], ?_, ?_⟩) rfl (Lts.guarded_cons (.inr ⟨?_, rfl⟩) rfl trivial)
    · decide
    · decide
    · decide
  refine ⟨_, rfl, by decide, ?_⟩
  have hsize : ∀ (t : Bool) (c : List UInt8), (if t then some [97] else none) = some c →
      c.length < 2 ^ 31 ∧ c.length ≤ 8388608 := by
    intro t c h
    cases t <;> cases h
    decide
  have h := (small.rounds_in_order hsize hg rfl).2.1
  rw [h]
  decide

end Params
end Rabin
