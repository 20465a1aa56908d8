import Rabin.Lib.Cuts
import Rabin.Offer

/-!
# The blocks of a file

`cuts file` are the positions where `send_file` cuts, `chunks file` the blocks between them. For a file
whose positions fit the 32-bit loop index, `send_file` offers the chunks in order, writes the final
descriptor and returns the number of chunks plus one (`sendFile_eq`).
-/

namespace Rabin
namespace Params
open Cut
variable (p : Params) (file : List UInt8)

/-- The fingerprint of the three bytes that end at `i` is zero. -/
def HashZero (i : ℕ) : Prop := p.rabinFunc (file.getD (i - 2) 0) (file.getD (i - 1) 0) (file.getD i 0) = 0

instance (i : ℕ) : Decidable (p.HashZero file i) := inferInstanceAs (Decidable (_ = _))

def IsCut (prev i : ℕ) : Prop := p.HashZero file i ∨ prev + maxBytes ≤ i

instance (prev i : ℕ) : Decidable (p.IsCut file prev i) := inferInstanceAs (Decidable (_ ∨ _))

/-- The cuts among the `n` positions from `i` on, when the last cut before them is at `prev`. -/
def cutsFrom : ℕ → ℕ → ℕ → List ℕ
  | 0, _, _ => []
  | n + 1, i, prev => if p.IsCut file prev i then i :: cutsFrom n (i + 1) i else cutsFrom n (i + 1) prev

def cuts : List ℕ := p.cutsFrom file (file.length - 2) 2 0

def chunks : List (List UInt8) := cutAt file 0 (p.cuts file)

/-- A zero fingerprint, and 71 bytes without one. -/
def threeBlocks : List UInt8 := [105, 105, 105] ++ List.replicate 71 100

example : x64.cuts threeBlocks = [2, 66] := by decide +kernel

theorem cutsFrom_ok {n i prev : ℕ} (hn : n = 0 ∨ i + n = file.length) (hi : file.length ≤ i + n)
    (hp : prev < i) (hw : i ≤ prev + maxBytes) (hl : prev ≤ file.length) :
    Cuts maxBytes file.length prev (p.cutsFrom file n i prev) := by
  induction n generalizing i prev with
  | zero => exact ⟨hl, by omega⟩
  | succ n ih =>
    have hlen : i + (n + 1) = file.length := hn.resolve_left (Nat.succ_ne_zero n)
    unfold cutsFrom
    split
    · exact ⟨hp, hw, ih (by omega) (by omega) (by omega) (by unfold maxBytes; omega) (by omega)⟩
    · rename_i hc
      have hlt : ¬ prev + maxBytes ≤ i := fun h => hc (.inr h)
      exact ih (by omega) (by omega) (by omega) (by omega) hl

theorem cuts_ok : Cuts maxBytes file.length 0 (p.cuts file) :=
  p.cutsFrom_ok file (by omega) (by omega) (by omega) (by decide) (Nat.zero_le _)

theorem flatten_chunks : (p.chunks file).flatten = file := flatten_cutAt (p.cuts_ok file)

theorem mem_chunks {b : List UInt8} (h : b ∈ p.chunks file) : 0 < b.length ∧ b.length ≤ maxBytes :=
  mem_cutAt (p.cuts_ok file) h

theorem length_cutsFrom_le (n i prev : ℕ) : (p.cutsFrom file n i prev).length ≤ n := by
  induction n generalizing i prev with
  | zero => exact Nat.le_refl _
  | succ n ih =>
    unfold cutsFrom
    split
    · exact Nat.succ_le_succ (ih _ _)
    · exact Nat.le_succ_of_le (ih _ _)

theorem length_chunks_le : (p.chunks file).length ≤ file.length - 2 + 1 := by
  have h1 := p.length_cutsFrom_le file (file.length - 2) 2 0
  have h2 := length_cutAt_le file 0 (p.cuts file)
  exact Nat.le_trans h2 (Nat.succ_le_succ h1)

/-! ### The loop -/

theorem wrapInt_add (a b : ℤ) : wrapInt (wrapInt a + b) = wrapInt (a + b) := by
  simp [wrapInt]

theorem wrapInt_of_lt {n : ℕ} (h : n < 2 ^ 31) : wrapInt n = n := by
  unfold wrapInt
  rw [Int.bmod_def]
  omega

theorem wrapInt_inj {a b : ℕ} (ha : a < 2 ^ 32) (hb : b < 2 ^ 32) : wrapInt a = wrapInt b ↔ a = b := by
  unfold wrapInt
  rw [Int.bmod_def, Int.bmod_def]
  omega

/-- The count that `send_file` returns fits its `int`. -/
theorem wrapInt_length_chunks {file : List UInt8} (hf : file.length < 2 ^ 31) :
    wrapInt ((p.chunks file).length + 1) = ((p.chunks file).length + 1 : ℕ) := by
  have := p.length_chunks_le file
  have h := wrapInt_of_lt (n := (p.chunks file).length + 1) (by omega)
  simpa using h

theorem intWidth_eq {i prev : ℕ} (hp : prev ≤ i) (hw : i ≤ prev + maxBytes) : intWidth i prev = (i - prev : ℕ) := by
  have h64 : maxBytes < 2 ^ 31 := by decide
  rw [intWidth, ← Int.ofNat_sub hp]
  exact wrapInt_of_lt (show i - prev < 2 ^ 31 by omega)

/-- A width of at most 64 is passed on as it is. -/
theorem bytesAt_intWidth {file : List UInt8} {i prev : ℕ} (hp : prev ≤ i) (hw : i ≤ prev + maxBytes)
    (hi : i ≤ file.length) : bytesAt file prev (intWidth i prev) = some ((file.drop prev).take (i - prev)) := by
  rw [intWidth_eq hp hw, bytesAt, if_pos (by omega), Int.toNat_natCast]

/-- `send_file` after its loop. -/
def finish (l : Cutting) : Option (ℤ × RabinServer) := do
  let (numBlocks, srv) ←
    if l.prev ≠ file.length then do
      let b ← bytesAt file l.prev (intWidth file.length l.prev)
      pure (wrapInt (l.numBlocks + 1), p.offer l.srv b)
    else pure (l.numBlocks, l.srv)
  pure (wrapInt (numBlocks + 1), p.sendEof srv)

theorem sendFile_eq_finish (srv : RabinServer) :
    p.sendFile srv file = (p.cutLoop file (file.length + 1) ⟨2, 0, 0, srv⟩).bind (p.finish file) := by
  unfold sendFile finish
  simp only [sendBlock_eq, Option.bind_eq_bind, Option.bind_some, Option.pure_def]

/-- The variables of the loop while `i` does not wrap around: the last cut is behind `i`, and not far. -/
structure Near (l : Cutting) : Prop where
  two_le : 2 ≤ l.i.toNat
  prev_lt : l.prev < l.i.toNat
  le_add : l.i.toNat ≤ l.prev + maxBytes
  prev_le : l.prev ≤ file.length

section
variable {file} {l : Cutting} (h : Near file l)
include h

theorem Near.cutsHere : p.cutsHere file l = decide (p.IsCut file l.prev l.i.toNat) := by
  have h2 := h.two_le
  have e1 : (l.i - 1).toNat = l.i.toNat - 1 := by
    rw [UInt32.toNat_sub_of_le]
    · rfl
    · rw [UInt32.le_iff_toNat_le]
      exact Nat.le_trans (by decide) h2
  have e2 : (l.i - 2).toNat = l.i.toNat - 2 := by
    rw [UInt32.toNat_sub_of_le]
    · rfl
    · rwa [UInt32.le_iff_toNat_le]
  have htl : decide ((maxBytes : ℤ) ≤ (l.i.toNat : ℤ) - l.prev) = decide (l.prev + maxBytes ≤ l.i.toNat) := by
    congr 1
    exact propext (by omega)
  simp only [Params.cutsHere, byteAt, e1, e2, htl]
  exact (Bool.decide_or ..).symm

theorem Near.cutStep (hi : l.i.toNat < file.length) :
    p.cutStep file l = some (if p.IsCut file l.prev l.i.toNat then
      ⟨l.i + 1, l.i.toNat, wrapInt (l.numBlocks + 1), p.offer l.srv ((file.drop l.prev).take (l.i.toNat - l.prev))⟩
      else { l with i := l.i + 1 }) := by
  have hb := bytesAt_intWidth (Nat.le_of_lt h.prev_lt) h.le_add (Nat.le_of_lt hi)
  simp only [Params.cutStep, h.cutsHere, decide_eq_true_eq, hb, sendBlock_eq]
  split <;> rfl

omit h in
theorem toNat_succ (hs : file.length < 2 ^ 32) (hi : l.i.toNat < file.length) : (l.i + 1).toNat = l.i.toNat + 1 := by
  rw [UInt32.toNat_add]
  exact Nat.mod_eq_of_lt (show l.i.toNat + 1 < 2 ^ 32 by omega)

theorem Near.cut (hs : file.length < 2 ^ 32) (hi : l.i.toNat < file.length) (n : ℤ) (srv : RabinServer) :
    Near file ⟨l.i + 1, l.i.toNat, n, srv⟩ := by
  have hsucc := toNat_succ hs hi
  have h2 := h.two_le
  refine ⟨?_, ?_, ?_, Nat.le_of_lt hi⟩
  · rw [hsucc]
    exact Nat.le_succ_of_le h2
  · rw [hsucc]
    exact Nat.lt_succ_self _
  · rw [hsucc]
    exact Nat.add_le_add_left (by decide) _

theorem Near.skip (hs : file.length < 2 ^ 32) (hi : l.i.toNat < file.length)
    (hc : ¬ p.IsCut file l.prev l.i.toNat) : Near file { l with i := l.i + 1 } := by
  have hsucc := toNat_succ hs hi
  refine ⟨?_, ?_, ?_, h.prev_le⟩
  · rw [hsucc]
    exact Nat.le_succ_of_le h.two_le
  · rw [hsucc]
    exact Nat.lt_succ_of_lt h.prev_lt
  · rw [hsucc]
    exact Nat.lt_of_not_le fun hfar => hc (.inr hfar)

end

theorem near_start (srv : RabinServer) : Near file ⟨2, 0, 0, srv⟩ :=
  ⟨Nat.le_refl 2, Nat.two_pos, Nat.le_add_left 2 62, Nat.zero_le _⟩

/-- From any position on, the loop and what follows it offer the chunks that remain. -/
theorem cutLoop_finish (hs : file.length < 2 ^ 32) {n fuel : ℕ} {l : Cutting} (h : Near file l)
    (hn : n = 0 ∨ l.i.toNat + n = file.length) (hle : file.length ≤ l.i.toNat + n) (hf : n < fuel) :
    (p.cutLoop file fuel l).bind (p.finish file) =
      some (wrapInt (l.numBlocks + (cutAt file l.prev (p.cutsFrom file n l.i.toNat l.prev)).length + 1),
        p.sendEof (p.offerAll l.srv (cutAt file l.prev (p.cutsFrom file n l.i.toNat l.prev)))) := by
  induction n generalizing fuel l with
  | zero =>
    obtain ⟨fuel, rfl⟩ : ∃ k, fuel = k + 1 := ⟨fuel - 1, by omega⟩
    have hstop : ¬ l.i.toNat < file.length := by omega
    rw [cutLoop, if_neg hstop, Option.bind_some, finish, cutsFrom, cutAt]
    by_cases he : l.prev = file.length
    · simp [he]
    · have hall : (file.drop l.prev).take (file.length - l.prev) = file.drop l.prev :=
        List.take_of_length_le (Nat.le_of_eq List.length_drop)
      have hw : file.length ≤ l.prev + maxBytes := Nat.le_trans hle h.le_add
      simp [he, bytesAt_intWidth h.prev_le hw (Nat.le_refl _), hall, wrapInt_add]
  | succ n ih =>
    obtain ⟨fuel, rfl⟩ : ∃ k, fuel = k + 1 := ⟨fuel - 1, by omega⟩
    have hlen : l.i.toNat + (n + 1) = file.length := hn.resolve_left (Nat.succ_ne_zero n)
    have hgo : l.i.toNat < file.length := by omega
    have hsucc := toNat_succ hs hgo
    rw [cutLoop, if_pos hgo, h.cutStep p hgo, Option.bind_some, cutsFrom]
    by_cases hc : p.IsCut file l.prev l.i.toNat
    · simp only [hc, if_true]
      rw [ih (h.cut hs hgo _ _) (by dsimp only; omega) (by dsimp only; omega) (by omega)]
      simp only [cutAt, offerAll_cons, List.length_cons, hsucc]
      rw [add_assoc, wrapInt_add]
      push_cast
      congr 3
      ring
    · simp only [hc, if_false]
      rw [ih (h.skip p hs hgo hc) (by dsimp only; omega) (by dsimp only; omega) (by omega), hsucc]

theorem sendFile_eq (hs : file.length < 2 ^ 32) (srv : RabinServer) :
    p.sendFile srv file =
      some (wrapInt ((p.chunks file).length + 1), p.sendEof (p.offerAll srv (p.chunks file))) := by
  have h2 : (2 : UInt32).toNat = 2 := rfl
  rw [sendFile_eq_finish, p.cutLoop_finish file hs (n := file.length - 2) (near_start file srv) (by dsimp only; omega)
    (by dsimp only; omega) (by omega)]
  rw [chunks, cuts, zero_add, h2]

/-- An `unsigned` counter does not reach `2 ^ 32`: for such a file the loop does not end. -/
theorem cutLoop_long (hs : 2 ^ 32 ≤ file.length) (fuel : ℕ) (l : Cutting) : p.cutLoop file fuel l = none := by
  induction fuel generalizing l with
  | zero => rfl
  | succ fuel ih =>
    have hlt : l.i.toNat < file.length := Nat.lt_of_lt_of_le l.i.toNat_lt hs
    rw [cutLoop, if_pos hlt, Option.bind_eq_none_iff]
    intro l' _
    exact ih l'

theorem length_lt_of_sendFile {srv : RabinServer} {r : ℤ × RabinServer} (hr : p.sendFile srv file = some r) :
    file.length < 2 ^ 32 := by
  by_contra hs
  rw [sendFile_eq_finish, p.cutLoop_long file (Nat.le_of_not_lt hs)] at hr
  cases hr

end Params
end Rabin
