import Mathlib.Data.List.Basic

/-!
# Tagged messages on one stream

A stream that several parties write to: each message stands with the party it is from. `part i` is what
party `i` has written.
-/

namespace Tagged
variable {ι α : Type*} [DecidableEq ι]

def part (i : ι) (s : List (ι × List α)) : List α := (s.filter fun m => m.1 = i).flatMap Prod.snd

variable {i j : ι} {s t : List (ι × List α)} {q : List α} {n : ℕ}

theorem part_append : part i (s ++ t) = part i s ++ part i t := by
  rw [part, List.filter_append, List.flatMap_append]
  rfl

theorem part_concat_self : part i (s ++ [(i, q)]) = part i s ++ q := by
  rw [part_append]
  simp [part]

theorem part_concat_of_ne (h : j ≠ i) : part i (s ++ [(j, q)]) = part i s := by
  rw [part_append]
  simp [part, h]

theorem part_take_prefix : part i (s.take n) <+: part i s := by
  refine ⟨part i (s.drop n), ?_⟩
  rw [← part_append, List.take_append_drop]

theorem part_take_succ_self (h : s[n]? = some (i, q)) : part i (s.take (n + 1)) = part i (s.take n) ++ q := by
  rw [List.take_add_one, h]
  exact part_concat_self

theorem part_take_succ_of_ne (h : s[n]? = some (j, q)) (hne : j ≠ i) :
    part i (s.take (n + 1)) = part i (s.take n) := by
  rw [List.take_add_one, h]
  exact part_concat_of_ne hne

end Tagged
