import Mathlib.Algebra.BigOperators.Group.Finset.Basic
import Mathlib.Algebra.BigOperators.Intervals
import Mathlib.Logic.Function.Basic

/-!
# Cells that are allocated and freed

A heap holds a cell under each address that is in use. `alloc` takes an address that has never been used; `free` and
`set` of an address that is not in use are faults. `weight w` adds up what the cells in use weigh.
-/

/-- The addresses from `next` on have not been used. -/
structure Heap (α : Type*) where
  get : ℕ → Option α
  next : ℕ
  get_of_le : ∀ {a}, next ≤ a → get a = none

namespace Heap
variable {α : Type*} (h : Heap α)

def empty : Heap α := ⟨fun _ => none, 0, fun _ => rfl⟩

def alloc (x : α) : ℕ × Heap α where
  fst := h.next
  snd :=
    { get := Function.update h.get h.next (some x)
      next := h.next + 1
      get_of_le := fun {a} ha => by
        rw [Function.update_of_ne (by omega)]
        exact h.get_of_le (by omega) }

/-- What the cell `a` becomes, if it is in use. -/
def change (a : ℕ) (x : Option α) : Option (Heap α) :=
  if ha : (h.get a).isSome then
    some
      { get := Function.update h.get a x
        next := h.next
        get_of_le := fun {b} hb => by
          rw [Function.update_of_ne]
          · exact h.get_of_le hb
          · rintro rfl
            rw [h.get_of_le hb] at ha
            cases ha }
  else none

def free (a : ℕ) : Option (Heap α) := h.change a none

def set (a : ℕ) (x : α) : Option (Heap α) := h.change a (some x)

/-- What the cells in use weigh. -/
def weight (w : α → ℕ) : ℕ := ∑ a ∈ Finset.range h.next, (h.get a).elim 0 w

variable {h} {h' : Heap α} {a b : ℕ} {x y : α} {z : Option α} {w : α → ℕ}

theorem lt_next (ha : h.get a = some x) : a < h.next := by
  by_contra hle
  rw [h.get_of_le (Nat.le_of_not_lt hle)] at ha
  cases ha

@[simp] theorem alloc_fst : (h.alloc x).1 = h.next := rfl

@[simp] theorem next_alloc : (h.alloc x).2.next = h.next + 1 := rfl

@[simp] theorem get_alloc_self : (h.alloc x).2.get h.next = some x := Function.update_self ..

theorem get_alloc_of_ne (ha : a ≠ h.next) : (h.alloc x).2.get a = h.get a := Function.update_of_ne ha ..

/-- An allocation leaves the cells in use alone. -/
theorem get_alloc_of_some (ha : h.get a = some y) : (h.alloc x).2.get a = some y :=
  (get_alloc_of_ne (Nat.ne_of_lt (lt_next ha))).trans ha

theorem change_eq_some (hc : h.change a z = some h') :
    h'.next = h.next ∧ h'.get a = z ∧ ∀ b ≠ a, h'.get b = h.get b := by
  unfold change at hc
  split at hc
  · cases hc
    exact ⟨rfl, Function.update_self .., fun b hb => Function.update_of_ne hb ..⟩
  · cases hc

theorem exists_change (ha : h.get a = some x) (z : Option α) : ∃ h', h.change a z = some h' := by
  unfold change
  rw [dif_pos (by rw [ha]; rfl)]
  exact ⟨_, rfl⟩

theorem change_self (ha : h.get a = some x) : h.change a (some x) = some h := by
  unfold change
  rw [dif_pos (by rw [ha]; rfl)]
  simp only [← ha, Function.update_eq_self]

/-- Only the last change of a cell counts. -/
theorem change_change (hc : h.change a (some x) = some h') : h'.change a z = h.change a z := by
  unfold change at hc
  split at hc
  · rename_i ha
    cases hc
    unfold change
    rw [dif_pos ha, dif_pos (by simp)]
    simp only [Function.update_idem]
  · cases hc

theorem weight_alloc : (h.alloc x).2.weight w = h.weight w + w x := by
  rw [weight, next_alloc, Finset.sum_range_succ, get_alloc_self]
  refine congrArg (· + w x) (Finset.sum_congr rfl fun a ha => ?_)
  rw [get_alloc_of_ne (Nat.ne_of_lt (Finset.mem_range.1 ha))]

theorem weight_change (ha : h.get a = some x) (hc : h.change a z = some h') :
    h'.weight w + w x = h.weight w + z.elim 0 w := by
  obtain ⟨hnext, hself, hother⟩ := change_eq_some hc
  have hmem : a ∈ Finset.range h.next := Finset.mem_range.2 (lt_next ha)
  have hrest : ∑ b ∈ (Finset.range h.next).erase a, (h'.get b).elim 0 w =
      ∑ b ∈ (Finset.range h.next).erase a, (h.get b).elim 0 w :=
    Finset.sum_congr rfl fun b hb => by rw [hother b (Finset.ne_of_mem_erase hb)]
  rw [weight, weight, hnext, ← Finset.add_sum_erase _ _ hmem, ← Finset.add_sum_erase (Finset.range h.next) _ hmem,
    hrest, hself, ha]
  simp only [Option.elim_some]
  omega

end Heap
