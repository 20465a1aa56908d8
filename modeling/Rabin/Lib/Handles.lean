import Mathlib.Algebra.GroupWithZero.Nat
import Mathlib.Data.Finset.Card
import Rabin.Lib.Lts

/-!
# Handles that are open

A program acquires handles, each new to it, and releases them. `Leaks s s' n` says that the program that
had `s` open now has `s'` open: what it had, and `n` handles more.
-/

namespace Handles
variable {α : Type*}

structure Leaks (s s' : Finset α) (n : ℕ) : Prop where
  subset : s ⊆ s'
  card : s'.card = s.card + n

variable {s s' s'' : Finset α} {x : α} {n m : ℕ}

theorem leaks_refl (s : Finset α) : Leaks s s 0 := ⟨Finset.Subset.refl s, rfl⟩

theorem Leaks.trans (h : Leaks s s' n) (h' : Leaks s' s'' m) : Leaks s s'' (n + m) := by
  refine ⟨h.subset.trans h'.subset, ?_⟩
  rw [h'.card, h.card, Nat.add_assoc]

theorem Leaks.eq_iff (h : Leaks s s' n) : s' = s ↔ n = 0 := by
  have hcard := h.card
  constructor
  · rintro rfl
    omega
  · rintro rfl
    exact (Finset.eq_of_subset_of_card_le h.subset (by omega)).symm

/-- What each step leaks adds up over a run. -/
theorem leaks_run {β : Type*} {step : Finset α → β → Option (Finset α)} (cost : β → ℕ)
    (hstep : ∀ s b s', step s b = some s' → Leaks s s' (cost b)) {bs : List β} (hr : Lts.run step s bs = some s') :
    Leaks s s' (bs.map cost).sum := by
  induction bs generalizing s with
  | nil =>
    cases hr
    exact leaks_refl _
  | cons b bs ih =>
    obtain ⟨s₁, h1, h2⟩ := Lts.run_cons hr
    rw [List.map_cons, List.sum_cons]
    exact (hstep s b s₁ h1).trans (ih h2)

variable [DecidableEq α]

/-- The system hands out a handle that is not in use. -/
def acquire (s : Finset α) (x : α) : Option (Finset α) := if x ∈ s then none else some (insert x s)

def release (s : Finset α) (x : α) : Finset α := s.erase x

theorem acquire_eq_some (h : acquire s x = some s') : x ∉ s ∧ s' = insert x s := by
  unfold acquire at h
  split at h
  · cases h
  · rename_i hx
    cases h
    exact ⟨hx, rfl⟩

theorem leaks_acquire (h : acquire s x = some s') : Leaks s s' 1 := by
  obtain ⟨hx, rfl⟩ := acquire_eq_some h
  exact ⟨Finset.subset_insert x s, Finset.card_insert_of_notMem hx⟩

/-- What is acquired and released again does not count. -/
theorem Leaks.release (h : acquire s x = some s') (h' : Leaks s' s'' n) : Leaks s (release s'' x) n := by
  have hcard := (leaks_acquire h).card
  have hcard' := h'.card
  obtain ⟨hx, rfl⟩ := acquire_eq_some h
  have hmem : x ∈ s'' := h'.subset (Finset.mem_insert_self x s)
  constructor
  · intro y hy
    refine Finset.mem_erase.2 ⟨?_, h'.subset (Finset.mem_insert_of_mem hy)⟩
    rintro rfl
    exact hx hy
  · have herase : (Handles.release s'' x).card = s''.card - 1 := Finset.card_erase_of_mem hmem
    omega

theorem release_comm (s : Finset α) (x y : α) : release (release s x) y = release (release s y) x :=
  Finset.erase_right_comm

end Handles
