import Mathlib.Data.Nat.Find

/-!
# Content-defined chunking

A pass over the positions below `n` cuts at position `k` if `k` is a hit, or if the last start of a chunk
is `w` or more positions back; `Chunked H w lo n S` says so of the set `S` of the positions it cuts at. The
starts of chunks are 0 and the cuts. Two passes that see the same hits up to a position cut at the same
positions there, and once both cut at a position they stay together as long as they see the same hits.
-/

namespace Chunking

def Start (S : ℕ → Prop) (j : ℕ) : Prop := j = 0 ∨ S j

def Chunked (H : ℕ → Prop) (w lo n : ℕ) (S : ℕ → Prop) : Prop :=
  ∀ k, S k ↔ lo ≤ k ∧ k < n ∧ (H k ∨ ∀ j < k, Start S j → j + w ≤ k)

variable {H H' S S' : ℕ → Prop} {w lo n n' : ℕ}

theorem Start.exists_last {k : ℕ} (hk : 0 < k) :
    ∃ j < k, Start S j ∧ ∀ j' < k, Start S j' → j' ≤ j := by
  classical
  have hle : (0 : ℕ) ≤ k - 1 := Nat.zero_le _
  have h0 : Start S 0 := .inl rfl
  refine ⟨Nat.findGreatest (Start S) (k - 1), ?_, Nat.findGreatest_spec hle h0, fun j' hlt hj' => ?_⟩
  · have := Nat.findGreatest_le (P := Start S) (k - 1)
    omega
  · exact Nat.le_findGreatest (by omega) hj'

namespace Chunked

theorem forced_iff (h : Chunked H w lo n S) (hw : 0 < w) (hlo : lo ≤ w) {k : ℕ} (hk : 0 < k) (hn : k < n) :
    (∀ j < k, Start S j → j + w ≤ k) ↔ ∃ j, Start S j ∧ j + w = k ∧ ∀ j' < k, Start S j' → j' ≤ j := by
  constructor
  · intro hall
    obtain ⟨j, hjk, hj, hmax⟩ := Start.exists_last (S := S) hk
    refine ⟨j, hj, ?_, hmax⟩
    rcases Nat.lt_or_eq_of_le (hall j hjk hj) with hlt | heq
    · -- the pass would have cut at `j + w`, which is past the last start
      have hcut : S (j + w) := by
        refine (h (j + w)).2 ⟨by omega, by omega, .inr fun j' hlt' hj' => ?_⟩
        have := hmax j' (by omega) hj'
        omega
      have := hmax (j + w) hlt (.inr hcut)
      omega
    · exact heq
  · rintro ⟨j, -, rfl, hmax⟩ j' hlt hj'
    have := hmax j' hlt hj'
    omega

theorem exists_near (h : Chunked H w lo n S) (hw : 0 < w) (hlo : lo ≤ w) {k : ℕ} (hk : 0 < k) (hn : k ≤ n) :
    ∃ j < k, Start S j ∧ k ≤ j + w := by
  obtain ⟨j, hjk, hj, hmax⟩ := Start.exists_last (S := S) hk
  refine ⟨j, hjk, hj, Nat.le_of_not_lt fun hlt => ?_⟩
  have hcut : S (j + w) := by
    refine (h (j + w)).2 ⟨by omega, by omega, .inr fun j' hlt' hj' => ?_⟩
    have := hmax j' (by omega) hj'
    omega
  have := hmax (j + w) hlt (.inr hcut)
  omega

/-- Below `a` the cuts depend on the hits below `a` only. -/
theorem below (h : Chunked H w lo n S) (h' : Chunked H' w lo n' S') {a : ℕ} (hn : a ≤ n) (hn' : a ≤ n')
    (hH : ∀ k < a, H k ↔ H' k) : ∀ k < a, S k ↔ S' k := by
  intro k
  induction k using Nat.strong_induction_on with
  | _ k ih =>
    intro hk
    have hall : (∀ j < k, Start S j → j + w ≤ k) ↔ ∀ j < k, Start S' j → j + w ≤ k :=
      forall₂_congr fun j hlt => imp_congr_left (or_congr_right (ih j hlt (Nat.lt_trans hlt hk)))
    have h1 : k < n ↔ k < n' := iff_of_true (by omega) (by omega)
    rw [h k, h' k, hH k hk, hall, h1]

/-- A cut of both passes at position `j` behind `m` and `m'` puts them in step. -/
theorem resync (h : Chunked H w lo n S) (h' : Chunked H' w lo n' S') {m m' j : ℕ} (hj : S (m + j)) (hj' : S' (m' + j))
    (hn : ∀ k, m + k < n ↔ m' + k < n') (hH : ∀ k, j ≤ k → (H (m + k) ↔ H' (m' + k))) :
    ∀ k, j ≤ k → (S (m + k) ↔ S' (m' + k)) := by
  -- behind the common cut only the starts from it on can be less than `w` away
  have hfree {S : ℕ → Prop} {m k : ℕ} (hS : S (m + j)) (hk : j < k) :
      (∀ i < m + k, Start S i → i + w ≤ m + k) ↔ ∀ i < k, j ≤ i → S (m + i) → i + w ≤ k := by
    constructor
    · intro hall i hi _ hSi
      have := hall (m + i) (by omega) (.inr hSi)
      omega
    · intro hall i hi hSi
      rcases Nat.lt_or_ge i (m + j) with hlt | hge
      · have := hall j hk (Nat.le_refl j) hS
        omega
      · obtain ⟨d, rfl⟩ : ∃ d, i = m + d := ⟨i - m, by omega⟩
        rcases hSi with h0 | hSi
        · have := hall j hk (Nat.le_refl j) hS
          omega
        · have := hall d (by omega) (by omega) hSi
          omega
  intro k
  induction k using Nat.strong_induction_on with
  | _ k ih =>
    intro hk
    rcases Nat.lt_or_eq_of_le hk with hlt | rfl
    · have hall : (∀ i < k, j ≤ i → S (m + i) → i + w ≤ k) ↔ ∀ i < k, j ≤ i → S' (m' + i) → i + w ≤ k :=
        forall₃_congr fun i hi hji => imp_congr_left (ih i hi hji)
      have hlo : lo ≤ m + k ↔ lo ≤ m' + k := by
        have h1 := ((h _).1 hj).1
        have h2 := ((h' _).1 hj').1
        exact iff_of_true (by omega) (by omega)
      rw [h (m + k), h' (m' + k), hfree hj hlt, hfree hj' hlt, hall, hH k hk, hn k, hlo]
    · exact iff_of_true hj hj'

end Chunked

end Chunking
