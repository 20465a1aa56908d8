import Mathlib.Algebra.Order.BigOperators.Group.Finset
import Mathlib.Algebra.Ring.Nat
import Mathlib.Data.List.Dedup
import Rabin.Lib.Mirror

/-!
# What a sender that keeps a cache has to send

`misses key c vs` are the values of `vs` that a sender with the cache `c` sends in full. From the empty cache every
value is sent in full at least once, and none of them twice exactly if no value loses its place in the cache
before it comes again (`nodup_misses_iff`). With a weight on the values this bounds the traffic from below
(`sum_le_misses`, `sum_eq_misses_iff`).
-/

namespace Mirror
variable {κ ν : Type*} {key : ν → κ} [DecidableEq κ] [DecidableEq ν] {c : Cache κ ν}

variable (key) in
def misses : Cache κ ν → List ν → List ν
  | _, [] => []
  | c, v :: vs => if hit key c v then misses (learn key c v) vs else v :: misses (learn key c v) vs

variable (key) in
/-- Between two occurrences of a value there is no other value with its key. -/
def Kept (vs : List ν) : Prop :=
  ∀ us v ms ws, vs = us ++ v :: (ms ++ v :: ws) → ∀ w ∈ ms, key w = key v → w = v

theorem misses_append (us vs : List ν) :
    misses key c (us ++ vs) = misses key c us ++ misses key (learnAll key c us) vs := by
  induction us generalizing c with
  | nil => rfl
  | cons u us ih =>
    rw [List.cons_append, misses, misses, ih, learnAll_cons]
    split <;> rfl

theorem misses_sublist (vs : List ν) : (misses key c vs).Sublist vs := by
  induction vs generalizing c with
  | nil => exact List.Sublist.slnil
  | cons v vs ih =>
    rw [misses]
    split
    · exact ih.cons v
    · exact ih.cons_cons v

theorem misses_eq_nil {vs : List ν} (h : ∀ v ∈ vs, hit key c v = true) :
    misses key c vs = [] ∧ learnAll key c vs = c := by
  induction vs with
  | nil => exact ⟨rfl, rfl⟩
  | cons v vs ih =>
    obtain ⟨hv, hvs⟩ := List.forall_mem_cons.1 h
    rw [misses, learnAll_cons, if_pos hv, learn_of_hit hv]
    exact ih hvs

/-- A value that is held stays, unless another value takes its place. -/
theorem hit_learnAll {v : ν} (h : hit key c v = true) {vs : List ν} (hvs : ∀ w ∈ vs, key w = key v → w = v) :
    hit key (learnAll key c vs) v = true := by
  rw [hit_iff] at h ⊢
  rw [learnAll_apply]
  cases hl : lastWith key (key v) vs with
  | none => exact h
  | some w =>
    obtain ⟨us, ws, rfl, hw, -⟩ := lastWith_eq_some hl
    rw [hvs w (by simp) hw]
    rfl

/-! ### From the empty cache -/

section Empty

variable (key) in
/-- Learnt from nothing. -/
def learnt (vs : List ν) : Cache κ ν := learnAll key (fun _ => none) vs

omit [DecidableEq ν] in
theorem learnt_apply (vs : List ν) (k : κ) : learnt key vs k = lastWith key k vs := by
  rw [learnt, learnAll_apply, Option.or_none]

theorem misses_concat (vs : List ν) (v : ν) :
    misses key (fun _ => none) (vs ++ [v]) =
      misses key (fun _ => none) vs ++ if hit key (learnt key vs) v then [] else [v] := by
  rw [misses_append]
  rfl

theorem mem_of_hit_learnt {vs : List ν} {v : ν} (h : hit key (learnt key vs) v = true) : v ∈ vs := by
  rw [hit_iff, learnt_apply] at h
  obtain ⟨us, ws, rfl, -, -⟩ := lastWith_eq_some h
  exact List.mem_append_right us List.mem_cons_self

/-- Every value is sent in full at least once. -/
theorem mem_misses {vs : List ν} {v : ν} : v ∈ misses key (fun _ => none) vs ↔ v ∈ vs := by
  refine ⟨fun h => (misses_sublist vs).subset h, fun h => ?_⟩
  induction vs using List.reverseRecOn with
  | nil => exact h
  | append_singleton vs w ih =>
    rw [misses_concat, List.mem_append]
    rcases List.mem_append.1 h with h | h
    · exact .inl (ih h)
    · obtain rfl := List.mem_singleton.1 h
      by_cases hw : hit key (learnt key vs) v = true
      · exact .inl (ih (mem_of_hit_learnt hw))
      · rw [if_neg hw]
        exact .inr h

theorem kept_concat {vs : List ν} {v : ν} :
    Kept key (vs ++ [v]) ↔ Kept key vs ∧ (v ∈ vs → hit key (learnt key vs) v = true) := by
  constructor
  · refine fun h => ⟨fun us w ms ws hvs => h us w ms (ws ++ [v]) (by rw [hvs]; simp), fun hv => ?_⟩
    obtain ⟨us, ws, rfl⟩ := List.append_of_mem hv
    have hws : ∀ w ∈ ws, key w = key v → w = v := h us v ws [] (by simp)
    rw [learnt, learnAll_append, learnAll_cons]
    exact hit_learnAll (hit_iff.2 learn_self) hws
  · rintro ⟨hkept, hv⟩ us u ms ws hvs w hw hk
    rcases List.eq_nil_or_concat ws with rfl | ⟨ws, x, rfl⟩
    · have hvs' : vs ++ [v] = (us ++ u :: ms) ++ [u] := by rw [hvs]; simp
      obtain ⟨rfl, hu⟩ := List.append_inj' hvs' rfl
      obtain rfl : v = u := List.singleton_inj.1 hu
      have hheld := hv (by simp)
      rw [hit_iff, learnt_apply] at hheld
      obtain ⟨us', ws', heq, -, hws'⟩ := lastWith_eq_some hheld
      -- the last value with the key is `v`: `w` is not behind it, so it is between two occurrences
      rcases List.append_eq_append_iff.1 heq with ⟨as, -, hm⟩ | ⟨as, -, hm⟩
      · cases as with
        | nil =>
          obtain ⟨-, rfl⟩ := List.cons_eq_cons.1 hm
          exact absurd hk (hws' w hw)
        | cons a as =>
          obtain ⟨-, rfl⟩ := List.cons_eq_cons.1 hm
          rcases List.mem_append.1 hw with hw | hw
          · exact hkept us v as ws' rfl w hw hk
          · rcases List.mem_cons.1 hw with rfl | hw
            · rfl
            · exact absurd hk (hws' w hw)
      · cases as with
        | nil =>
          obtain ⟨-, rfl⟩ := List.cons_eq_cons.1 hm
          exact absurd hk (hws' w hw)
        | cons a as =>
          obtain ⟨-, rfl⟩ := List.cons_eq_cons.1 hm
          exact absurd rfl (hws' v (by simp))
    · have hvs' : vs ++ [v] = (us ++ u :: (ms ++ u :: ws)) ++ [x] := by rw [hvs]; simp
      exact hkept us u ms ws (List.append_inj' hvs' rfl).1 w hw hk

theorem nodup_misses_iff (vs : List ν) : (misses key (fun _ => none) vs).Nodup ↔ Kept key vs := by
  induction vs using List.reverseRecOn with
  | nil => simp [misses, Kept]
  | append_singleton vs v ih =>
    rw [misses_concat, kept_concat, List.nodup_append', ih]
    refine and_congr_right fun _ => ?_
    by_cases hv : hit key (learnt key vs) v = true
    · simp [hv]
    · simp [hv, mem_misses]

variable (f : ν → ℕ)

theorem sum_misses (vs : List ν) :
    ((misses key (fun _ => none) vs).map f).sum =
      ∑ v ∈ vs.toFinset, (misses key (fun _ => none) vs).count v * f v := by
  have hset : (misses key (fun _ => none) vs).toFinset = vs.toFinset := by
    ext v
    rw [List.mem_toFinset, List.mem_toFinset, mem_misses]
  rw [Finset.sum_list_map_count, hset]
  rfl

/-- Each value counts at least once. -/
theorem sum_le_misses (vs : List ν) :
    ∑ v ∈ vs.toFinset, f v ≤ ((misses key (fun _ => none) vs).map f).sum := by
  rw [sum_misses]
  refine Finset.sum_le_sum fun v hv => Nat.le_mul_of_pos_left _ ?_
  rw [List.count_pos_iff, mem_misses]
  exact List.mem_toFinset.1 hv

theorem sum_eq_misses_iff {vs : List ν} (hf : ∀ v ∈ vs, 0 < f v) :
    ((misses key (fun _ => none) vs).map f).sum = ∑ v ∈ vs.toFinset, f v ↔ Kept key vs := by
  have hpos : ∀ v ∈ vs.toFinset, 0 < (misses key (fun _ => none) vs).count v := fun v hv => by
    rw [List.count_pos_iff, mem_misses]
    exact List.mem_toFinset.1 hv
  rw [sum_misses, eq_comm, Finset.sum_eq_sum_iff_of_le fun v hv => Nat.le_mul_of_pos_left _ (hpos v hv),
    ← nodup_misses_iff, List.nodup_iff_count_le_one]
  constructor
  · intro h v
    by_cases hv : v ∈ vs
    · have hone := h v (List.mem_toFinset.2 hv)
      have := hf v hv
      exact Nat.le_of_mul_le_mul_right (by omega) this
    · rw [List.count_eq_zero_of_not_mem (mt mem_misses.1 hv)]
      exact Nat.zero_le 1
  · intro h v hv
    have := hpos v hv
    rw [show (misses key (fun _ => none) vs).count v = 1 by have := h v; omega, Nat.one_mul]

end Empty

end Mirror
