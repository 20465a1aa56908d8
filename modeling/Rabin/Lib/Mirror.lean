import Mathlib.Data.List.Induction
import Mathlib.Logic.Function.Basic

/-!
# Caches that learn values by key

A cache holds one value per key, the last one it has learnt. A sender that keeps such a cache of what
it has sent replaces a value by its key on a `hit`; a receiver that has learnt the same values can
undo this. What a cache holds after a run only depends on the last value under each key
(`learnAll_apply`).
-/

namespace Mirror
variable {κ ν : Type*} {key : ν → κ}

abbrev Cache (κ ν : Type*) := κ → Option ν

section Learn
variable [DecidableEq κ] {c : Cache κ ν} {v : ν} {k : κ}

variable (key) in
/-- Hold `v`, in place of any value with the same key. -/
def learn (c : Cache κ ν) (v : ν) : Cache κ ν := Function.update c (key v) (some v)

variable (key) in
def learnAll (c : Cache κ ν) (vs : List ν) : Cache κ ν := vs.foldl (learn key) c

@[simp] theorem learn_self : learn key c v (key v) = some v := Function.update_self ..

theorem learn_of_ne (h : k ≠ key v) : learn key c v k = c k := Function.update_of_ne h ..

theorem learn_eq_some {w : ν} (h : learn key c v k = some w) : (k = key v ∧ w = v) ∨ c k = some w := by
  by_cases hk : k = key v
  · subst hk
    rw [learn_self] at h
    exact .inl ⟨rfl, (Option.some.inj h).symm⟩
  · rw [learn_of_ne hk] at h
    exact .inr h

@[simp] theorem learnAll_cons (vs : List ν) : learnAll key c (v :: vs) = learnAll key (learn key c v) vs := rfl

theorem learnAll_append (vs ws : List ν) : learnAll key c (vs ++ ws) = learnAll key (learnAll key c vs) ws :=
  List.foldl_append ..

theorem learnAll_concat (vs : List ν) (w : ν) : learnAll key c (vs ++ [w]) = learn key (learnAll key c vs) w :=
  List.foldl_append ..

variable (key) in
/-- The last of `vs` under the key `k`. -/
def lastWith (k : κ) (vs : List ν) : Option ν := (vs.filter (key · = k)).getLast?

theorem lastWith_concat (vs : List ν) (w : ν) :
    lastWith key k (vs ++ [w]) = if key w = k then some w else lastWith key k vs := by
  by_cases h : key w = k <;> simp [lastWith, h]

theorem learnAll_apply (vs : List ν) : learnAll key c vs k = (lastWith key k vs).or (c k) := by
  induction vs using List.reverseRecOn with
  | nil => rfl
  | append_singleton vs w ih =>
    rw [learnAll_concat, lastWith_concat]
    by_cases h : key w = k
    · subst h; simp
    · rw [if_neg h, learn_of_ne (Ne.symm h), ih]

theorem lastWith_eq_none {vs : List ν} (h : ∀ w ∈ vs, key w ≠ k) : lastWith key k vs = none := by
  simp only [lastWith, List.getLast?_eq_none_iff, List.filter_eq_nil_iff, decide_eq_true_eq]
  exact h

theorem lastWith_eq_some {vs : List ν} {w : ν} (h : lastWith key k vs = some w) :
    ∃ us ws, vs = us ++ w :: ws ∧ key w = k ∧ ∀ v ∈ ws, key v ≠ k := by
  induction vs using List.reverseRecOn with
  | nil => cases h
  | append_singleton vs v ih =>
    rw [lastWith_concat] at h
    split at h
    · rename_i hk
      cases h
      exact ⟨vs, [], rfl, hk, fun v hv => nomatch hv⟩
    · rename_i hk
      rcases ih h with ⟨us, ws, rfl, hw, hws⟩
      refine ⟨us, ws ++ [v], by rw [List.append_assoc]; rfl, hw, ?_⟩
      intro v' hv'
      rcases List.mem_append.1 hv' with hv' | hv'
      · exact hws v' hv'
      · rwa [List.mem_singleton.1 hv']

theorem lastWith_eq_some_iff {vs : List ν} {w : ν} :
    lastWith key k vs = some w ↔ ∃ us ws, vs = us ++ w :: ws ∧ key w = k ∧ ∀ v ∈ ws, key v ≠ k := by
  refine ⟨lastWith_eq_some, ?_⟩
  rintro ⟨us, ws, rfl, hw, hws⟩
  have hnil : ws.filter (key · = k) = [] := by simpa [List.filter_eq_nil_iff] using hws
  simp [lastWith, hw, hnil]

end Learn

section Hit
variable [DecidableEq ν] {c r : Cache κ ν} {v : ν}

variable (key) in
def hit (c : Cache κ ν) (v : ν) : Bool := decide (c (key v) = some v)

theorem hit_iff : hit key c v = true ↔ c (key v) = some v := decide_eq_true_iff

theorem learn_of_hit [DecidableEq κ] (h : hit key c v = true) : learn key c v = c := by
  funext k
  by_cases hk : k = key v
  · rw [hk, learn_self, hit_iff.1 h]
  · exact learn_of_ne hk

/-- After a run its values are all held if and only if no two of them share a key. -/
theorem hit_learnAll_iff [DecidableEq κ] (vs : List ν) :
    (∀ v ∈ vs, hit key (learnAll key c vs) v = true) ↔ ∀ v ∈ vs, ∀ w ∈ vs, key v = key w → v = w := by
  simp only [hit_iff]
  constructor
  · intro h v hv w hw hk
    have hvw := h v hv
    rw [hk, h w hw, Option.some.injEq] at hvw
    exact hvw.symm
  · intro h v hv
    rw [learnAll_apply]
    cases hl : lastWith key (key v) vs with
    | none =>
      have hno : ∀ w ∈ vs, key w ≠ key v := by simpa [lastWith, List.filter_eq_nil_iff] using hl
      exact absurd rfl (hno v hv)
    | some w =>
      obtain ⟨us, ws, rfl, hw, -⟩ := lastWith_eq_some hl
      rw [h v hv w (by simp) hw.symm]
      rfl

end Hit

/-! ### A sender and a receiver -/

section Decodable
variable [DecidableEq κ] [DecidableEq ν] {c r : Cache κ ν}

variable (key) in
/-- A receiver with the cache `r` can undo every hit of a sender with the cache `c` that sends `vs`. -/
def Decodable : Cache κ ν → Cache κ ν → List ν → Prop
  | _, _, [] => True
  | c, r, v :: vs => (hit key c v = true → hit key r v = true) ∧ Decodable (learn key c v) (learn key r v) vs

theorem decodable_self (vs : List ν) : Decodable key c c vs := by
  induction vs generalizing c with
  | nil => trivial
  | cons v vs ih => exact ⟨id, ih⟩

theorem decodable_append {vs ws : List ν} :
    Decodable key c r (vs ++ ws) ↔
      Decodable key c r vs ∧ Decodable key (learnAll key c vs) (learnAll key r vs) ws := by
  induction vs generalizing c r with
  | nil => exact ⟨fun h => ⟨trivial, h⟩, fun h => h.2⟩
  | cons v vs ih =>
    simp only [List.cons_append, Decodable, ih, learnAll_cons, and_assoc]

/-- From the empty cache: no value that is the first of its key may be a hit. -/
theorem decodable_empty_iff {vs : List ν} :
    Decodable key c (fun _ => none) vs ↔
      ∀ us v ws, vs = us ++ v :: ws → (∀ u ∈ us, key u ≠ key v) → c (key v) ≠ some v := by
  constructor
  · rintro h us v ws rfl hus hc
    obtain ⟨hv, -⟩ := (decodable_append.1 h).2
    have hr : learnAll key (fun _ => none) us (key v) = none := by
      rw [learnAll_apply, lastWith_eq_none hus]; rfl
    have hcv : learnAll key c us (key v) = some v := by
      rw [learnAll_apply, lastWith_eq_none hus, hc]; rfl
    have := hit_iff.1 (hv (hit_iff.2 hcv))
    rw [hr] at this
    cases this
  · intro h
    induction vs using List.reverseRecOn with
    | nil => trivial
    | append_singleton vs v ih =>
      refine decodable_append.2 ⟨ih fun us w ws hvs => h us w (ws ++ [v]) (by simp [hvs]), fun hv => ?_, trivial⟩
      rw [hit_iff, learnAll_apply] at hv ⊢
      cases hl : lastWith key (key v) vs with
      | some w => rw [hl] at hv; exact hv
      | none =>
        have hno : ∀ u ∈ vs, key u ≠ key v := by
          simpa [lastWith, List.filter_eq_nil_iff] using hl
        rw [hl] at hv
        exact absurd hv (h vs v [] rfl hno)

end Decodable

/-- Every value is held under its own key. -/
def Keyed (key : ν → κ) (c : Cache κ ν) : Prop := ∀ k w, c k = some w → key w = k

theorem Keyed.learn [DecidableEq κ] {c : Cache κ ν} (h : Keyed key c) (v : ν) : Keyed key (learn key c v) := by
  intro k w hw
  rcases learn_eq_some hw with ⟨rfl, rfl⟩ | hw
  · rfl
  · exact h k w hw

end Mirror
