import Mathlib.Data.List.Basic
import Mathlib.Data.List.Sort

/-!
# Lists cut at positions

`cutAt l a bs` is `l` from position `a` on, cut at the positions `bs`, without an empty last piece.
`Cuts w n a bs` says that the positions go up from `a` to at most `n` in steps of at most `w`; the
pieces are then nonempty, at most `w` long, and make up the list again. What follows is about the
positions where the pieces start, about a list cut at one of its positions, and about prefixes of a
concatenation.
-/

namespace Cut
variable {α : Type*}

def cutAt (l : List α) : ℕ → List ℕ → List (List α)
  | a, [] => if a = l.length then [] else [l.drop a]
  | a, b :: bs => (l.drop a).take (b - a) :: cutAt l b bs

def Cuts (w n : ℕ) : ℕ → List ℕ → Prop
  | a, [] => a ≤ n ∧ n ≤ a + w
  | a, b :: bs => a < b ∧ b ≤ a + w ∧ Cuts w n b bs

variable {w n a : ℕ} {bs : List ℕ} {l : List α}

theorem Cuts.le (h : Cuts w n a bs) : a ≤ n := by
  induction bs generalizing a with
  | nil => exact h.1
  | cons b bs ih => exact Nat.le_trans (Nat.le_of_lt h.1) (ih h.2.2)

theorem flatten_cutAt (h : Cuts w l.length a bs) : (cutAt l a bs).flatten = l.drop a := by
  induction bs generalizing a with
  | nil =>
    by_cases ha : a = l.length
    · simp [cutAt, ha]
    · simp [cutAt, ha]
  | cons b bs ih =>
    have hab : l.drop b = (l.drop a).drop (b - a) := by rw [List.drop_drop, Nat.add_sub_cancel' (Nat.le_of_lt h.1)]
    rw [cutAt, List.flatten_cons, ih h.2.2, hab, List.take_append_drop]

theorem mem_cutAt (h : Cuts w l.length a bs) {x : List α} (hx : x ∈ cutAt l a bs) :
    0 < x.length ∧ x.length ≤ w := by
  induction bs generalizing a with
  | nil =>
    by_cases ha : a = l.length
    · simp [cutAt, ha] at hx
    · simp only [cutAt, ha, if_false, List.mem_singleton] at hx
      obtain ⟨h1, h2⟩ := h
      rw [hx, List.length_drop]
      omega
  | cons b bs ih =>
    obtain ⟨h1, h2, h3⟩ := h
    rcases List.mem_cons.1 hx with rfl | hx
    · have hb := h3.le
      rw [List.length_take, List.length_drop]
      omega
    · exact ih h3 hx

theorem length_cutAt_le (l : List α) (a : ℕ) (bs : List ℕ) : (cutAt l a bs).length ≤ bs.length + 1 := by
  induction bs generalizing a with
  | nil =>
    unfold cutAt
    split
    · exact Nat.zero_le _
    · exact Nat.le_refl _
  | cons b bs ih => exact Nat.succ_le_succ (ih b)

/-- The last piece is there if the last position is inside the list. -/
theorem length_cutAt (h : ∀ b ∈ a :: bs, b < l.length) : (cutAt l a bs).length = bs.length + 1 := by
  induction bs generalizing a with
  | nil => rw [cutAt, if_neg (Nat.ne_of_lt (h a List.mem_cons_self)), List.length_singleton, List.length_nil]
  | cons b bs ih => exact congrArg (· + 1) (ih fun b' hb' => h b' (List.mem_cons_of_mem a hb'))

/-! ### Where the pieces start -/

/-- The position in the concatenation where the `k`-th list starts. -/
def start (xs : List (List α)) (k : ℕ) : ℕ := (xs.take k).flatten.length

theorem start_succ {xs : List (List α)} {k : ℕ} {x : List α} (h : xs[k]? = some x) :
    start xs (k + 1) = start xs k + x.length := by
  simp [start, List.take_add_one, h]

theorem start_mono (xs : List (List α)) {i j : ℕ} (h : i ≤ j) : start xs i ≤ start xs j := by
  obtain ⟨ys, hys⟩ := List.take_prefix_take_left (l := xs) h
  rw [start, start, ← hys, List.flatten_append, List.length_append]
  exact Nat.le_add_right ..

theorem start_le_length (xs : List (List α)) (k : ℕ) : start xs k ≤ xs.flatten.length := by
  conv_rhs => rw [← List.take_append_drop k xs, List.flatten_append, List.length_append]
  exact Nat.le_add_right ..

theorem start_cons (x : List α) (xs : List (List α)) (k : ℕ) : start (x :: xs) (k + 1) = x.length + start xs k := by
  rw [start, List.take_succ_cons, List.flatten_cons, List.length_append, start]

/-- The pieces but the first start at the cuts. -/
theorem exists_start_cutAt (h : Cuts w l.length a bs) (hb : ∀ b ∈ bs, b < l.length) (i : ℕ) :
    (∃ k, 0 < k ∧ k < (cutAt l a bs).length ∧ a + start (cutAt l a bs) k = i) ↔ i ∈ bs := by
  induction bs generalizing a with
  | nil =>
    have hlen := length_cutAt_le l a []
    refine ⟨fun ⟨k, h0, hk, _⟩ => ?_, fun hi => absurd hi List.not_mem_nil⟩
    rw [List.length_nil] at hlen
    omega
  | cons b bs ih =>
    obtain ⟨h1, h2, h3⟩ := h
    have hbl := hb b List.mem_cons_self
    have hx : ((l.drop a).take (b - a)).length = b - a := by rw [List.length_take, List.length_drop]; omega
    have hne : 0 < (cutAt l b bs).length := by
      refine List.length_pos_of_ne_nil fun hnil => ?_
      have hf := flatten_cutAt h3
      rw [hnil, List.flatten_nil, eq_comm, List.drop_eq_nil_iff] at hf
      omega
    have hstart (k : ℕ) :
        a + start ((l.drop a).take (b - a) :: cutAt l b bs) (k + 1) = b + start (cutAt l b bs) k := by
      rw [start_cons, hx, ← Nat.add_assoc, Nat.add_sub_cancel' (Nat.le_of_lt h1)]
    rw [List.mem_cons, ← ih h3 fun b' hb' => hb b' (List.mem_cons_of_mem _ hb'), cutAt]
    constructor
    · rintro ⟨k | k, h0, hk, rfl⟩
      · exact absurd h0 (Nat.lt_irrefl 0)
      · rw [hstart]
        rcases Nat.eq_zero_or_pos k with rfl | hk0
        · exact .inl rfl
        · exact .inr ⟨k, hk0, Nat.lt_of_succ_lt_succ hk, rfl⟩
    · rintro (rfl | ⟨k, h0, hk, rfl⟩)
      · exact ⟨1, Nat.one_pos, Nat.succ_lt_succ hne, hstart 0⟩
      · exact ⟨k + 1, Nat.succ_pos k, Nat.succ_lt_succ hk, hstart k⟩

/-! ### Cut at one of the positions -/

section
variable {c : ℕ} {cs : List ℕ}

theorem Cuts.right (h : Cuts w n a (bs ++ c :: cs)) : Cuts w n c cs := by
  induction bs generalizing a with
  | nil => exact h.2.2
  | cons b bs ih => exact ih h.2.2

theorem Cuts.left (h : Cuts w n a (bs ++ c :: cs)) : Cuts w c a bs := by
  induction bs generalizing a with
  | nil => exact ⟨Nat.le_of_lt h.1, h.2.1⟩
  | cons b bs ih => exact ⟨h.1, h.2.1, ih h.2.2⟩

theorem Cuts.pairwise (h : Cuts w n a bs) : (a :: bs).Pairwise (· < ·) := by
  induction bs generalizing a with
  | nil => exact List.pairwise_singleton _ _
  | cons b bs ih =>
    have hp := ih h.2.2
    refine List.pairwise_cons.2 ⟨fun x hx => ?_, hp⟩
    rcases List.mem_cons.1 hx with rfl | hx
    · exact h.1
    · exact Nat.lt_trans h.1 (List.rel_of_pairwise_cons hp hx)

theorem Cuts.mem_left (h : Cuts w n a (bs ++ c :: cs)) (x : ℕ) : x ∈ bs ↔ x ∈ bs ++ c :: cs ∧ x < c := by
  have hp := h.pairwise.of_cons
  have hl : ∀ y ∈ bs, y < c := fun y hy => (List.pairwise_append.1 hp).2.2 y hy c List.mem_cons_self
  have hr : ∀ y ∈ cs, c < y := fun y hy => List.rel_of_pairwise_cons (List.pairwise_append.1 hp).2.1 hy
  refine ⟨fun hx => ⟨List.mem_append_left _ hx, hl x hx⟩, fun ⟨hx, hlt⟩ => ?_⟩
  rcases List.mem_append.1 hx with hx | hx
  · exact hx
  · rcases List.mem_cons.1 hx with rfl | hx
    · exact absurd hlt (Nat.lt_irrefl x)
    · exact absurd (hr x hx) (Nat.lt_asymm hlt)

theorem Cuts.mem_right (h : Cuts w n a (bs ++ c :: cs)) (x : ℕ) : x ∈ cs ↔ x ∈ bs ++ c :: cs ∧ c < x := by
  have hp := h.pairwise.of_cons
  have hr : ∀ y ∈ cs, c < y := fun y hy => List.rel_of_pairwise_cons (List.pairwise_append.1 hp).2.1 hy
  refine ⟨fun hx => ⟨List.mem_append_right _ (List.mem_cons_of_mem c hx), hr x hx⟩, fun ⟨hx, hlt⟩ => ?_⟩
  rcases List.mem_append.1 hx with hx | hx
  · exact absurd hlt (Nat.lt_asymm ((h.mem_left x).1 hx).2)
  · rcases List.mem_cons.1 hx with rfl | hx
    · exact absurd hlt (Nat.lt_irrefl x)
    · exact hx

/-- Two lists of positions, with the same ones behind `m + j` and behind `m' + j` seen from `m` and from `m'`. -/
theorem Cuts.exists_offsets {w' n' a' m m' j : ℕ} {bs' cs' : List ℕ} (h : Cuts w n a (bs ++ (m + j) :: cs))
    (h' : Cuts w' n' a' (bs' ++ (m' + j) :: cs'))
    (hcut : ∀ k, j ≤ k → (m + k ∈ bs ++ (m + j) :: cs ↔ m' + k ∈ bs' ++ (m' + j) :: cs')) :
    ∃ ks : List ℕ, ks.map (m + ·) = cs ∧ ks.map (m' + ·) = cs' := by
  have hshift : ∀ i ∈ cs, m + (i - m) = i := by
    intro i hi
    have := ((h.mem_right i).1 hi).2
    omega
  have hlt : ((cs.map (· - m)).map (m' + ·)).Pairwise (· < ·) := by
    rw [List.map_map, List.pairwise_map]
    refine h.right.pairwise.of_cons.imp_of_mem fun {x y} hx hy hxy => ?_
    have := hshift x hx
    have := hshift y hy
    show m' + (x - m) < m' + (y - m)
    omega
  refine ⟨cs.map (· - m), ?_, hlt.eq_of_mem_iff h'.right.pairwise.of_cons fun i => ?_⟩
  · rw [List.map_map]
    exact (List.map_congr_left hshift).trans (List.map_id cs)
  rw [h'.mem_right, List.map_map, List.mem_map]
  constructor
  · rintro ⟨x, hx, rfl⟩
    have hx' := (h.mem_right x).1 hx
    have he := hshift x hx
    rw [← he] at hx'
    exact ⟨(hcut (x - m) (by omega)).1 hx'.1, by show m' + j < m' + (x - m); omega⟩
  · rintro ⟨hi, hlt⟩
    obtain ⟨k, rfl⟩ : ∃ k, i = m' + k := ⟨i - m', by omega⟩
    refine ⟨m + k, (h.mem_right _).2 ⟨(hcut k (by omega)).2 hi, by omega⟩, ?_⟩
    show m' + (m + k - m) = m' + k
    omega

theorem cutAt_append (h : Cuts w n a (bs ++ c :: cs)) (hc : c ≤ l.length) :
    cutAt l a (bs ++ c :: cs) = cutAt (l.take c) a bs ++ cutAt l c cs := by
  have hlen : (l.take c).length = c := List.length_take_of_le hc
  induction bs generalizing a with
  | nil =>
    have hne : a ≠ (l.take c).length := by rw [hlen]; exact Nat.ne_of_lt h.1
    rw [List.nil_append, cutAt, cutAt, if_neg hne, List.drop_take]
    rfl
  | cons b bs ih =>
    have hbc : b ≤ c := h.2.2.left.le
    have htake : ((l.take c).drop a).take (b - a) = (l.drop a).take (b - a) := by
      rw [List.drop_take, List.take_take, Nat.min_eq_left (by omega)]
    rw [List.cons_append, cutAt, cutAt, ih h.2.2, htake]
    rfl

/-- Cutting what is behind position `m`. -/
theorem cutAt_drop (l : List α) {m : ℕ} (hm : m ≤ l.length) (a : ℕ) (bs : List ℕ) :
    cutAt l (m + a) (bs.map (m + ·)) = cutAt (l.drop m) a bs := by
  induction bs generalizing a with
  | nil =>
    have hiff : m + a = l.length ↔ a = (l.drop m).length := by rw [List.length_drop]; omega
    simp only [List.map_nil, cutAt, hiff, List.drop_drop]
  | cons b bs ih =>
    rw [List.map_cons, cutAt, cutAt, ih, List.drop_drop, Nat.add_sub_add_left]

end

/-! ### Prefixes of a concatenation -/

/-- How many of the lists lie within the first `n` elements of their concatenation. -/
def wholeIn : List (List α) → ℕ → ℕ
  | [], _ => 0
  | x :: xs, n => if x.length ≤ n then wholeIn xs (n - x.length) + 1 else 0

theorem wholeIn_le (xs : List (List α)) (n : ℕ) : wholeIn xs n ≤ xs.length := by
  fun_induction wholeIn xs n with
  | case1 => exact Nat.le_refl _
  | case2 n x xs h ih => exact Nat.succ_le_succ ih
  | case3 => exact Nat.zero_le _

theorem wholeIn_append (xs ys : List (List α)) (n : ℕ) :
    wholeIn xs n = min (wholeIn (xs ++ ys) n) xs.length := by
  induction xs generalizing n with
  | nil => simp [wholeIn]
  | cons x xs ih =>
    simp only [List.cons_append, wholeIn, List.length_cons]
    split
    · rw [ih, Nat.succ_min_succ]
    · exact (Nat.zero_min _).symm

/-- A prefix of a concatenation is the lists that lie within it and a proper part of the next one. -/
theorem prefix_flatten {xs : List (List α)} {q : List α} (h : q <+: xs.flatten) :
    ∃ r, q = (xs.take (wholeIn xs q.length)).flatten ++ r ∧
      ((wholeIn xs q.length = xs.length ∧ r = []) ∨
        ∃ x, xs[wholeIn xs q.length]? = some x ∧ r <+: x ∧ r.length < x.length) := by
  induction xs generalizing q with
  | nil => exact ⟨[], by simpa using h, .inl ⟨rfl, rfl⟩⟩
  | cons x xs ih =>
    by_cases hx : x.length ≤ q.length
    · obtain ⟨q', rfl⟩ := List.prefix_of_prefix_length_le (List.prefix_append x xs.flatten) h hx
      obtain ⟨r, h1, h2⟩ := ih ((List.prefix_append_right_inj x).1 h)
      have hw : wholeIn (x :: xs) (x ++ q').length = wholeIn xs q'.length + 1 := by
        simp [wholeIn]
      refine ⟨r, ?_, ?_⟩
      · rw [hw, List.take_succ_cons, List.flatten_cons, List.append_assoc, ← h1]
      · rw [hw, List.length_cons, List.getElem?_cons_succ]
        rcases h2 with ⟨h2, h3⟩ | h2
        · exact .inl ⟨by rw [h2], h3⟩
        · exact .inr h2
    · have hw : wholeIn (x :: xs) q.length = 0 := by simp [wholeIn, hx]
      refine ⟨q, by simp [hw], .inr ⟨x, by simp [hw], ?_, by omega⟩⟩
      exact List.prefix_of_prefix_length_le h (List.prefix_append x xs.flatten) (by omega)

theorem flatten_take_eq_iff {xs : List (List α)} (h : ∀ x ∈ xs, 0 < x.length) {k : ℕ} (hk : k ≤ xs.length) :
    (xs.take k).flatten = xs.flatten ↔ k = xs.length := by
  constructor
  · intro he
    have hsplit : (xs.take k).flatten ++ (xs.drop k).flatten = xs.flatten := by
      rw [← List.flatten_append, List.take_append_drop]
    rw [he] at hsplit
    have hnil : (xs.drop k).flatten = [] := List.append_right_eq_self.1 hsplit
    rcases Nat.lt_or_eq_of_le hk with hlt | heq
    · have hmem : xs[k] ∈ xs.drop k := by
        rw [List.drop_eq_getElem_cons hlt]; exact List.mem_cons_self
      have := h _ (List.mem_of_mem_drop hmem)
      rw [List.flatten_eq_nil_iff.1 hnil _ hmem] at this
      exact absurd this (Nat.lt_irrefl 0)
    · exact heq
  · rintro rfl
    rw [List.take_length]

end Cut
