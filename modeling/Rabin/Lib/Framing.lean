import Rabin.Lib.Reads

/-!
# Failing reads and frames

A stream of frames may be interrupted by failing reads. A reader that drops what it has of a frame when
a read fails takes every frame if and only if no read fails inside one (`failsBetween_of_pieces`,
`frame_of_failsBetween`).
-/

namespace Reads
variable {α : Type*} {f : List α} {fs : List (List α)} {ts : List (Option α)}

/-- Reads only fail between two frames, before the first or after the last. -/
def FailsBetween (fs : List (List α)) (ts : List (Option α)) : Prop :=
  ∀ pre post, ts = pre ++ none :: post → ∃ k, pre.filterMap id = (fs.take k).flatten

theorem filterMap_map_some (bs : List α) : (bs.map some).filterMap id = bs := by
  rw [List.filterMap_map]
  exact List.filterMap_some

theorem filterMap_map_some_append (bs : List α) (ts : List (Option α)) :
    (bs.map some ++ ts).filterMap id = bs ++ ts.filterMap id := by
  rw [List.filterMap_append, filterMap_map_some]

/-- Where a failing read can be in a stream that starts with the elements `bs`. -/
theorem map_some_append_eq {bs : List α} {pre post : List (Option α)} (h : bs.map some ++ ts = pre ++ none :: post) :
    ∃ pre', pre = bs.map some ++ pre' ∧ ts = pre' ++ none :: post := by
  rcases List.append_eq_append_iff.1 h with ⟨a, rfl, ha⟩ | ⟨a, hbs, ha⟩
  · exact ⟨a, rfl, ha⟩
  · cases a with
    | nil => exact ⟨[], by rw [List.append_nil] at hbs ⊢; exact hbs.symm, ha.symm⟩
    | cons x a =>
      rw [List.cons_append, List.cons.injEq] at ha
      have hmem : none ∈ bs.map some := by rw [hbs, ← ha.1]; simp
      rcases List.mem_map.1 hmem with ⟨b, -, hb⟩
      cases hb

theorem failsBetween_none : FailsBetween fs (none :: ts) ↔ FailsBetween fs ts := by
  constructor
  · intro h pre post heq
    exact h (none :: pre) post (by rw [heq]; rfl)
  · intro h pre post heq
    cases pre with
    | nil => exact ⟨0, rfl⟩
    | cons x pre =>
      rw [List.cons_append, List.cons.injEq] at heq
      rw [← heq.1]
      exact h pre post heq.2

theorem failsBetween_frame (hf : f ≠ []) : FailsBetween (f :: fs) (f.map some ++ ts) ↔ FailsBetween fs ts := by
  constructor
  · intro h pre post heq
    obtain ⟨k, hk⟩ := h (f.map some ++ pre) post (by rw [heq, List.append_assoc])
    rw [filterMap_map_some_append] at hk
    cases k with
    | zero =>
      rw [List.take_zero, List.flatten_nil, List.append_eq_nil_iff] at hk
      exact absurd hk.1 hf
    | succ k =>
      rw [List.take_succ_cons, List.flatten_cons, List.append_cancel_left_eq] at hk
      exact ⟨k, hk⟩
  · intro h pre post heq
    rcases map_some_append_eq heq with ⟨pre', rfl, hts⟩
    obtain ⟨k, hk⟩ := h pre' post hts
    refine ⟨k + 1, ?_⟩
    rw [filterMap_map_some_append, List.take_succ_cons, List.flatten_cons, hk]

theorem exists_run (ts : List (Option α)) :
    ∃ (bs : List α) (rest : List (Option α)), ts = bs.map some ++ rest ∧
      (rest = [] ∨ ∃ post, rest = none :: post) := by
  induction ts with
  | nil => exact ⟨[], [], rfl, .inl rfl⟩
  | cons t ts ih =>
    cases t with
    | none => exact ⟨[], none :: ts, rfl, .inr ⟨ts, rfl⟩⟩
    | some b =>
      rcases ih with ⟨bs, rest, rfl, hrest⟩
      exact ⟨b :: bs, rest, rfl, hrest⟩

/-- If the next read does not fail, the whole next frame is there. -/
theorem frame_of_failsBetween {b : α} (h : FailsBetween (f :: fs) (some b :: ts))
    (hts : (some b :: ts).filterMap id = (f :: fs).flatten) : ∃ ts', some b :: ts = f.map some ++ ts' := by
  obtain ⟨bs, rest, heq, hrest⟩ := exists_run (some b :: ts)
  have hbs : bs ≠ [] := by
    rintro rfl
    rcases hrest with rfl | ⟨post, rfl⟩
    · cases heq
    · cases heq
  rw [heq, filterMap_map_some_append, List.flatten_cons] at hts
  -- the run goes to the end of the frame
  have hpre : f <+: bs := by
    rcases hrest with rfl | ⟨post, rfl⟩
    · rw [List.filterMap_nil, List.append_nil] at hts
      rw [hts]
      exact List.prefix_append ..
    · obtain ⟨k, hk⟩ := h (bs.map some) post heq
      rw [filterMap_map_some] at hk
      cases k with
      | zero => exact absurd hk hbs
      | succ k =>
        rw [hk]
        exact List.prefix_append ..
  rcases hpre with ⟨more, rfl⟩
  exact ⟨more.map some ++ rest, by rw [heq, List.map_append, List.append_assoc]⟩

/-- What a reader makes of the stream: pieces it takes whole, pieces it drops at a failing read, and what
it leaves. -/
inductive Pieces : List (Option α) → List (List α) → Prop
  | rest (ts' : List (Option α)) : Pieces ts' []
  | whole (bs : List α) {ts' : List (Option α)} {ws : List (List α)} (h : Pieces ts' ws) :
      Pieces (bs.map some ++ ts') (bs :: ws)
  | dropped (bs : List α) {ts' : List (Option α)} {ws : List (List α)} (h : Pieces ts' ws) :
      Pieces (bs.map some ++ none :: ts') ws

theorem Pieces.length_le {ws : List (List α)} (h : Pieces ts ws) : ws.flatten.length ≤ (ts.filterMap id).length := by
  induction h with
  | rest => exact Nat.zero_le _
  | whole bs _ ih =>
    rw [filterMap_map_some_append, List.flatten_cons, List.length_append, List.length_append]
    omega
  | dropped bs _ ih =>
    rw [filterMap_map_some_append, List.length_append, List.filterMap_cons_none rfl]
    omega

theorem failsBetween_of_pieces (h : Pieces ts fs) (hts : ts.filterMap id = fs.flatten) : FailsBetween fs ts := by
  induction h with
  | rest ts =>
    intro pre post heq
    rw [heq, List.filterMap_append, List.flatten_nil, List.append_eq_nil_iff] at hts
    exact ⟨0, hts.1⟩
  | @whole bs ts ws h ih =>
    rw [filterMap_map_some_append, List.flatten_cons, List.append_cancel_left_eq] at hts
    intro pre post heq
    rcases map_some_append_eq heq with ⟨pre', rfl, hts'⟩
    obtain ⟨k, hk⟩ := ih hts pre' post hts'
    exact ⟨k + 1, by rw [filterMap_map_some_append, List.take_succ_cons, List.flatten_cons, hk]⟩
  | @dropped bs ts ws h ih =>
    rw [filterMap_map_some_append, List.filterMap_cons_none rfl] at hts
    -- the frames account for every element
    have hle := h.length_le
    have hlen := congrArg List.length hts
    rw [List.length_append] at hlen
    have hnil : bs = [] := List.eq_nil_of_length_eq_zero (by omega)
    subst hnil
    exact failsBetween_none.2 (ih hts)

end Reads
