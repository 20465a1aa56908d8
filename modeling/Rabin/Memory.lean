import Rabin.Block
import Rabin.Lib.Heap

/-!
# Blocks in memory

Both programs keep their blocks behind pointers: `blocks[n]` is the address of a `block`, and its `data` that of an
array. `Represents` says of a heap and the map what they stand for, and which other blocks there are. What is shown
of the operations on both sides is that they act on what is represented.
-/

namespace Rabin

/-- A `block` in memory. -/
structure BlockRec where
  blockNum : ℕ
  dataSize : ℕ
  old : Bool
  /-- the address of the array -/
  data : ℕ

inductive Cell
  | block (r : BlockRec)
  | chars (b : List UInt8)

def Cell.arraySize : Cell → ℕ
  | block _ => 0
  | chars b => b.length

abbrev Memory := Heap Cell

namespace Memory

def blockAt (h : Memory) (a : ℕ) : Option BlockRec :=
  match h.get a with
  | some (.block r) => some r
  | _ => none

def charsAt (h : Memory) (a : ℕ) : Option (List UInt8) :=
  match h.get a with
  | some (.chars b) => some b
  | _ => none

/-- The bytes of all arrays in use. -/
def arrayBytes (h : Memory) : ℕ := h.weight Cell.arraySize

/-- The `block` at `a` and its array hold the entry `e`. -/
def Stores (h : Memory) (a : ℕ) (e : Block) : Prop :=
  ∃ d, h.get a = some (.block ⟨e.blockNum, e.dataSize, e.old, d⟩) ∧ h.get d = some (.chars e.data)

/-- The map stands for the blocks `m`, each number has a `block` of its own, and every other `block` in use is one of
`hand`. -/
structure Represents (h : Memory) (map : ℕ → Option ℕ) (m : Blocks) (hand : List ℕ) : Prop where
  absent : ∀ n, m.get n = none → map n = none
  present : ∀ n e, m.get n = some e → ∃ a, map n = some a ∧ h.Stores a e
  inj : ∀ n n' a, map n = some a → map n' = some a → n = n'
  found : ∀ a r, h.get a = some (.block r) → (∃ n, map n = some a) ∨ a ∈ hand
  inHand : ∀ a ∈ hand, (∃ r, h.get a = some (.block r)) ∧ ∀ n, map n ≠ some a
  nodup : hand.Nodup

variable {h h' : Memory} {map : ℕ → Option ℕ} {m : Blocks} {hand : List ℕ} {a n : ℕ} {r r' : BlockRec} {e : Block}
  {b : List UInt8}

theorem represents_empty : Represents .empty (fun _ => none) .empty [] := by
  refine ⟨fun _ _ => rfl, ?_, ?_, ?_, ?_, List.nodup_nil⟩
  · intro n e he
    cases he
  · intro n n' a ha
    cases ha
  · intro a r ha
    cases ha
  · intro a ha
    cases ha

theorem blockAt_eq_some : h.blockAt a = some r ↔ h.get a = some (.block r) := by
  unfold blockAt
  split <;> simp_all

theorem charsAt_eq_some : h.charsAt a = some b ↔ h.get a = some (.chars b) := by
  unfold charsAt
  split <;> simp_all

theorem arrayBytes_alloc (x : Cell) : arrayBytes (h.alloc x).2 = h.arrayBytes + x.arraySize := Heap.weight_alloc

theorem arrayBytes_change {z : Option Cell} (ha : h.get a = some (.block r)) (hz : z.elim 0 Cell.arraySize = 0)
    (hch : h.change a z = some h') : h'.arrayBytes = h.arrayBytes := by
  have hw := Heap.weight_change (w := Cell.arraySize) ha hch
  rw [hz] at hw
  exact hw

theorem Stores.change {z : Option Cell} (hs : h.Stores a e) {c : ℕ} (hc : h.get c = some (.block r))
    (hne : a ≠ c) (h' : Memory) (hch : h.change c z = some h') : h'.Stores a e := by
  obtain ⟨d, h1, h2⟩ := hs
  obtain ⟨-, -, hother⟩ := Heap.change_eq_some hch
  refine ⟨d, (hother a hne).trans h1, (hother d ?_).trans h2⟩
  rintro rfl
  rw [hc] at h2
  cases h2

namespace Represents
variable (hr : Represents h map m hand)
include hr

theorem map_eq_some (ha : map n = some a) : ∃ e, m.get n = some e ∧ h.Stores a e := by
  cases hg : m.get n with
  | none =>
    rw [hr.absent n hg] at ha
    cases ha
  | some e =>
    obtain ⟨a', ha', hs⟩ := hr.present n e hg
    rw [ha] at ha'
    cases ha'
    exact ⟨e, rfl, hs⟩

/-- What is in use stays as it is, and the only `block`s that come in are those of `news`. -/
theorem grow (news : List ℕ) (hext : ∀ a x, h.get a = some x → h'.get a = some x)
    (hblock : ∀ a r, h'.get a = some (.block r) → h.get a = some (.block r) ∨ a ∈ news)
    (hnew : ∀ a ∈ news, h.get a = none ∧ ∃ r, h'.get a = some (.block r)) (hnd : news.Nodup) :
    Represents h' map m (news ++ hand) := by
  refine ⟨hr.absent, fun n e he => ?_, hr.inj, fun a r ha => ?_, fun a ha => ?_, ?_⟩
  · obtain ⟨a, ha, d, h1, h2⟩ := hr.present n e he
    exact ⟨a, ha, d, hext _ _ h1, hext _ _ h2⟩
  · rcases hblock a r ha with ha | ha
    · exact (hr.found a r ha).imp_right (List.mem_append_right _)
    · exact .inr (List.mem_append_left _ ha)
  · rcases List.mem_append.1 ha with ha | ha
    · obtain ⟨hnone, hl⟩ := hnew a ha
      refine ⟨hl, fun n hn => ?_⟩
      obtain ⟨e, -, d, hd, -⟩ := hr.map_eq_some hn
      rw [hnone] at hd
      cases hd
    · obtain ⟨⟨r, hl⟩, hmap⟩ := hr.inHand a ha
      exact ⟨⟨r, hext _ _ hl⟩, hmap⟩
  · refine List.nodup_append.2 ⟨hnd, hr.nodup, fun a ha c hc hac => ?_⟩
    obtain ⟨⟨r, hl⟩, -⟩ := hr.inHand c hc
    rw [← hac, (hnew a ha).1] at hl
    cases hl

theorem allocChars (b : List UInt8) : Represents (h.alloc (.chars b)).2 map m hand := by
  refine hr.grow [] (fun a x => Heap.get_alloc_of_some) (fun a r ha => .inl ?_) (fun a ha => ?_) List.nodup_nil
  · rcases eq_or_ne a h.next with rfl | hne
    · rw [Heap.get_alloc_self] at ha
      cases ha
    · rwa [Heap.get_alloc_of_ne hne] at ha
  · cases ha

theorem allocBlock (r : BlockRec) : Represents (h.alloc (.block r)).2 map m (h.next :: hand) := by
  refine hr.grow [h.next] (fun a x => Heap.get_alloc_of_some) (fun a r' ha => ?_) (fun a ha => ?_)
    (List.nodup_singleton _)
  · rcases eq_or_ne a h.next with rfl | hne
    · exact .inr List.mem_cons_self
    · exact .inl (by rwa [Heap.get_alloc_of_ne hne] at ha)
  · obtain rfl := List.mem_singleton.1 ha
    exact ⟨h.get_of_le (Nat.le_refl _), r, Heap.get_alloc_self⟩

omit hr in
theorem setHand (hr : Represents h map m (a :: hand)) (hset : h.set a (.block r) = some h') :
    Represents h' map m (a :: hand) := by
  obtain ⟨⟨r₀, ha⟩, hmap⟩ := hr.inHand a List.mem_cons_self
  obtain ⟨-, hself, hother⟩ := Heap.change_eq_some hset
  refine ⟨hr.absent, fun n e he => ?_, hr.inj, fun c r' hc => ?_, fun c hc => ?_, hr.nodup⟩
  · obtain ⟨c, hc, hs⟩ := hr.present n e he
    refine ⟨c, hc, hs.change ha ?_ h' hset⟩
    rintro rfl
    exact hmap n hc
  · rcases eq_or_ne c a with rfl | hne
    · exact .inr List.mem_cons_self
    · exact hr.found c r' ((hother c hne).symm.trans hc)
  · rcases eq_or_ne c a with rfl | hne
    · exact ⟨⟨r, hself⟩, hmap⟩
    · obtain ⟨⟨r', hl⟩, hcm⟩ := hr.inHand c hc
      exact ⟨⟨r', (hother c hne).trans hl⟩, hcm⟩

omit hr in
theorem freeHand (hr : Represents h map m (a :: hand)) (hfree : h.free a = some h') : Represents h' map m hand := by
  obtain ⟨⟨r₀, ha⟩, hmap⟩ := hr.inHand a List.mem_cons_self
  obtain ⟨hnot, hnd⟩ := List.nodup_cons.1 hr.nodup
  obtain ⟨-, hself, hother⟩ := Heap.change_eq_some hfree
  refine ⟨hr.absent, fun n e he => ?_, hr.inj, fun c r' hc => ?_, fun c hc => ?_, hnd⟩
  · obtain ⟨c, hc, hs⟩ := hr.present n e he
    refine ⟨c, hc, hs.change ha ?_ h' hfree⟩
    rintro rfl
    exact hmap n hc
  · have hne : c ≠ a := by
      rintro rfl
      rw [hself] at hc
      cases hc
    rcases hr.found c r' ((hother c hne).symm.trans hc) with hc | hc
    · exact .inl hc
    · exact .inr ((List.mem_cons.1 hc).resolve_left hne)
  · obtain ⟨⟨r', hl⟩, hcm⟩ := hr.inHand c (List.mem_cons_of_mem a hc)
    have hne : c ≠ a := fun hca => hnot (hca ▸ hc)
    exact ⟨⟨r', (hother c hne).trans hl⟩, hcm⟩

omit hr in
/-- `blocks[n] = new_block`. If there was another `block`, it is not in the map any more. -/
theorem put (hr : Represents h map m (a :: hand)) (hs : h.Stores a e) :
    Represents h (Function.update map e.blockNum (some a)) (m.put e) ((map e.blockNum).toList ++ hand) := by
  obtain ⟨-, hmap⟩ := hr.inHand a List.mem_cons_self
  obtain ⟨hnot, hnd⟩ := List.nodup_cons.1 hr.nodup
  refine ⟨fun n hn => ?_, fun n e' he => ?_, fun n n' c hc hc' => ?_, fun c r hc => ?_, fun c hc => ?_, ?_⟩
  · have hne : n ≠ e.blockNum := by
      rintro rfl
      rw [Blocks.get_put_self] at hn
      cases hn
    rw [Function.update_of_ne hne]
    exact hr.absent n (by rwa [Blocks.get_put_of_ne m hne] at hn)
  · rcases eq_or_ne n e.blockNum with rfl | hne
    · rw [Blocks.get_put_self] at he
      cases he
      exact ⟨a, Function.update_self .., hs⟩
    · rw [Blocks.get_put_of_ne m hne] at he
      rw [Function.update_of_ne hne]
      exact hr.present n e' he
  · rcases eq_or_ne n e.blockNum with rfl | hne <;> rcases eq_or_ne n' e.blockNum with rfl | hne'
    · rfl
    · rw [Function.update_self] at hc
      rw [Function.update_of_ne hne', ← hc] at hc'
      exact absurd hc' (hmap n')
    · rw [Function.update_self] at hc'
      rw [Function.update_of_ne hne, ← hc'] at hc
      exact absurd hc (hmap n)
    · rw [Function.update_of_ne hne] at hc
      rw [Function.update_of_ne hne'] at hc'
      exact hr.inj n n' c hc hc'
  · rcases hr.found c r hc with ⟨n, hn⟩ | hc
    · rcases eq_or_ne n e.blockNum with rfl | hne
      · exact .inr (by simp [hn])
      · exact .inl ⟨n, by rwa [Function.update_of_ne hne]⟩
    · rcases List.mem_cons.1 hc with rfl | hc
      · exact .inl ⟨e.blockNum, Function.update_self ..⟩
      · exact .inr (List.mem_append_right _ hc)
  · rcases List.mem_append.1 hc with hc | hc
    · have hc : map e.blockNum = some c := Option.mem_toList.1 hc
      obtain ⟨_, -, d, hd, -⟩ := hr.map_eq_some hc
      refine ⟨⟨_, hd⟩, fun n hn => ?_⟩
      rcases eq_or_ne n e.blockNum with rfl | hne
      · rw [Function.update_self] at hn
        cases hn
        exact hmap e.blockNum hc
      · rw [Function.update_of_ne hne] at hn
        exact hne (hr.inj n e.blockNum c hn hc)
    · obtain ⟨hl, hcm⟩ := hr.inHand c (List.mem_cons_of_mem a hc)
      refine ⟨hl, fun n hn => ?_⟩
      rcases eq_or_ne n e.blockNum with rfl | hne
      · rw [Function.update_self] at hn
        cases hn
        exact hnot hc
      · rw [Function.update_of_ne hne] at hn
        exact hcm n hn
  · refine List.nodup_append.2 ⟨?_, hnd, fun c hc c' hc' hcc => ?_⟩
    · cases map e.blockNum <;> simp
    · subst hcc
      exact (hr.inHand c (List.mem_cons_of_mem a hc')).2 e.blockNum (Option.mem_toList.1 hc)

theorem setOld (hn : map n = some a) (he : m.get n = some e) (ha : h.get a = some (.block r))
    (hset : h.set a (.block { r with old := true }) = some h') : Represents h' map (m.put e.setOld) hand := by
  obtain ⟨-, hself, hother⟩ := Heap.change_eq_some hset
  have hnum : n = e.setOld.blockNum := (m.num_eq he).symm
  refine ⟨fun k hk => ?_, fun k e' hk => ?_, hr.inj, fun c r' hc => ?_, fun c hc => ?_, hr.nodup⟩
  · have hne : k ≠ e.setOld.blockNum := by
      rintro rfl
      rw [Blocks.get_put_self] at hk
      cases hk
    exact hr.absent k (by rwa [Blocks.get_put_of_ne m hne] at hk)
  · rcases eq_or_ne k n with rfl | hne
    · rw [hnum, Blocks.get_put_self] at hk
      cases hk
      obtain ⟨a', ha', d, hd, hdata⟩ := hr.present k e he
      rw [hn] at ha'
      cases ha'
      rw [ha] at hd
      cases hd
      refine ⟨a, hn, d, hself, (hother d ?_).trans hdata⟩
      rintro rfl
      rw [ha] at hdata
      cases hdata
    · rw [Blocks.get_put_of_ne m (hnum ▸ hne)] at hk
      obtain ⟨c, hc, hs⟩ := hr.present k e' hk
      refine ⟨c, hc, hs.change ha ?_ h' hset⟩
      rintro rfl
      exact hne (hr.inj k n c hc hn)
  · rcases eq_or_ne c a with rfl | hne
    · exact .inl ⟨n, hn⟩
    · exact hr.found c r' ((hother c hne).symm.trans hc)
  · obtain ⟨⟨r', hl⟩, hcm⟩ := hr.inHand c hc
    have hne : c ≠ a := by
      rintro rfl
      exact hcm n hn
    exact ⟨⟨r', (hother c hne).trans hl⟩, hcm⟩

end Represents
end Memory
end Rabin
