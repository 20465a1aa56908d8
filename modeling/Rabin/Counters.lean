import Rabin.Boundaries

/-!
# The integers of `send_file`

The size is a `size_t`, the index of the loop an `unsigned`, the width of a block and the count of blocks are
`int`. `trace` is what a call reads of the file and what it passes to `insert_block`. All of it is in range if the
size is below 2^32 and the count of blocks fits, which it does for sizes below 2^31 (`sendFile_in_range_iff`).
-/

namespace Rabin
open Cut

inductive Event
  /-- `file[i]` -/
  | read (i : UInt32)
  /-- `insert_block(prev, width)` -/
  | insertBlock (width : ℤ)

namespace Event

def width? : Event → Option ℤ
  | read _ => none
  | insertBlock width => some width

/-- The index is one of a file of `s` bytes, the width that of a block. -/
def InRange (s : ℕ) : Event → Prop
  | read i => i.toNat < s
  | insertBlock width => 1 ≤ width ∧ width ≤ 64

end Event

namespace Params
variable (p : Params) (file : List UInt8)

/-- The reads of the loop in its first rounds, `fuel` of them, and the calls of `insert_block` in and behind them. -/
def trace : ℕ → Cutting → List Event
  | 0, _ => []
  | fuel + 1, l =>
    if l.i.toNat < file.length then
      [.read (l.i - 2), .read (l.i - 1), .read l.i] ++
        (if p.cutsHere file l then [.insertBlock (intWidth l.i.toNat l.prev)] else []) ++
        ((p.cutStep file l).map (trace fuel)).getD []
    else if l.prev ≠ file.length then [.insertBlock (intWidth file.length l.prev)]
    else []

variable {file} {l : Cutting}

theorem Near.reads (h : Near file l) (hi : l.i.toNat < file.length) :
    ∀ e ∈ [Event.read (l.i - 2), .read (l.i - 1), .read l.i], e.InRange file.length := by
  have hsub {k : UInt32} (hk : k ≤ l.i) : (l.i - k).toNat < file.length := by
    rw [UInt32.toNat_sub_of_le _ _ hk]
    exact Nat.lt_of_le_of_lt (Nat.sub_le ..) hi
  have h2 : (2 : UInt32) ≤ l.i := UInt32.le_iff_toNat_le.2 h.two_le
  have h1 : (1 : UInt32) ≤ l.i := UInt32.le_trans (by decide) h2
  simp only [List.forall_mem_cons, Event.InRange]
  exact ⟨hsub h2, hsub h1, hi, fun _ he => absurd he List.not_mem_nil⟩

theorem inRange_width {s i prev : ℕ} (hp : prev < i) (hw : i ≤ prev + maxBytes) :
    (Event.insertBlock (intWidth i prev)).InRange s := by
  have h64 : maxBytes = 64 := rfl
  rw [Event.InRange, intWidth_eq (Nat.le_of_lt hp) hw]
  omega

/-- While the index does not wrap around, a run of the loop stays in range. -/
theorem Near.trace_inRange (h : Near file l) (hs : file.length < 2 ^ 32) (fuel : ℕ) :
    ∀ e ∈ p.trace file fuel l, e.InRange file.length := by
  induction fuel generalizing l with
  | zero => exact fun _ he => absurd he List.not_mem_nil
  | succ fuel ih =>
    rw [trace]
    split
    · rename_i hi
      rw [h.cutStep p hi, Option.map_some, Option.getD_some]
      simp only [List.forall_mem_append]
      refine ⟨⟨h.reads hi, ?_⟩, ?_⟩
      · split
        · rw [List.forall_mem_singleton]
          exact inRange_width h.prev_lt h.le_add
        · exact fun _ he => absurd he List.not_mem_nil
      · split
        · exact ih (h.cut hs hi _ _)
        · rename_i hc
          exact ih (h.skip p hs hi hc)
    · rename_i hi
      split
      · rename_i hne
        rw [List.forall_mem_singleton]
        have hlt : l.prev < file.length := Nat.lt_of_le_of_ne h.prev_le hne
        exact inRange_width hlt (Nat.le_trans (Nat.le_of_not_lt hi) h.le_add)
      · exact fun _ he => absurd he List.not_mem_nil

/-- What is passed to `insert_block` from a position on are the chunks that remain. -/
theorem Near.widths (h : Near file l) (hs : file.length < 2 ^ 32) {n fuel : ℕ}
    (hn : n = 0 ∨ l.i.toNat + n = file.length) (hle : file.length ≤ l.i.toNat + n) (hf : n < fuel) :
    (p.trace file fuel l).filterMap Event.width? =
      (cutAt file l.prev (p.cutsFrom file n l.i.toNat l.prev)).map fun b => (b.length : ℤ) := by
  induction n generalizing fuel l with
  | zero =>
    obtain ⟨fuel, rfl⟩ : ∃ k, fuel = k + 1 := ⟨fuel - 1, by omega⟩
    have hstop : ¬ l.i.toNat < file.length := by omega
    have hw := intWidth_eq h.prev_le (Nat.le_trans hle h.le_add)
    rw [trace, if_neg hstop, cutsFrom, cutAt, hw]
    by_cases he : l.prev = file.length
    · simp [he]
    · simp [he, Event.width?]
  | succ n ih =>
    obtain ⟨fuel, rfl⟩ : ∃ k, fuel = k + 1 := ⟨fuel - 1, by omega⟩
    have hlen : l.i.toNat + (n + 1) = file.length := hn.resolve_left (Nat.succ_ne_zero n)
    have hgo : l.i.toNat < file.length := by omega
    have hsucc := toNat_succ hs hgo
    have hw := intWidth_eq (Nat.le_of_lt h.prev_lt) h.le_add
    rw [trace, if_pos hgo, h.cutStep p hgo, h.cutsHere p, cutsFrom, hw]
    have hreads : [Event.read (l.i - 2), .read (l.i - 1), .read l.i].filterMap Event.width? = [] := rfl
    rw [List.filterMap_append, List.filterMap_append, hreads, List.nil_append, Option.map_some, Option.getD_some]
    by_cases hc : p.IsCut file l.prev l.i.toNat
    · have hlen' : ((file.drop l.prev).take (l.i.toNat - l.prev)).length = l.i.toNat - l.prev := by
        rw [List.length_take, List.length_drop]
        omega
      simp only [hc, decide_true, if_true, cutAt, List.map_cons, hlen']
      rw [ih (h.cut hs hgo _ _) (by dsimp only; omega) (by dsimp only; omega) (Nat.lt_of_succ_lt_succ hf), hsucc]
      rfl
    · simp only [hc, decide_false, if_false, Bool.false_eq_true]
      rw [ih (h.skip p hs hgo hc) (by dsimp only; omega) (by dsimp only; omega) (Nat.lt_of_succ_lt_succ hf), hsucc]
      rfl

/-! ### The whole call -/

/-- How many blocks a call of `send_file` passes to `insert_block`. -/
def blocksInserted (srv : RabinServer) (file : List UInt8) : ℕ :=
  ((p.trace file (file.length + 1) ⟨2, 0, 0, srv⟩).filterMap Event.width?).length

/-- The loop ends, what it reads is in the file, a width is one of a block, and the count is not wrapped. -/
structure SendsInRange (srv : RabinServer) (file : List UInt8) : Prop where
  ends : ∃ fuel l, p.cutLoop file fuel ⟨2, 0, 0, srv⟩ = some l
  inRange : ∀ fuel, ∀ e ∈ p.trace file fuel ⟨2, 0, 0, srv⟩, e.InRange file.length
  returns : ∃ srv', p.sendFile srv file = some ((p.blocksInserted srv file : ℤ) + 1, srv')

variable (file)

theorem blocksInserted_eq (hs : file.length < 2 ^ 32) (srv : RabinServer) :
    p.blocksInserted srv file = (p.chunks file).length := by
  have h2 : (2 : UInt32).toNat = 2 := rfl
  have hn : file.length - 2 = 0 ∨ (2 : UInt32).toNat + (file.length - 2) = file.length := by omega
  have hle : file.length ≤ (2 : UInt32).toNat + (file.length - 2) := by omega
  have hf : file.length - 2 < file.length + 1 := by omega
  rw [blocksInserted, (near_start file srv).widths p hs hn hle hf, List.length_map, chunks, cuts, h2]

theorem length_chunks_eq : (p.chunks file).length = if file = [] then 0 else (p.cuts file).length + 1 := by
  by_cases h0 : file = []
  · rw [h0]
    rfl
  · rw [if_neg h0]
    refine length_cutAt fun b hb => ?_
    rcases List.mem_cons.1 hb with rfl | hb
    · exact List.length_pos_iff.2 h0
    · exact p.lt_of_mem_cuts file hb

theorem length_cuts_lt (hs : file.length < 2 ^ 31) : (p.cuts file).length + 2 < 2 ^ 31 := by
  have h := p.length_cutsFrom_le file (file.length - 2) 2 0
  rw [← cuts] at h
  omega

theorem cutLoop_ends (hs : file.length < 2 ^ 32) (srv : RabinServer) :
    ∃ fuel l, p.cutLoop file fuel ⟨2, 0, 0, srv⟩ = some l := by
  have h := p.sendFile_eq file hs srv
  rw [sendFile_eq_finish] at h
  obtain ⟨l, hl, -⟩ := Option.bind_eq_some_iff.1 h
  exact ⟨_, l, hl⟩

theorem wrapInt_eq_iff {n : ℕ} (hn : n < 2 ^ 32) : wrapInt n = n ↔ n < 2 ^ 31 := by
  refine ⟨fun h => ?_, wrapInt_of_lt⟩
  unfold wrapInt at h
  rw [Int.bmod_def] at h
  omega

/-- When a call of `send_file` keeps to the ranges of its integers: the file has less than 2^32 bytes, and less
than 2^31 - 1 blocks. -/
theorem sendFile_in_range_iff (srv : RabinServer) :
    p.SendsInRange srv file ↔ file.length < 2 ^ 32 ∧ (p.cuts file).length + 2 < 2 ^ 31 := by
  have hcount (hs : file.length < 2 ^ 32) :
      wrapInt ((p.chunks file).length + 1 : ℕ) = ((p.chunks file).length + 1 : ℕ) ↔
        (p.cuts file).length + 2 < 2 ^ 31 := by
    have hle := p.length_chunks_le file
    rw [wrapInt_eq_iff (by omega), length_chunks_eq]
    split
    · rename_i h0
      rw [h0]
      exact iff_of_true (by decide) (p.length_cuts_lt [] (by decide))
    · rfl
  constructor
  · rintro ⟨⟨fuel, l, hl⟩, -, srv', hr⟩
    have hs := p.length_lt_of_sendFile file hr
    refine ⟨hs, (hcount hs).1 ?_⟩
    rw [p.sendFile_eq file hs, p.blocksInserted_eq file hs, Option.some.injEq, Prod.mk.injEq] at hr
    push_cast
    exact hr.1
  · rintro ⟨hs, hc⟩
    have hsend := p.sendFile_eq file hs srv
    have hw := (hcount hs).2 hc
    push_cast at hw
    rw [hw, ← p.blocksInserted_eq file hs srv] at hsend
    exact ⟨p.cutLoop_ends file hs srv, (near_start file srv).trace_inRange p hs, _, hsend⟩

/-! ### Where it goes wrong -/

theorem cutsFrom_all {n i prev : ℕ} (h : ∀ k, i ≤ k → k < i + n → p.HashZero file k) :
    (p.cutsFrom file n i prev).length = n := by
  induction n generalizing i prev with
  | zero => rfl
  | succ n ih =>
    rw [cutsFrom, if_pos (.inl (h i (Nat.le_refl i) (by omega))), List.length_cons,
      ih fun k hk hlt => h k (by omega) (by omega)]

/-- The loop does not end for 2^32 bytes. A file of 2^31 times 'i', which is cut everywhere, has a negative count. -/
theorem sendFile_out_of_range :
    ¬ x64.SendsInRange (.fresh []) (List.replicate (2 ^ 32) 105) ∧
      (∀ fuel, x64.cutLoop (List.replicate (2 ^ 32) 105) fuel ⟨2, 0, 0, .fresh []⟩ = none) ∧
      ∃ srv, x64.sendFile (.fresh []) (List.replicate (2 ^ 31) 105) = some (-2 ^ 31, srv) := by
  have hnone : ∀ fuel, x64.cutLoop (List.replicate (2 ^ 32) 105) fuel ⟨2, 0, 0, .fresh []⟩ = none := by
    intro fuel
    exact x64.cutLoop_long _ (Nat.le_of_eq List.length_replicate.symm) fuel _
  refine ⟨?_, hnone, ?_⟩
  · rintro ⟨⟨fuel, l, hl⟩, -, -⟩
    rw [hnone] at hl
    cases hl
  · have hlen : (List.replicate (2 ^ 31) (105 : UInt8)).length = 2 ^ 31 := List.length_replicate
    have hzero : ∀ k < 2 ^ 31, x64.HashZero (List.replicate (2 ^ 31) 105) k := by
      intro k hk
      have hget (d : ℕ) : (List.replicate (2 ^ 31) (105 : UInt8)).getD (k - d) 0 = 105 := by
        exact List.getD_replicate _ (show k - d < 2 ^ 31 by omega)
      have h0 := hget 0
      rw [Nat.sub_zero] at h0
      unfold HashZero
      rw [hget, hget, h0]
      decide
    have hcuts : (x64.cuts (List.replicate (2 ^ 31) 105)).length = 2 ^ 31 - 2 := by
      rw [cuts, hlen]
      exact x64.cutsFrom_all _ fun k _ hk => hzero k (by omega)
    have hne : List.replicate (2 ^ 31) (105 : UInt8) ≠ [] := List.ne_nil_of_length_pos (by rw [hlen]; decide)
    have hsend := x64.sendFile_eq _ (show (List.replicate (2 ^ 31) (105 : UInt8)).length < 2 ^ 32 by
      rw [hlen]
      decide) (.fresh [])
    rw [length_chunks_eq, if_neg hne, hcuts] at hsend
    exact ⟨_, hsend⟩

end Params
end Rabin
