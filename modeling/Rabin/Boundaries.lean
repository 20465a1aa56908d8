import Mathlib.Data.List.GetD
import Mathlib.Data.List.Sort
import Rabin.Chunks
import Rabin.Lib.Chunking

/-!
# Where a file is cut

The cuts of `send_file` are those of a content-defined chunking pass: a position from 2 on is cut if its
fingerprint is zero or the block before it has `max_bytes` bytes. From this follow what the blocks of a
file are, and what an edit in the middle of a file can change.
-/

namespace Rabin
namespace Params
open Cut Chunking
variable (p : Params) (file : List UInt8)

theorem mem_cutsFrom {n i prev : ℕ} (hp : prev < i) (k : ℕ) :
    k ∈ p.cutsFrom file n i prev ↔ i ≤ k ∧ k < i + n ∧
      (p.HashZero file k ∨ ∀ j < k, j = prev ∨ j ∈ p.cutsFrom file n i prev → j + maxBytes ≤ k) := by
  induction n generalizing i prev k with
  | zero =>
    refine ⟨fun h => absurd h List.not_mem_nil, fun h => ?_⟩
    omega
  | succ n ih =>
    by_cases hc : p.IsCut file prev i
    · have hge : ∀ j ∈ p.cutsFrom file n (i + 1) i, i + 1 ≤ j := fun j hj => ((ih (Nat.lt_succ_self i) j).1 hj).1
      rw [cutsFrom, if_pos hc, List.mem_cons, ih (Nat.lt_succ_self i) k]
      constructor
      · rintro (rfl | ⟨h1, h2, h3⟩)
        · refine ⟨Nat.le_refl k, by omega, hc.imp_right fun hfar j hj hm => ?_⟩
          rcases hm with rfl | hm
          · exact hfar
          · rcases List.mem_cons.1 hm with rfl | hm
            · exact absurd hj (Nat.lt_irrefl j)
            · exact absurd (hge j hm) (by omega)
        · refine ⟨by omega, by omega, h3.imp_right fun hfar j hj hm => ?_⟩
          rcases hm with rfl | hm
          · have := hfar i (by omega) (.inl rfl)
            omega
          · exact hfar j hj (List.mem_cons.1 hm)
      · rintro ⟨h1, h2, h3⟩
        rcases Nat.eq_or_lt_of_le h1 with rfl | hlt
        · exact .inl rfl
        · exact .inr ⟨hlt, by omega, h3.imp_right fun hfar j hj hm => hfar j hj (.inr (List.mem_cons.2 hm))⟩
    · rw [cutsFrom, if_neg hc, ih (Nat.lt_succ_of_lt hp) k]
      constructor
      · rintro ⟨h1, h2, h3⟩
        exact ⟨by omega, by omega, h3⟩
      · rintro ⟨h1, h2, h3⟩
        rcases Nat.eq_or_lt_of_le h1 with rfl | hlt
        · exact absurd (h3.imp_right fun hfar => hfar prev hp (.inl rfl)) hc
        · exact ⟨hlt, by omega, h3⟩

/-- `send_file` cuts as a pass of content-defined chunking does. -/
theorem chunked_cuts : Chunked (p.HashZero file) maxBytes 2 file.length (· ∈ p.cuts file) := by
  intro k
  refine (p.mem_cutsFrom file (by decide) k).trans (and_congr_right fun h2 => and_congr_left fun _ => ?_)
  omega

theorem lt_of_mem_cuts {i : ℕ} (h : i ∈ p.cuts file) : i < file.length := ((p.chunked_cuts file i).1 h).2.1

theorem foldlM_sendBlock (bs : List (List UInt8)) (srv : RabinServer) :
    bs.foldlM p.sendBlock srv = some (p.offerAll srv bs) := by
  induction bs generalizing srv with
  | nil => rfl
  | cons b bs ih => rw [List.foldlM_cons, sendBlock_eq, offerAll_cons]; exact ih _

theorem exists_start_chunks (i : ℕ) :
    (∃ k, 0 < k ∧ k < (p.chunks file).length ∧ start (p.chunks file) k = i) ↔ i ∈ p.cuts file := by
  have h := exists_start_cutAt (p.cuts_ok file) (fun b hb => p.lt_of_mem_cuts file hb) i
  simp only [Nat.zero_add] at h
  exact h

theorem start_iff (hne : 0 < file.length) (j : ℕ) :
    Start (· ∈ p.cuts file) j ↔ ∃ k < (p.chunks file).length, start (p.chunks file) k = j := by
  have hpos : 0 < (p.chunks file).length := by
    refine List.length_pos_of_ne_nil fun hnil => ?_
    have hf := p.flatten_chunks file
    rw [hnil, List.flatten_nil] at hf
    rw [← hf] at hne
    exact absurd hne (Nat.lt_irrefl 0)
  refine (or_congr_right (p.exists_start_chunks file j).symm).trans ?_
  constructor
  · rintro (rfl | ⟨k, -, hk, rfl⟩)
    · exact ⟨0, hpos, rfl⟩
    · exact ⟨k, hk, rfl⟩
  · rintro ⟨k, hk, rfl⟩
    rcases Nat.eq_zero_or_pos k with rfl | h0
    · exact .inl rfl
    · exact .inr ⟨k, h0, hk, rfl⟩

/-- A block other than the first starts at a zero fingerprint or 64 bytes behind the start before it. -/
theorem start_chunks_iff (i : ℕ) :
    (∃ k, 0 < k ∧ k < (p.chunks file).length ∧ start (p.chunks file) k = i) ↔
      2 ≤ i ∧ i < file.length ∧ (p.HashZero file i ∨ ∃ k < (p.chunks file).length,
        start (p.chunks file) k + maxBytes = i ∧
          ∀ k' < (p.chunks file).length, start (p.chunks file) k' < i →
            start (p.chunks file) k' ≤ start (p.chunks file) k) := by
  have hch := p.chunked_cuts file
  refine (p.exists_start_chunks file i).trans ((hch i).trans ?_)
  refine and_congr_right fun h2 => and_congr_right fun hlt => or_congr_right ?_
  rw [hch.forced_iff (by decide) (by decide) (by omega) hlt]
  have hiff := p.start_iff file (by omega)
  constructor
  · rintro ⟨j, hj, rfl, hmax⟩
    obtain ⟨k, hk, rfl⟩ := (hiff j).1 hj
    exact ⟨k, hk, rfl, fun k' hk' hlt' => hmax _ hlt' ((hiff _).2 ⟨k', hk', rfl⟩)⟩
  · rintro ⟨k, hk, rfl, hmax⟩
    refine ⟨_, (hiff _).2 ⟨k, hk, rfl⟩, rfl, fun j' hlt' hj' => ?_⟩
    obtain ⟨k', hk', rfl⟩ := (hiff j').1 hj'
    exact hmax k' hk' hlt'

section
variable {file} {k : ℕ} {b : List UInt8} (hk : (p.chunks file)[k]? = some b)
include hk

theorem not_hashZero_inside {d : ℕ} (h0 : 0 < d) (hd : d < b.length) (h2 : 2 ≤ start (p.chunks file) k + d) :
    ¬ p.HashZero file (start (p.chunks file) k + d) := by
  intro hz
  have hsucc := start_succ hk
  have hend := start_le_length (p.chunks file) (k + 1)
  rw [flatten_chunks] at hend
  obtain ⟨k', -, hk', he⟩ := (p.start_chunks_iff file _).2 ⟨h2, by omega, .inl hz⟩
  rcases Nat.lt_or_ge k k' with hlt | hge
  · have := start_mono (p.chunks file) (show k + 1 ≤ k' from hlt)
    omega
  · have := start_mono (p.chunks file) hge
    omega

theorem hashZero_behind (hb : b.length < maxBytes) (hl : k + 1 < (p.chunks file).length) :
    p.HashZero file (start (p.chunks file) (k + 1)) := by
  have hsucc := start_succ hk
  have hpos := (p.mem_chunks file (List.mem_of_getElem? hk)).1
  obtain ⟨-, -, h⟩ := (p.start_chunks_iff file _).1 ⟨k + 1, Nat.succ_pos k, hl, rfl⟩
  rcases h with hz | ⟨j, hj, he, hmax⟩
  · exact hz
  · have := hmax k (by omega) (by omega)
    omega

end

theorem sendFile_chunks (hs : file.length < 2 ^ 31) (srv : RabinServer) :
    ∃ (bs : List (List UInt8)) (srv₁ : RabinServer),
      bs.foldlM p.sendBlock srv = some srv₁ ∧ p.sendFile srv file = some ((bs.length : ℤ) + 1, p.sendEof srv₁) ∧
      bs.flatten = file ∧ (∀ b ∈ bs, 1 ≤ b.length ∧ b.length ≤ 64) ∧
      (∀ i, (∃ k, 0 < k ∧ k < bs.length ∧ start bs k = i) ↔
        2 ≤ i ∧ i < file.length ∧ (p.HashZero file i ∨ ∃ k < bs.length, start bs k + 64 = i ∧
          ∀ k' < bs.length, start bs k' < i → start bs k' ≤ start bs k)) ∧
      ∀ k b, bs[k]? = some b →
        (∀ d, 0 < d → d < b.length → 2 ≤ start bs k + d → ¬ p.HashZero file (start bs k + d)) ∧
        (b.length < 64 → k + 1 < bs.length → p.HashZero file (start bs (k + 1))) := by
  refine ⟨p.chunks file, _, p.foldlM_sendBlock _ srv, ?_, p.flatten_chunks file, fun b hb => p.mem_chunks file hb,
    p.start_chunks_iff file,
    fun k b hk => ⟨fun d h0 hd h2 => p.not_hashZero_inside hk h0 hd h2, p.hashZero_behind hk⟩⟩
  rw [p.sendFile_eq file (Nat.lt_trans hs (by norm_num)), p.wrapInt_length_chunks hs]
  push_cast
  rfl

/-- The second block starts at a zero fingerprint, the third 64 bytes behind it. -/
theorem sendFile_chunks_small :
    ∃ (bs : List (List UInt8)) (srv₁ : RabinServer), bs.foldlM x64.sendBlock (.fresh []) = some srv₁ ∧
      x64.sendFile (.fresh []) threeBlocks = some ((bs.length : ℤ) + 1, x64.sendEof srv₁) ∧
      bs.flatten = threeBlocks ∧ (∃ k, 0 < k ∧ k < bs.length ∧ start bs k = 2) ∧
      ∃ k, 0 < k ∧ k < bs.length ∧ start bs k = 66 := by
  obtain ⟨bs, srv₁, h1, h2, h3, -, hstart, -⟩ := sendFile_chunks x64 threeBlocks (by decide) (.fresh [])
  have hzero : ∀ i < 66, x64.HashZero threeBlocks i → i ≤ 2 := by decide +kernel
  have hcut := (hstart 2).2 ⟨Nat.le_refl 2, by decide, .inl (by decide +kernel)⟩
  refine ⟨bs, srv₁, h1, h2, h3, hcut, (hstart 66).2 ⟨by decide, by decide, ?_⟩⟩
  obtain ⟨k, hk0, hk, he⟩ := hcut
  refine .inr ⟨k, hk, by rw [he], fun k' hk' hlt => ?_⟩
  rw [he]
  rcases Nat.eq_zero_or_pos k' with rfl | h0
  · exact Nat.zero_le 2
  · obtain ⟨-, -, hz | ⟨j, -, hj, hmax⟩⟩ := (hstart _).1 ⟨k', h0, hk', rfl⟩
    · exact hzero _ hlt hz
    · have := hmax k hk
      omega

/-! ### An edit in the middle -/

section
variable {p} {f g l t : List UInt8} {k : ℕ}

theorem hashZero_append_left (hk : k < l.length) : p.HashZero (l ++ t) k ↔ p.HashZero l k := by
  unfold HashZero
  rw [List.getD_append _ _ _ _ hk, List.getD_append _ _ _ _ (show k - 1 < l.length by omega),
    List.getD_append _ _ _ _ (show k - 2 < l.length by omega)]

theorem hashZero_append_right (hk : 2 ≤ k) : p.HashZero (l ++ t) (l.length + k) ↔ p.HashZero t k := by
  have hget (d : ℕ) (hd : d ≤ k) : (l ++ t).getD (l.length + k - d) 0 = t.getD (k - d) 0 := by
    rw [List.getD_append_right _ _ _ _ (by omega)]
    congr 1
    omega
  have h0 := hget 0 (Nat.zero_le k)
  have h1 := hget 1 (by omega)
  have h2 := hget 2 hk
  rw [Nat.sub_zero, Nat.sub_zero] at h0
  unfold HashZero
  rw [h0, h1, h2]

theorem chunks_split {c : ℕ} (hc : c ∈ p.cuts f) : ∃ bs cs, p.cuts f = bs ++ c :: cs ∧
    Cuts maxBytes f.length 0 (bs ++ c :: cs) ∧ p.chunks f = cutAt (f.take c) 0 bs ++ cutAt f c cs := by
  obtain ⟨bs, cs, hbs⟩ := List.append_of_mem hc
  have hok := p.cuts_ok f
  rw [hbs] at hok
  refine ⟨bs, cs, hbs, hok, ?_⟩
  rw [chunks, hbs, cutAt_append hok (Nat.le_of_lt (p.lt_of_mem_cuts f hc))]

/-- Two files that are alike and cut alike up to a common cut have the same blocks before it. -/
theorem chunks_before {c : ℕ} (hf : c ∈ p.cuts f) (hg : c ∈ p.cuts g) (htake : f.take c = g.take c)
    (hcut : ∀ i < c, i ∈ p.cuts f ↔ i ∈ p.cuts g) :
    ∃ pre post post', p.chunks f = pre ++ post ∧ p.chunks g = pre ++ post' ∧ pre.flatten = f.take c := by
  obtain ⟨bs, cs, hbs, okf, hchunks⟩ := chunks_split hf
  obtain ⟨bs', cs', hbs', okg, hchunks'⟩ := chunks_split hg
  have hsame : bs = bs' := by
    refine okf.left.pairwise.of_cons.eq_of_mem_iff okg.left.pairwise.of_cons fun i => ?_
    rw [okf.mem_left, okg.mem_left, ← hbs, ← hbs']
    exact and_congr_left (hcut i)
  rw [← hsame, ← htake] at hchunks'
  refine ⟨cutAt (f.take c) 0 bs, cutAt f c cs, cutAt g c cs', hchunks, hchunks', ?_⟩
  refine flatten_cutAt (w := maxBytes) ?_
  rw [List.length_take_of_le (Nat.le_of_lt (p.lt_of_mem_cuts f hf))]
  exact okf.left

/-- Two files that end alike, and are cut alike from a common cut on, have the same blocks from it on. -/
theorem chunks_behind {m m' j : ℕ} (hf : m + j ∈ p.cuts f) (hg : m' + j ∈ p.cuts g) (hdrop : f.drop m = g.drop m')
    (hcut : ∀ k, j ≤ k → (m + k ∈ p.cuts f ↔ m' + k ∈ p.cuts g)) :
    ∃ pre pre' post, p.chunks f = pre ++ post ∧ p.chunks g = pre' ++ post ∧ post.flatten = (f.drop m).drop j := by
  have hfl := p.lt_of_mem_cuts f hf
  have hgl := p.lt_of_mem_cuts g hg
  obtain ⟨bs, cs, hbs, okf, hchunks⟩ := chunks_split hf
  obtain ⟨bs', cs', hbs', okg, hchunks'⟩ := chunks_split hg
  rw [hbs, hbs'] at hcut
  obtain ⟨ks, hcs, hcs'⟩ := okf.exists_offsets okg hcut
  refine ⟨cutAt (f.take (m + j)) 0 bs, cutAt (g.take (m' + j)) 0 bs', cutAt f (m + j) cs, hchunks, ?_, ?_⟩
  · rw [hchunks', ← hcs, ← hcs', cutAt_drop f (by omega), cutAt_drop g (by omega), hdrop]
  · rw [flatten_cutAt okf.right, List.drop_drop]

end

theorem sendFile_cuts (hs : file.length < 2 ^ 32) (srv : RabinServer) :
    ∃ srv₁ n, (p.chunks file).foldlM p.sendBlock srv = some srv₁ ∧ p.sendFile srv file = some (n, p.sendEof srv₁) :=
  ⟨_, _, p.foldlM_sendBlock _ srv, p.sendFile_eq file hs srv⟩

/-- Whatever stands between `a` and `t`, the cuts inside `a` are the same, and so are the cuts in `t` from its
first zero fingerprint on. -/
theorem edit_local (a x y t : List UInt8) :
    (∀ file ∈ [a ++ x ++ t, a ++ y ++ t],
      (∀ i, i ∈ p.cuts file ↔ ∃ k, 0 < k ∧ k < (p.chunks file).length ∧ start (p.chunks file) k = i) ∧
      (file.length < 2 ^ 32 → ∀ srv, ∃ srv₁ n, (p.chunks file).foldlM p.sendBlock srv = some srv₁ ∧
        p.sendFile srv file = some (n, p.sendEof srv₁))) ∧
    (∀ i < a.length, i ∈ p.cuts (a ++ x ++ t) ↔ i ∈ p.cuts (a ++ y ++ t)) ∧
    (∀ c < a.length, c ∈ p.cuts (a ++ x ++ t) → c ∈ p.cuts (a ++ y ++ t) ∧
      ∃ pre post post', p.chunks (a ++ x ++ t) = pre ++ post ∧ p.chunks (a ++ y ++ t) = pre ++ post' ∧
        pre.flatten = a.take c) ∧
    ∀ j, 2 ≤ j → j < t.length → p.rabinFunc (t.getD (j - 2) 0) (t.getD (j - 1) 0) (t.getD j 0) = 0 →
      a.length + x.length + j ∈ p.cuts (a ++ x ++ t) ∧ a.length + y.length + j ∈ p.cuts (a ++ y ++ t) ∧
      (∀ k, j ≤ k → k < t.length →
        (a.length + x.length + k ∈ p.cuts (a ++ x ++ t) ↔ a.length + y.length + k ∈ p.cuts (a ++ y ++ t))) ∧
      ∃ pre pre' post, p.chunks (a ++ x ++ t) = pre ++ post ∧ p.chunks (a ++ y ++ t) = pre' ++ post ∧
        post.flatten = t.drop j := by
  have hlen (z : List UInt8) : (a ++ z ++ t).length = a.length + z.length + t.length := by
    rw [List.length_append, List.length_append]
  have hz (z : List UInt8) (k : ℕ) (hk : 2 ≤ k) :
      p.HashZero (a ++ z ++ t) (a.length + z.length + k) ↔ p.HashZero t k := by
    rw [← List.length_append]
    exact hashZero_append_right hk
  have hdrop (z : List UInt8) : (a ++ z ++ t).drop (a.length + z.length) = t := by
    rw [← List.length_append]
    exact List.drop_left
  have htake (z : List UInt8) {c : ℕ} (hc : c ≤ a.length) : (a ++ z ++ t).take c = a.take c := by
    rw [List.append_assoc, List.take_append_of_le_length hc]
  have hbelow : ∀ i < a.length, i ∈ p.cuts (a ++ x ++ t) ↔ i ∈ p.cuts (a ++ y ++ t) := by
    refine (p.chunked_cuts _).below (p.chunked_cuts _) (by rw [hlen]; omega) (by rw [hlen]; omega) fun k hk => ?_
    rw [List.append_assoc, List.append_assoc, hashZero_append_left hk, hashZero_append_left hk]
  refine ⟨fun file _ => ⟨fun i => (p.exists_start_chunks file i).symm, fun hs srv => p.sendFile_cuts file hs srv⟩,
    hbelow, fun c hc hf => ?_, fun j h2 hj h0 => ?_⟩
  · have hg := (hbelow c hc).1 hf
    have htakes := (htake x (Nat.le_of_lt hc)).trans (htake y (Nat.le_of_lt hc)).symm
    obtain ⟨pre, post, post', h1, h2, h3⟩ :=
      chunks_before hf hg htakes fun i hi => hbelow i (Nat.lt_trans hi hc)
    exact ⟨hg, pre, post, post', h1, h2, h3.trans (htake x (Nat.le_of_lt hc))⟩
  · have hcut (z : List UInt8) : a.length + z.length + j ∈ p.cuts (a ++ z ++ t) :=
      (p.chunked_cuts _ _).2 ⟨by omega, by rw [hlen]; omega, .inl ((hz z j h2).2 h0)⟩
    have hsync : ∀ k, j ≤ k →
        (a.length + x.length + k ∈ p.cuts (a ++ x ++ t) ↔ a.length + y.length + k ∈ p.cuts (a ++ y ++ t)) := by
      refine (p.chunked_cuts _).resync (p.chunked_cuts _) (hcut x) (hcut y) (fun k => ?_) fun k hk => ?_
      · rw [hlen, hlen]
        omega
      · exact (hz x k (by omega)).trans (hz y k (by omega)).symm
    obtain ⟨pre, pre', post, h1, h2, h3⟩ := chunks_behind (hcut x) (hcut y) ((hdrop x).trans (hdrop y).symm) hsync
    rw [hdrop] at h3
    exact ⟨hcut x, hcut y, fun k hk _ => hsync k hk, pre, pre', post, h1, h2, h3⟩

end Params
end Rabin
