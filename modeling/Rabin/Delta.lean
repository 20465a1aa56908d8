import Rabin.Boundaries
import Rabin.Hits
import Rabin.Lib.Misses

/-!
# The traffic of `send_file`

How many bytes the files of a connection cost. The blocks that the cache misses are written, so from a fresh server
each different block is written at least once, and just once exactly if none is driven out of its place before it
comes again (`traffic_once_iff`). A file that differs from the last one in one place costs its descriptors and the
blocks around that place (`edit_cost`).
-/

namespace Rabin
namespace Params
open Mirror Cut Chunking
variable (p : Params)

theorem missing_entries (c : ByteCache) (bs : List (List UInt8)) :
    missing (p.entries c bs) = ((misses p.hashFunction c bs).map List.length).sum := by
  induction bs generalizing c with
  | nil => rfl
  | cons b bs ih =>
    rw [entries, missing_cons, ih, misses]
    cases hh : hit p.hashFunction c b <;> simp [missing, Block.ofBytes]

theorem length_accepted_foldl_sent {srv : RabinServer} (h : srv.sock.plan = []) (files : List (List UInt8)) :
    (files.foldl p.sent srv).sock.accepted.length = srv.sock.accepted.length +
      (p.host.sizeofBlockDesc * ((files.flatMap p.chunks).length + files.length) +
        ((misses p.hashFunction srv.blocks.cache (files.flatMap p.chunks)).map List.length).sum) := by
  rw [(p.foldl_sent h files).2.1, List.length_append, length_emit, length_flatMap_fileItems, blocksOf_files,
    missing_entries]

theorem data_entries (c : ByteCache) (bs : List (List UInt8)) :
    ((p.entries c bs).map p.transmission).filterMap (fun t => t.data.map Write.buf) = misses p.hashFunction c bs := by
  induction bs generalizing c with
  | nil => rfl
  | cons b bs ih =>
    rw [entries, List.map_cons, List.filterMap_cons, ih, misses]
    cases hh : hit p.hashFunction c b <;> rfl

/-- The different blocks of the files, each counted once. -/
def distinctBytes (files : List (List UInt8)) : ℕ := ∑ b ∈ (files.flatMap p.chunks).toFinset, b.length

/-- A fresh server writes the data of every different block at least once, and of each of them only once if and only
if between two occurrences of a block there is none with the same number and other bytes. -/
theorem traffic_once_iff {files : List (List UInt8)} {ns : List (ℤ × List UInt8)} {srv : RabinServer}
    (hr : p.sendFiles (.fresh []) files = some (ns, srv)) :
    (∀ b ∈ files.flatMap p.chunks, b ∈ (transmissions srv.sock.log).filterMap fun t => t.data.map Write.buf) ∧
      p.host.sizeofBlockDesc * ((files.flatMap p.chunks).length + files.length) + p.distinctBytes files ≤
        srv.sock.accepted.length ∧
      (((transmissions srv.sock.log).filterMap fun t => t.data.map Write.buf).Nodup ↔
        srv.sock.accepted.length =
          p.host.sizeofBlockDesc * ((files.flatMap p.chunks).length + files.length) + p.distinctBytes files) ∧
      (srv.sock.accepted.length =
          p.host.sizeofBlockDesc * ((files.flatMap p.chunks).length + files.length) + p.distinctBytes files ↔
        ∀ us b ms ws, files.flatMap p.chunks = us ++ b :: (ms ++ b :: ws) →
          ∀ b' ∈ ms, p.hashFunction b' = p.hashFunction b → b' = b) := by
  have hplan : (RabinServer.fresh []).sock.plan = [] := rfl
  have hlen := p.length_accepted_foldl_sent hplan files
  have hzero : (RabinServer.fresh []).sock.accepted.length = 0 := rfl
  have hcache : (RabinServer.fresh []).blocks.cache = fun _ => none := rfl
  have hpos : ∀ b ∈ files.flatMap p.chunks, 0 < b.length := fun b hb => by
    obtain ⟨f, -, hb⟩ := List.mem_flatMap.1 hb
    exact (p.mem_chunks f hb).1
  have hdata : (transmissions srv.sock.log).filterMap (fun t => t.data.map Write.buf) =
      misses p.hashFunction (fun _ => none) (files.flatMap p.chunks) := by
    have hts := transmissions_foldl_sent (p := p) hplan files
    rw [← p.sendFiles_eq hr] at hts
    rw [hts]
    exact p.data_entries _ _
  rw [← p.sendFiles_eq hr, hzero, hcache, Nat.zero_add] at hlen
  rw [hlen, hdata, distinctBytes, Nat.add_left_cancel_iff, sum_eq_misses_iff _ hpos]
  exact ⟨fun b hb => mem_misses.2 hb, Nat.add_le_add_left (sum_le_misses _ _) _, nodup_misses_iff _, Iff.rfl⟩

theorem traffic_once_small :
    ∃ ns srv, small.sendFiles (.fresh []) [[97], [98], [97]] = some (ns, srv) ∧
      srv.sock.accepted.length = 13 * 6 + 2 := by
  have hf : ∀ f ∈ ([[97], [98], [97]] : List (List UInt8)), f.length < 2 ^ 32 := by decide
  obtain ⟨ns, h⟩ := small.exists_sendFiles hf (.fresh [])
  have hbs : ([[97], [98], [97]] : List (List UInt8)).flatMap small.chunks = [[97], [98], [97]] := by decide
  have hinj : ∀ b ∈ ([[97], [98], [97]] : List (List UInt8)), ∀ b' ∈ ([[97], [98], [97]] : List (List UInt8)),
      small.hashFunction b' = small.hashFunction b → b' = b := by decide
  refine ⟨ns, _, h, ((small.traffic_once_iff h).2.2.2.2 ?_).trans ?_⟩
  · rw [hbs]
    intro us b ms ws he b' hb'
    exact hinj b (by rw [he]; simp) b' (by rw [he]; simp [hb'])
  · rw [distinctBytes, hbs]
    rfl

/-! ### The blocks around an edit -/

section
variable {p} {a x y t : List UInt8}

theorem exists_before (a x y t : List UInt8) :
    ∃ pre post post', p.chunks (a ++ x ++ t) = pre ++ post ∧ p.chunks (a ++ y ++ t) = pre ++ post' ∧
      pre.flatten.length ≤ a.length ∧ a.length ≤ pre.flatten.length + maxBytes := by
  have hbelow : ∀ i < a.length, i ∈ p.cuts (a ++ x ++ t) ↔ i ∈ p.cuts (a ++ y ++ t) := by
    refine (p.chunked_cuts _).below (p.chunked_cuts _) (by simp) (by simp) fun k hk => ?_
    rw [List.append_assoc, List.append_assoc, hashZero_append_left hk, hashZero_append_left hk]
  rcases Nat.eq_zero_or_pos a.length with h0 | hpos
  · exact ⟨[], _, _, rfl, rfl, by simp, by simp [h0]⟩
  · obtain ⟨c, hc, hstart, hnear⟩ :=
      (p.chunked_cuts (a ++ x ++ t)).exists_near (by decide) (by decide) hpos (by simp)
    rcases hstart with rfl | hf
    · exact ⟨[], _, _, rfl, rfl, by simp, by simpa using hnear⟩
    · have htake (z : List UInt8) : (a ++ z ++ t).take c = a.take c := by
        rw [List.append_assoc, List.take_append_of_le_length (Nat.le_of_lt hc)]
      obtain ⟨pre, post, post', h1, h2, h3⟩ := chunks_before hf ((hbelow c hc).1 hf)
        ((htake x).trans (htake y).symm) fun i hi => hbelow i (Nat.lt_trans hi hc)
      have hlen : pre.flatten.length = c := by
        rw [h3, htake, List.length_take_of_le (Nat.le_of_lt hc)]
      exact ⟨pre, post, post', h1, h2, by omega, by omega⟩

theorem exists_behind (a x y : List UInt8) {j : ℕ} (h2 : 2 ≤ j) (hj : j ≤ t.length)
    (hz : j < t.length → p.HashZero t j) :
    ∃ pre pre' post, p.chunks (a ++ x ++ t) = pre ++ post ∧ p.chunks (a ++ y ++ t) = pre' ++ post ∧
      post.flatten.length + j = t.length := by
  rcases Nat.eq_or_lt_of_le hj with rfl | hlt
  · exact ⟨_, _, [], (List.append_nil _).symm, (List.append_nil _).symm, Nat.zero_add _⟩
  · have hshift (z : List UInt8) (k : ℕ) (hk : 2 ≤ k) :
        p.HashZero (a ++ z ++ t) ((a ++ z).length + k) ↔ p.HashZero t k := hashZero_append_right hk
    have hcut (z : List UInt8) : (a ++ z).length + j ∈ p.cuts (a ++ z ++ t) :=
      (p.chunked_cuts _ _).2 ⟨by omega, by simp only [List.length_append]; omega, .inl ((hshift z j h2).2 (hz hlt))⟩
    have hsync : ∀ k, j ≤ k →
        ((a ++ x).length + k ∈ p.cuts (a ++ x ++ t) ↔ (a ++ y).length + k ∈ p.cuts (a ++ y ++ t)) := by
      refine (p.chunked_cuts _).resync (p.chunked_cuts _) (hcut x) (hcut y) (fun k => ?_) fun k hk => ?_
      · simp only [List.length_append]
        omega
      · exact (hshift x k (by omega)).trans (hshift y k (by omega)).symm
    obtain ⟨pre, pre', post, h1, h2, h3⟩ :=
      chunks_behind (hcut x) (hcut y) (List.drop_left.trans List.drop_left.symm) hsync
    refine ⟨pre, pre', post, h1, h2, ?_⟩
    rw [h3, List.drop_left, List.length_drop]
    omega

/-- All but a stretch around the edit consists of blocks of the file before. -/
theorem exists_edited (a x y : List UInt8) {j : ℕ} (h2 : 2 ≤ j) (hj : j ≤ t.length)
    (hz : j < t.length → p.HashZero t j) :
    ∃ pre mid post, p.chunks (a ++ y ++ t) = pre ++ mid ++ post ∧
      (∀ b ∈ pre, b ∈ p.chunks (a ++ x ++ t)) ∧ (∀ b ∈ post, b ∈ p.chunks (a ++ x ++ t)) ∧
      mid.flatten.length ≤ maxBytes + y.length + j := by
  obtain ⟨pre, q, q', hf, hg, hle, hnear⟩ := exists_before (p := p) a x y t
  obtain ⟨r, r', post, hf', hg', hpost⟩ := exists_behind a x y h2 hj hz
  have hpre : ∀ b ∈ pre, b ∈ p.chunks (a ++ x ++ t) := fun b hb => hf ▸ List.mem_append_left _ hb
  have hpost' : ∀ b ∈ post, b ∈ p.chunks (a ++ x ++ t) := fun b hb => hf' ▸ List.mem_append_right _ hb
  have hlen := congrArg List.length (p.flatten_chunks (a ++ y ++ t))
  rw [hg', List.flatten_append] at hlen
  simp only [List.length_append] at hlen
  rcases List.append_eq_append_iff.1 (hg.symm.trans hg') with ⟨mid, rfl, -⟩ | ⟨m, rfl, -⟩
  · refine ⟨pre, mid, post, hg', hpre, hpost', ?_⟩
    rw [List.flatten_append, List.length_append] at hlen
    omega
  · exact ⟨r', [], post, by rw [List.append_nil]; exact hg', fun b hb => hpre b (List.mem_append_left _ hb),
      hpost', Nat.zero_le _⟩

end

/-- `send_file` of a file that differs from the file before in one place, where `y` stands for `x`. If no two blocks
of the files that differ share a number, what is written besides the descriptors is at most a block's length
before the place, and what is behind it up to the next zero fingerprint. -/
theorem edit_cost {srv srv₁ srv₂ : RabinServer} (hplan : srv.sock.plan = []) {a x y t : List UInt8} {n₁ n₂ : ℤ}
    (h₁ : p.sendFile srv (a ++ x ++ t) = some (n₁, srv₁)) (h₂ : p.sendFile srv₁ (a ++ y ++ t) = some (n₂, srv₂))
    (hinj : ∀ b ∈ p.chunks (a ++ x ++ t), ∀ b' ∈ p.chunks (a ++ x ++ t) ++ p.chunks (a ++ y ++ t),
      p.hashFunction b' = p.hashFunction b → b' = b)
    {j : ℕ} (h2 : 2 ≤ j) (hj : j ≤ t.length) (hz : j < t.length → p.HashZero t j) :
    srv₂.sock.accepted.length ≤ srv₁.sock.accepted.length +
      (p.host.sizeofBlockDesc * ((p.chunks (a ++ y ++ t)).length + 1) + (maxBytes + y.length + j)) := by
  have hs₁ := p.length_lt_of_sendFile _ h₁
  have hs₂ := p.length_lt_of_sendFile _ h₂
  rw [p.sendFile_eq_sent hs₁, Option.some.injEq, Prod.mk.injEq] at h₁
  rw [p.sendFile_eq_sent hs₂, Option.some.injEq, Prod.mk.injEq] at h₂
  obtain ⟨-, rfl⟩ := h₁
  obtain ⟨-, rfl⟩ := h₂
  obtain ⟨pre, mid, post, hg, hpre, hpost, hmid⟩ := exists_edited (p := p) a x y h2 hj hz
  have hcache : (p.sent srv (a ++ x ++ t)).blocks.cache =
      learnAll p.hashFunction srv.blocks.cache (p.chunks (a ++ x ++ t)) := p.cache_offerAll srv _
  -- the blocks of the first file are all held, and stay
  have hheld : ∀ b ∈ p.chunks (a ++ x ++ t),
      hit p.hashFunction (p.sent srv (a ++ x ++ t)).blocks.cache b = true := by
    rw [hcache, hit_learnAll_iff]
    exact fun b hb b' hb' hk => (hinj b hb b' (List.mem_append_left _ hb') hk.symm).symm
  obtain ⟨hnil, hsame⟩ := misses_eq_nil fun b hb => hheld b (hpre b hb)
  have hstay : ∀ b ∈ post, hit p.hashFunction
      (learnAll p.hashFunction (p.sent srv (a ++ x ++ t)).blocks.cache mid) b = true := fun b hb =>
    hit_learnAll (hheld b (hpost b hb)) fun b' hb' =>
      hinj b (hpost b hb) b' (List.mem_append_right _ (by rw [hg]; simp [hb']))
  have hmiss : misses p.hashFunction (p.sent srv (a ++ x ++ t)).blocks.cache (p.chunks (a ++ y ++ t)) =
      misses p.hashFunction (p.sent srv (a ++ x ++ t)).blocks.cache mid := by
    rw [hg, misses_append, misses_append, hnil, hsame, learnAll_append, hsame, (misses_eq_nil hstay).1]
    simp
  have hlen := p.length_accepted_foldl_sent (p.plan_sent hplan (a ++ x ++ t)) [a ++ y ++ t]
  rw [List.foldl_cons, List.foldl_nil, List.flatMap_singleton, hmiss] at hlen
  rw [hlen, List.length_singleton]
  have hsum : ((misses p.hashFunction (p.sent srv (a ++ x ++ t)).blocks.cache mid).map List.length).sum ≤
      mid.flatten.length := by
    rw [List.length_flatten]
    exact ((misses_sublist mid).map List.length).sum_le_sum fun _ _ => Nat.zero_le _
  omega

theorem edit_cost_small :
    let a : List UInt8 := List.replicate 200 100
    let t : List UInt8 := List.replicate 30 102 ++ [105, 105, 105] ++ List.replicate 200 101
    ∃ n₁ n₂ srv₁ srv₂, x64.sendFile (.fresh []) (a ++ [] ++ t) = some (n₁, srv₁) ∧
      x64.sendFile srv₁ (a ++ [103] ++ t) = some (n₂, srv₂) ∧
      srv₂.sock.accepted.length ≤ srv₁.sock.accepted.length + (13 * 9 + (64 + 1 + 32)) := by
  intro a t
  have h₁ : x64.sendFile (.fresh []) (a ++ [] ++ t) = _ := x64.sendFile_eq_sent (by decide +kernel)
  have h₂ : x64.sendFile (x64.sent (.fresh []) (a ++ [] ++ t)) (a ++ [103] ++ t) = _ :=
    x64.sendFile_eq_sent (by decide +kernel)
  let d : List UInt8 := List.replicate 64 100
  let e : List UInt8 := List.replicate 64 101
  have hbs : x64.chunks (a ++ [] ++ t) = [d, d, d, List.replicate 8 100 ++ List.replicate 30 102 ++ [105, 105],
      105 :: List.replicate 63 101, e, e, List.replicate 9 101] := by decide +kernel
  have hbs' : x64.chunks (a ++ [103] ++ t) = [d, d, d,
      List.replicate 8 100 ++ 103 :: List.replicate 30 102 ++ [105, 105], 105 :: List.replicate 63 101, e, e,
      List.replicate 9 101] := by decide +kernel
  have hinj : ∀ b ∈ x64.chunks (a ++ [] ++ t), ∀ b' ∈ x64.chunks (a ++ [] ++ t) ++ x64.chunks (a ++ [103] ++ t),
      x64.hashFunction b' = x64.hashFunction b → b' = b := by
    rw [hbs, hbs']
    decide +kernel
  have h := x64.edit_cost rfl h₁ h₂ hinj (show 2 ≤ 32 by decide) (by decide +kernel) fun _ => by decide +kernel
  rw [hbs'] at h
  exact ⟨_, _, _, _, h₁, h₂, h⟩

/-! ### The cost of a file -/

def zeros (file : List UInt8) : ℕ := (List.range' 2 (file.length - 2)).countP fun i => p.HashZero file i

/-- A cut is paid for by a zero fingerprint or by the 64 bytes before it. -/
theorem length_cutsFrom (file : List UInt8) {n i prev : ℕ} (h : prev ≤ i) :
    maxBytes * (p.cutsFrom file n i prev).length + prev ≤
      maxBytes * (List.range' i n).countP (fun i => p.HashZero file i) + (i + n) := by
  induction n generalizing i prev with
  | zero => simpa [cutsFrom] using h
  | succ n ih =>
    have hcut := ih (show i ≤ i + 1 from Nat.le_succ i)
    have hskip := ih (show prev ≤ i + 1 from Nat.le_succ_of_le h)
    rw [List.range'_succ, cutsFrom]
    by_cases hz : p.HashZero file i
    · have hc : p.IsCut file prev i := .inl hz
      rw [if_pos hc, List.countP_cons_of_pos (by simpa using hz), List.length_cons, Nat.mul_succ, Nat.mul_succ]
      omega
    · rw [List.countP_cons_of_neg (by simpa using hz)]
      split
      · rename_i hc
        have hfar : prev + maxBytes ≤ i := hc.resolve_left hz
        rw [List.length_cons, Nat.mul_succ]
        omega
      · omega

theorem length_chunks_le_zeros (file : List UInt8) :
    (p.chunks file).length ≤ p.zeros file + (file.length / maxBytes + 1) := by
  have h1 := p.length_cutsFrom file (n := file.length - 2) (Nat.zero_le 2)
  have h2 := length_cutAt_le file 0 (p.cuts file)
  rw [chunks]
  unfold maxBytes at *
  rw [← cuts, ← zeros] at h1
  omega

theorem length_le_chunks (file : List UInt8) : file.length ≤ maxBytes * (p.chunks file).length := by
  have h : (p.chunks file).flatten.length ≤ (p.chunks file).length * maxBytes := by
    rw [List.length_flatten, ← List.length_map (f := List.length)]
    exact List.sum_le_card_nsmul _ _ fun n hn => by
      obtain ⟨b, hb, rfl⟩ := List.mem_map.1 hn
      exact (p.mem_chunks file hb).2
  rwa [p.flatten_chunks, Nat.mul_comm] at h

/-- What a file costs, whatever the cache holds. -/
theorem file_cost {srv srv' : RabinServer} (hplan : srv.sock.plan = []) {file : List UInt8} {n : ℤ}
    (hr : p.sendFile srv file = some (n, srv')) :
    srv.sock.accepted.length + p.host.sizeofBlockDesc * ((file.length + 63) / 64 + 1) ≤
        srv'.sock.accepted.length ∧
      srv'.sock.accepted.length ≤ srv.sock.accepted.length +
        (p.host.sizeofBlockDesc * (p.zeros file + file.length / 64 + 2) + file.length) := by
  have hs := p.length_lt_of_sendFile _ hr
  rw [p.sendFile_eq_sent hs, Option.some.injEq, Prod.mk.injEq] at hr
  obtain ⟨-, rfl⟩ := hr
  have hlen := p.length_accepted_foldl_sent hplan [file]
  rw [List.foldl_cons, List.foldl_nil, List.flatMap_singleton, List.length_singleton] at hlen
  have hmiss : ((misses p.hashFunction srv.blocks.cache (p.chunks file)).map List.length).sum ≤ file.length := by
    conv_rhs => rw [← p.flatten_chunks file, List.length_flatten]
    exact ((misses_sublist _).map List.length).sum_le_sum fun _ _ => Nat.zero_le _
  have hlow := p.length_le_chunks file
  have hhigh := p.length_chunks_le_zeros file
  unfold maxBytes at hlow hhigh
  rw [hlen]
  constructor
  · have := Nat.mul_le_mul_left p.host.sizeofBlockDesc
      (show (file.length + 63) / 64 + 1 ≤ (p.chunks file).length + 1 by omega)
    omega
  · have := Nat.mul_le_mul_left p.host.sizeofBlockDesc
      (show (p.chunks file).length + 1 ≤ p.zeros file + file.length / 64 + 2 by omega)
    omega

theorem file_cost_small :
    ∃ n srv, x64.sendFile (.fresh []) threeBlocks = some (n, srv) ∧ 13 * 3 ≤ srv.sock.accepted.length ∧
      srv.sock.accepted.length ≤ 13 * 4 + 74 := by
  have h : x64.sendFile (.fresh []) threeBlocks = _ := x64.sendFile_eq_sent (by decide)
  have hzeros : x64.zeros threeBlocks = 1 := by decide +kernel
  have hcost := x64.file_cost rfl h
  rw [hzeros] at hcost
  exact ⟨_, _, h, hcost.1, hcost.2⟩

end Params
end Rabin
