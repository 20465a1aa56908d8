import Rabin.Decode

/-!
# A connection between the two

A server and a client with the same parameters. `absorb` is what a frame does to the client's map; a
run of block frames is taken up block by block (`receiveLoop_blocks`), and `receiveFile` ends with the
final descriptor (`receiveFile_whole`) or where the stream stops inside a frame (`receiveFile_short`).
-/

namespace Rabin
open Reads Mirror

theorem ofNat_succ_add (n : UInt32) (k : ℕ) : n + 1 + UInt32.ofNat k = n + UInt32.ofNat (k + 1) := by
  rw [UInt32.ofNat_add, UInt32.add_assoc, UInt32.add_comm 1]; rfl

/-- What `receive_block` has to come back with. -/
def Yields : Item → Got → Prop
  | .block b, got => ∃ blk, got = .block blk ∧ blk.data = b
  | .eof, got => got = .eof

theorem Yields.ne_lost {i : Item} {got : Got} (hy : Yields i got) : got ≠ .lost := by
  rintro rfl
  cases i with
  | block b =>
    obtain ⟨_, h, -⟩ := hy
    cases h
  | eof => cases hy

namespace Params
variable (p : Params) {c : ByteCache} {m : Blocks} {conn : Conn UInt8} {ts ts' : List (Option UInt8)}

theorem hashFunction_lt (b : List UInt8) : p.hashFunction b < 2 ^ 32 :=
  Nat.lt_of_le_of_lt (Nat.mod_le _ _) (djb2 5381 (b ++ [0])).toNat_lt

/-- The client's map after the frame a server with the cache `c` sends for `b`. -/
def absorb (c : ByteCache) (m : Blocks) (b : List UInt8) : Blocks :=
  if hit p.hashFunction c b then m else m.insertBlock b (p.hashFunction b)

def absorbAll : ByteCache → Blocks → List (List UInt8) → Blocks
  | _, m, [] => m
  | c, m, b :: bs => absorbAll (learn p.hashFunction c b) (p.absorb c m b) bs

/-- The sizes `send_file` cuts to. -/
def Sized (b : List UInt8) : Prop := 0 < b.length ∧ b.length ≤ maxBytes

theorem Sized.lt {b : List UInt8} (h : Sized b) : b.length < 2 ^ 32 :=
  Nat.lt_of_le_of_lt h.2 (by decide)

theorem cache_absorb {b : List UInt8} (h : hit p.hashFunction c b = true → hit p.hashFunction m.cache b = true) :
    (p.absorb c m b).cache = learn p.hashFunction m.cache b := by
  unfold absorb
  split
  · rename_i hc
    rw [learn_of_hit (h hc)]
  · exact Blocks.cache_put ..

theorem cache_absorbAll {bs : List (List UInt8)} (h : Decodable p.hashFunction c m.cache bs) :
    (p.absorbAll c m bs).cache = learnAll p.hashFunction m.cache bs := by
  induction bs generalizing c m with
  | nil => rfl
  | cons b bs ih =>
    obtain ⟨h1, h2⟩ := h
    rw [← cache_absorb p h1] at h2
    rw [absorbAll, ih h2, cache_absorb p h1, learnAll_cons]

theorem receiveBlock_frame {b : List UInt8} (hb : Sized b)
    (hd : hit p.hashFunction c b = true → hit p.hashFunction m.cache b = true)
    (ht : tokens conn = (p.frame c b).map some ++ ts) :
    ∃ conn' blk, tokens conn' = ts ∧ blk.data = b ∧
      p.host.receiveBlock m conn = (.block blk, p.absorb c m b, conn') := by
  have hn := p.hashFunction_lt b
  by_cases hc : hit p.hashFunction c b = true
  · have hf : p.frame c b = (BlockDesc.hton p.host (p.hashFunction b) b.length true).image p.host := by
      rw [frame, header, hc, if_pos rfl, List.append_nil]
    rw [hf] at ht
    obtain ⟨conn', h1, h2⟩ := p.host.receiveBlock_old (m := m) hn hb.1 hb.lt ht
    obtain ⟨blk, h3, -, h4⟩ := Blocks.cache_eq_some (hit_iff.1 (hd hc))
    refine ⟨conn', blk, h1, h4, ?_⟩
    rw [h2, Blocks.getBlock, h3, absorb, if_pos hc]
  · have hf : p.frame c b = (BlockDesc.hton p.host (p.hashFunction b) b.length false).image p.host ++ b := by
      rw [frame, header, if_neg hc, Bool.eq_false_iff.2 hc]
    rw [hf] at ht
    obtain ⟨conn', h1, h2⟩ := p.host.receiveBlock_new (m := m) hn hb.1 hb.lt ht
    exact ⟨conn', _, h1, rfl, by rw [h2, absorb, if_neg hc]⟩

theorem receiveBlock_absent {b : List UInt8} (hb : Sized b) (hc : hit p.hashFunction c b = true)
    (hm : m.get (p.hashFunction b) = none) (ht : tokens conn = (p.frame c b).map some ++ ts) :
    ∃ conn', tokens conn' = ts ∧ p.host.receiveBlock m conn = (.outOfRange, m, conn') := by
  rw [frame, header, hc, if_pos rfl, List.append_nil] at ht
  obtain ⟨conn', h1, h2⟩ := p.host.receiveBlock_old (m := m) (p.hashFunction_lt b) hb.1 hb.lt ht
  exact ⟨conn', h1, by rw [h2, Blocks.getBlock, hm]⟩

theorem receiveBlock_eof (ht : tokens conn = p.eofFrame.map some ++ ts) :
    ∃ conn', tokens conn' = ts ∧ p.host.receiveBlock m conn = (.eof, m, conn') := by
  obtain ⟨conn', h1, h2⟩ := p.host.receiveBlock_desc (m := m) (by decide) (by decide) ht
  exact ⟨conn', h1, h2⟩

/-- The frame an item is sent as. -/
def itemFrame (c : ByteCache) : Item → List UInt8
  | .block b => p.frame c b
  | .eof => p.eofFrame

theorem frames_take (c : ByteCache) (is : List Item) (k : ℕ) :
    (p.frames c is).take k = p.frames c (is.take k) := by
  induction is generalizing c k with
  | nil => simp [frames]
  | cons i is ih =>
    cases k with
    | zero => rfl
    | succ k => cases i <;> simp only [frames, List.take_succ_cons, ih]

theorem getElem?_frames (c : ByteCache) (is : List Item) (k : ℕ) :
    (p.frames c is)[k]? = is[k]?.map (p.itemFrame (p.after c (is.take k))) := by
  induction is generalizing c k with
  | nil => rfl
  | cons i is ih =>
    cases k with
    | zero => cases i <;> rfl
    | succ k => cases i <;> exact ih _ _

/-- The stream stops inside a frame: what there is of it is lost. -/
theorem receiveBlock_short {i : Item} {q : List UInt8} (hi : ∀ b, i = .block b → Sized b)
    (hq : q <+: p.itemFrame c i) (hlt : q.length < (p.itemFrame c i).length)
    (ht : tokens conn = q.map some ++ ts) (hs : Stops ts ts') :
    ∃ conn', tokens conn' = ts' ∧ p.host.receiveBlock m conn = (.lost, m, conn') := by
  by_cases hd : q.length < p.host.sizeofBlockDesc
  · exact p.host.receiveBlock_short_desc hd ht hs
  · cases i with
    | eof =>
      have := p.length_eofFrame
      exact absurd hlt (by simp only [itemFrame]; omega)
    | block b =>
      have hh : p.header c b <+: p.itemFrame c (.block b) := List.prefix_append ..
      obtain ⟨q', rfl⟩ := List.prefix_of_prefix_length_le hh hq (by rw [length_header]; omega)
      simp only [itemFrame, frame, List.length_append] at hlt
      by_cases hc : hit p.hashFunction c b = true
      · simp [hc] at hlt
      · rw [if_neg hc] at hlt
        rw [header, Bool.eq_false_iff.2 hc] at ht
        exact p.host.receiveBlock_short_data (p.hashFunction_lt b) (by omega) (hi b rfl).lt ht hs

/-- The map after the frame of one item. -/
def takeUp (m : Blocks) : Item → Blocks
  | .block b => p.absorb m.cache m b
  | .eof => m

theorem cache_takeUp (m : Blocks) (i : Item) (is : List Item) :
    p.after (p.takeUp m i).cache is = p.after m.cache (i :: is) := by
  cases i with
  | block b => rw [takeUp, cache_absorb p id, after_block]
  | eof => rfl

theorem emit_takeUp (m : Blocks) (i : Item) (is : List Item) :
    p.emit m.cache (i :: is) = p.itemFrame m.cache i ++ p.emit (p.takeUp m i).cache is := by
  cases i with
  | block b => rw [takeUp, cache_absorb p id]; rfl
  | eof => rfl

theorem frames_takeUp (m : Blocks) (i : Item) (is : List Item) :
    p.frames m.cache (i :: is) = p.itemFrame m.cache i :: p.frames (p.takeUp m i).cache is := by
  cases i with
  | block b => rw [takeUp, cache_absorb p id]; rfl
  | eof => rfl

theorem sizeofBlockDesc_le_itemFrame (c : ByteCache) (i : Item) :
    p.host.sizeofBlockDesc ≤ (p.itemFrame c i).length := by
  cases i with
  | block b => rw [itemFrame, frame, List.length_append, length_header]; exact Nat.le_add_right ..
  | eof => rw [itemFrame, length_eofFrame]

theorem itemFrame_pos (c : ByteCache) (i : Item) : 0 < (p.itemFrame c i).length :=
  Nat.lt_of_lt_of_le p.host.sizeofBlockDesc_pos (p.sizeofBlockDesc_le_itemFrame c i)

theorem receiveBlock_item {i : Item} (hi : ∀ b, i = .block b → Sized b)
    (ht : tokens conn = (p.itemFrame m.cache i).map some ++ ts) :
    ∃ got conn', tokens conn' = ts ∧ Yields i got ∧ p.host.receiveBlock m conn = (got, p.takeUp m i, conn') := by
  cases i with
  | block b =>
    obtain ⟨conn', blk, h1, h2, h3⟩ := p.receiveBlock_frame (hi b rfl) id ht
    exact ⟨_, conn', h1, ⟨blk, rfl, h2⟩, h3⟩
  | eof =>
    obtain ⟨conn', h1, h2⟩ := p.receiveBlock_eof (m := m) ht
    exact ⟨_, conn', h1, rfl, h2⟩

theorem sized_of_cons {i : Item} {is : List Item} (h : ∀ b, .block b ∈ i :: is → Sized b) :
    (∀ b, i = .block b → Sized b) ∧ ∀ b, .block b ∈ is → Sized b := by
  refine ⟨?_, fun b hb => h b (List.mem_cons_of_mem _ hb)⟩
  rintro b rfl
  exact h b (List.mem_cons_self ..)

/-- The stream behind `taken` bytes and the server's cache, both seen from a reader with the cache `c` that has
read `part` of the next frame: what the server adds comes behind `is`. -/
theorem stream_append {srv srv' : RabinServer} {is js : List Item} {part : List UInt8} {taken : ℕ}
    (ht : taken ≤ srv.sock.accepted.length) (hb : part ++ srv.sock.accepted.drop taken = p.emit c is)
    (hc : srv.blocks.cache = p.after c is)
    (hacc : srv'.sock.accepted = srv.sock.accepted ++ p.emit srv.blocks.cache js)
    (hcache : srv'.blocks.cache = p.after srv.blocks.cache js) :
    taken ≤ srv'.sock.accepted.length ∧ part ++ srv'.sock.accepted.drop taken = p.emit c (is ++ js) ∧
      srv'.blocks.cache = p.after c (is ++ js) := by
  refine ⟨?_, ?_, ?_⟩
  · rw [hacc, List.length_append]
    exact Nat.le_add_right_of_le ht
  · rw [hacc, List.drop_append_of_le_length ht, ← List.append_assoc, hb, emit_append, ← hc]
  · rw [hcache, hc, after_append]

/-! ### `receiveFile` -/

theorem receiveLoop_blocks {bs : List (List UInt8)} (hb : ∀ b ∈ bs, Sized b)
    (hd : Decodable p.hashFunction c m.cache bs)
    (ht : tokens conn = (p.emit c (bs.map .block)).map some ++ ts) :
    ∃ conn', tokens conn' = ts ∧ ∀ fuel n file, p.host.receiveLoop (fuel + bs.length) n file m conn =
      p.host.receiveLoop fuel (n + UInt32.ofNat bs.length) (file ++ bs.flatten) (p.absorbAll c m bs) conn' := by
  induction bs generalizing c m conn with
  | nil => exact ⟨conn, by simpa using ht, fun fuel n file => by simp [absorbAll]⟩
  | cons b bs ih =>
    obtain ⟨hd1, hd2⟩ := hd
    rw [List.map_cons, emit_block, List.map_append, List.append_assoc] at ht
    obtain ⟨conn₁, blk, h1, h2, h3⟩ := p.receiveBlock_frame (hb b (by simp)) hd1 ht
    rw [← cache_absorb p hd1] at hd2
    obtain ⟨conn₂, h4, h5⟩ := ih (fun b hb' => hb b (by simp [hb'])) hd2 h1
    refine ⟨conn₂, h4, fun fuel n file => ?_⟩
    rw [List.length_cons, ← Nat.add_assoc, Host.receiveLoop, h3]
    dsimp only
    rw [h5, h2, absorbAll, ofNat_succ_add, List.flatten_cons, List.append_assoc]

theorem receiveFile_whole {bs : List (List UInt8)} (hb : ∀ b ∈ bs, Sized b)
    (hd : Decodable p.hashFunction c m.cache bs)
    (ht : tokens conn = (p.emit c (bs.map .block ++ [.eof])).map some ++ ts) :
    ∃ conn', tokens conn' = ts ∧ p.host.receiveFile m conn =
      some ⟨.eof, bs.flatten, UInt32.ofNat (bs.length + 1), p.absorbAll c m bs, conn'⟩ := by
  rw [emit_append, emit_eof, emit_nil, List.append_nil, List.map_append, List.append_assoc] at ht
  obtain ⟨conn₁, h1, h2⟩ := p.receiveLoop_blocks hb hd ht
  obtain ⟨conn₂, h3, h4⟩ := p.receiveBlock_eof (m := p.absorbAll c m bs) h1
  have hrun := h2 1 0 []
  rw [Host.receiveLoop, h4] at hrun
  refine ⟨conn₂, h3, ?_⟩
  rw [p.host.receiveFile_of_loop hrun, UInt32.ofNat_add, UInt32.zero_add]
  rfl

theorem receiveFile_short {bs : List (List UInt8)} {i : Item} {q : List UInt8} (hb : ∀ b ∈ bs, Sized b)
    (hd : Decodable p.hashFunction c m.cache bs) (hi : ∀ b, i = .block b → Sized b)
    (hq : q <+: p.itemFrame (learnAll p.hashFunction c bs) i)
    (hlt : q.length < (p.itemFrame (learnAll p.hashFunction c bs) i).length)
    (ht : tokens conn = (p.emit c (bs.map .block) ++ q).map some ++ ts) (hs : Stops ts ts') :
    ∃ conn', tokens conn' = ts' ∧ p.host.receiveFile m conn =
      some ⟨.lost, bs.flatten, UInt32.ofNat (bs.length + 1), p.absorbAll c m bs, conn'⟩ := by
  rw [List.map_append, List.append_assoc] at ht
  obtain ⟨conn₁, h1, h2⟩ := p.receiveLoop_blocks hb hd ht
  obtain ⟨conn₂, h3, h4⟩ := p.receiveBlock_short (m := p.absorbAll c m bs) hi hq hlt h1 hs
  have hrun := h2 1 0 []
  rw [Host.receiveLoop, h4] at hrun
  refine ⟨conn₂, h3, ?_⟩
  rw [p.host.receiveFile_of_loop hrun, UInt32.ofNat_add, UInt32.zero_add]
  rfl

theorem sized_of_mem_chunks {file b : List UInt8} (h : b ∈ p.chunks file) : Sized b := p.mem_chunks file h

theorem sized_of_mem_fileItems {file b : List UInt8} (h : .block b ∈ p.fileItems file) : Sized b := by
  rcases List.mem_append.1 h with h | h
  · obtain ⟨b', hb', heq⟩ := List.mem_map.1 h
    cases heq
    exact p.sized_of_mem_chunks hb'
  · cases List.mem_singleton.1 h

end Params
end Rabin
