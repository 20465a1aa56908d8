import Rabin.Client
import Rabin.Frames

/-!
# What the client makes of the stream

`receiveBlock` on a stream that starts with a frame, and the loop of `receiveFile` on a run of them.
The server's cache `c` and the client's map `m` need not agree everywhere: it is enough that the client
can undo the hits (`Mirror.Decodable`).
-/

namespace Rabin
open Reads Mirror

namespace Host
variable (h : Host) {m : Blocks} {conn : Conn UInt8}

theorem readFull_some {n : ℕ} {bs : List UInt8} {ts : List (Option UInt8)} (hn : bs.length = n)
    (ht : tokens conn = bs.map some ++ ts) : ∃ conn', readFull n conn = (some bs, conn') ∧ tokens conn' = ts := by
  subst hn
  obtain ⟨h1, h2⟩ := readFull_eq bs.length conn
  rw [ht, takeTokens_full] at h1 h2
  exact ⟨(readFull bs.length conn).2, Prod.ext h1 rfl, h2⟩

theorem readFull_none {n : ℕ} {q : List UInt8} {ts ts' : List (Option UInt8)} (hn : q.length < n)
    (ht : tokens conn = q.map some ++ ts) (hs : Stops ts ts') :
    ∃ conn', readFull n conn = (none, conn') ∧ tokens conn' = ts' := by
  obtain ⟨h1, h2⟩ := readFull_eq n conn
  rw [ht, takeTokens_stop hn hs] at h1 h2
  exact ⟨(readFull n conn).2, Prod.ext h1 rfl, h2⟩

/-- What `receive_block` does with a descriptor, whatever its bytes are. -/
theorem receiveBlock_header {hd : List UInt8} {ts : List (Option UInt8)} (hl : hd.length = h.sizeofBlockDesc)
    (ht : tokens conn = hd.map some ++ ts) :
    ∃ conn', tokens conn' = ts ∧ h.receiveBlock m conn =
      if h.ntohl (BlockDesc.ofImage h hd).dataSize = 0 then (.eof, m, conn')
      else if !(BlockDesc.ofImage h hd).old then
        match readFull (h.ntohl (BlockDesc.ofImage h hd).dataSize) conn' with
        | (none, c) => (.lost, m, c)
        | (some buf, c) =>
          ((m.insertBlock buf (h.ntohl (BlockDesc.ofImage h hd).blockNum)).getBlock
            (h.ntohl (BlockDesc.ofImage h hd).blockNum),
            m.insertBlock buf (h.ntohl (BlockDesc.ofImage h hd).blockNum), c)
      else (m.getBlock (h.ntohl (BlockDesc.ofImage h hd).blockNum), m, conn') := by
  obtain ⟨conn', h1, h2⟩ := readFull_some hl ht
  refine ⟨conn', h2, ?_⟩
  unfold receiveBlock
  rewrite [h1]
  rfl

theorem receiveBlock_desc {num size : ℕ} {old : Bool} {ts : List (Option UInt8)} (hn : num < 2 ^ 32)
    (hs : size < 2 ^ 32)
    (ht : tokens conn = ((BlockDesc.hton h num size old).image h).map some ++ ts) :
    ∃ conn', tokens conn' = ts ∧ h.receiveBlock m conn =
      if size = 0 then (.eof, m, conn')
      else if !old then
        match readFull size conn' with
        | (none, c) => (.lost, m, c)
        | (some buf, c) => ((m.insertBlock buf num).getBlock num, m.insertBlock buf num, c)
      else (m.getBlock num, m, conn') := by
  obtain ⟨conn', h1, h2⟩ := h.receiveBlock_header (m := m) (BlockDesc.length_image h _) ht
  refine ⟨conn', h1, ?_⟩
  rewrite [BlockDesc.ntohl_blockNum h hn, BlockDesc.ntohl_dataSize h hs, BlockDesc.old_ofImage] at h2
  exact h2

theorem getBlock_insertBlock (m : Blocks) (b : List UInt8) (n : ℕ) :
    (m.insertBlock b n).getBlock n = .block (Block.ofBytes n true b) := by
  have hget : (m.insertBlock b n).get n = some (Block.ofBytes n true b) := Blocks.get_put_self ..
  rw [Blocks.getBlock, hget]

theorem receiveBlock_new {num : ℕ} {b : List UInt8} {ts : List (Option UInt8)} (hn : num < 2 ^ 32) (hb : 0 < b.length)
    (hs : b.length < 2 ^ 32)
    (ht : tokens conn = ((BlockDesc.hton h num b.length false).image h ++ b).map some ++ ts) :
    ∃ conn', tokens conn' = ts ∧
      h.receiveBlock m conn = (.block (Block.ofBytes num true b), m.insertBlock b num, conn') := by
  rw [List.map_append, List.append_assoc] at ht
  obtain ⟨c, h1, h2⟩ := h.receiveBlock_desc (m := m) hn hs ht
  obtain ⟨conn', h3, h4⟩ := readFull_some rfl h1
  refine ⟨conn', h4, ?_⟩
  simp only [h2, Nat.ne_of_gt hb, if_false, Bool.not_false, if_true, h3, getBlock_insertBlock]

theorem receiveBlock_old {num size : ℕ} {ts : List (Option UInt8)} (hn : num < 2 ^ 32) (hb : 0 < size)
    (hs : size < 2 ^ 32)
    (ht : tokens conn = ((BlockDesc.hton h num size true).image h).map some ++ ts) :
    ∃ conn', tokens conn' = ts ∧ h.receiveBlock m conn = (m.getBlock num, m, conn') := by
  obtain ⟨conn', h1, h2⟩ := h.receiveBlock_desc (m := m) hn hs ht
  refine ⟨conn', h1, ?_⟩
  simp only [h2, Nat.ne_of_gt hb, if_false, Bool.not_true, Bool.false_eq_true]

theorem receiveBlock_short_desc {q : List UInt8} {ts ts' : List (Option UInt8)} (hq : q.length < h.sizeofBlockDesc)
    (ht : tokens conn = q.map some ++ ts) (hs : Stops ts ts') :
    ∃ conn', tokens conn' = ts' ∧ h.receiveBlock m conn = (.lost, m, conn') := by
  obtain ⟨conn', h1, h2⟩ := readFull_none hq ht hs
  exact ⟨conn', h2, by simp only [receiveBlock, h1]⟩

theorem receiveBlock_short_data {num size : ℕ} {q : List UInt8} {ts ts' : List (Option UInt8)} (hn : num < 2 ^ 32)
    (hb : q.length < size) (hs : size < 2 ^ 32)
    (ht : tokens conn = ((BlockDesc.hton h num size false).image h ++ q).map some ++ ts) (hst : Stops ts ts') :
    ∃ conn', tokens conn' = ts' ∧ h.receiveBlock m conn = (.lost, m, conn') := by
  rw [List.map_append, List.append_assoc] at ht
  obtain ⟨c, h1, h2⟩ := h.receiveBlock_desc (m := m) hn hs ht
  obtain ⟨conn', h3, h4⟩ := readFull_none hb h1 hst
  refine ⟨conn', h4, ?_⟩
  have h0 : size ≠ 0 := by omega
  simp only [h2, h0, if_false, Bool.not_false, if_true, h3]

/-! ### The loop -/

theorem getBlock_ne_lost (m : Blocks) (n : ℕ) : m.getBlock n ≠ .lost := by
  unfold Blocks.getBlock
  split
  · exact Got.noConfusion
  · exact Got.noConfusion

/-- What one call takes off the stream: one piece of it, and the stop behind it if there is one before the
frame is complete. -/
theorem receiveBlock_took {got : Got} {m' : Blocks} {conn' : Conn UInt8}
    (hr : h.receiveBlock m conn = (got, m', conn')) :
    ∃ bs : List UInt8, (got ≠ .lost ∧ 0 < bs.length ∧ tokens conn = bs.map some ++ tokens conn') ∨
      got = .lost ∧ ∃ rest, tokens conn = bs.map some ++ rest ∧ Stops rest (tokens conn') := by
  have hpos := h.sizeofBlockDesc_pos
  obtain ⟨h1, h2⟩ := readFull_eq h.sizeofBlockDesc conn
  unfold receiveBlock at hr
  split at hr
  · rename_i c hc
    rw [hc] at h1 h2
    cases hr
    obtain ⟨bs, rest, -, hts, hs⟩ := takeTokens_none h1.symm
    rw [← h2] at hs
    exact ⟨bs, .inr ⟨rfl, rest, hts, hs⟩⟩
  · rename_i bdBuf c hc
    rw [hc] at h1 h2
    obtain ⟨hlen, hts⟩ := takeTokens_some h1.symm
    rw [← h2] at hts
    dsimp only at hr
    split at hr
    · cases hr
      exact ⟨bdBuf, .inl ⟨Got.noConfusion, by omega, hts⟩⟩
    · split at hr
      · obtain ⟨h3, h4⟩ := readFull_eq (h.ntohl (BlockDesc.ofImage h bdBuf).dataSize) c
        split at hr
        · rename_i c' hc'
          rw [hc'] at h3 h4
          cases hr
          obtain ⟨bs, rest, -, hts', hs⟩ := takeTokens_none h3.symm
          rw [← h4] at hs
          refine ⟨bdBuf ++ bs, .inr ⟨rfl, rest, ?_, hs⟩⟩
          rw [hts, hts', List.map_append, List.append_assoc]
        · rename_i buf c' hc'
          rw [hc'] at h3 h4
          cases hr
          obtain ⟨-, hts'⟩ := takeTokens_some h3.symm
          rw [← h4] at hts'
          refine ⟨bdBuf ++ buf, .inl ⟨getBlock_ne_lost _ _, ?_, ?_⟩⟩
          · rw [List.length_append]
            omega
          · rw [hts, hts', List.map_append, List.append_assoc]
      · cases hr
        exact ⟨bdBuf, .inl ⟨getBlock_ne_lost _ _, by omega, hts⟩⟩

theorem receiveBlock_tokens_lt {b : Block} {m' : Blocks} {conn' : Conn UInt8}
    (hr : h.receiveBlock m conn = (.block b, m', conn')) : (tokens conn').length < (tokens conn).length := by
  rcases h.receiveBlock_took hr with ⟨bs, ⟨-, hpos, hts⟩ | ⟨hlost, -⟩⟩
  · rw [hts, List.length_append, List.length_map]
    omega
  · cases hlost

theorem receiveLoop_total {fuel : ℕ} (n : UInt32) (file : List UInt8) (hf : (tokens conn).length < fuel) :
    ∃ r, h.receiveLoop fuel n file m conn = some r := by
  induction fuel generalizing n file m conn with
  | zero => omega
  | succ fuel ih =>
    rw [receiveLoop]
    split
    · rename_i b m' c' hr
      have := h.receiveBlock_tokens_lt hr
      exact ih _ _ (by omega)
    · exact ⟨_, rfl⟩
    · exact ⟨_, rfl⟩

theorem receiveLoop_mono {fuel : ℕ} {n : UInt32} {file : List UInt8} {r : Received} (k : ℕ)
    (hr : h.receiveLoop fuel n file m conn = some r) : h.receiveLoop (fuel + k) n file m conn = some r := by
  induction fuel generalizing n file m conn with
  | zero => cases hr
  | succ fuel ih =>
    rw [Nat.succ_add, receiveLoop]
    rw [receiveLoop] at hr
    split at hr
    · exact ih hr
    · exact hr
    · exact hr

/-- `receiveFile` has the fuel it needs: it returns, and any run of the loop is its run. -/
theorem receiveFile_of_loop {fuel : ℕ} {r : Received} (hr : h.receiveLoop fuel 0 [] m conn = some r) :
    h.receiveFile m conn = some r := by
  obtain ⟨r', hr'⟩ := h.receiveLoop_total (m := m) 0 [] (Nat.lt_succ_self (tokens conn).length)
  have h1 := h.receiveLoop_mono ((tokens conn).length + 1) hr
  have h2 := h.receiveLoop_mono fuel hr'
  rw [Nat.add_comm, h1] at h2
  rw [receiveFile, hr', h2]

end Host
end Rabin
