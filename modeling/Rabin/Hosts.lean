import Rabin.Partial

/-!
# A server and a client on different hosts

`htonl` and `ntohl` make `block_num` independent of the byte orders of the two hosts. `data_size` goes
through the same 32-bit calls but lies in a 64-bit field, which each host lays out in its own order.
-/

namespace Rabin
open Reads

namespace Host
variable {s c : Host}

theorem descOf_hton (hw : s.sizeofSizeT = c.sizeofSizeT) {num size : ℕ} {old : Bool} (hn : num < 2 ^ 32) :
    c.descOf ((BlockDesc.hton s num size old).image s) =
      ⟨num, c.ntohl (c.order.load (s.order.store s.sizeofSizeT (s.htonl size))), old⟩ := by
  have hall : ((BlockDesc.hton s num size old).image s).take c.sizeofBlockDesc =
      (BlockDesc.hton s num size old).image s :=
    List.take_of_length_le (by rw [BlockDesc.length_image, sizeofBlockDesc, sizeofBlockDesc, hw])
  have hnum : c.ntohl (c.order.load (s.order.store 4 (s.htonl num))) = num :=
    (ByteOrder.ntoh_load_store_hton_self 4 num).trans (Nat.mod_eq_of_lt hn)
  unfold descOf
  rw [hall, BlockDesc.ofImage_image_of hw]
  simp only [BlockDesc.hton, hnum]

/-- The size that the client decodes: in an 8-byte field the other byte order has the 4 bytes of
`htonl` where the client's `ntohl` drops them. -/
theorem ntohl_htonl_of (hs : s.sizeofSizeT = 8) {size : ℕ} (h32 : size < 2 ^ 32) :
    c.ntohl (c.order.load (s.order.store s.sizeofSizeT (s.htonl size))) =
      if s.order = c.order then size else 0 := by
  rw [hs]
  unfold ntohl htonl
  split
  · rename_i ho
    rw [ho, ByteOrder.ntoh_load_store_hton _ (by decide)]
    exact Nat.mod_eq_of_lt h32
  · rename_i ho
    exact ByteOrder.ntoh_load_store_hton_of_ne ho (by decide) size

theorem receiveBlock_eof_iff {m : Blocks} {conn conn' : Conn UInt8} {hd : List UInt8}
    (hr : readFull c.sizeofBlockDesc conn = (some hd, conn')) (hl : hd.length = c.sizeofBlockDesc) :
    (c.receiveBlock m conn).1 = .eof ↔ (c.descOf hd).dataSize = 0 := by
  have hget (m : Blocks) (n : ℕ) : m.getBlock n ≠ .eof := by
    unfold Blocks.getBlock
    split <;> exact Got.noConfusion
  rw [descOf, ← hl, List.take_length]
  unfold receiveBlock
  rw [hr]
  refine ⟨fun he => ?_, fun h0 => congrArg Prod.fst (if_pos h0)⟩
  by_contra h0
  dsimp only at he
  rw [if_neg h0] at he
  split at he
  · split at he
    · exact Got.noConfusion he
    · exact hget _ _ he
  · exact hget _ _ he

end Host

namespace Params
variable (p : Params) {c : Host} {srv : RabinServer} {i : ℕ} {b : Block}

/-- The descriptor is the first thing that `write_block_to_client` gives to `write`. -/
theorem log_writeBlockToClient (hb : srv.blocks.get i = some b) :
    ∃ r ret, p.writeBlockToClient srv i = some r ∧ r.2.sock.log[srv.sock.log.length]? =
      some ⟨.desc b, (BlockDesc.hton p.host b.blockNum b.dataSize b.old).image p.host, ret⟩ := by
  have hlog (w w' : Write) : (srv.sock.log ++ [w] ++ [w'])[srv.sock.log.length]? = some w := by simp
  unfold writeBlockToClient
  rw [hb]
  dsimp only
  split
  · exact ⟨_, _, rfl, List.getElem?_concat_length⟩
  · split
    · exact ⟨_, _, rfl, hlog _ _⟩
    · exact ⟨_, _, rfl, List.getElem?_concat_length⟩

/-- What a client with a 64-bit `size_t` decodes of the header of a block. -/
theorem header_decoded_iff (hp : p.host.sizeofSizeT = 8) (hc : c.sizeofSizeT = 8) (hb : srv.blocks.get i = some b)
    (hn : b.blockNum < 2 ^ 32) (hs : b.dataSize < 2 ^ 32) :
    ∃ r w, p.writeBlockToClient srv i = some r ∧ r.2.sock.log[srv.sock.log.length]? = some w ∧
      w.msg = .desc b ∧ w.buf.length = 13 ∧
      (c.descOf w.buf = ⟨b.blockNum, b.dataSize, b.old⟩ ∧
          (0 < b.dataSize → ∀ m conn conn', readFull c.sizeofBlockDesc conn = (some w.buf, conn') →
            (c.receiveBlock m conn).1 ≠ .eof) ↔
        p.host.order = c.order ∨ b.dataSize = 0) := by
  obtain ⟨r, ret, hr, hw⟩ := p.log_writeBlockToClient hb
  have hlen (h : Host) (d : BlockDesc) (hh : h.sizeofSizeT = 8) : (d.image h).length = 13 := by
    rw [BlockDesc.length_image, Host.sizeofBlockDesc, hh]
  have hsize : c.sizeofBlockDesc = 13 := by rw [Host.sizeofBlockDesc, hc]
  refine ⟨r, _, hr, hw, rfl, hlen _ _ hp, ?_⟩
  have hdesc : c.descOf ((BlockDesc.hton p.host b.blockNum b.dataSize b.old).image p.host) = _ :=
    Host.descOf_hton (hp.trans hc.symm) hn
  rw [Host.ntohl_htonl_of hp hs] at hdesc
  rw [hdesc]
  constructor
  · rintro ⟨hd, -⟩
    by_cases ho : p.host.order = c.order
    · exact .inl ho
    · rw [if_neg ho] at hd
      exact .inr (congrArg BlockDesc.dataSize hd).symm
  · intro h
    have hd : (if p.host.order = c.order then b.dataSize else 0) = b.dataSize := by
      rcases h with h | h
      · exact if_pos h
      · rw [h, ite_self]
    rw [hd] at hdesc ⊢
    refine ⟨rfl, fun h0 m conn conn' hr' he => ?_⟩
    have hz := (Host.receiveBlock_eof_iff hr' ((hlen _ _ hp).trans hsize.symm)).1 he
    rw [hdesc] at hz
    exact Nat.ne_of_gt h0 hz

theorem header_decoded_iff_small :
    ∃ r w, Params.small.writeBlockToClient ⟨Blocks.empty.put (Block.ofBytes 670 false [97]), .open' []⟩ 670 = some r ∧
      r.2.sock.log[0]? = some w ∧ w.msg = .desc (Block.ofBytes 670 false [97]) ∧ w.buf.length = 13 ∧
      (Host.x64.descOf w.buf = ⟨670, 1, false⟩ ∧
          (0 < 1 → ∀ m conn conn', readFull Host.x64.sizeofBlockDesc conn = (some w.buf, conn') →
            (Host.x64.receiveBlock m conn).1 ≠ .eof) ↔
        ByteOrder.little = ByteOrder.little ∨ 1 = 0) :=
  header_decoded_iff Params.small rfl rfl (Blocks.get_put_self _ (Block.ofBytes 670 false [97]))
    (by decide) (by decide)

/-- A big-endian server sends the file "a": its block is the end of the file to a little-endian client. -/
theorem header_lost :
    ((Params.mk ⟨.big, 8, by decide, (· == 1), rfl, rfl⟩ 1000 (by decide)).sendFile (.fresh []) [97]).any (fun r =>
      (r.2.sock.log[0]?).any fun w =>
        w.msg = .desc (Block.ofBytes 670 false [97]) ∧ Host.x64.descOf w.buf = ⟨670, 0, false⟩ ∧
          (Host.x64.receiveBlock .empty [.piece r.2.sock.accepted]).1 = .eof) = true := by
  decide +kernel

end Params

end Rabin
