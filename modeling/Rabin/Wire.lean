import Rabin.Lib.ByteOrder

/-!
# The block descriptor on the wire

`block_desc` is a packed struct that both sides copy to and from the socket as it lies in memory.
`Host` is what that copy depends on: the byte order, `sizeof(size_t)`, and what the compiled program
makes of a `bool` that is neither 0 nor 1, which C++ leaves undefined. The sender passes `block_num` and
`data_size` through the 32-bit `htonl`, the receiver through `ntohl`, although `data_size` is a `size_t`
field.
-/

namespace Rabin

/-- A machine the server or the client runs on, and how the program on it reads the byte of a `bool`. -/
structure Host where
  order : ByteOrder
  sizeofSizeT : ℕ
  four_le : 4 ≤ sizeofSizeT
  readBool : UInt8 → Bool
  readBool_zero : readBool 0 = false
  readBool_one : readBool 1 = true

namespace Host
variable (h : Host)

/-- The 64-bit little-endian host, with a program for which only the byte 1 is `true`. -/
def x64 : Host := ⟨.little, 8, by decide, (· == 1), rfl, rfl⟩

def htonl (n : ℕ) : ℕ := h.order.hton 4 n

def ntohl (n : ℕ) : ℕ := h.order.ntoh 4 n

/-- `sizeof(block_desc)`: an `unsigned`, a `size_t` and a `bool`, packed. -/
def sizeofBlockDesc : ℕ := 4 + h.sizeofSizeT + 1

theorem sizeofBlockDesc_pos : 0 < h.sizeofBlockDesc := Nat.succ_pos _

end Host

structure BlockDesc where
  blockNum : ℕ
  dataSize : ℕ
  old : Bool
  deriving DecidableEq, Repr

namespace BlockDesc
variable (h : Host)

/-- The descriptor in the memory of `h`. -/
def image (d : BlockDesc) : List UInt8 :=
  h.order.store 4 d.blockNum ++ h.order.store h.sizeofSizeT d.dataSize ++ [if d.old then 1 else 0]

/-- `(block_desc *)buf`. -/
def ofImage (buf : List UInt8) : BlockDesc where
  blockNum := h.order.load (buf.take 4)
  dataSize := h.order.load ((buf.drop 4).take h.sizeofSizeT)
  old := h.readBool (buf.getD (4 + h.sizeofSizeT) 0)

@[simp] theorem length_image (d : BlockDesc) : (d.image h).length = h.sizeofBlockDesc := by
  simp [image, Host.sizeofBlockDesc, Nat.add_assoc]

/-- The descriptor the server builds for a block. -/
def hton (num size : ℕ) (old : Bool) : BlockDesc := ⟨h.htonl num, h.htonl size, old⟩

/-- A host with a `size_t` as wide as the writer's finds the fields, each in its own byte order. -/
theorem ofImage_image_of {s c : Host} (hw : s.sizeofSizeT = c.sizeofSizeT) (d : BlockDesc) :
    ofImage c (d.image s) =
      ⟨c.order.load (s.order.store 4 d.blockNum), c.order.load (s.order.store s.sizeofSizeT d.dataSize), d.old⟩ := by
  have h4 : (s.order.store 4 d.blockNum).length = 4 := ByteOrder.length_store ..
  have hs : (s.order.store s.sizeofSizeT d.dataSize).length = s.sizeofSizeT := ByteOrder.length_store ..
  have hold : (d.image s).getD (4 + s.sizeofSizeT) 0 = if d.old then 1 else 0 := by
    have hlen : (s.order.store 4 d.blockNum ++ s.order.store s.sizeofSizeT d.dataSize).length =
        4 + s.sizeofSizeT := by simp
    rw [image, List.getD_eq_getElem?_getD, List.getElem?_append_right (by omega), hlen]
    simp
  simp only [ofImage, ← hw, hold]
  rw [image, List.append_assoc, List.take_left' h4, List.drop_left' h4, List.take_left' hs]
  cases d.old with
  | false => exact congrArg _ c.readBool_zero
  | true => exact congrArg _ c.readBool_one

theorem ofImage_image (d : BlockDesc) :
    ofImage h (d.image h) =
      ⟨h.order.load (h.order.store 4 d.blockNum), h.order.load (h.order.store h.sizeofSizeT d.dataSize), d.old⟩ :=
  ofImage_image_of rfl d

theorem ntohl_blockNum {num size : ℕ} {old : Bool} (hn : num < 2 ^ 32) :
    h.ntohl (ofImage h ((hton h num size old).image h)).blockNum = num := by
  rw [ofImage_image]
  show h.order.ntoh 4 (h.order.load (h.order.store 4 (h.order.hton 4 num))) = num
  rw [ByteOrder.ntoh_load_store_hton _ (Nat.le_refl 4), Nat.mod_eq_of_lt (by simpa using hn)]

theorem ntohl_dataSize {num size : ℕ} {old : Bool} (hs : size < 2 ^ 32) :
    h.ntohl (ofImage h ((hton h num size old).image h)).dataSize = size := by
  rw [ofImage_image]
  show h.order.ntoh 4 (h.order.load (h.order.store h.sizeofSizeT (h.order.hton 4 size))) = size
  rw [ByteOrder.ntoh_load_store_hton _ h.four_le, Nat.mod_eq_of_lt (by simpa using hs)]

theorem old_ofImage {num size : ℕ} {old : Bool} : (ofImage h ((hton h num size old).image h)).old = old := by
  rw [ofImage_image]; rfl

end BlockDesc

end Rabin
