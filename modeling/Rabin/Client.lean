import Rabin.Wire
import Rabin.Block
import Rabin.Lib.Reads

/-!
# `RabinClient`

The client side of the library: `receive_block`, which reads one frame and keeps the cache, and the
loop of `receive_file`. The client runs on the host `h`.
-/

namespace Rabin
open Reads

/-- What `receive_block` comes back with. `eof` (a descriptor of size 0) and `lost` (a read that
returned 0 or less) are the same `NULL` to the caller; `outOfRange` is the exception of `blocks.at`. -/
inductive Got
  | block (b : Block)
  | eof
  | lost
  | outOfRange
  deriving DecidableEq

/-- How a call of `receive_file` ended. -/
structure Received where
  /-- what the last `receive_block` came back with -/
  last : Got
  /-- the bytes written to the file -/
  file : List UInt8
  numBlocks : UInt32
  blocks : Blocks
  conn : Conn UInt8

namespace Blocks

/-- The client's `insert_block` takes the number from the descriptor. -/
def insertBlock (m : Blocks) (b : List UInt8) (bno : ℕ) : Blocks := m.put (Block.ofBytes bno true b)

/-- A copy of the block, or the exception. -/
def getBlock (m : Blocks) (b : ℕ) : Got :=
  match m.get b with
  | some blockI => .block blockI
  | none => .outOfRange

end Blocks

namespace Host
variable (h : Host)

def receiveBlock (m : Blocks) (c : Conn UInt8) : Got × Blocks × Conn UInt8 :=
  match readFull h.sizeofBlockDesc c with
  | (none, c) => (.lost, m, c)
  | (some bdBuf, c) =>
    let bd := BlockDesc.ofImage h bdBuf
    let blockNum := h.ntohl bd.blockNum
    let s := h.ntohl bd.dataSize
    let old := bd.old
    if s = 0 then (.eof, m, c)
    else if !old then
      match readFull s c with
      | (none, c) => (.lost, m, c)
      | (some buf, c) =>
        let m := m.insertBlock buf blockNum
        (m.getBlock blockNum, m, c)
    else (m.getBlock blockNum, m, c)

/-- `do { ... } while (b != NULL)`: `none` if the loop is still running after `fuel` rounds. -/
def receiveLoop : ℕ → UInt32 → List UInt8 → Blocks → Conn UInt8 → Option Received
  | 0, _, _, _, _ => none
  | fuel + 1, numBlocks, file, m, c =>
    match h.receiveBlock m c with
    | (.block b, m, c) => receiveLoop fuel (numBlocks + 1) (file ++ b.data) m c
    | (.outOfRange, m, c) => some ⟨.outOfRange, file, numBlocks, m, c⟩
    | (got, m, c) => some ⟨got, file, numBlocks + 1, m, c⟩

/-- `receive_file` into an empty file. Every round but the last takes a descriptor off the stream. -/
def receiveFile (m : Blocks) (c : Conn UInt8) : Option Received :=
  h.receiveLoop ((tokens c).length + 1) 0 [] m c

end Host

end Rabin
