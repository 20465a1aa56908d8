import Rabin.Wire
import Rabin.Socket

/-!
# `RabinServer`

The server side of the library: the hash, the cutting loop of `send_file`, the cache and the frames.
A `char *` with its length is the list of its bytes. The parameters of a server are `max_size`
and the host it runs on.
-/

namespace Rabin

structure Params where
  host : Host
  maxSize : ℕ
  maxSize_pos : 0 < maxSize

/-- A table of 1000 numbers, for the examples. -/
def Params.small : Params := ⟨.x64, 1000, by decide⟩

/-- `blocks.max_size() / 10000` as an `unsigned`, with libstdc++ on a 64-bit machine. -/
def Params.x64 : Params := ⟨.x64, 3644422916, by decide⟩

/-- `max_bytes`, the maximum size of a block. -/
def maxBytes : ℕ := 64

/-- `c = (*str)`: a signed `char`, converted to `int` and then to `unsigned`. -/
def charToUnsigned (c : UInt8) : UInt32 := c.toInt8.toInt32.toUInt32

/-- `while ((c = (*str))) hash = ((hash << 5) + hash) + c` -/
def djb2 : UInt32 → List UInt8 → UInt32
  | hash, [] => hash
  | hash, c :: str => if c = 0 then hash else djb2 (((hash <<< 5) + hash) + charToUnsigned c) str

/-- `file[i]` for an `unsigned` index. -/
def byteAt (file : List UInt8) (i : UInt32) : UInt8 := file.getD i.toNat 0

/-- An `int` that is counted up: 32 bits, two's complement. -/
def wrapInt (n : ℤ) : ℤ := n.bmod (2 ^ 32)

/-- `size_t width = file + i - prev`, as the `int` that `insert_block` takes. -/
def intWidth (i prev : ℕ) : ℤ := wrapInt ((i : ℤ) - prev)

/-- The bytes that `insert_block(prev, width)` copies; `none` for a negative width, which is too much for `new`
and `memcpy`, and for a read past the end of the file. -/
def bytesAt (file : List UInt8) (prev : ℕ) (width : ℤ) : Option (List UInt8) :=
  if 0 ≤ width ∧ prev + width ≤ file.length then some ((file.drop prev).take width.toNat) else none

structure RabinServer where
  blocks : Blocks
  /-- `newsockfd` -/
  sock : Socket

/-- The variables of the loop in `send_file`; `prev` is the offset of the pointer `prev` in `file`. -/
structure Cutting where
  i : UInt32
  prev : ℕ
  numBlocks : ℤ
  srv : RabinServer

namespace Params
variable (p : Params)

/-- The bytes are hashed from a copy that ends in NUL. -/
def hashFunction (b : List UInt8) : ℕ := (djb2 5381 (b ++ [0])).toNat % p.maxSize

def rabinFunc (b0 b1 b2 : UInt8) : ℕ := p.hashFunction [b0, b1, b2] % (maxBytes / 2)

/-- The number of the block and the server that holds it, marked `old` if it held the same bytes
before. -/
def insertBlock (srv : RabinServer) (b : List UInt8) : ℕ × RabinServer :=
  let n := p.hashFunction b
  let newBlock := Block.ofBytes n false b
  match srv.blocks.get n with
  | some cur =>
    if cur.dataSize ≠ b.length ∨ cur.data ≠ b then (n, { srv with blocks := srv.blocks.put newBlock })
    else (n, { srv with blocks := srv.blocks.put cur.setOld })
  | none => (n, { srv with blocks := srv.blocks.put newBlock })

/-- The return value of the last `write`; `none` as a whole where `blocks.at(i)` throws. -/
def writeBlockToClient (srv : RabinServer) (i : ℕ) : Option (Option ℕ × RabinServer) :=
  match srv.blocks.get i with
  | none => none
  | some blockI =>
    let descriptor := BlockDesc.hton p.host blockI.blockNum blockI.dataSize blockI.old
    let (n, sock) := srv.sock.write (.desc blockI) (descriptor.image p.host)
    if n = none then some (n, { srv with sock := sock })
    else if !descriptor.old then
      let (n, sock) := sock.write (.data blockI) blockI.data
      some (n, ⟨srv.blocks.put blockI.setOld, sock⟩)
    else some (n, { srv with sock := sock })

/-- What `send_file` does with a block it has cut off: insert it, and write it to the client. -/
def sendBlock (srv : RabinServer) (b : List UInt8) : Option RabinServer :=
  let (blockNum, srv) := p.insertBlock srv b
  (p.writeBlockToClient srv blockNum).map Prod.snd

/-- "EOF denoted by block_desc with 0 size" -/
def sendEof (srv : RabinServer) : RabinServer :=
  { srv with sock := (srv.sock.write .eof ((BlockDesc.hton p.host 0 0 false).image p.host)).2 }

/-- Whether a round of the loop cuts: `(file + i) - prev` is a difference of pointers, which may be negative. -/
def cutsHere (file : List UInt8) (l : Cutting) : Bool :=
  let tooLarge := decide ((maxBytes : ℤ) ≤ (l.i.toNat : ℤ) - l.prev)
  p.rabinFunc (byteAt file (l.i - 2)) (byteAt file (l.i - 1)) (byteAt file l.i) = 0 || tooLarge

/-- The body of the loop and its `i++`. -/
def cutStep (file : List UInt8) (l : Cutting) : Option Cutting :=
  if p.cutsHere file l then do
    let b ← bytesAt file l.prev (intWidth l.i.toNat l.prev)
    let srv ← p.sendBlock l.srv b
    pure ⟨l.i + 1, l.i.toNat, wrapInt (l.numBlocks + 1), srv⟩
  else some { l with i := l.i + 1 }

/-- `for (; i < s; i++)`: `none` if the loop is still running after `fuel` rounds. -/
def cutLoop (file : List UInt8) : ℕ → Cutting → Option Cutting
  | 0, _ => none
  | fuel + 1, l => if l.i.toNat < file.length then (p.cutStep file l).bind (cutLoop file fuel) else some l

/-- `send_file(file, s)` with its return value, `none` if it does not return. An `i` that can reach
`s` has done so after `s + 1` rounds. -/
def sendFile (srv : RabinServer) (file : List UInt8) : Option (ℤ × RabinServer) := do
  let l ← p.cutLoop file (file.length + 1) ⟨2, 0, 0, srv⟩
  let (numBlocks, srv) ←
    if l.prev ≠ file.length then do
      let b ← bytesAt file l.prev (intWidth file.length l.prev)
      let srv ← p.sendBlock l.srv b
      pure (wrapInt (l.numBlocks + 1), srv)
    else pure (l.numBlocks, l.srv)
  pure (wrapInt (numBlocks + 1), p.sendEof srv)

end Params

/-- A server before its first `send_file`, on a connection whose writes go by `plan`. -/
def RabinServer.fresh (plan : List Outcome) : RabinServer := ⟨Blocks.empty, .open' plan⟩

end Rabin
