import Rabin.Memory
import Rabin.Timeouts

/-!
# The memory of `RabinClient`

`receive_file` once more, with its `new` and `delete`. It never touches memory that is not in use, and returns and
leaves what `receiveFile` says. Every block that comes in is copied for the caller, and no copy is ever deleted, nor
are the data of a block that is replaced (`memory_of_receiveFiles`).
-/

namespace Rabin
open Reads

namespace Memory

/-- Copies `bs` into the array at `a`, from `off` on. -/
def write (h : Memory) (a off : ℕ) (bs : List UInt8) : Option Memory := do
  let b ← h.charsAt a
  if off + bs.length ≤ b.length then h.set a (.chars (b.take off ++ bs ++ b.drop (off + bs.length))) else none

/-- The first `n` bytes of the array at `a`. -/
def read (h : Memory) (a n : ℕ) : Option (List UInt8) := do
  let b ← h.charsAt a
  if n ≤ b.length then some (b.take n) else none

/-- The loops of `receive_block` that call `read` until the array at `a` has `n` bytes. `false` if a read fails. -/
def readInto (n a : ℕ) : ℕ → ℕ → Memory → Conn UInt8 → Option (Bool × Memory × Conn UInt8)
  | 0, _, h, c => some (true, h, c)
  | fuel + 1, br, h, c =>
    if br < n then
      match Reads.read (n - br) c with
      | (none, c) => some (false, h, c)
      | (some bs, c) => (h.write a br bs).bind fun h => readInto n a fuel (br + bs.length) h c
    else some (true, h, c)

variable {h h' : Memory} {a n : ℕ} {b pre junk bs : List UInt8}

theorem read_eq (ha : h.get a = some (.chars b)) : h.read a b.length = some b := by
  simp [read, charsAt_eq_some.2 ha]

theorem exists_write (ha : h.get a = some (.chars (pre ++ junk))) (hb : bs.length ≤ junk.length) :
    ∃ h', h.write a pre.length bs = some h' ∧ h.set a (.chars (pre ++ bs ++ junk.drop bs.length)) = some h' := by
  have hle : pre.length + bs.length ≤ (pre ++ junk).length := by
    rw [List.length_append]
    omega
  obtain ⟨h', hset⟩ := Heap.exists_change ha (some (.chars (pre ++ bs ++ junk.drop bs.length)))
  refine ⟨h', ?_, hset⟩
  rw [write, charsAt_eq_some.2 ha, Option.bind_eq_bind, Option.bind_some, if_pos hle, List.take_left,
    List.drop_length_add_append]
  exact hset

/-- The loop stays within the array, and comes back with what `readLoop` comes back with. -/
theorem readInto_eq {fuel : ℕ} (c : Conn UInt8) (ha : h.get a = some (.chars (pre ++ junk)))
    (hn : pre.length + junk.length = n) (hf : junk.length ≤ fuel) :
    ∃ b h', readInto n a fuel pre.length h c =
        some ((readLoop n fuel pre c).1.isSome, h', (readLoop n fuel pre c).2) ∧
      b.length = n ∧ h.set a (.chars b) = some h' ∧ ∀ bs, (readLoop n fuel pre c).1 = some bs → bs = b := by
  induction fuel generalizing h pre junk c with
  | zero =>
    obtain rfl := List.eq_nil_of_length_eq_zero (Nat.le_zero.1 hf)
    refine ⟨pre, h, rfl, hn, ?_, fun bs hbs => (Option.some.inj hbs).symm⟩
    rw [List.append_nil] at ha
    exact Heap.change_self ha
  | succ fuel ih =>
    by_cases hlt : pre.length < n
    · have hpos : 0 < n - pre.length := Nat.sub_pos_of_lt hlt
      have hall : (pre ++ junk).length = n := by rw [List.length_append, hn]
      rw [readInto, readLoop, if_pos hlt, if_pos hlt]
      rcases read_cases hpos c with ⟨-, hr⟩ | ⟨c', -, hr⟩ | ⟨bs, c', h1, h2, hr, -⟩
      · rw [hr]
        refine ⟨pre ++ junk, h, rfl, hall, Heap.change_self ha, fun bs hbs => ?_⟩
        cases hbs
      · rw [hr]
        refine ⟨pre ++ junk, h, rfl, hall, Heap.change_self ha, fun bs hbs => ?_⟩
        cases hbs
      · rw [hr]
        obtain ⟨h₁, hw, hset⟩ := exists_write ha (show bs.length ≤ junk.length by omega)
        obtain ⟨-, hself, -⟩ := Heap.change_eq_some hset
        have hlen : (pre ++ bs).length = pre.length + bs.length := List.length_append
        have hdrop : (junk.drop bs.length).length = junk.length - bs.length := List.length_drop
        obtain ⟨b, h₂, hrun, hb, hset₂, hbs⟩ := ih c' hself (by omega) (by omega)
        refine ⟨b, h₂, ?_, hb, (Heap.change_change hset).symm.trans hset₂, hbs⟩
        rw [hlen] at hrun
        simp only [hw, Option.bind_some, hrun]
    · obtain rfl : junk = [] := List.eq_nil_of_length_eq_zero (by omega)
      rw [List.append_nil] at ha
      rw [readInto, readLoop, if_neg hlt, if_neg hlt]
      exact ⟨pre, h, rfl, by simpa using hn, Heap.change_self ha, fun bs hbs => (Option.some.inj hbs).symm⟩

/-- The array at `a` has been added to `h`. -/
structure Gains (h h' : Memory) (a : ℕ) (b : List UInt8) : Prop where
  unused : h.get a = none
  self : h'.get a = some (.chars b)
  other : ∀ c ≠ a, h'.get c = h.get c
  bytes : h'.arrayBytes = h.arrayBytes + b.length

/-- `new char[n]` and the loop after it. -/
theorem exists_readInto (h : Memory) (n : ℕ) (c : Conn UInt8) :
    ∃ b h', readInto n h.next n 0 (h.alloc (.chars (List.replicate n 0))).2 c =
        some ((readFull n c).1.isSome, h', (readFull n c).2) ∧
      b.length = n ∧ h.Gains h' h.next b ∧ ∀ bs, (readFull n c).1 = some bs → bs = b := by
  have hself : (h.alloc (.chars (List.replicate n 0))).2.get h.next = some (.chars ([] ++ List.replicate n 0)) :=
    Heap.get_alloc_self
  have hlen : (List.replicate n (0 : UInt8)).length = n := List.length_replicate
  obtain ⟨b, h', hrun, hb, hset, hbs⟩ := readInto_eq (n := n) c hself (by rw [hlen]; exact Nat.zero_add n)
    (Nat.le_of_eq hlen)
  obtain ⟨-, hget, hother⟩ := Heap.change_eq_some hset
  refine ⟨b, h', hrun, hb, ⟨h.get_of_le (Nat.le_refl _), hget, fun c hc => ?_, ?_⟩, hbs⟩
  · rw [hother c hc, Heap.get_alloc_of_ne hc]
  · have hw := Heap.weight_change (w := Cell.arraySize) hself hset
    have ha := arrayBytes_alloc (h := h) (.chars (List.replicate n 0))
    rw [arrayBytes] at ha
    simp only [Cell.arraySize, List.nil_append, List.length_replicate, Option.elim_some] at hw ha
    rw [arrayBytes]
    omega

/-- The copy that `get_block` makes of a `block` whose data are at `d`, and its array behind it. -/
theorem exists_copy {e : Block} {d : ℕ} (hd : h.get d = some (.chars e.data)) :
    ∃ h₁ h₂ : Memory, ((h.alloc (.block ⟨e.blockNum, e.dataSize, e.old, 0⟩)).2.alloc
        (.chars (List.replicate e.dataSize 0))).2.set h.next
          (.block ⟨e.blockNum, e.dataSize, e.old, h.next + 1⟩) = some h₁ ∧
      h₁.read d e.dataSize = some e.data ∧ h₁.write (h.next + 1) 0 e.data = some h₂ ∧
      h₂.get h.next = some (.block ⟨e.blockNum, e.dataSize, e.old, h.next + 1⟩) ∧
      h₂.get (h.next + 1) = some (.chars e.data) ∧ (∀ c, c ≠ h.next → c ≠ h.next + 1 → h₂.get c = h.get c) ∧
      h₂.arrayBytes = h.arrayBytes + e.dataSize := by
  obtain ⟨h₀, hh₀⟩ : ∃ h₀ : Memory, h₀ = ((h.alloc (.block ⟨e.blockNum, e.dataSize, e.old, 0⟩)).2.alloc
    (.chars (List.replicate e.dataSize 0))).2 := ⟨_, rfl⟩
  have hcopy : h₀.get h.next = some (.block ⟨e.blockNum, e.dataSize, e.old, 0⟩) := by
    rw [hh₀]
    exact Heap.get_alloc_of_some Heap.get_alloc_self
  have harray : h₀.get (h.next + 1) = some (.chars ([] ++ List.replicate e.dataSize 0)) := by
    rw [hh₀]
    exact Heap.get_alloc_self
  have hkeep (c : ℕ) (h1 : c ≠ h.next) (h2 : c ≠ h.next + 1) : h₀.get c = h.get c := by
    rw [hh₀, Heap.get_alloc_of_ne h2, Heap.get_alloc_of_ne h1]
  have hbytes : h₀.arrayBytes = h.arrayBytes + e.dataSize := by
    rw [hh₀, arrayBytes_alloc, arrayBytes_alloc]
    simp [Cell.arraySize]
  have hlen : e.data.length ≤ (List.replicate e.dataSize (0 : UInt8)).length := by
    rw [List.length_replicate, e.size_eq]
  obtain ⟨(h₁ : Memory), hset⟩ := Heap.exists_change hcopy
    (some (.block ⟨e.blockNum, e.dataSize, e.old, h.next + 1⟩))
  obtain ⟨-, hself₁, hother₁⟩ := Heap.change_eq_some hset
  have harray₁ := (hother₁ _ (Nat.succ_ne_self _)).trans harray
  obtain ⟨h₂, hwrite, hset₂⟩ := exists_write harray₁ hlen
  obtain ⟨-, hself₂, hother₂⟩ := Heap.change_eq_some hset₂
  have hd₁ : h₁.get d = some (.chars e.data) := by
    have hlt := Heap.lt_next hd
    rw [hother₁ d (Nat.ne_of_lt hlt), hkeep d (Nat.ne_of_lt hlt) (Nat.ne_of_lt (Nat.lt_succ_of_lt hlt)), hd]
  have hall : [] ++ e.data ++ (List.replicate e.dataSize (0 : UInt8)).drop e.data.length = e.data := by
    rw [List.drop_of_length_le (by rw [List.length_replicate, e.size_eq]), List.nil_append, List.append_nil]
  refine ⟨h₁, h₂, by rw [← hh₀]; exact hset, ?_, hwrite, ?_, ?_, fun c h1 h2 => ?_, ?_⟩
  · rw [← e.size_eq]
    exact read_eq hd₁
  · rw [hother₂ _ (Nat.succ_ne_self _).symm, hself₁]
  · rw [hself₂, hall]
  · rw [hother₂ c h2, hother₁ c h1, hkeep c h1 h2]
  · have hw := Heap.weight_change (w := Cell.arraySize) harray₁ hset₂
    rw [hall] at hw
    simp only [Cell.arraySize, List.nil_append, List.length_replicate, Option.elim_some, e.size_eq] at hw
    have h1 : h₁.arrayBytes = h₀.arrayBytes := arrayBytes_change hcopy rfl hset
    rw [← hbytes, ← h1, arrayBytes, arrayBytes]
    exact Nat.add_right_cancel hw

/-- No `block` has its data at `a`. -/
def Loose (h : Memory) (a : ℕ) : Prop := ∀ c r, h.get c = some (.block r) → r.data ≠ a

namespace Gains
variable (hg : h.Gains h' a b)
include hg

theorem keep (c : ℕ) (x : Cell) (hc : h.get c = some x) : h'.get c = some x := by
  rw [hg.other c ?_, hc]
  rintro rfl
  rw [hg.unused] at hc
  cases hc

theorem block {c : ℕ} {r : BlockRec} (hc : h'.get c = some (.block r)) : h.get c = some (.block r) := by
  rw [← hg.other c ?_, hc]
  rintro rfl
  rw [hg.self] at hc
  cases hc

end Gains

end Memory

/-- The memory of a client, and the map. -/
structure MemClient where
  heap : Memory
  blocks : ℕ → Option ℕ

/-- What `receive_block` returns: the copy at `a`, or `NULL`, or it throws the exception of `blocks.at`. -/
inductive Ret
  | block (a : ℕ)
  | null
  | outOfRange
  deriving DecidableEq

/-- What the caller gets, if the copy is at `a`. -/
def Got.ret (a : ℕ) : Got → Ret
  | .block _ => .block a
  | .eof | .lost => .null
  | .outOfRange => .outOfRange

def Got.copies (a : ℕ) : Got → List (ℕ × Block)
  | .block e => [(a, e)]
  | _ => []

theorem Blocks.length_copies_getBlock {m : Blocks} {n : ℕ} (hne : m.getBlock n ≠ .outOfRange) (a : ℕ) :
    ((m.getBlock n).copies a).length = 1 := by
  unfold getBlock at hne ⊢
  split
  · rfl
  · rename_i hg
    simp [hg] at hne

/-- How a call of `receive_file` ended. -/
structure MemReceived where
  /-- what the last `receive_block` came back with -/
  ret : Ret
  file : List UInt8
  numBlocks : UInt32
  client : MemClient
  conn : Conn UInt8

namespace MemClient
variable (k : Host)

def fresh : MemClient := ⟨.empty, fun _ => none⟩

/-- The array at `b` becomes the new `block`'s. -/
def insertBlock (s : MemClient) (b size bno : ℕ) : Option MemClient := do
  let (newBlock, h) := s.heap.alloc (.block ⟨bno, size, true, b⟩)
  match s.blocks bno with
  | some cur =>
    let h ← h.free cur
    pure ⟨h, Function.update s.blocks bno (some newBlock)⟩
  | none => pure ⟨h, Function.update s.blocks bno (some newBlock)⟩

def getBlock (s : MemClient) (b : ℕ) : Option (Ret × MemClient) :=
  match s.blocks b with
  | none => some (.outOfRange, s)
  | some blockI => do
    let r ← s.heap.blockAt blockI
    let (toReturn, h) := s.heap.alloc (.block ⟨r.blockNum, r.dataSize, r.old, 0⟩)
    let (data, h) := h.alloc (.chars (List.replicate r.dataSize 0))
    let h ← h.set toReturn (.block ⟨r.blockNum, r.dataSize, r.old, data⟩)
    let d ← Memory.read h r.data r.dataSize
    let h ← Memory.write h data 0 d
    pure (.block toReturn, { s with heap := h })

/-- `receive_block` once the block is in the map. -/
def returnBlock (s : MemClient) (bdBuf blockNum : ℕ) (c : Conn UInt8) : Option (Ret × MemClient × Conn UInt8) := do
  let h ← s.heap.free bdBuf
  let (ret, s) ← getBlock { s with heap := h } blockNum
  pure (ret, s, c)

/-- The data of a block that the client does not have. -/
def receiveData (s : MemClient) (bdBuf size blockNum : ℕ) (c : Conn UInt8) :
    Option (Ret × MemClient × Conn UInt8) := do
  let (buf, h) := s.heap.alloc (.chars (List.replicate size 0))
  let (ok, h, c) ← Memory.readInto size buf size 0 h c
  if !ok then pure (.null, { s with heap := h }, c)
  else
    let s ← insertBlock { s with heap := h } buf size blockNum
    returnBlock s bdBuf blockNum c

def receiveBlock (s : MemClient) (c : Conn UInt8) : Option (Ret × MemClient × Conn UInt8) := do
  let (bdBuf, h) := s.heap.alloc (.chars (List.replicate k.sizeofBlockDesc 0))
  let (ok, h, c) ← Memory.readInto k.sizeofBlockDesc bdBuf k.sizeofBlockDesc 0 h c
  if !ok then pure (.null, { s with heap := h }, c)
  else
    let bdImage ← h.charsAt bdBuf
    let bd := BlockDesc.ofImage k bdImage
    let blockNum := k.ntohl bd.blockNum
    let size := k.ntohl bd.dataSize
    if size = 0 then pure (.null, { s with heap := h }, c)
    else if !bd.old then receiveData { s with heap := h } bdBuf size blockNum c
    else returnBlock { s with heap := h } bdBuf blockNum c

def receiveLoop : ℕ → UInt32 → List UInt8 → MemClient → Conn UInt8 → Option MemReceived
  | 0, _, _, _, _ => none
  | fuel + 1, numBlocks, file, s, c => do
    let (ret, s, c) ← receiveBlock k s c
    match ret with
    | .block b =>
      let r ← s.heap.blockAt b
      let d ← s.heap.read r.data r.dataSize
      receiveLoop fuel (numBlocks + 1) (file ++ d) s c
    | .null => pure ⟨ret, file, numBlocks + 1, s, c⟩
    | .outOfRange => pure ⟨ret, file, numBlocks, s, c⟩

def receiveFile (s : MemClient) (c : Conn UInt8) : Option MemReceived :=
  receiveLoop k ((tokens c).length + 1) 0 [] s c

/-- `n` successive calls of `receive_file`, and the client after them. -/
def receiveFiles : ℕ → MemClient → Conn UInt8 → Option (List MemReceived × MemClient × Conn UInt8)
  | 0, s, c => some ([], s, c)
  | n + 1, s, c => do
    let r ← receiveFile k s c
    if r.ret = .outOfRange then return ([r], r.client, r.conn)
    let (rs, s, c) ← receiveFiles n r.client r.conn
    return (r :: rs, s, c)

/-- The memory of a client whose cache is `m`, with the copies that it has returned. -/
structure Holds (s : MemClient) (m : Blocks) (copies : List (ℕ × Block)) : Prop where
  represents : s.heap.Represents s.blocks m (copies.map Prod.fst)
  stores : ∀ q ∈ copies, s.heap.Stores q.1 q.2

/-- The `w` bytes that were written, and all that has come over the connection but the headers of `n` blocks, are in
memory. There is more in it if something was cut off. -/
structure Accounts (s s' : MemClient) (c c' : Conn UInt8) (w n : ℕ) (cut : Prop) : Prop where
  le : s.heap.arrayBytes + w + (unread c).length ≤
    s'.heap.arrayBytes + k.sizeofBlockDesc * n + (unread c').length
  eq : ¬ cut → s.heap.arrayBytes + w + (unread c).length =
    s'.heap.arrayBytes + k.sizeofBlockDesc * n + (unread c').length

variable {k} {s s' : MemClient} {m : Blocks} {copies : List (ℕ × Block)} {h' : Memory} {a : ℕ} {b : List UInt8}

theorem Accounts.trans {s₁ : MemClient} {c c₁ c' : Conn UInt8} {w w' n n' : ℕ} {cut cut' cut₂ : Prop}
    (h : Accounts k s s₁ c c₁ w n cut) (h' : Accounts k s₁ s' c₁ c' w' n' cut') (hcut : cut → cut₂)
    (hcut' : cut' → cut₂) : Accounts k s s' c c' (w + w') (n + n') cut₂ := by
  have h1 := h.le
  have h2 := h'.le
  refine ⟨?_, fun hc => ?_⟩
  · rw [Nat.mul_add]
    omega
  · have h3 := h.eq (mt hcut hc)
    have h4 := h'.eq (mt hcut' hc)
    rw [Nat.mul_add]
    omega

theorem holds_fresh : fresh.Holds .empty [] := ⟨Memory.represents_empty, fun _ hq => nomatch hq⟩

namespace Holds

/-- The data of every `block` are in use. -/
theorem exists_data (hs : s.Holds m copies) {c : ℕ} {r : BlockRec} (hc : s.heap.get c = some (.block r)) :
    ∃ d, s.heap.get r.data = some (.chars d) := by
  have hstores : ∃ e, s.heap.Stores c e := by
    rcases hs.represents.found c r hc with ⟨n, hn⟩ | hc
    · obtain ⟨e, -, he⟩ := hs.represents.map_eq_some hn
      exact ⟨e, he⟩
    · obtain ⟨q, hq, rfl⟩ := List.mem_map.1 hc
      exact ⟨q.2, hs.stores q hq⟩
  obtain ⟨e, d, hd, hdata⟩ := hstores
  rw [hc] at hd
  cases hd
  exact ⟨_, hdata⟩

theorem gains (hs : s.Holds m copies) (hg : s.heap.Gains h' a b) :
    ({ s with heap := h' } : MemClient).Holds m copies ∧ h'.Loose a := by
  refine ⟨⟨?_, fun q hq => ?_⟩, fun c r hc => ?_⟩
  · exact hs.represents.grow [] hg.keep (fun c r hc => .inl (hg.block hc)) (fun c hc => nomatch hc) List.nodup_nil
  · obtain ⟨d, h1, h2⟩ := hs.stores q hq
    exact ⟨d, hg.keep _ _ h1, hg.keep _ _ h2⟩
  · rintro rfl
    obtain ⟨d, hd⟩ := hs.exists_data (hg.block hc)
    rw [hg.unused] at hd
    cases hd

/-- `delete` of an array that is no block's. -/
theorem freeArray (hs : s.Holds m copies) (ha : s.heap.get a = some (.chars b)) (hl : s.heap.Loose a) :
    ∃ h' : Memory, s.heap.free a = some h' ∧ ({ s with heap := h' } : MemClient).Holds m copies ∧
      h'.arrayBytes + b.length = s.heap.arrayBytes := by
  obtain ⟨(h' : Memory), hfree⟩ := Heap.exists_change ha none
  obtain ⟨-, hself, hother⟩ := Heap.change_eq_some hfree
  have hstores (c : ℕ) (e : Block) (hc : s.heap.Stores c e) : h'.Stores c e := by
    obtain ⟨d, h1, h2⟩ := hc
    refine ⟨d, (hother c ?_).trans h1, (hother d (hl c _ h1)).trans h2⟩
    rintro rfl
    rw [ha] at h1
    cases h1
  have hblock (c : ℕ) (r : BlockRec) : h'.get c = some (.block r) ↔ s.heap.get c = some (.block r) := by
    rcases eq_or_ne c a with rfl | hne
    · rw [hself, ha]
      simp
    · rw [hother c hne]
  have hr := hs.represents
  refine ⟨h', hfree, ⟨⟨hr.absent, fun n e he => ?_, hr.inj, fun c r hc => hr.found c r ((hblock c r).1 hc),
    fun c hc => ?_, hr.nodup⟩, fun q hq => hstores _ _ (hs.stores q hq)⟩, Heap.weight_change ha hfree⟩
  · obtain ⟨c, hc, hst⟩ := hr.present n e he
    exact ⟨c, hc, hstores c e hst⟩
  · obtain ⟨⟨r, hl⟩, hmap⟩ := hr.inHand c hc
    exact ⟨⟨r, (hblock c r).2 hl⟩, hmap⟩

theorem insertBlock (hs : s.Holds m copies) (ha : s.heap.get a = some (.chars b)) (bno : ℕ) :
    ∃ s', s.insertBlock a b.length bno = some s' ∧ s'.Holds (m.insertBlock b bno) copies ∧
      s'.heap.arrayBytes = s.heap.arrayBytes ∧
      (∀ c d, s.heap.get c = some (.chars d) → s'.heap.get c = some (.chars d)) ∧
      ∀ c r, s'.heap.get c = some (.block r) → s.heap.get c = some (.block r) ∨ r.data = a := by
  obtain ⟨h₁, hh₁⟩ : ∃ h₁ : Memory, h₁ = (s.heap.alloc (.block ⟨bno, b.length, true, a⟩)).2 := ⟨_, rfl⟩
  have hkeep (c : ℕ) (x : Cell) (hc : s.heap.get c = some x) : h₁.get c = some x := by
    rw [hh₁]
    exact Heap.get_alloc_of_some hc
  have hself : h₁.get s.heap.next = some (.block ⟨bno, b.length, true, a⟩) := by
    rw [hh₁]
    exact Heap.get_alloc_self
  have hblock (c : ℕ) (r : BlockRec) (hc : h₁.get c = some (.block r)) :
      s.heap.get c = some (.block r) ∨ r.data = a := by
    rcases eq_or_ne c s.heap.next with rfl | hne
    · rw [hself] at hc
      cases hc
      exact .inr rfl
    · rw [hh₁, Heap.get_alloc_of_ne hne] at hc
      exact .inl hc
  have hbytes : h₁.arrayBytes = s.heap.arrayBytes := by
    rw [hh₁]
    exact Memory.arrayBytes_alloc _
  have hnew : h₁.Stores s.heap.next (Block.ofBytes bno true b) := ⟨a, hself, hkeep a _ ha⟩
  have hput := (hh₁ ▸ hs.represents.allocBlock ⟨bno, b.length, true, a⟩ :
    h₁.Represents s.blocks m (s.heap.next :: copies.map Prod.fst)).put hnew
  have hstores (q : ℕ × Block) (hq : q ∈ copies) : h₁.Stores q.1 q.2 := by
    obtain ⟨d, h1, h2⟩ := hs.stores q hq
    exact ⟨d, hkeep _ _ h1, hkeep _ _ h2⟩
  have heq : s.insertBlock a b.length bno = match s.blocks bno with
      | some cur => (h₁.free cur).bind fun h₂ => some ⟨h₂, Function.update s.blocks bno (some s.heap.next)⟩
      | none => some ⟨h₁, Function.update s.blocks bno (some s.heap.next)⟩ := by
    rw [hh₁]
    rfl
  change h₁.Represents (Function.update s.blocks bno (some s.heap.next)) (m.insertBlock b bno)
    ((s.blocks bno).toList ++ copies.map Prod.fst) at hput
  rw [heq]
  cases hcur : s.blocks bno with
  | none =>
    rw [hcur] at hput
    exact ⟨_, rfl, ⟨hput, hstores⟩, hbytes, fun c d => hkeep c _, hblock⟩
  | some cur =>
    rw [hcur] at hput
    obtain ⟨⟨r, hr⟩, -⟩ := hput.inHand cur List.mem_cons_self
    obtain ⟨h₂, hfree⟩ := Heap.exists_change hr none
    obtain ⟨-, hnone, hother⟩ := Heap.change_eq_some hfree
    refine ⟨⟨h₂, Function.update s.blocks bno (some s.heap.next)⟩, ?_,
      ⟨Memory.Represents.freeHand hput hfree, fun q hq => ?_⟩, ?_, fun c d hc => ?_, fun c r' hc => ?_⟩
    · simp only [Heap.free, hfree, Option.bind_some]
    · refine (hstores q hq).change hr ?_ h₂ hfree
      rintro rfl
      exact (hs.represents.inHand q.1 (List.mem_map_of_mem hq)).2 bno hcur
    · exact (Memory.arrayBytes_change hr rfl hfree).trans hbytes
    · refine (hother c ?_).trans (hkeep c _ hc)
      rintro rfl
      rw [hkeep c _ hc] at hr
      cases hr
    · refine hblock c r' ((hother c ?_).symm.trans hc)
      rintro rfl
      rw [hnone] at hc
      cases hc

theorem getBlock (hs : s.Holds m copies) (n : ℕ) :
    ∃ s', s.getBlock n = some ((m.getBlock n).ret s.heap.next, s') ∧
      s'.Holds m ((m.getBlock n).copies s.heap.next ++ copies) ∧
      s'.heap.arrayBytes = s.heap.arrayBytes + (m.getBlock n).written.length := by
  cases hg : m.get n with
  | none =>
    have hnone : s.blocks n = none := hs.represents.absent n hg
    simp only [Blocks.getBlock, hg, MemClient.getBlock, hnone]
    exact ⟨s, rfl, hs, rfl⟩
  | some e =>
    obtain ⟨c, hc, d, hrec, hdata⟩ := hs.represents.present n e hg
    obtain ⟨h₁, h₂, hset, hread, hwrite, hself, harray, hother, hbytes⟩ := Memory.exists_copy hdata
    have hlt {i : ℕ} {x : Cell} (hi : s.heap.get i = some x) : i < s.heap.next := Heap.lt_next hi
    have hext (i : ℕ) (x : Cell) (hi : s.heap.get i = some x) : h₂.get i = some x :=
      (hother i (Nat.ne_of_lt (hlt hi)) (Nat.ne_of_lt (Nat.lt_succ_of_lt (hlt hi)))).trans hi
    have hgrow : h₂.Represents s.blocks m ([s.heap.next] ++ copies.map Prod.fst) := by
      refine hs.represents.grow [s.heap.next] hext (fun i r hi => ?_) (fun i hi => ?_) (List.nodup_singleton _)
      · rcases eq_or_ne i s.heap.next with rfl | hne
        · exact .inr List.mem_cons_self
        · refine .inl ((hother i hne ?_).symm.trans hi)
          rintro rfl
          rw [harray] at hi
          cases hi
      · obtain rfl := List.mem_singleton.1 hi
        exact ⟨s.heap.get_of_le (Nat.le_refl _), _, hself⟩
    simp only [Blocks.getBlock, hg, MemClient.getBlock, hc]
    refine ⟨{ s with heap := h₂ }, ?_, ⟨hgrow, fun q hq => ?_⟩, ?_⟩
    · simp only [Memory.blockAt_eq_some.2 hrec, Option.bind_eq_bind, Option.bind_some, Heap.alloc_fst]
      refine (congrArg (fun o : Option Memory => o.bind _) hset).trans ?_
      simp only [Option.bind_some, hread, Heap.next_alloc, hwrite]
      rfl
    · rcases List.mem_cons.1 hq with rfl | hq
      · exact ⟨s.heap.next + 1, hself, harray⟩
      · obtain ⟨i, h1, h2⟩ := hs.stores q hq
        exact ⟨i, hext _ _ h1, hext _ _ h2⟩
    · rw [hbytes, Got.written, e.size_eq]

theorem returnBlock (hs : s.Holds m copies) (ha : s.heap.get a = some (.chars b)) (hl : s.heap.Loose a) (n : ℕ)
    (c : Conn UInt8) :
    ∃ i s', s.returnBlock a n c = some ((m.getBlock n).ret i, s', c) ∧
      s'.Holds m ((m.getBlock n).copies i ++ copies) ∧
      s'.heap.arrayBytes + b.length = s.heap.arrayBytes + (m.getBlock n).written.length := by
  obtain ⟨h₁, hfree, hs₁, hb₁⟩ := hs.freeArray ha hl
  obtain ⟨s₂, hget, hs₂, hb₂⟩ := hs₁.getBlock n
  refine ⟨h₁.next, s₂, ?_, hs₂, by dsimp only at hb₂; omega⟩
  simp only [MemClient.returnBlock, hfree, hget, Option.bind_eq_bind, Option.bind_some, Option.pure_def]

/-- The block has been read into an array of its own. -/
theorem insertReturn {s₀ : MemClient} {d : List UInt8} {i : ℕ} (hs₀ : s₀.Holds m copies)
    (ha : s₀.heap.get a = some (.chars b)) (hl : s₀.heap.Loose a) (hg : s₀.heap.Gains h' i d) (n : ℕ)
    (c : Conn UInt8) :
    ∃ j s₁ s', MemClient.insertBlock ⟨h', s₀.blocks⟩ i d.length n = some s₁ ∧
      s₁.returnBlock a n c = some (.block j, s', c) ∧
      s'.Holds (m.insertBlock d n) ((j, Block.ofBytes n true d) :: copies) ∧
      s'.heap.arrayBytes + b.length = s₀.heap.arrayBytes + 2 * d.length := by
  obtain ⟨hs, -⟩ := hs₀.gains hg
  obtain ⟨s₁, hins, hs₁, hb₁, harrays, hrecs⟩ := hs.insertBlock hg.self n
  have hne : i ≠ a := by
    rintro rfl
    rw [hg.unused] at ha
    cases ha
  have hloose : s₁.heap.Loose a := by
    intro c r hc
    rcases hrecs c r hc with hc | hc
    · exact hl c r (hg.block hc)
    · rwa [hc]
  obtain ⟨j, s', hret, hs', hb'⟩ := hs₁.returnBlock (harrays a b (hg.keep _ _ ha)) hloose n c
  rw [Host.getBlock_insertBlock] at hret hs' hb'
  refine ⟨j, s₁, s', hins, hret, hs', ?_⟩
  have hb := hg.bytes
  have hdata : (Got.block (Block.ofBytes n true d)).written = d := rfl
  rw [hdata] at hb'
  dsimp only at hb₁
  omega

theorem receiveData (hs : s.Holds m copies) (ha : s.heap.get a = some (.chars b)) (hl : s.heap.Loose a)
    (hb : b.length = k.sizeofBlockDesc) (size n : ℕ) (c : Conn UInt8) :
    ∃ got m' c', (match readFull size c with
        | (none, c) => (Got.lost, m, c)
        | (some buf, c) => ((m.insertBlock buf n).getBlock n, m.insertBlock buf n, c)) = (got, m', c') ∧
      ∃ i s', s.receiveData a size n c = some (got.ret i, s', c') ∧ s'.Holds m' (got.copies i ++ copies) ∧
        Accounts k s s' c c' got.written.length (got.copies i).length (got = .lost) := by
  obtain ⟨d, h₁, hrun, hlen, hg, hd⟩ := Memory.exists_readInto s.heap size c
  simp only [MemClient.receiveData, Heap.alloc_fst, Option.bind_eq_bind, Option.pure_def, hrun, Option.bind_some]
  rcases hr : readFull size c with ⟨_ | buf, c₁⟩
  · -- neither array is deleted
    have hun := length_unread_none hr
    have hb₁ := hg.bytes
    refine ⟨_, _, _, rfl, 0, { s with heap := h₁ }, rfl, (hs.gains hg).1, ?_, fun hne => absurd rfl hne⟩
    dsimp only [Got.written, Got.copies, List.length_nil]
    omega
  · obtain ⟨-, hun⟩ := length_unread_some hr
    obtain rfl := hd buf (by rw [hr])
    obtain ⟨i, s₂, s₃, hins, hret, hs₃, hb₃⟩ := hs.insertReturn ha hl hg n c₁
    rw [hlen] at hins
    have hgot : ((m.insertBlock buf n).getBlock n, m.insertBlock buf n, c₁) =
        (Got.block (Block.ofBytes n true buf), m.insertBlock buf n, c₁) := by
      rw [Host.getBlock_insertBlock]
    refine ⟨_, _, _, hgot, i, s₃, ?_, hs₃, ?_, fun _ => ?_⟩
    · simp only [Option.isSome_some, Bool.not_true, Bool.false_eq_true, if_false, hins, Option.bind_some, hret]
      rfl
    all_goals
      dsimp only [Got.written, Got.copies, Block.ofBytes, List.length_singleton]
      omega

theorem receiveBlock (hs : s.Holds m copies) {c c' : Conn UInt8} {got : Got} {m' : Blocks}
    (hr : k.receiveBlock m c = (got, m', c')) :
    ∃ i s', s.receiveBlock k c = some (got.ret i, s', c') ∧ s'.Holds m' (got.copies i ++ copies) ∧
      (got ≠ .outOfRange → Accounts k s s' c c' got.written.length (got.copies i).length (got = .lost)) := by
  obtain ⟨bd, h₁, hrun, hlen, hg, hbd⟩ := Memory.exists_readInto s.heap k.sizeofBlockDesc c
  obtain ⟨hs₁, hloose⟩ := hs.gains hg
  have hb₁ := hg.bytes
  unfold Host.receiveBlock at hr
  simp only [MemClient.receiveBlock, Heap.alloc_fst, Option.bind_eq_bind, Option.pure_def, hrun, Option.bind_some]
  rcases hc₁ : readFull k.sizeofBlockDesc c with ⟨_ | bdBuf, c₁⟩
  · have hun := length_unread_none hc₁
    rw [hc₁] at hr
    cases hr
    refine ⟨0, { s with heap := h₁ }, rfl, hs₁, fun _ => ⟨?_, fun hne => absurd rfl hne⟩⟩
    dsimp only [Got.written, Got.copies, List.length_nil]
    omega
  · obtain ⟨-, hun⟩ := length_unread_some hc₁
    obtain rfl := hbd bdBuf (by rw [hc₁])
    rw [hc₁] at hr
    dsimp only at hr
    simp only [Option.isSome_some, Bool.not_true, Bool.false_eq_true, if_false, Memory.charsAt_eq_some.2 hg.self,
      Option.bind_some]
    generalize BlockDesc.ofImage k bdBuf = desc at hr ⊢
    -- the header is in memory
    have hhead : Accounts k s { s with heap := h₁ } c c₁ 0 0 False := by
      refine ⟨?_, fun _ => ?_⟩ <;> dsimp only <;> omega
    split at hr
    · rename_i h0
      cases hr
      rw [if_pos h0]
      exact ⟨0, { s with heap := h₁ }, rfl, hs₁, fun _ => ⟨hhead.le, fun _ => hhead.eq id⟩⟩
    · rename_i h0
      rw [if_neg h0]
      split at hr
      · rename_i hnew
        rw [if_pos hnew]
        obtain ⟨got', m₂, c₂, hgot, i, s₂, hrun₂, hs₂, hacc⟩ :=
          hs₁.receiveData hg.self hloose hlen (k.ntohl desc.dataSize) (k.ntohl desc.blockNum) c₁
        cases hgot.symm.trans hr
        refine ⟨i, s₂, hrun₂, hs₂, fun _ => ?_⟩
        simpa using hhead.trans hacc False.elim id
      · rename_i hold
        rw [if_neg hold]
        obtain ⟨i, s₂, hret, hs₂, hb₂⟩ := hs₁.returnBlock hg.self hloose (k.ntohl desc.blockNum) c₁
        cases hr
        refine ⟨i, s₂, hret, hs₂, fun hne => ⟨?_, fun _ => ?_⟩⟩
        all_goals
          rw [Blocks.length_copies_getBlock hne i]
          dsimp only at hb₂
          omega

theorem receiveLoop (hs : s.Holds m copies) {fuel : ℕ} {n : UInt32} {file : List UInt8} {c : Conn UInt8}
    {r : Received} (hr : k.receiveLoop fuel n file m c = some r) :
    ∃ i r' news, s.receiveLoop k fuel n file c = some r' ∧ r'.ret = r.last.ret i ∧ (r'.file, r'.numBlocks, r'.conn) =
        (r.file, r.numBlocks, r.conn) ∧
      r'.client.Holds r.blocks (news ++ copies) ∧ r.file = file ++ news.reverse.flatMap (·.2.data) ∧
      (r.last ≠ .outOfRange → Accounts k s r'.client c r.conn (news.reverse.flatMap (·.2.data)).length news.length
        (r.last = .lost)) := by
  induction fuel generalizing n file m s c copies with
  | zero => cases hr
  | succ fuel ih =>
    rw [Host.receiveLoop] at hr
    rcases hgot : k.receiveBlock m c with ⟨got, m', c'⟩
    obtain ⟨i, s', h1, hs', hacc⟩ := hs.receiveBlock hgot
    rw [hgot] at hr
    simp only [MemClient.receiveLoop, h1, Option.bind_eq_bind, Option.bind_some, Option.pure_def]
    cases got with
    | block e =>
      obtain ⟨d, hrec, hdata⟩ := hs'.stores (i, e) List.mem_cons_self
      have hread : s'.heap.read d e.dataSize = some e.data := by
        rw [← e.size_eq]
        exact Memory.read_eq hdata
      obtain ⟨j, r', news, h2, hret, hres, hs'', hfile, hacc'⟩ := ih hs' hr
      refine ⟨j, r', news ++ [(i, e)], ?_, hret, hres, ?_, ?_, fun hne => ?_⟩
      · simp only [Got.ret, Memory.blockAt_eq_some.2 hrec, Option.bind_some, hread, h2]
      · rw [List.append_assoc]
        exact hs''
      · simp [hfile]
      · have h : Accounts k s r'.client c r.conn _ _ (r.last = .lost) :=
          (hacc Got.noConfusion).trans (hacc' hne) (fun he => by cases he) id
        simpa [Got.written, Got.copies, Nat.add_comm 1] using h
    | eof =>
      cases hr
      exact ⟨i, _, [], rfl, rfl, rfl, hs', by simp, hacc⟩
    | lost =>
      cases hr
      exact ⟨i, _, [], rfl, rfl, rfl, hs', by simp, hacc⟩
    | outOfRange =>
      cases hr
      exact ⟨i, _, [], rfl, rfl, rfl, hs', by simp, hacc⟩

theorem receiveFiles (hs : s.Holds m copies) (n : ℕ) (c : Conn UInt8) :
    ∃ rs s' c' news, s.receiveFiles k n c = some (rs, s', c') ∧
      rs.map (fun r => (r.file, r.numBlocks, decide (r.ret = .outOfRange))) =
        (k.receiveFiles n m c).map (fun r => (r.file, r.numBlocks, decide (r.last = .outOfRange))) ∧
      s'.Holds ((k.receiveFiles n m c).getLast?.elim m (·.blocks)) (news ++ copies) ∧
      (k.receiveFiles n m c).flatMap (·.file) = news.reverse.flatMap (·.2.data) ∧
      ((∀ r ∈ k.receiveFiles n m c, r.last ≠ .outOfRange) →
        Accounts k s s' c c' ((k.receiveFiles n m c).flatMap (·.file)).length news.length
          (∃ r ∈ k.receiveFiles n m c, r.last = .lost)) := by
  induction n generalizing s m copies c with
  | zero => exact ⟨[], s, c, [], rfl, rfl, hs, rfl, fun _ => ⟨Nat.le_refl _, fun _ => rfl⟩⟩
  | succ n ih =>
    obtain ⟨r, hr⟩ := k.receiveLoop_total (m := m) 0 [] (Nat.lt_succ_self (tokens c).length)
    obtain ⟨i, r', news, h1, hret, hres, hs', hfile, hacc⟩ := hs.receiveLoop hr
    have hf : k.receiveFile m c = some r := hr
    have hf' : s.receiveFile k c = some r' := h1
    obtain ⟨hfile', hnum, hconn⟩ : r'.file = r.file ∧ r'.numBlocks = r.numBlocks ∧ r'.conn = r.conn := by
      simpa only [Prod.mk.injEq] using hres
    have hthrow : r'.ret = .outOfRange ↔ r.last = .outOfRange := by
      rw [hret]
      cases r.last <;> simp [Got.ret]
    simp only [Host.receiveFiles, hf, MemClient.receiveFiles, hf', Option.bind_eq_bind, Option.bind_some, hthrow]
    rw [List.nil_append] at hfile
    rw [← hfile] at hacc
    by_cases ho : r.last = .outOfRange
    · simp only [if_pos ho]
      refine ⟨[r'], r'.client, r'.conn, news, rfl, ?_, hs', by simpa using hfile, fun hall => ?_⟩
      · simp [hfile', hnum, hthrow]
      · exact absurd ho (hall r List.mem_cons_self)
    · simp only [if_neg ho]
      obtain ⟨rs, s₂, c₂, news₂, h2, hmap, hs₂, hfiles, hacc₂⟩ := ih hs' r.conn
      refine ⟨r' :: rs, s₂, c₂, news₂ ++ news, ?_, ?_, ?_, ?_, fun hall => ?_⟩
      · rw [hconn, h2]
        rfl
      · simp [hfile', hnum, hthrow, hmap]
      · rw [List.append_assoc, List.getLast?_cons]
        cases hl : (k.receiveFiles n r.blocks r.conn).getLast? <;> rw [hl] at hs₂ <;> exact hs₂
      · rw [List.flatMap_cons, hfiles, hfile, List.reverse_append, List.flatMap_append]
      · rw [List.flatMap_cons, List.length_append, List.length_append, Nat.add_comm news₂.length]
        refine (hacc ho).trans (hacc₂ fun q hq => hall q (List.mem_cons_of_mem r hq)) (fun hl => ?_) fun hl => ?_
        · exact ⟨r, List.mem_cons_self, hl⟩
        · obtain ⟨q, hq, hl⟩ := hl
          exact ⟨q, List.mem_cons_of_mem r hq, hl⟩

end Holds

/-- `receive_file` only touches memory that is in use, and returns and writes what `receiveFile` says. The `block`s in
use are those of the map and one copy for each block that was ever received. Of all the bytes that have come over the
connection or were written to a file, only the headers of the blocks are not in memory; at the end of a file not even
that header is deleted, and of a block that was cut off nothing is. -/
theorem memory_of_receiveFiles (k : Host) (n : ℕ) (c : Conn UInt8) :
    ∃ rs s c', ∃ copies : List (ℕ × Block), fresh.receiveFiles k n c = some (rs, s, c') ∧
      rs.map (fun r => (r.file, r.numBlocks, decide (r.ret = .outOfRange))) =
        (k.receiveFiles n .empty c).map (fun r => (r.file, r.numBlocks, decide (r.last = .outOfRange))) ∧
      (∀ i e, ((k.receiveFiles n .empty c).getLast?.elim .empty (·.blocks)).get i = some e →
        ∃ a, s.blocks i = some a ∧ s.heap.Stores a e) ∧
      (∀ i, ((k.receiveFiles n .empty c).getLast?.elim .empty (·.blocks)).get i = none → s.blocks i = none) ∧
      (copies.map Prod.fst).Nodup ∧ (∀ q ∈ copies, s.heap.Stores q.1 q.2 ∧ ∀ i, s.blocks i ≠ some q.1) ∧
      (∀ a r, s.heap.get a = some (.block r) → (∃ i, s.blocks i = some a) ∨ a ∈ copies.map Prod.fst) ∧
      copies.flatMap (·.2.data) = (k.receiveFiles n .empty c).flatMap (·.file) ∧
      ((∀ r ∈ k.receiveFiles n .empty c, r.last ≠ .outOfRange) →
        ((k.receiveFiles n .empty c).flatMap (·.file)).length + (unread c).length ≤
          s.heap.arrayBytes + k.sizeofBlockDesc * copies.length + (unread c').length) ∧
      ((∀ r ∈ k.receiveFiles n .empty c, r.last = .eof) →
        ((k.receiveFiles n .empty c).flatMap (·.file)).length + (unread c).length =
          s.heap.arrayBytes + k.sizeofBlockDesc * copies.length + (unread c').length) := by
  obtain ⟨rs, s, c', news, h1, hmap, hs, hfiles, hacc⟩ := holds_fresh.receiveFiles (k := k) n c
  rw [List.append_nil] at hs
  have hr := hs.represents
  have hzero (w : ℕ) : fresh.heap.arrayBytes + w = w := Nat.zero_add w
  refine ⟨rs, s, c', news.reverse, h1, hmap, hr.present, hr.absent, ?_, fun q hq => ?_, fun a r ha => ?_, hfiles.symm,
    fun hall => ?_, fun hall => ?_⟩
  · rw [List.map_reverse]
    exact List.nodup_reverse.2 hr.nodup
  · have hq := List.mem_reverse.1 hq
    exact ⟨hs.stores q hq, (hr.inHand q.1 (List.mem_map_of_mem hq)).2⟩
  · rw [List.map_reverse, List.mem_reverse]
    exact hr.found a r ha
  · simpa only [hzero, List.length_reverse] using (hacc hall).le
  · have heof : ∀ r ∈ k.receiveFiles n .empty c, r.last ≠ .outOfRange ∧ r.last ≠ .lost := by
      intro r hr
      rw [hall r hr]
      exact ⟨Got.noConfusion, Got.noConfusion⟩
    have h := (hacc fun r hr => (heof r hr).1).eq fun ⟨r, hr, hl⟩ => (heof r hr).2 hl
    simpa only [hzero, List.length_reverse] using h

end MemClient
end Rabin
