import Rabin.Frames
import Rabin.Memory

/-!
# The memory of `RabinServer`

`send_file` once more, with its `new` and `delete`. It never touches memory that is not in use, and does to the
connection and to what the map stands for what `sendFile` says (`memory_of_sendFile`). No `block` is lost, but no
array is ever given back: not the copies that `hash_function` makes, one for each position of the file, nor the data of a
block that was there before.
-/

namespace Rabin

structure MemServer where
  heap : Memory
  blocks : ℕ → Option ℕ
  sock : Socket

/-- The variables of the loop in `send_file`. -/
structure MemCutting where
  i : UInt32
  prev : ℕ
  numBlocks : ℤ
  srv : MemServer

namespace MemServer
variable (p : Params)

def fresh (plan : List Outcome) : MemServer := ⟨.empty, fun _ => none, .open' plan⟩

/-- The copy is not deleted. -/
def hashFunction (h : Memory) (b : List UInt8) : ℕ × Memory := (p.hashFunction b, (h.alloc (.chars (b ++ [0]))).2)

def rabinFunc (h : Memory) (b0 b1 b2 : UInt8) : ℕ × Memory :=
  let (hashval, h) := hashFunction p h [b0, b1, b2]
  (hashval % (maxBytes / 2), h)

/-- `none` for an access to memory that is not in use. -/
def insertBlock (s : MemServer) (b : List UInt8) : Option (ℕ × MemServer) := do
  let (newBlock, h) := s.heap.alloc (.block ⟨0, 0, false, 0⟩)
  let (n, h) := hashFunction p h b
  let (data, h) := h.alloc (.chars b)
  let h ← h.set newBlock (.block ⟨n, b.length, false, data⟩)
  match s.blocks n with
  | some cur =>
    let r ← Memory.blockAt h cur
    let d ← Memory.charsAt h r.data
    if r.dataSize ≠ b.length ∨ d.take b.length ≠ b then
      let h ← h.free cur
      pure (n, { s with heap := h, blocks := Function.update s.blocks n (some newBlock) })
    else
      let h ← h.set cur (.block { r with old := true })
      let h ← h.free newBlock
      pure (n, { s with heap := h })
  | none => pure (n, { s with heap := h, blocks := Function.update s.blocks n (some newBlock) })

def writeBlockToClient (s : MemServer) (i : ℕ) : Option (Option ℕ × MemServer) := do
  let a ← s.blocks i
  let r ← s.heap.blockAt a
  let d ← s.heap.charsAt r.data
  let blockI := Block.ofBytes r.blockNum r.old d
  let descriptor := BlockDesc.hton p.host r.blockNum r.dataSize r.old
  let (n, sock) := s.sock.write (.desc blockI) (descriptor.image p.host)
  if n = none then pure (n, { s with sock := sock })
  else if !descriptor.old then
    let (n, sock) := sock.write (.data blockI) (d.take r.dataSize)
    let h ← s.heap.set a (.block { r with old := true })
    pure (n, { s with heap := h, sock := sock })
  else pure (n, { s with sock := sock })

def sendBlock (s : MemServer) (b : List UInt8) : Option MemServer := do
  let (blockNum, s) ← s.insertBlock p b
  let (_, s) ← s.writeBlockToClient p blockNum
  pure s

def sendEof (s : MemServer) : MemServer :=
  { s with sock := (s.sock.write .eof ((BlockDesc.hton p.host 0 0 false).image p.host)).2 }

def cutStep (file : List UInt8) (l : MemCutting) : Option MemCutting := do
  let tooLarge := decide ((maxBytes : ℤ) ≤ (l.i.toNat : ℤ) - l.prev)
  let (hashval, h) := rabinFunc p l.srv.heap (byteAt file (l.i - 2)) (byteAt file (l.i - 1)) (byteAt file l.i)
  let srv := { l.srv with heap := h }
  if hashval = 0 || tooLarge then
    let b ← bytesAt file l.prev (intWidth l.i.toNat l.prev)
    let srv ← srv.sendBlock p b
    pure ⟨l.i + 1, l.i.toNat, wrapInt (l.numBlocks + 1), srv⟩
  else pure { l with i := l.i + 1, srv := srv }

def cutLoop (file : List UInt8) : ℕ → MemCutting → Option MemCutting
  | 0, _ => none
  | fuel + 1, l => if l.i.toNat < file.length then (cutStep p file l).bind (cutLoop file fuel) else some l

def sendFile (s : MemServer) (file : List UInt8) : Option (ℤ × MemServer) := do
  let l ← cutLoop p file (file.length + 1) ⟨2, 0, 0, s⟩
  let (numBlocks, s) ←
    if l.prev ≠ file.length then do
      let b ← bytesAt file l.prev (intWidth file.length l.prev)
      let s ← l.srv.sendBlock p b
      pure (wrapInt (l.numBlocks + 1), s)
    else pure (l.numBlocks, l.srv)
  pure (wrapInt (numBlocks + 1), s.sendEof p)

/-- The memory of `srv`, with no `block` besides those of the map. -/
structure Holds (s : MemServer) (srv : RabinServer) : Prop where
  represents : s.heap.Represents s.blocks srv.blocks []
  sock : s.sock = srv.sock

variable {p} {s s' : MemServer} {srv : RabinServer} {b : List UInt8}

theorem holds_fresh (plan : List Outcome) : (fresh plan).Holds (.fresh plan) := ⟨Memory.represents_empty, rfl⟩

theorem exists_newBlock {h : Memory} {map : ℕ → Option ℕ} {m : Blocks} (hr : h.Represents map m []) (n : ℕ)
    (b : List UInt8) :
    ∃ h₁ : Memory, ((((h.alloc (.block ⟨0, 0, false, 0⟩)).2.alloc (.chars (b ++ [0]))).2.alloc (.chars b)).2.set h.next
        (.block ⟨n, b.length, false, h.next + 1 + 1⟩) = some h₁) ∧
      h₁.Represents map m [h.next] ∧ h₁.Stores h.next (Block.ofBytes n false b) ∧
      h₁.arrayBytes = h.arrayBytes + (2 * b.length + 1) ∧
      ∀ a x, h.get a = some x → h₁.get a = some x := by
  have h1 := hr.allocBlock ⟨0, 0, false, 0⟩
  have h3 := (h1.allocChars (b ++ [0])).allocChars b
  have hget : (((h.alloc (.block ⟨0, 0, false, 0⟩)).2.alloc (.chars (b ++ [0]))).2.alloc (.chars b)).2.get h.next =
      some (.block ⟨0, 0, false, 0⟩) :=
    Heap.get_alloc_of_some (Heap.get_alloc_of_some Heap.get_alloc_self)
  obtain ⟨h₁, hset⟩ := Heap.exists_change hget (some (.block ⟨n, b.length, false, h.next + 1 + 1⟩))
  obtain ⟨-, hself, hother⟩ := Heap.change_eq_some hset
  refine ⟨h₁, hset, h3.setHand hset, ⟨h.next + 1 + 1, hself, ?_⟩, ?_, fun a x ha => ?_⟩
  · rw [hother _ (by omega)]
    exact Heap.get_alloc_self
  · rw [Memory.arrayBytes_change hget rfl hset, Memory.arrayBytes_alloc, Memory.arrayBytes_alloc,
      Memory.arrayBytes_alloc]
    simp only [Cell.arraySize, List.length_append, List.length_singleton]
    omega
  · rw [hother a (Nat.ne_of_lt (Heap.lt_next ha))]
    exact Heap.get_alloc_of_some (Heap.get_alloc_of_some (Heap.get_alloc_of_some ha))

theorem insertBlock_eq {h₁ : Memory} (hset : (((s.heap.alloc (.block ⟨0, 0, false, 0⟩)).2.alloc
      (.chars (b ++ [0]))).2.alloc (.chars b)).2.set s.heap.next
        (.block ⟨p.hashFunction b, b.length, false, s.heap.next + 1 + 1⟩) = some h₁) :
    s.insertBlock p b = match s.blocks (p.hashFunction b) with
      | some cur => (Memory.blockAt h₁ cur).bind fun r => (Memory.charsAt h₁ r.data).bind fun d =>
        if r.dataSize ≠ b.length ∨ d.take b.length ≠ b then
          (h₁.free cur).bind fun h₂ =>
            some (p.hashFunction b,
              { s with heap := h₂, blocks := Function.update s.blocks (p.hashFunction b) (some s.heap.next) })
        else
          (h₁.set cur (.block { r with old := true })).bind fun h₂ => (h₂.free s.heap.next).bind fun h₃ =>
            some (p.hashFunction b, { s with heap := h₃ })
      | none => some (p.hashFunction b,
          { s with heap := h₁, blocks := Function.update s.blocks (p.hashFunction b) (some s.heap.next) }) := by
  simp only [insertBlock, hashFunction, Heap.alloc_fst]
  refine (congrArg (fun o : Option Memory => o >>= _) hset).trans ?_
  simp only [Option.bind_eq_bind, Option.bind_some, Option.pure_def]

theorem Holds.insertBlock (h : s.Holds srv) (b : List UInt8) :
    ∃ s', s.insertBlock p b = some ((p.insertBlock srv b).1, s') ∧ s'.Holds (p.insertBlock srv b).2 ∧
      s'.heap.arrayBytes = s.heap.arrayBytes + (2 * b.length + 1) := by
  obtain ⟨h₁, hset, hr, hs, hbytes, hkeep⟩ := exists_newBlock h.represents (p.hashFunction b) b
  have hput := hr.put hs
  have hnum : (Block.ofBytes (p.hashFunction b) false b).blockNum = p.hashFunction b := rfl
  rw [hnum] at hput
  rw [insertBlock_eq hset]
  cases hg : srv.blocks.get (p.hashFunction b) with
  | none =>
    have hnone : s.blocks (p.hashFunction b) = none := h.represents.absent _ hg
    simp only [Params.insertBlock, hg, hnone]
    rw [hnone] at hput
    exact ⟨_, rfl, ⟨hput, h.sock⟩, hbytes⟩
  | some cur =>
    obtain ⟨a, ha, d, hrec, hdata⟩ := h.represents.present _ _ hg
    have hrec' := hkeep a _ hrec
    have hdiff : cur.dataSize ≠ b.length ∨ cur.data.take b.length ≠ b ↔ cur.dataSize ≠ b.length ∨ cur.data ≠ b := by
      refine or_congr_right' fun hs => not_congr ?_
      rw [List.take_of_length_le (by rw [cur.size_eq, not_not.1 hs])]
    simp only [Params.insertBlock, hg, ha, Memory.blockAt_eq_some.2 hrec', Memory.charsAt_eq_some.2 (hkeep d _ hdata),
      Option.bind_some, hdiff]
    rw [ha] at hput
    split
    · -- another block: it is deleted, and its data are not
      obtain ⟨h₂, hfree⟩ := Heap.exists_change hrec' none
      refine ⟨{ s with heap := h₂, blocks := Function.update s.blocks (p.hashFunction b) (some s.heap.next) }, ?_,
        ⟨Memory.Represents.freeHand hput hfree, h.sock⟩, ?_⟩
      · rw [Heap.free, hfree]
        rfl
      · exact (Memory.arrayBytes_change hrec' rfl hfree).trans hbytes
    · -- the same block: the new one is deleted, and its data are not
      obtain ⟨h₂, hset₂⟩ := Heap.exists_change hrec' (some (.block ⟨cur.blockNum, cur.dataSize, true, d⟩))
      have hr₂ := hr.setOld ha hg hrec' hset₂
      obtain ⟨⟨r, hnew⟩, -⟩ := hr₂.inHand _ List.mem_cons_self
      obtain ⟨h₃, hfree⟩ := Heap.exists_change hnew none
      refine ⟨{ s with heap := h₃ }, ?_, ⟨hr₂.freeHand hfree, h.sock⟩, ?_⟩
      · simp only [Heap.set, Heap.free, hset₂, hfree, Option.bind_some]
      · exact ((Memory.arrayBytes_change hnew rfl hfree).trans (Memory.arrayBytes_change hrec' rfl hset₂)).trans hbytes

theorem Holds.writeBlockToClient (h : s.Holds srv) {i : ℕ} {n : Option ℕ} {srv' : RabinServer}
    (hw : p.writeBlockToClient srv i = some (n, srv')) :
    ∃ s', s.writeBlockToClient p i = some (n, s') ∧ s'.Holds srv' ∧ s'.heap.arrayBytes = s.heap.arrayBytes := by
  unfold Params.writeBlockToClient at hw
  cases hg : srv.blocks.get i with
  | none =>
    rw [hg] at hw
    cases hw
  | some e =>
    obtain ⟨a, ha, d, hrec, hdata⟩ := h.represents.present _ _ hg
    have he : Block.ofBytes e.blockNum e.old e.data = e := Block.ext' rfl rfl rfl
    have hall : e.data.take e.dataSize = e.data := List.take_of_length_le (Nat.le_of_eq e.size_eq)
    simp only [hg] at hw
    simp only [MemServer.writeBlockToClient, ha, Memory.blockAt_eq_some.2 hrec, Memory.charsAt_eq_some.2 hdata, he, hall,
      h.sock, Option.bind_eq_bind, Option.bind_some, Option.pure_def]
    split at hw
    · rename_i hret
      cases hw
      rw [if_pos hret]
      exact ⟨_, rfl, ⟨h.represents, rfl⟩, rfl⟩
    · rename_i hret
      rw [if_neg hret]
      split at hw
      · rename_i hold
        cases hw
        obtain ⟨h₁, hset⟩ := Heap.exists_change hrec (some (.block ⟨e.blockNum, e.dataSize, true, d⟩))
        rw [if_pos hold]
        refine ⟨⟨h₁, s.blocks, _⟩, ?_, ⟨h.represents.setOld ha hg hrec hset, rfl⟩,
          Memory.arrayBytes_change hrec rfl hset⟩
        rw [Heap.set, hset]
        rfl
      · rename_i hold
        cases hw
        rw [if_neg hold]
        exact ⟨_, rfl, ⟨h.represents, rfl⟩, rfl⟩

theorem Holds.sendBlock (h : s.Holds srv) (b : List UInt8) :
    ∃ s', s.sendBlock p b = some s' ∧ s'.Holds (p.offer srv b) ∧
      s'.heap.arrayBytes = s.heap.arrayBytes + (2 * b.length + 1) := by
  obtain ⟨s₁, h1, hs₁, hb₁⟩ := h.insertBlock (p := p) b
  have hsend := p.sendBlock_eq srv b
  rw [Params.sendBlock] at hsend
  rcases hins : p.insertBlock srv b with ⟨n, srv₁⟩
  rw [hins] at h1 hs₁ hsend
  obtain ⟨⟨ret, srv'⟩, hw, rfl⟩ := Option.map_eq_some_iff.1 hsend
  obtain ⟨s₂, h2, hs₂, hb₂⟩ := hs₁.writeBlockToClient hw
  refine ⟨s₂, ?_, hs₂, hb₂.trans hb₁⟩
  simp only [MemServer.sendBlock, h1, h2, Option.bind_eq_bind, Option.bind_some, Option.pure_def]

/-! ### The loop -/

/-- What the arrays for the blocks `bs` hold. -/
def blockBytes (bs : List (List UInt8)) : ℕ := (bs.map fun b => 2 * b.length + 1).sum

theorem blockBytes_cons (b : List UInt8) (bs : List (List UInt8)) :
    blockBytes (b :: bs) = 2 * b.length + 1 + blockBytes bs := List.sum_cons

variable (p) in
/-- `send_file` after its loop. -/
def finish (file : List UInt8) (l : MemCutting) : Option (ℤ × MemServer) := do
  let (numBlocks, s) ←
    if l.prev ≠ file.length then do
      let b ← bytesAt file l.prev (intWidth file.length l.prev)
      let s ← l.srv.sendBlock p b
      pure (wrapInt (l.numBlocks + 1), s)
    else pure (l.numBlocks, l.srv)
  pure (wrapInt (numBlocks + 1), s.sendEof p)

/-- A round of the loop uses 4 bytes, for the fingerprint. -/
theorem Holds.cutStep {file : List UInt8} {l : Cutting} (hs : s.Holds l.srv) (h : Params.Near file l)
    (hi : l.i.toNat < file.length) :
    ∃ s', cutStep p file ⟨l.i, l.prev, l.numBlocks, s⟩ =
        some (if p.IsCut file l.prev l.i.toNat then ⟨l.i + 1, l.i.toNat, wrapInt (l.numBlocks + 1), s'⟩
          else ⟨l.i + 1, l.prev, l.numBlocks, s'⟩) ∧
      s'.Holds (if p.IsCut file l.prev l.i.toNat then
        p.offer l.srv ((file.drop l.prev).take (l.i.toNat - l.prev)) else l.srv) ∧
      s'.heap.arrayBytes = s.heap.arrayBytes + (4 + if p.IsCut file l.prev l.i.toNat then
        2 * (l.i.toNat - l.prev) + 1 else 0) := by
  have hb := Params.bytesAt_intWidth (Nat.le_of_lt h.prev_lt) h.le_add (Nat.le_of_lt hi)
  obtain ⟨s₁, hs₁⟩ : ∃ s₁ : MemServer, s₁ = { s with heap :=
      (s.heap.alloc (.chars [byteAt file (l.i - 2), byteAt file (l.i - 1), byteAt file l.i, 0])).2 } := ⟨_, rfl⟩
  have hholds : s₁.Holds l.srv := by
    rw [hs₁]
    exact ⟨hs.represents.allocChars _, hs.sock⟩
  have hbytes : s₁.heap.arrayBytes = s.heap.arrayBytes + 4 := by
    rw [hs₁]
    exact Memory.arrayBytes_alloc _
  have hstep : MemServer.cutStep p file ⟨l.i, l.prev, l.numBlocks, s⟩ =
      if p.cutsHere file l then
        (bytesAt file l.prev (intWidth l.i.toNat l.prev)).bind fun b => (s₁.sendBlock p b).bind fun srv =>
          some ⟨l.i + 1, l.i.toNat, wrapInt (l.numBlocks + 1), srv⟩
      else some ⟨l.i + 1, l.prev, l.numBlocks, s₁⟩ := by
    rw [hs₁]
    rfl
  rw [hstep, h.cutsHere p]
  by_cases hc : p.IsCut file l.prev l.i.toNat
  · obtain ⟨s₂, h2, hs₂, hb₂⟩ := hholds.sendBlock (p := p) ((file.drop l.prev).take (l.i.toNat - l.prev))
    refine ⟨s₂, ?_, ?_, ?_⟩
    · rw [if_pos (decide_eq_true hc), if_pos hc, hb, Option.bind_some, h2, Option.bind_some]
    · simpa only [hc, if_true] using hs₂
    · have hlen : ((file.drop l.prev).take (l.i.toNat - l.prev)).length = l.i.toNat - l.prev := by
        rw [List.length_take, List.length_drop]
        omega
      rw [hb₂, hbytes, hlen, if_pos hc, Nat.add_assoc]
  · refine ⟨s₁, ?_, ?_, ?_⟩
    · rw [if_neg (by simpa using hc), if_neg hc]
    · simpa only [hc, if_false] using hholds
    · rw [hbytes, if_neg hc, Nat.add_zero]

/-- From any position on, the loop and what follows it do what they do to the connection and the cache, and use 4 bytes
for each position and what the blocks need. -/
theorem cutLoop_finish {file : List UInt8} (hlt : file.length < 2 ^ 32) {n fuel : ℕ} {l : Cutting} (hs : s.Holds l.srv)
    (h : Params.Near file l) (hn : n = 0 ∨ l.i.toNat + n = file.length) (hle : file.length ≤ l.i.toNat + n)
    (hf : n < fuel) :
    ∃ s', (cutLoop p file fuel ⟨l.i, l.prev, l.numBlocks, s⟩).bind (finish p file) =
        some (wrapInt (l.numBlocks + (Cut.cutAt file l.prev (p.cutsFrom file n l.i.toNat l.prev)).length + 1), s') ∧
      s'.Holds (p.sendEof (p.offerAll l.srv (Cut.cutAt file l.prev (p.cutsFrom file n l.i.toNat l.prev)))) ∧
      s'.heap.arrayBytes = s.heap.arrayBytes +
        (4 * n + blockBytes (Cut.cutAt file l.prev (p.cutsFrom file n l.i.toNat l.prev))) := by
  induction n generalizing fuel l s with
  | zero =>
    obtain ⟨fuel, rfl⟩ : ∃ k, fuel = k + 1 := ⟨fuel - 1, by omega⟩
    have hstop : ¬ l.i.toNat < file.length := by omega
    rw [cutLoop, if_neg hstop, Option.bind_some, finish, Params.cutsFrom, Cut.cutAt]
    by_cases he : l.prev = file.length
    · rw [if_pos he]
      refine ⟨s.sendEof p, ?_, ⟨hs.represents, ?_⟩, ?_⟩
      · simp [he]
      · simp only [MemServer.sendEof, hs.sock]
        rfl
      · simp [MemServer.sendEof, blockBytes]
    · have hall : (file.drop l.prev).take (file.length - l.prev) = file.drop l.prev :=
        List.take_of_length_le (Nat.le_of_eq List.length_drop)
      have hw : file.length ≤ l.prev + maxBytes := Nat.le_trans hle h.le_add
      obtain ⟨s₁, h1, hs₁, hb₁⟩ := hs.sendBlock (p := p) (file.drop l.prev)
      rw [if_neg he]
      refine ⟨s₁.sendEof p, ?_, ⟨hs₁.represents, ?_⟩, ?_⟩
      · simp [he, Params.bytesAt_intWidth h.prev_le hw (Nat.le_refl _), hall, h1, Params.wrapInt_add]
      · simp only [MemServer.sendEof, hs₁.sock]
        rfl
      · simp only [MemServer.sendEof, blockBytes, List.map_cons, List.map_nil, List.sum_cons, List.sum_nil]
        omega
  | succ n ih =>
    obtain ⟨fuel, rfl⟩ : ∃ k, fuel = k + 1 := ⟨fuel - 1, by omega⟩
    have hlen : l.i.toNat + (n + 1) = file.length := hn.resolve_left (Nat.succ_ne_zero n)
    have hgo : l.i.toNat < file.length := by omega
    have hfuel : n < fuel := Nat.lt_of_succ_lt_succ hf
    have hsucc := Params.toNat_succ hlt hgo
    obtain ⟨s₁, h1, hs₁, hb₁⟩ := hs.cutStep (p := p) h hgo
    rw [cutLoop, if_pos hgo, h1, Option.bind_some, Params.cutsFrom]
    by_cases hc : p.IsCut file l.prev l.i.toNat
    · rw [if_pos hc] at hs₁ hb₁ ⊢
      have hnear := h.cut hlt hgo (wrapInt (l.numBlocks + 1))
        (p.offer l.srv ((file.drop l.prev).take (l.i.toNat - l.prev)))
      obtain ⟨s₂, h2, hs₂, hb₂⟩ := ih hs₁ hnear (by dsimp only; omega) (by dsimp only; omega) hfuel
      simp only [hsucc] at h2 hs₂ hb₂
      have hw : ((file.drop l.prev).take (l.i.toNat - l.prev)).length = l.i.toNat - l.prev := by
        rw [List.length_take, List.length_drop]
        omega
      rw [if_pos hc, Cut.cutAt]
      refine ⟨s₂, ?_, hs₂, ?_⟩
      · rw [h2, List.length_cons, add_assoc, Params.wrapInt_add]
        push_cast
        congr 3
        ring
      · rw [hb₂, hb₁, blockBytes_cons, hw]
        omega
    · rw [if_neg hc] at hs₁ hb₁ ⊢
      have hs₁' : s₁.Holds ({ l with i := l.i + 1 } : Cutting).srv := hs₁
      obtain ⟨s₂, h2, hs₂, hb₂⟩ := ih hs₁' (h.skip p hlt hgo hc) (by dsimp only; omega)
        (by dsimp only; omega) hfuel
      simp only [hsucc] at h2 hs₂ hb₂
      rw [if_neg hc]
      refine ⟨s₂, h2, hs₂, ?_⟩
      rw [hb₂, hb₁]
      omega

/-- What `send_file` uses for good. -/
def fileBytes (p : Params) (file : List UInt8) : ℕ :=
  4 * (file.length - 2) + 2 * file.length + (p.chunks file).length

theorem blockBytes_chunks (file : List UInt8) :
    blockBytes (p.chunks file) = 2 * file.length + (p.chunks file).length := by
  have hsum (bs : List (List UInt8)) : blockBytes bs = 2 * bs.flatten.length + bs.length := by
    induction bs with
    | nil => rfl
    | cons b bs ih =>
      rw [blockBytes_cons, ih, List.flatten_cons, List.length_append, List.length_cons]
      omega
  rw [hsum, p.flatten_chunks]

theorem Holds.sendFile (h : s.Holds srv) {file : List UInt8} (hs : file.length < 2 ^ 32) :
    ∃ s', s.sendFile p file = some (wrapInt ((p.chunks file).length + 1), s') ∧ s'.Holds (p.sent srv file) ∧
      s'.heap.arrayBytes = s.heap.arrayBytes + fileBytes p file := by
  have h2 : (2 : UInt32).toNat = 2 := rfl
  have hsrv : s.Holds (⟨2, 0, 0, srv⟩ : Cutting).srv := h
  have hfuel : file.length - 2 < file.length + 1 := by omega
  obtain ⟨s', h1, hs', hb⟩ := cutLoop_finish (p := p) hs hsrv (Params.near_start file srv) (by dsimp only; omega)
    (by dsimp only; omega) hfuel
  simp only [h2, zero_add] at h1 hs' hb
  refine ⟨s', h1, hs', ?_⟩
  have hb' : s'.heap.arrayBytes = s.heap.arrayBytes + (4 * (file.length - 2) + blockBytes (p.chunks file)) := hb
  rw [hb', blockBytes_chunks, fileBytes]
  omega

variable (p) in
/-- Successive calls of `send_file` with their return values. -/
def sendFiles (s : MemServer) : List (List UInt8) → Option (List ℤ × MemServer)
  | [] => some ([], s)
  | f :: fs => do
    let (n, s) ← s.sendFile p f
    let (ns, s) ← sendFiles s fs
    pure (n :: ns, s)

theorem Holds.sendFiles (h : s.Holds srv) {files : List (List UInt8)} {ns : List (ℤ × List UInt8)}
    {srv' : RabinServer} (hr : p.sendFiles srv files = some (ns, srv')) :
    ∃ s', s.sendFiles p files = some (ns.map Prod.fst, s') ∧ s'.Holds srv' ∧
      s'.heap.arrayBytes = s.heap.arrayBytes + (files.map (fileBytes p)).sum := by
  induction files generalizing s srv ns with
  | nil =>
    cases hr
    exact ⟨s, rfl, h, rfl⟩
  | cons f fs ih =>
    obtain ⟨⟨n, srv₁⟩, h1, hr⟩ := Option.bind_eq_some_iff.1 hr
    obtain ⟨⟨ns', srv₂⟩, h2, hr⟩ := Option.bind_eq_some_iff.1 hr
    cases hr
    have hlt := p.length_lt_of_sendFile f h1
    rw [p.sendFile_eq_sent hlt, Option.some.injEq, Prod.mk.injEq] at h1
    obtain ⟨rfl, rfl⟩ := h1
    obtain ⟨s₁, hs1, hh₁, hb₁⟩ := h.sendFile (p := p) hlt
    obtain ⟨s₂, hs2, hh₂, hb₂⟩ := ih hh₁ h2
    refine ⟨s₂, ?_, hh₂, ?_⟩
    · simp only [MemServer.sendFiles, hs1, hs2, Option.bind_eq_bind, Option.bind_some, Option.pure_def, List.map_cons]
    · rw [hb₂, hb₁, List.map_cons, List.sum_cons, Nat.add_assoc]

/-- However the writes turn out, `send_file` only touches memory that is in use, and does what `sendFile` says. After
the files every `block` in use is one of the map and every number has its own; the arrays in use hold about six
bytes for each byte of the files, whether or not the blocks were there before. -/
theorem memory_of_sendFiles (plan : List Outcome) {files : List (List UInt8)} {ns : List (ℤ × List UInt8)}
    {srv : RabinServer} (hr : p.sendFiles (.fresh plan) files = some (ns, srv)) :
    ∃ s, (fresh plan).sendFiles p files = some (ns.map Prod.fst, s) ∧ s.sock = srv.sock ∧
      (∀ n, srv.blocks.get n = none → s.blocks n = none) ∧
      (∀ n e, srv.blocks.get n = some e → ∃ a, s.blocks n = some a ∧ s.heap.Stores a e) ∧
      (∀ a r, s.heap.get a = some (.block r) → ∃ n, s.blocks n = some a ∧ ∀ n', s.blocks n' = some a → n' = n) ∧
      s.heap.arrayBytes =
        (files.map fun f => 4 * (f.length - 2) + 2 * f.length + (p.chunks f).length).sum := by
  obtain ⟨s, h1, ⟨hrep, hsock⟩, hb⟩ := (holds_fresh plan).sendFiles hr
  refine ⟨s, h1, hsock, hrep.absent, hrep.present, fun a r ha => ?_, ?_⟩
  · obtain ⟨n, hn⟩ := (hrep.found a r ha).resolve_right List.not_mem_nil
    exact ⟨n, hn, fun n' hn' => hrep.inj n' n a hn' hn⟩
  · rw [hb]
    exact Nat.zero_add _

/-- The second file is a hit, after a failed write of the first, and uses as much. -/
theorem memory_of_sendFiles_small :
    ∃ ns s, (fresh [.error]).sendFiles .small [[97], [97]] = some (ns, s) ∧ s.heap.arrayBytes = 3 + 3 := by
  have hf : ∀ f ∈ ([[97], [97]] : List (List UInt8)), f.length < 2 ^ 32 := by decide
  obtain ⟨ns, h⟩ := Params.small.exists_sendFiles hf (.fresh [.error])
  obtain ⟨s, h1, -, -, -, -, hb⟩ := memory_of_sendFiles [.error] h
  have hone : Params.small.chunks [97] = [[97]] := by decide
  simp only [List.map_cons, List.map_nil, hone] at hb
  exact ⟨_, s, h1, hb⟩

end MemServer
end Rabin
