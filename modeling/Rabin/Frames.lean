import Rabin.Chunks

/-!
# What the server puts on the wire

A connection carries `Item`s: blocks, and the marks that end a file. `frames c items` are the frames a
server writes for them when it starts with the cache `c`, `emit` their concatenation. With writes that
accept everything this is what the connection takes (`accepted_sent`).
-/

namespace Rabin
open Mirror

inductive Item
  | block (b : List UInt8)
  | eof
  deriving DecidableEq

def Item.block? : Item → Option (List UInt8)
  | block b => some b
  | eof => none

/-- The blocks among the items. -/
def blocksOf (is : List Item) : List (List UInt8) := is.filterMap Item.block?

theorem blocksOf_append (is js : List Item) : blocksOf (is ++ js) = blocksOf is ++ blocksOf js :=
  List.filterMap_append ..

abbrev ByteCache := Cache ℕ (List UInt8)

namespace Params
variable (p : Params)

def eofFrame : List UInt8 := (BlockDesc.hton p.host 0 0 false).image p.host

def header (c : ByteCache) (b : List UInt8) : List UInt8 :=
  (BlockDesc.hton p.host (p.hashFunction b) b.length (hit p.hashFunction c b)).image p.host

def frame (c : ByteCache) (b : List UInt8) : List UInt8 :=
  p.header c b ++ if hit p.hashFunction c b then [] else b

def frames : ByteCache → List Item → List (List UInt8)
  | _, [] => []
  | c, .block b :: is => p.frame c b :: frames (learn p.hashFunction c b) is
  | c, .eof :: is => p.eofFrame :: frames c is

def emit (c : ByteCache) (is : List Item) : List UInt8 := (p.frames c is).flatten

/-- The cache after the blocks among the items. -/
def after (c : ByteCache) (is : List Item) : ByteCache := learnAll p.hashFunction c (blocksOf is)

def fileItems (file : List UInt8) : List Item := (p.chunks file).map .block ++ [.eof]

@[simp] theorem after_block (c : ByteCache) (b : List UInt8) (is : List Item) :
    p.after c (.block b :: is) = p.after (learn p.hashFunction c b) is := rfl

@[simp] theorem after_eof (c : ByteCache) (is : List Item) : p.after c (.eof :: is) = p.after c is := rfl

@[simp] theorem emit_nil (c : ByteCache) : p.emit c [] = [] := rfl

@[simp] theorem emit_block (c : ByteCache) (b : List UInt8) (is : List Item) :
    p.emit c (.block b :: is) = p.frame c b ++ p.emit (learn p.hashFunction c b) is := rfl

@[simp] theorem emit_eof (c : ByteCache) (is : List Item) : p.emit c (.eof :: is) = p.eofFrame ++ p.emit c is := rfl

theorem after_append (c : ByteCache) (is js : List Item) : p.after c (is ++ js) = p.after (p.after c is) js := by
  rw [after, blocksOf_append, learnAll_append]
  rfl

theorem frames_append (c : ByteCache) (is js : List Item) :
    p.frames c (is ++ js) = p.frames c is ++ p.frames (p.after c is) js := by
  induction is generalizing c with
  | nil => rfl
  | cons i is ih =>
    cases i with
    | block b => simp only [List.cons_append, frames, ih, after_block]
    | eof => simp only [List.cons_append, frames, ih, after_eof]

theorem emit_append (c : ByteCache) (is js : List Item) :
    p.emit c (is ++ js) = p.emit c is ++ p.emit (p.after c is) js := by
  rw [emit, frames_append, List.flatten_append]; rfl

theorem blocksOf_map (bs : List (List UInt8)) : blocksOf (bs.map .block) = bs := by
  rw [blocksOf, List.filterMap_map]
  exact List.filterMap_some

@[simp] theorem blocksOf_fileItems (file : List UInt8) : blocksOf (p.fileItems file) = p.chunks file := by
  rw [fileItems, blocksOf_append, blocksOf_map]
  exact List.append_nil _

theorem blocksOf_files (files : List (List UInt8)) :
    blocksOf (files.flatMap p.fileItems) = files.flatMap p.chunks := by
  induction files with
  | nil => rfl
  | cons f fs ih => rw [List.flatMap_cons, List.flatMap_cons, blocksOf_append, blocksOf_fileItems, ih]

theorem after_fileItems (c : ByteCache) (file : List UInt8) :
    p.after c (p.fileItems file) = learnAll p.hashFunction c (p.chunks file) := by
  rw [after, blocksOf_fileItems]

theorem length_frames (c : ByteCache) (is : List Item) : (p.frames c is).length = is.length := by
  induction is generalizing c with
  | nil => rfl
  | cons i is ih => cases i <;> simp [frames, ih]

@[simp] theorem length_header (c : ByteCache) (b : List UInt8) : (p.header c b).length = p.host.sizeofBlockDesc :=
  BlockDesc.length_image ..

@[simp] theorem length_eofFrame : p.eofFrame.length = p.host.sizeofBlockDesc := BlockDesc.length_image ..

/-! ### A server whose writes accept everything -/

variable {srv : RabinServer}

theorem plan_offer (h : srv.sock.plan = []) (b : List UInt8) : (p.offer srv b).sock.plan = [] := by
  simp only [offer]
  split
  · simp [h]
  · split <;> simp [h]

theorem accepted_offer (h : srv.sock.plan = []) (b : List UInt8) :
    (p.offer srv b).sock.accepted = srv.sock.accepted ++ p.frame srv.blocks.cache b := by
  have hret := Socket.ret_of_plan_nil h
  simp only [offer, Socket.write_fst, hret, Option.some_ne_none, if_false]
  have hdesc : p.descImage (p.entry b srv.blocks) = p.header srv.blocks.cache b := rfl
  cases ho : hit p.hashFunction srv.blocks.cache b with
  | true =>
    rw [if_pos (show (p.entry b srv.blocks).old = true from ho), Socket.accepted_write_of_plan_nil h, hdesc, frame, ho,
      if_pos rfl, List.append_nil]
  | false =>
    have hold : ¬ (p.entry b srv.blocks).old = true := by rw [entry_old, ho]; exact Bool.false_ne_true
    have hplan :
        (srv.sock.write (.desc (p.entry b srv.blocks)) (p.descImage (p.entry b srv.blocks))).2.plan = [] := by
      rw [Socket.write_plan, h]; rfl
    rw [if_neg hold, Socket.accepted_write_of_plan_nil hplan, Socket.accepted_write_of_plan_nil h, hdesc, frame, ho,
      if_neg Bool.false_ne_true, List.append_assoc]
    rfl

theorem offerAll_spec (h : srv.sock.plan = []) (bs : List (List UInt8)) :
    (p.offerAll srv bs).sock.plan = [] ∧
      (p.offerAll srv bs).sock.accepted = srv.sock.accepted ++ p.emit srv.blocks.cache (bs.map .block) := by
  induction bs generalizing srv with
  | nil => exact ⟨h, by simp⟩
  | cons b bs ih =>
    obtain ⟨h1, h2⟩ := ih (p.plan_offer h b)
    refine ⟨h1, ?_⟩
    rw [offerAll_cons, h2, accepted_offer p h, cache_offer, List.map_cons, emit_block, List.append_assoc]

theorem plan_sendEof (h : srv.sock.plan = []) : (p.sendEof srv).sock.plan = [] := by
  simp [sendEof, h]

theorem accepted_sendEof (h : srv.sock.plan = []) :
    (p.sendEof srv).sock.accepted = srv.sock.accepted ++ p.eofFrame :=
  Socket.accepted_write_of_plan_nil h ..

variable (srv) in
/-- The server after `send_file`. -/
def sent (file : List UInt8) : RabinServer := p.sendEof (p.offerAll srv (p.chunks file))

theorem sendFile_eq_sent {file : List UInt8} (hs : file.length < 2 ^ 32) :
    p.sendFile srv file = some (wrapInt ((p.chunks file).length + 1), p.sent srv file) :=
  p.sendFile_eq file hs srv

theorem plan_sent (h : srv.sock.plan = []) (file : List UInt8) : (p.sent srv file).sock.plan = [] :=
  p.plan_sendEof (p.offerAll_spec h _).1

theorem accepted_sent (h : srv.sock.plan = []) (file : List UInt8) :
    (p.sent srv file).sock.accepted = srv.sock.accepted ++ p.emit srv.blocks.cache (p.fileItems file) := by
  obtain ⟨h1, h2⟩ := p.offerAll_spec h (p.chunks file)
  rw [sent, accepted_sendEof p h1, h2, fileItems, emit_append, emit_eof, emit_nil, List.append_nil, List.append_assoc]

theorem cache_sent (file : List UInt8) :
    (p.sent srv file).blocks.cache = p.after srv.blocks.cache (p.fileItems file) := by
  rw [after_fileItems]
  exact p.cache_offerAll srv (p.chunks file)

/-- Successive calls of `send_file`: for each its return value and the bytes the connection has taken
by then; and the server at the end. -/
def sendFiles (srv : RabinServer) : List (List UInt8) → Option (List (ℤ × List UInt8) × RabinServer)
  | [] => some ([], srv)
  | f :: fs => do
    let (n, srv) ← p.sendFile srv f
    let (ns, srv') ← sendFiles srv fs
    pure ((n, srv.sock.accepted) :: ns, srv')

theorem sendFiles_eq {srv srv' : RabinServer} {files : List (List UInt8)} {ns : List (ℤ × List UInt8)}
    (hr : p.sendFiles srv files = some (ns, srv')) : srv' = files.foldl p.sent srv := by
  induction files generalizing srv ns with
  | nil =>
    cases hr
    rfl
  | cons f fs ih =>
    obtain ⟨⟨n, srv₁⟩, h1, hr⟩ := Option.bind_eq_some_iff.1 hr
    obtain ⟨⟨ns', srv₂⟩, h2, hr⟩ := Option.bind_eq_some_iff.1 hr
    cases hr
    rw [p.sendFile_eq_sent (p.length_lt_of_sendFile f h1), Option.some.injEq, Prod.mk.injEq] at h1
    rw [List.foldl_cons, h1.2]
    exact ih h2

theorem exists_sendFiles {files : List (List UInt8)} (hf : ∀ f ∈ files, f.length < 2 ^ 32) (srv : RabinServer) :
    ∃ ns, p.sendFiles srv files = some (ns, files.foldl p.sent srv) := by
  induction files generalizing srv with
  | nil => exact ⟨_, rfl⟩
  | cons f fs ih =>
    rcases ih (fun g hg => hf g (List.mem_cons_of_mem _ hg)) (p.sent srv f) with ⟨ns, h⟩
    refine ⟨(wrapInt ((p.chunks f).length + 1), (p.sent srv f).sock.accepted) :: ns, ?_⟩
    simp only [sendFiles, p.sendFile_eq_sent (hf f (List.mem_cons_self ..)), Option.bind_eq_bind, Option.bind_some, h]
    rfl

theorem foldl_sent {srv : RabinServer} (h : srv.sock.plan = []) (files : List (List UInt8)) :
    (files.foldl p.sent srv).sock.plan = [] ∧
      (files.foldl p.sent srv).sock.accepted =
        srv.sock.accepted ++ p.emit srv.blocks.cache (files.flatMap p.fileItems) ∧
      (files.foldl p.sent srv).blocks.cache = p.after srv.blocks.cache (files.flatMap p.fileItems) := by
  induction files generalizing srv with
  | nil => exact ⟨h, (List.append_nil _).symm, rfl⟩
  | cons f fs ih =>
    obtain ⟨h1, h2, h3⟩ := ih (p.plan_sent h f)
    rw [List.foldl_cons, h2, h3, accepted_sent p h, cache_sent, List.flatMap_cons, emit_append, after_append,
      List.append_assoc]
    exact ⟨h1, rfl, rfl⟩

end Params
end Rabin
