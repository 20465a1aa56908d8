import Rabin.Partial

/-!
# The frame grammar

What `receive_file` makes of an arbitrary stream. A `Frame` is a descriptor of positive size, with as many
bytes of data as it says unless it is `old`; `playAll m fs` are the blocks that the frames `fs` stand for in
a client with the map `m`, and `Ends` is what stops `receive_file` behind them: the final descriptor, an
absent block, or the end of the stream inside a frame.
-/

namespace Rabin
open Reads

/-- A frame of the grammar, as the client on `h` decodes it. -/
structure Frame (h : Host) where
  hd : List UInt8
  data : List UInt8
  length_hd : hd.length = h.sizeofBlockDesc
  size_pos : 0 < (h.descOf hd).dataSize
  length_data : data.length = if (h.descOf hd).old then 0 else (h.descOf hd).dataSize

namespace Frame
variable {h : Host}

def bytes (f : Frame h) : List UInt8 := f.hd ++ f.data

/-- The block that a client with the map `m` writes for the frame, and the map it then has; `none` if the
frame names a block that is not in the map. -/
def play (m : Blocks) (f : Frame h) : Option (List UInt8 × Blocks) :=
  if (h.descOf f.hd).old then (m.get (h.descOf f.hd).blockNum).map fun b => (b.data, m)
  else some (f.data, m.insertBlock f.data (h.descOf f.hd).blockNum)

def playAll : Blocks → List (Frame h) → Option (List (List UInt8) × Blocks)
  | m, [] => some ([], m)
  | m, f :: fs => do
    let (b, m) ← f.play m
    let (bs, m) ← playAll m fs
    pure (b :: bs, m)

theorem playAll_cons {m m' : Blocks} {f : Frame h} {fs : List (Frame h)} {bs : List (List UInt8)} :
    playAll m (f :: fs) = some (bs, m') ↔
      ∃ b m₁ bs', f.play m = some (b, m₁) ∧ playAll m₁ fs = some (bs', m') ∧ bs = b :: bs' := by
  simp only [playAll, Option.bind_eq_bind, Option.bind_eq_some_iff, Option.pure_def, Option.some.injEq, Prod.exists,
    Prod.mk.injEq]
  constructor
  · rintro ⟨b, m₁, h1, bs', m₂, h2, rfl, rfl⟩
    exact ⟨b, m₁, bs', h1, h2, rfl⟩
  · rintro ⟨b, m₁, bs', h1, h2, rfl⟩
    exact ⟨b, m₁, h1, bs', m', h2, rfl, rfl⟩

end Frame

namespace Host
variable (h : Host) {m m' : Blocks} {conn : Conn UInt8}

/-- What ends a call of `receive_file` by a client with the map `m`: the bytes it meets, what the last
`receive_block` comes back with, and the bytes it leaves unread. -/
inductive Ends (m : Blocks) : List UInt8 → Got → List UInt8 → Prop
  | eof {hd rest} (hl : hd.length = h.sizeofBlockDesc) (h0 : (h.descOf hd).dataSize = 0) :
      Ends m (hd ++ rest) .eof rest
  | absent {hd rest} (hl : hd.length = h.sizeofBlockDesc) (h0 : 0 < (h.descOf hd).dataSize)
      (hold : (h.descOf hd).old = true) (hm : m.get (h.descOf hd).blockNum = none) :
      Ends m (hd ++ rest) .outOfRange rest
  | shortDesc {q} (hq : q.length < h.sizeofBlockDesc) : Ends m q .lost []
  | shortData {hd q} (hl : hd.length = h.sizeofBlockDesc) (hold : (h.descOf hd).old = false)
      (hq : q.length < (h.descOf hd).dataSize) : Ends m (hd ++ q) .lost []

/-- Every stream is made of frames that can be played, and an end. -/
theorem exists_frames (m : Blocks) (stream : List UInt8) :
    ∃ (fs : List (Frame h)) (bs : List (List UInt8)) (m' : Blocks) (q : List UInt8) (got : Got) (rest : List UInt8),
      stream = fs.flatMap Frame.bytes ++ q ∧ Frame.playAll m fs = some (bs, m') ∧ h.Ends m' q got rest := by
  induction hn : stream.length using Nat.strong_induction_on generalizing m stream with
  | _ n ih =>
    have hpos := h.sizeofBlockDesc_pos
    rcases Nat.lt_or_ge stream.length h.sizeofBlockDesc with hs | hs
    · exact ⟨[], [], m, stream, _, _, rfl, rfl, .shortDesc hs⟩
    obtain ⟨hd, q, rfl, hl⟩ : ∃ hd q, stream = hd ++ q ∧ hd.length = h.sizeofBlockDesc :=
      ⟨_, _, (List.take_append_drop h.sizeofBlockDesc stream).symm, List.length_take_of_le hs⟩
    -- the frame at the front is `f`, and the stream behind it is shorter
    have hstep (f : Frame h) (rest : List UInt8) (b : List UInt8) (m₁ : Blocks) (hf : hd ++ q = f.bytes ++ rest)
        (hp : f.play m = some (b, m₁)) :
        ∃ (fs : List (Frame h)) (bs : List (List UInt8)) (m' : Blocks) (q' : List UInt8) (got : Got)
          (rest : List UInt8), hd ++ q = fs.flatMap Frame.bytes ++ q' ∧ Frame.playAll m fs = some (bs, m') ∧
            h.Ends m' q' got rest := by
      have hlt : rest.length < n := by
        have hlf := f.length_hd
        rw [← hn, hf, List.length_append, Frame.bytes, List.length_append]
        omega
      obtain ⟨fs, bs, m', q', got, rest', h1, h2, h3⟩ := ih _ hlt m₁ rest rfl
      refine ⟨f :: fs, b :: bs, m', q', got, rest', ?_, Frame.playAll_cons.2 ⟨b, m₁, bs, hp, h2, rfl⟩, h3⟩
      rw [hf, List.flatMap_cons, List.append_assoc, ← h1]
    rcases Nat.eq_zero_or_pos (h.descOf hd).dataSize with h0 | h0
    · exact ⟨[], [], m, hd ++ q, _, _, rfl, rfl, .eof hl h0⟩
    cases hold : (h.descOf hd).old with
    | true =>
      cases hm : m.get (h.descOf hd).blockNum with
      | none => exact ⟨[], [], m, hd ++ q, _, _, rfl, rfl, .absent hl h0 hold hm⟩
      | some b =>
        refine hstep ⟨hd, [], hl, h0, by rw [hold]; rfl⟩ q b.data m (by simp [Frame.bytes]) ?_
        rw [Frame.play, if_pos hold]
        simp only [hm, Option.map_some]
    | false =>
      rcases Nat.lt_or_ge q.length (h.descOf hd).dataSize with hq | hq
      · exact ⟨[], [], m, hd ++ q, _, _, rfl, rfl, .shortData hl hold hq⟩
      · have hlen : (q.take (h.descOf hd).dataSize).length = (h.descOf hd).dataSize := List.length_take_of_le hq
        refine hstep ⟨hd, q.take (h.descOf hd).dataSize, hl, h0, by rw [hold]; exact hlen⟩
          (q.drop (h.descOf hd).dataSize) _ _ ?_ (if_neg (by rw [hold]; exact Bool.false_ne_true))
        rw [Frame.bytes, List.append_assoc, List.take_append_drop]

/-! ### `receive_block` and `receive_file` on them -/

variable {h}

theorem descOf_eq {hd : List UInt8} (hl : hd.length = h.sizeofBlockDesc) :
    h.descOf hd = ⟨h.ntohl (BlockDesc.ofImage h hd).blockNum, h.ntohl (BlockDesc.ofImage h hd).dataSize,
      (BlockDesc.ofImage h hd).old⟩ := by
  rw [descOf, ← hl, List.take_length]

theorem receiveBlock_play {f : Frame h} {b : List UInt8} {ts : List (Option UInt8)} (hp : f.play m = some (b, m'))
    (ht : tokens conn = f.bytes.map some ++ ts) :
    ∃ conn' blk, tokens conn' = ts ∧ h.receiveBlock m conn = (.block blk, m', conn') ∧ blk.data = b := by
  rw [Frame.bytes, List.map_append, List.append_assoc] at ht
  obtain ⟨c, h1, h2⟩ := h.receiveBlock_header (m := m) f.length_hd ht
  have hdesc := descOf_eq f.length_hd
  have hpos := f.size_pos
  have hlen := f.length_data
  unfold Frame.play at hp
  rw [hdesc] at hp hpos hlen
  dsimp only at hp hpos hlen
  rw [if_neg (Nat.ne_of_gt hpos)] at h2
  cases hold : (BlockDesc.ofImage h f.hd).old with
  | true =>
    rw [hold] at h2 hp hlen
    obtain ⟨blk, hget, heq⟩ := Option.map_eq_some_iff.1 hp
    cases heq
    rw [List.length_eq_zero_iff.1 hlen] at h1
    refine ⟨c, blk, h1, ?_, rfl⟩
    rw [h2, Blocks.getBlock, hget]
    rfl
  | false =>
    rw [hold] at h2 hp hlen
    rw [if_neg Bool.false_ne_true] at hlen
    cases hp
    obtain ⟨c', h3, h4⟩ := readFull_some hlen h1
    refine ⟨c', Block.ofBytes (h.ntohl (BlockDesc.ofImage h f.hd).blockNum) true f.data, h4, ?_, rfl⟩
    rw [h2, h3, ← getBlock_insertBlock m]
    rfl

theorem receiveBlock_ends {q rest : List UInt8} {got : Got} (he : h.Ends m q got rest)
    (ht : tokens conn = q.map some) :
    ∃ conn', tokens conn' = rest.map some ∧ h.receiveBlock m conn = (got, m, conn') := by
  have hstop : Stops ([] : List (Option UInt8)) [] := .inl ⟨rfl, rfl⟩
  cases he with
  | @eof hd _ hl h0 =>
    rw [List.map_append] at ht
    obtain ⟨c, h1, h2⟩ := h.receiveBlock_header (m := m) hl ht
    rw [descOf_eq hl] at h0
    exact ⟨c, h1, h2.trans (if_pos h0)⟩
  | @absent hd _ hl h0 hold hm =>
    rw [List.map_append] at ht
    obtain ⟨c, h1, h2⟩ := h.receiveBlock_header (m := m) hl ht
    rw [descOf_eq hl] at h0 hold hm
    dsimp only at h0 hold hm
    rw [if_neg (Nat.ne_of_gt h0), hold] at h2
    refine ⟨c, h1, ?_⟩
    rw [h2, Blocks.getBlock, hm]
    rfl
  | shortDesc hq =>
    rw [← List.append_nil (q.map some)] at ht
    exact h.receiveBlock_short_desc hq ht hstop
  | @shortData hd q hl hold hq =>
    rw [List.map_append] at ht
    obtain ⟨c, h1, h2⟩ := h.receiveBlock_header (m := m) hl ht
    rw [descOf_eq hl] at hold hq
    dsimp only at hold hq
    rw [← List.append_nil (q.map some)] at h1
    obtain ⟨c', h3, h4⟩ := readFull_none hq h1 hstop
    have h0 : h.ntohl (BlockDesc.ofImage h hd).dataSize ≠ 0 := by omega
    refine ⟨c', h4, ?_⟩
    rw [h2, if_neg h0, hold, h3]
    rfl

theorem Ends.not_block {q rest : List UInt8} {got : Got} (he : h.Ends m q got rest) (b : Block) :
    got ≠ .block b := by
  cases he <;> exact Got.noConfusion

theorem receiveLoop_frames {fs : List (Frame h)} {bs : List (List UInt8)} {q rest : List UInt8} {got : Got}
    (hp : Frame.playAll m fs = some (bs, m')) (he : h.Ends m' q got rest)
    (ht : tokens conn = (fs.flatMap Frame.bytes ++ q).map some) (n : UInt32) (file : List UInt8) :
    ∃ r, h.receiveLoop (fs.length + 1) n file m conn = some r ∧ r.last = got ∧ r.file = file ++ bs.flatten ∧
      r.blocks = m' ∧ tokens r.conn = rest.map some ∧
      (got ≠ .outOfRange → r.numBlocks = n + UInt32.ofNat (bs.length + 1)) := by
  induction fs generalizing m conn n file bs with
  | nil =>
    cases hp
    obtain ⟨c, h1, h2⟩ := receiveBlock_ends he ht
    rw [List.length_nil, receiveLoop, h2]
    cases got with
    | block b => exact absurd rfl (he.not_block b)
    | eof => exact ⟨_, rfl, rfl, (List.append_nil file).symm, rfl, h1, fun _ => rfl⟩
    | lost => exact ⟨_, rfl, rfl, (List.append_nil file).symm, rfl, h1, fun _ => rfl⟩
    | outOfRange => exact ⟨_, rfl, rfl, (List.append_nil file).symm, rfl, h1, fun hne => absurd rfl hne⟩
  | cons f fs ih =>
    obtain ⟨b, m₁, bs', hf, hfs, rfl⟩ := Frame.playAll_cons.1 hp
    rw [List.flatMap_cons, List.append_assoc, List.map_append] at ht
    obtain ⟨c, blk, h1, h2, rfl⟩ := receiveBlock_play hf ht
    obtain ⟨r, hr, h3, h4, h5, h6, h7⟩ := ih hfs h1 (n + 1) (file ++ blk.data)
    refine ⟨r, ?_, h3, ?_, h5, h6, fun hne => ?_⟩
    · rw [List.length_cons, receiveLoop, h2]
      exact hr
    · rw [h4, List.flatten_cons, List.append_assoc]
    · rw [h7 hne, List.length_cons]
      exact ofNat_succ_add n (bs'.length + 1)

theorem receiveFile_frames {fs : List (Frame h)} {bs : List (List UInt8)} {q rest : List UInt8} {got : Got}
    (hp : Frame.playAll m fs = some (bs, m')) (he : h.Ends m' q got rest)
    (ht : tokens conn = (fs.flatMap Frame.bytes ++ q).map some) :
    ∃ r, h.receiveFile m conn = some r ∧ r.last = got ∧ r.file = bs.flatten ∧ r.blocks = m' ∧
      tokens r.conn = rest.map some ∧ (got ≠ .outOfRange → r.numBlocks = UInt32.ofNat (bs.length + 1)) := by
  obtain ⟨r, hr, h1, h2, h3, h4, h5⟩ := receiveLoop_frames hp he ht 0 []
  refine ⟨r, h.receiveFile_of_loop hr, h1, h2, h3, h4, fun hne => ?_⟩
  rw [h5 hne, UInt32.zero_add]

/-- `receive_file` on an arbitrary stream, however it is cut into reads: it returns, and what it has done is
given by the frames at the front of the stream and by what ends them. -/
theorem receiveFile_grammar (h : Host) (m : Blocks) (stream : List UInt8) :
    (∃ (fs : List (Frame h)) (bs : List (List UInt8)) (m' : Blocks) (q : List UInt8) (got : Got) (rest : List UInt8),
      stream = fs.flatMap Frame.bytes ++ q ∧ Frame.playAll m fs = some (bs, m') ∧ h.Ends m' q got rest) ∧
    ∀ (fs : List (Frame h)) (bs : List (List UInt8)) (m' : Blocks) (q : List UInt8) (got : Got) (rest : List UInt8),
      stream = fs.flatMap Frame.bytes ++ q → Frame.playAll m fs = some (bs, m') → h.Ends m' q got rest →
      ∀ conn : Conn UInt8, tokens conn = stream.map some →
        ∃ r, h.receiveFile m conn = some r ∧ r.last = got ∧ r.file = bs.flatten ∧ r.blocks = m' ∧
          unread r.conn = rest ∧ (got ≠ .outOfRange → r.numBlocks.toNat = (bs.length + 1) % 2 ^ 32) := by
  refine ⟨h.exists_frames m stream, fun fs bs m' q got rest hs hp he conn ht => ?_⟩
  rw [hs] at ht
  obtain ⟨r, hr, h1, h2, h3, h4, h5⟩ := receiveFile_frames hp he ht
  refine ⟨r, hr, h1, h2, h3, unread_of_tokens h4, fun hne => ?_⟩
  rw [h5 hne]
  exact UInt32.toNat_ofNat'

/-- A frame that is `old` can be repeated any number of times. -/
theorem playAll_replicate {f : Frame h} {b : Block} (hold : (h.descOf f.hd).old = true)
    (hm : m.get (h.descOf f.hd).blockNum = some b) (n : ℕ) :
    Frame.playAll m (List.replicate n f) = some (List.replicate n b.data, m) := by
  have hplay : f.play m = some (b.data, m) := by
    rw [Frame.play, if_pos hold, hm]
    rfl
  induction n with
  | zero => rfl
  | succ n ih => exact Frame.playAll_cons.2 ⟨b.data, m, _, hplay, ih, rfl⟩

/-- 2^32 - 1 old blocks and the final descriptor: the count is back at 0. -/
theorem count_wraps :
    ∃ (m m' : Blocks) (fs : List (Frame x64)) (bs : List (List UInt8)) (hd : List UInt8) (conn : Conn UInt8)
      (r : Received),
      Frame.playAll m fs = some (bs, m') ∧ x64.Ends m' hd .eof [] ∧
      tokens conn = (fs.flatMap Frame.bytes ++ hd).map some ∧ x64.receiveFile m conn = some r ∧
      r.file = bs.flatten ∧ bs.length = 2 ^ 32 - 1 ∧ r.numBlocks = 0 := by
  let f : Frame x64 :=
    ⟨(BlockDesc.hton x64 97 1 true).image x64, [], by decide, by decide, by decide⟩
  let b := Block.ofBytes 97 true [97]
  have hdesc : x64.descOf f.hd = ⟨97, 1, true⟩ := by decide
  have hp : Frame.playAll (Blocks.empty.put b) (List.replicate (2 ^ 32 - 1) f) =
      some (List.replicate (2 ^ 32 - 1) b.data, Blocks.empty.put b) :=
    playAll_replicate (by rw [hdesc]) (by rw [hdesc]; exact Blocks.get_put_self _ b) _
  have he : x64.Ends (Blocks.empty.put b) ((BlockDesc.hton x64 0 0 false).image x64 ++ []) .eof [] :=
    .eof (by decide) (by decide)
  obtain ⟨r, h1, -, h2, -, -, h3⟩ := receiveFile_frames hp he (tokens_piece_append _ _ |>.trans List.map_append.symm)
  refine ⟨_, _, _, _, _, _, r, hp, he, tokens_piece_append _ _ |>.trans List.map_append.symm, h1, h2,
    List.length_replicate, ?_⟩
  rw [h3 Got.noConfusion, List.length_replicate]
  rfl

/-- The count is not always one more than the number of blocks, and a descriptor whose `old` is the byte 2 can come with
a block of its own, although the map is empty. -/
theorem receiveFile_off_grammar :
    (∃ (m m' : Blocks) (fs : List (Frame x64)) (bs : List (List UInt8)) (hd : List UInt8) (conn : Conn UInt8)
      (r : Received),
      Frame.playAll m fs = some (bs, m') ∧ x64.Ends m' hd .eof [] ∧
      tokens conn = (fs.flatMap Frame.bytes ++ hd).map some ∧ x64.receiveFile m conn = some r ∧
      r.file = bs.flatten ∧ bs.length = 2 ^ 32 - 1 ∧ r.numBlocks = 0) ∧
    ((x64.receiveFile .empty [.piece ([0, 0, 0, 97] ++ [0, 0, 0, 1, 0, 0, 0, 0] ++ [2] ++ [97])]).map fun r =>
      (r.file, r.last)) = some ([97], .lost) :=
  ⟨count_wraps, rfl⟩

end Host
end Rabin
