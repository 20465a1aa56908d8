import Mathlib.Data.List.Forall2
import Rabin.Partial
import Rabin.Lib.Lts

/-!
# The two maps while frames are in flight

A server and a client that run beside each other: the server writes the next block of a file, or the
descriptor that ends one, the client does one `read`. The two maps differ at almost every moment.
What holds throughout is that the bytes the client has still to decode, the part of a frame it has
read and those in flight, are the frames that a server with the client's map would send, and that this
server would end with the map of the real one (`Coherent`).
-/

namespace Rabin
open Reads Mirror

structure Link where
  srv : RabinServer
  /-- how many of the accepted bytes the client has read -/
  taken : ℕ
  /-- the part of a frame the client has read -/
  part : List UInt8
  cli : Blocks
  /-- all the server has sent, and all `receive_block` has come back with -/
  sent : List Item
  got : List Got

inductive LinkAct
  | block (b : List UInt8)
  | eof
  | read (k : ℕ)

namespace Link

def init : Link := ⟨.fresh [], 0, [], .empty, [], []⟩

def flight (s : Link) : List UInt8 := s.srv.sock.accepted.drop s.taken

/-- What the client has still to decode. -/
def pending (s : Link) : List Item := s.sent.drop s.got.length

end Link

/-- A frame that is decoded: its descriptor, the entry the map held under its number before, and the
outcome. -/
structure Decoded where
  desc : BlockDesc
  held : Option Block
  got : Got

structure Replay where
  frames : List Decoded
  blocks : Blocks
  left : List UInt8

/-- The frames in `bs`, by `receiveBlock` from the map `m` on, and what is left of `bs`. -/
def Host.decode (h : Host) : ℕ → Blocks → List UInt8 → Replay
  | 0, m, bs => ⟨[], m, bs⟩
  | fuel + 1, m, bs =>
    match h.receiveBlock m [.piece bs] with
    | (.lost, _, _) => ⟨[], m, bs⟩
    | (got, m', c) =>
      let r := decode h fuel m' (unread c)
      { r with frames := ⟨h.descOf bs, m.get (h.descOf bs).blockNum, got⟩ :: r.frames }

namespace Params
variable (p : Params)

def linkStep (s : Link) : LinkAct → Option Link
  | .block b =>
    if 0 < b.length ∧ b.length ≤ maxBytes then
      (p.sendBlock s.srv b).map fun srv => { s with srv := srv, sent := s.sent ++ [.block b] }
    else none
  | .eof => some { s with srv := p.sendEof s.srv, sent := s.sent ++ [.eof] }
  | .read k =>
    if 0 < k ∧ k ≤ p.host.asks s.part ∧ k ≤ s.flight.length then
      let part := s.part ++ s.flight.take k
      match p.host.onRead s.cli part with
      | none => some { s with taken := s.taken + k, part := part }
      | some (got, m) => some { s with taken := s.taken + k, part := [], cli := m, got := s.got ++ [got] }
    else none

/-- A decoded frame is the one the server sent for the item. -/
def Meant (d : Decoded) (i : Item) : Prop :=
  Yields i d.got ∧
    match i with
    | .block b =>
      d.desc.blockNum = p.hashFunction b ∧ d.desc.dataSize = b.length ∧
        (d.desc.old = true → ∃ blk, d.held = some blk ∧ blk.dataSize = d.desc.dataSize ∧ blk.data = b)
    | .eof => d.desc.dataSize = 0

structure Coherent (s : Link) : Prop where
  plan : s.srv.sock.plan = []
  taken_le : s.taken ≤ s.srv.sock.accepted.length
  got_le : s.got.length ≤ s.sent.length
  yields : List.Forall₂ Yields (s.sent.take s.got.length) s.got
  bytes : s.part ++ s.flight = p.emit s.cli.cache s.pending
  cache : s.srv.blocks.cache = p.after s.cli.cache s.pending
  sized : ∀ b, .block b ∈ s.sent → Sized b
  /-- the client has not read a whole frame without decoding it -/
  inside : ∀ i is, s.pending = i :: is → s.part.length < (p.itemFrame s.cli.cache i).length
  keyed : Keyed p.hashFunction s.srv.blocks.cache
  entries : ∀ n d, s.srv.blocks.cache n = some d → Sized d

/-! ### Frames -/

variable {p} {c : ByteCache} {m : Blocks}

theorem descOf_hton (h : Host) {num size : ℕ} {old : Bool} (hn : num < 2 ^ 32) (hs : size < 2 ^ 32)
    (rest : List UInt8) :
    h.descOf ((BlockDesc.hton h num size old).image h ++ rest) = ⟨num, size, old⟩ := by
  have ht : ((BlockDesc.hton h num size old).image h ++ rest).take h.sizeofBlockDesc =
      (BlockDesc.hton h num size old).image h := List.take_left' (BlockDesc.length_image ..)
  simp only [Host.descOf, ht, BlockDesc.ntohl_blockNum h hn, BlockDesc.ntohl_dataSize h hs, BlockDesc.old_ofImage]

theorem descOf_header {b : List UInt8} (hb : Sized b) (rest : List UInt8) :
    p.host.descOf (p.header c b ++ rest) = ⟨p.hashFunction b, b.length, hit p.hashFunction c b⟩ :=
  descOf_hton _ (p.hashFunction_lt b) hb.lt rest

theorem descOf_eofFrame (rest : List UInt8) : p.host.descOf (p.eofFrame ++ rest) = ⟨0, 0, false⟩ :=
  descOf_hton _ (by decide) (by decide) rest

/-- Inside a frame the client reads on, and not past its end; at the end of it `receive_block` comes back. -/
theorem onRead_itemFrame {i : Item} {part : List UInt8} (hi : ∀ b, i = .block b → Sized b)
    (hp : part <+: p.itemFrame m.cache i) :
    (part.length < (p.itemFrame m.cache i).length ∧ p.host.onRead m part = none ∧
      part.length + p.host.asks part ≤ (p.itemFrame m.cache i).length) ∨
      part = p.itemFrame m.cache i ∧ ∃ got, Yields i got ∧ p.host.onRead m part = some (got, p.takeUp m i) := by
  have hle := p.sizeofBlockDesc_le_itemFrame m.cache i
  by_cases hlt : part.length < p.host.sizeofBlockDesc
  · refine .inl ⟨by omega, by rw [Host.onRead, if_pos hlt], ?_⟩
    rw [Host.asks, if_pos hlt]
    omega
  · cases i with
    | eof =>
      have hpart : part = p.eofFrame := hp.eq_of_length_le (by rw [itemFrame, length_eofFrame]; omega)
      have hdesc := descOf_eofFrame (p := p) []
      rw [List.append_nil] at hdesc
      subst hpart
      exact .inr ⟨rfl, .eof, rfl, by simp [Host.onRead, hdesc, takeUp]⟩
    | block b =>
      have hb := hi b rfl
      have hh : p.header m.cache b <+: p.itemFrame m.cache (.block b) := List.prefix_append ..
      obtain ⟨q, rfl⟩ := List.prefix_of_prefix_length_le hh hp (by rw [length_header]; omega)
      have hq : q <+: if hit p.hashFunction m.cache b then [] else b := (List.prefix_append_right_inj _).1 hp
      have hdesc := descOf_header (p := p) (c := m.cache) hb q
      have hge : ¬ (p.header m.cache b ++ q).length < p.host.sizeofBlockDesc := hlt
      have h0 : b.length ≠ 0 := Nat.ne_of_gt hb.1
      by_cases hc : hit p.hashFunction m.cache b = true
      · rw [if_pos hc, List.prefix_nil] at hq
        subst hq
        obtain ⟨blk, h1, -, h2⟩ := Blocks.cache_eq_some (hit_iff.1 hc)
        refine .inr ⟨by rw [itemFrame, frame, if_pos hc], .block blk, ⟨blk, rfl, h2⟩, ?_⟩
        rw [takeUp, absorb, if_pos hc]
        simp only [Host.onRead, hge, hdesc, h0, hc, if_false, Bool.not_true, Bool.false_eq_true, Blocks.getBlock, h1]
      · rw [if_neg hc] at hq
        have hf : p.itemFrame m.cache (.block b) = p.header m.cache b ++ b := by rw [itemFrame, frame, if_neg hc]
        have hc' := Bool.eq_false_iff.2 hc
        by_cases hql : q.length < b.length
        · have h1 : (p.header m.cache b ++ q).length < p.host.sizeofBlockDesc + b.length := by
            rw [List.length_append, length_header]; omega
          refine .inl ⟨?_, ?_, ?_⟩
          · rw [hf, List.length_append, List.length_append]
            omega
          · simp only [Host.onRead, hge, hdesc, h0, hc', h1, if_false, if_true, Bool.not_false]
          · rw [Host.asks, if_neg hge, hdesc, hf, List.length_append, List.length_append, length_header]
            show _ + (p.host.sizeofBlockDesc + b.length - _) ≤ _
            omega
        · have hqb : q = b := hq.eq_of_length_le (by omega)
          subst hqb
          have h1 : ¬ (p.header m.cache q ++ q).length < p.host.sizeofBlockDesc + q.length := by
            rw [List.length_append, length_header]; omega
          have hget : (m.insertBlock q (p.hashFunction q)).get (p.hashFunction q) =
              some (Block.ofBytes (p.hashFunction q) true q) := Blocks.get_put_self ..
          refine .inr ⟨hf.symm, .block (Block.ofBytes (p.hashFunction q) true q), ⟨_, rfl, rfl⟩, ?_⟩
          rw [takeUp, absorb, if_neg hc]
          simp only [Host.onRead, hge, hdesc, h0, hc', h1, if_false, if_true, Bool.not_false,
            List.drop_left' (length_header p m.cache q), Blocks.getBlock, hget]

/-! ### The invariant -/

variable {s s' : Link}

theorem coherent_init : p.Coherent .init where
  plan := rfl
  taken_le := Nat.zero_le _
  got_le := Nat.le_refl _
  yields := .nil
  bytes := rfl
  cache := rfl
  sized _ hb := nomatch hb
  inside _ _ hp := nomatch hp
  keyed _ _ hw := nomatch hw
  entries _ _ hd := nomatch hd

theorem Coherent.send (hs : p.Coherent s) {srv : RabinServer} {i : Item} (hi : ∀ b, i = .block b → Sized b)
    (hplan : srv.sock.plan = [])
    (hacc : srv.sock.accepted = s.srv.sock.accepted ++ p.emit s.srv.blocks.cache [i])
    (hcache : srv.blocks.cache = p.after s.srv.blocks.cache [i]) :
    p.Coherent { s with srv := srv, sent := s.sent ++ [i] } := by
  have hpend : (s.sent ++ [i]).drop s.got.length = s.pending ++ [i] := List.drop_append_of_le_length hs.got_le
  obtain ⟨h1, h2, h3⟩ := p.stream_append hs.taken_le hs.bytes hs.cache hacc hcache
  rw [← hpend] at h2 h3
  refine ⟨hplan, h1, ?_, ?_, h2, h3, ?_, ?_, ?_, ?_⟩
  · rw [List.length_append]
    exact Nat.le_add_right_of_le hs.got_le
  · show List.Forall₂ Yields ((s.sent ++ [i]).take s.got.length) s.got
    rw [List.take_append_of_le_length hs.got_le]
    exact hs.yields
  · intro b hb
    rcases List.mem_append.1 hb with hb | hb
    · exact hs.sized b hb
    · exact hi b (List.mem_singleton.1 hb).symm
  · intro j js hj
    show s.part.length < (p.itemFrame s.cli.cache j).length
    have hj' : s.pending ++ [i] = j :: js := hpend.symm.trans hj
    cases hp : s.pending with
    | nil =>
      have hnil := hs.bytes
      rw [hp, emit_nil, List.append_eq_nil_iff] at hnil
      rw [hnil.1]
      exact p.itemFrame_pos _ j
    | cons k ks =>
      rw [hp, List.cons_append, List.cons.injEq] at hj'
      exact hs.inside j ks (by rw [hp, hj'.1])
  · rw [hcache]
    cases i with
    | block b => exact hs.keyed.learn b
    | eof => exact hs.keyed
  · intro n d hd
    rw [hcache] at hd
    cases i with
    | block b =>
      rcases learn_eq_some hd with ⟨-, rfl⟩ | hd
      · exact hi d rfl
      · exact hs.entries n d hd
    | eof => exact hs.entries n d hd

theorem Coherent.sized_head (hs : p.Coherent s) {i : Item} {is : List Item} (hpend : s.pending = i :: is) :
    ∀ b, i = .block b → Sized b := by
  rintro b rfl
  have hmem : Item.block b ∈ s.pending := by rw [hpend]; exact List.mem_cons_self ..
  exact hs.sized b (List.mem_of_mem_drop hmem)

/-- A `read` that asks for no more than `receive_block` does stays in the frame the client is in. -/
theorem Coherent.read_in_frame (hs : p.Coherent s) {i : Item} {is : List Item} (hpend : s.pending = i :: is) {k : ℕ}
    (hasks : k ≤ p.host.asks s.part) : s.part ++ s.flight.take k <+: p.itemFrame s.cli.cache i := by
  have hbytes := hs.bytes
  rw [hpend, emit_takeUp] at hbytes
  have hin := hs.inside i is hpend
  have hfront : s.part <+: p.itemFrame s.cli.cache i ++ p.emit (p.takeUp s.cli i).cache is := by
    rw [← hbytes]
    exact List.prefix_append ..
  have hpart : s.part <+: p.itemFrame s.cli.cache i :=
    List.prefix_of_prefix_length_le hfront (List.prefix_append ..) (Nat.le_of_lt hin)
  have hpre : s.part ++ s.flight.take k <+: p.itemFrame s.cli.cache i ++ p.emit (p.takeUp s.cli i).cache is := by
    rw [← hbytes]
    exact (List.prefix_append_right_inj _).2 (List.take_prefix ..)
  refine List.prefix_of_prefix_length_le hpre (List.prefix_append ..) ?_
  rcases onRead_itemFrame (hs.sized_head hpend) hpart with ⟨-, -, h⟩ | ⟨h, -⟩
  · rw [List.length_append, List.length_take]
    omega
  · rw [h] at hin
    exact absurd hin (Nat.lt_irrefl _)

theorem Coherent.read (hs : p.Coherent s) {k : ℕ} (hr : p.linkStep s (.read k) = some s') : p.Coherent s' := by
  rw [linkStep] at hr
  split at hr
  · rename_i hk
    obtain ⟨hpos, hasks, hlen⟩ := hk
    have hfl : s.flight.drop k = s.srv.sock.accepted.drop (s.taken + k) := List.drop_drop
    have htaken : s.taken + k ≤ s.srv.sock.accepted.length := by
      rw [Link.flight, List.length_drop] at hlen
      omega
    have hbytes : s.part ++ s.flight.take k ++ s.flight.drop k = p.emit s.cli.cache s.pending := by
      rw [List.append_assoc, List.take_append_drop, hs.bytes]
    cases hpend : s.pending with
    | nil =>
      have hnil := hs.bytes
      rw [hpend, emit_nil, List.append_eq_nil_iff] at hnil
      rw [hnil.2, List.length_nil] at hlen
      omega
    | cons i is =>
      rw [hpend, emit_takeUp] at hbytes
      rcases onRead_itemFrame (hs.sized_head hpend) (hs.read_in_frame hpend hasks) with
        ⟨hlt, hnone, -⟩ | ⟨hfull, got, hy, hsome⟩
      · -- it reads on
        simp only [hnone, Option.some.injEq] at hr
        subst hr
        refine ⟨hs.plan, htaken, hs.got_le, hs.yields, ?_, hs.cache, hs.sized, ?_, hs.keyed, hs.entries⟩
        · show s.part ++ s.flight.take k ++ s.srv.sock.accepted.drop (s.taken + k) = p.emit s.cli.cache s.pending
          rw [← hfl, hpend, emit_takeUp]
          exact hbytes
        · intro j js hj
          rw [show s.pending = _ from hj, List.cons.injEq] at hpend
          rw [hpend.1]
          exact hlt
      · -- it has decoded a frame
        simp only [hsome, Option.some.injEq] at hr
        subst hr
        have hpend' : s.sent.drop (s.got ++ [got]).length = is := by
          rw [List.length_append, List.length_singleton, ← List.drop_drop]
          exact congrArg (List.drop 1) hpend
        have hrest : s.flight.drop k = p.emit (p.takeUp s.cli i).cache is := by
          rw [hfull] at hbytes
          exact List.append_cancel_left hbytes
        refine ⟨hs.plan, htaken, ?_, ?_, ?_, ?_, hs.sized, ?_, hs.keyed, hs.entries⟩
        · have hgot := congrArg List.length hpend
          rw [Link.pending, List.length_drop, List.length_cons] at hgot
          show (s.got ++ [got]).length ≤ s.sent.length
          rw [List.length_append, List.length_singleton]
          omega
        · show List.Forall₂ Yields (s.sent.take (s.got ++ [got]).length) (s.got ++ [got])
          have hget : s.sent[s.got.length]? = some i := by
            rw [← List.head?_drop]
            exact congrArg List.head? hpend
          rw [List.length_append, List.length_singleton, List.take_add_one, hget]
          exact List.rel_append hs.yields (.cons hy .nil)
        · show [] ++ s.srv.sock.accepted.drop (s.taken + k) =
            p.emit (p.takeUp s.cli i).cache (s.sent.drop (s.got ++ [got]).length)
          rw [← hfl, hpend', hrest]
          rfl
        · show s.srv.blocks.cache = p.after (p.takeUp s.cli i).cache (s.sent.drop (s.got ++ [got]).length)
          rw [hpend', cache_takeUp, ← hpend]
          exact hs.cache
        · intro j js hj
          exact p.itemFrame_pos _ j
  · cases hr

theorem Coherent.step (hs : p.Coherent s) {a : LinkAct} (hr : p.linkStep s a = some s') : p.Coherent s' := by
  cases a with
  | block b =>
    rw [linkStep] at hr
    split at hr
    · rename_i hb
      rw [sendBlock_eq, Option.map_some, Option.some.injEq] at hr
      subst hr
      refine hs.send ?_ (p.plan_offer hs.plan b) ?_ (p.cache_offer s.srv b)
      · rintro b' ⟨⟩
        exact hb
      · rw [accepted_offer p hs.plan, emit_block, emit_nil, List.append_nil]
    · cases hr
  | eof =>
    cases hr
    refine hs.send (fun b hb => nomatch hb) (p.plan_sendEof hs.plan) ?_ rfl
    rw [accepted_sendEof p hs.plan, emit_eof, emit_nil, List.append_nil]
  | read k => exact hs.read hr

/-! ### Replaying what is still to come -/

theorem meant_item {i : Item} {got : Got} (hi : ∀ b, i = .block b → Sized b) (hy : Yields i got)
    (rest : List UInt8) :
    let d := p.host.descOf (p.itemFrame m.cache i ++ rest)
    p.Meant ⟨d, m.get d.blockNum, got⟩ i := by
  cases i with
  | block b =>
    have hdesc : p.host.descOf (p.itemFrame m.cache (.block b) ++ rest) =
        ⟨p.hashFunction b, b.length, hit p.hashFunction m.cache b⟩ := by
      rw [itemFrame, frame, List.append_assoc]
      exact descOf_header (hi b rfl) _
    rw [hdesc]
    refine ⟨hy, rfl, rfl, fun hold => ?_⟩
    obtain ⟨blk, h1, -, h2⟩ := Blocks.cache_eq_some (hit_iff.1 hold)
    exact ⟨blk, h1, by rw [← blk.size_eq, h2], h2⟩
  | eof =>
    have hdesc : p.host.descOf (p.itemFrame m.cache .eof ++ rest) = ⟨0, 0, false⟩ := descOf_eofFrame rest
    rw [hdesc]
    exact ⟨hy, rfl⟩

theorem decode_succ {h : Host} {fuel : ℕ} {bs : List UInt8} {got : Got} {m' : Blocks} {c : Conn UInt8}
    (hr : h.receiveBlock m [.piece bs] = (got, m', c)) (hg : got ≠ .lost) :
    h.decode (fuel + 1) m bs =
      let r := h.decode fuel m' (unread c)
      { r with frames := ⟨h.descOf bs, m.get (h.descOf bs).blockNum, got⟩ :: r.frames } := by
  rw [Host.decode, hr]
  cases got with
  | lost => exact absurd rfl hg
  | block b => rfl
  | eof => rfl
  | outOfRange => rfl

theorem decode_emit {is : List Item} {fuel : ℕ} (hi : ∀ b, .block b ∈ is → Sized b)
    (hf : (p.emit m.cache is).length ≤ fuel) :
    let r := p.host.decode fuel m (p.emit m.cache is)
    List.Forall₂ p.Meant r.frames is ∧ r.blocks.cache = p.after m.cache is ∧ r.left = [] := by
  induction is generalizing m fuel with
  | nil =>
    cases fuel with
    | zero => exact ⟨.nil, rfl, rfl⟩
    | succ fuel =>
      have ht : tokens [.piece ([] : List UInt8)] = ([] : List UInt8).map some ++ [] := rfl
      have hpos : ([] : List UInt8).length < p.host.sizeofBlockDesc := p.host.sizeofBlockDesc_pos
      obtain ⟨c, -, h⟩ := p.host.receiveBlock_short_desc (m := m) hpos ht (.inl ⟨rfl, rfl⟩)
      rw [emit_nil, Host.decode, h]
      exact ⟨.nil, rfl, rfl⟩
  | cons i is ih =>
    obtain ⟨hii, his⟩ := sized_of_cons hi
    rw [emit_takeUp] at hf ⊢
    have hpos := p.itemFrame_pos m.cache i
    rw [List.length_append] at hf
    cases fuel with
    | zero => omega
    | succ fuel =>
      obtain ⟨got, c, h1, hy, h2⟩ := p.receiveBlock_item (m := m) hii
        (tokens_piece_append (p.itemFrame m.cache i) (p.emit (p.takeUp m i).cache is))
      replace h1 := unread_of_tokens h1
      have hrest : (p.emit (p.takeUp m i).cache is).length ≤ fuel := by omega
      obtain ⟨ih1, ih2, ih3⟩ := ih his hrest
      have hmeant := meant_item (p := p) (m := m) hii hy (p.emit (p.takeUp m i).cache is)
      rw [decode_succ h2 hy.ne_lost, h1]
      exact ⟨.cons hmeant ih1, by rw [← cache_takeUp]; exact ih2, ih3⟩

variable (p) in
/-- In every state that is reached: replaying what is still to come gives the server's map, every
descriptor still to come names what the server meant, and the server's entries are well formed. -/
theorem cache_coherence (as : List LinkAct) (s : Link) (hr : Lts.run p.linkStep .init as = some s) :
    let r := p.host.decode (s.part ++ s.flight).length s.cli (s.part ++ s.flight)
    r.left = [] ∧
      (∀ n, (r.blocks.get n).map (fun b => (b.dataSize, b.data)) =
        (s.srv.blocks.get n).map (fun b => (b.dataSize, b.data))) ∧
      List.Forall₂ p.Meant r.frames s.pending ∧
      ∀ n b, s.srv.blocks.get n = some b →
        n = b.blockNum ∧ b.blockNum = p.hashFunction b.data ∧ n < p.maxSize ∧ 1 ≤ b.dataSize ∧ b.dataSize ≤ 64 := by
  have hs : p.Coherent s := Lts.invariant (fun _ _ _ hs h => hs.step h) coherent_init hr
  have hsized : ∀ b, .block b ∈ s.pending → Sized b := fun b hb => hs.sized b (List.mem_of_mem_drop hb)
  obtain ⟨h1, h2, h3⟩ := decode_emit (p := p) (m := s.cli) hsized (Nat.le_refl _)
  rw [← hs.bytes] at h1 h2 h3
  refine ⟨h3, fun n => ?_, h1, fun n b hb => ?_⟩
  · exact Blocks.sizes_of_cache (h2.trans hs.cache.symm) n
  · have hcache : s.srv.blocks.cache n = some b.data := by rw [Blocks.cache, hb, Option.map_some]
    have hkey := hs.keyed n b.data hcache
    have hsized := hs.entries n b.data hcache
    rw [Sized, b.size_eq] at hsized
    refine ⟨(s.srv.blocks.num_eq hb).symm, ?_, ?_, hsized.1, hsized.2⟩
    · rw [hkey, s.srv.blocks.num_eq hb]
    · rw [← hkey]
      exact Nat.mod_lt _ p.maxSize_pos

/-- The server is two blocks ahead, and the client is inside the second frame. -/
theorem cache_coherence_ahead :
    ∃ s, Lts.run small.linkStep .init [.block [97], .read 13, .block [97], .eof, .read 1, .read 6] = some s ∧
      s.part.length = 6 ∧ s.got.length = 1 ∧
      List.Forall₂ small.Meant
        (small.host.decode (s.part ++ s.flight).length s.cli (s.part ++ s.flight)).frames s.pending := by
  refine ⟨_, rfl, rfl, rfl, ?_⟩
  exact (small.cache_coherence [.block [97], .read 13, .block [97], .eof, .read 1, .read 6] _ rfl).2.2.1

/-! ### The steps are those of the two programs -/

theorem run_offerAll (bs : List (List UInt8)) (hb : ∀ b ∈ bs, Sized b) (as : List LinkAct) :
    Lts.run p.linkStep s (bs.map .block ++ as) =
      Lts.run p.linkStep { s with srv := p.offerAll s.srv bs, sent := s.sent ++ bs.map .block } as := by
  induction bs generalizing s with
  | nil => simp
  | cons b bs ih =>
    have hstep : p.linkStep s (.block b) = some { s with srv := p.offer s.srv b, sent := s.sent ++ [.block b] } := by
      rw [linkStep, if_pos (show 0 < b.length ∧ _ from hb b (List.mem_cons_self ..)), sendBlock_eq]
      rfl
    rw [List.map_cons, List.cons_append, Lts.run, hstep, Option.bind_some,
      ih (fun b hb' => hb b (List.mem_cons_of_mem _ hb'))]
    simp only [offerAll_cons, List.map_cons, List.append_assoc, List.singleton_append]

/-- `send_file` is a run of the server's steps. -/
theorem run_sendFile {file : List UInt8} (hf : file.length < 2 ^ 32) :
    ∃ n srv, p.sendFile s.srv file = some (n, srv) ∧
      Lts.run p.linkStep s ((p.chunks file).map .block ++ [.eof]) =
        some { s with srv := srv, sent := s.sent ++ p.fileItems file } := by
  refine ⟨_, _, p.sendFile_eq_sent hf, ?_⟩
  rw [run_offerAll _ (fun b hb => p.sized_of_mem_chunks hb), Lts.run, linkStep, Option.bind_some, Lts.run, fileItems,
    ← List.append_assoc]
  rfl

theorem linkStep_read {k : ℕ} (hk : 0 < k ∧ k ≤ p.host.asks s.part ∧ k ≤ s.flight.length) :
    p.linkStep s (.read k) = some
      (match p.host.onRead s.cli (s.part ++ s.flight.take k) with
      | none => { s with taken := s.taken + k, part := s.part ++ s.flight.take k }
      | some (got, m) => { s with taken := s.taken + k, part := [], cli := m, got := s.got ++ [got] }) := by
  rw [linkStep, if_pos hk]
  cases h : p.host.onRead s.cli (s.part ++ s.flight.take k) <;> simp only [h]

theorem run_reads {part : List UInt8} {conn : Conn UInt8} {r : Got × Blocks × Conn UInt8}
    (hf : p.host.Feeds m part conn r) (hr : p.host.onRead m part = none) (hg : r.1 ≠ .lost)
    (hm : s.cli = m) (hp : s.part = part) (ht : tokens conn = s.flight.map some) :
    ∃ ks : List ℕ, Lts.run p.linkStep s (ks.map .read) =
      some { s with taken := s.taken + ks.sum, part := [], cli := r.2.1, got := s.got ++ [r.1] } := by
  induction hf generalizing s with
  | done hd =>
    rw [hr] at hd
    cases hd
  | lost => exact absurd rfl hg
  | @more part conn bs conn' r _ hc hf ih =>
    subst hm hp
    have hasks := p.host.asks_pos hr
    rcases read_cases hasks conn with ⟨-, hr'⟩ | ⟨c, -, hr'⟩ | ⟨bs', c, h1, h2, hr', h3⟩
    · rw [hc] at hr'
      cases hr'
    · rw [hc] at hr'
      cases hr'
    · rw [hc] at hr'
      cases hr'
      rw [ht] at h3
      -- the read takes its bytes off the flight
      obtain ⟨rest, hfl, hrest⟩ : ∃ rest, s.flight = bs ++ rest ∧ tokens conn' = rest.map some := by
        obtain ⟨l₁, l₂, h4, h5, h6⟩ := List.map_eq_append_iff.1 h3
        have hl : l₁ = bs := List.map_injective_iff.2 (Option.some_injective _) h5
        exact ⟨l₂, by rw [h4, hl], h6.symm⟩
      have hk : 0 < bs.length ∧ bs.length ≤ p.host.asks s.part ∧ bs.length ≤ s.flight.length := by
        rw [hfl, List.length_append]
        exact ⟨h1, h2, Nat.le_add_right ..⟩
      have htake : s.flight.take bs.length = bs := by rw [hfl, List.take_left]
      have hdrop : s.srv.sock.accepted.drop (s.taken + bs.length) = rest := by
        rw [← List.drop_drop]
        exact (congrArg (List.drop bs.length) hfl).trans List.drop_left
      cases hn : p.host.onRead s.cli (s.part ++ bs) with
      | none =>
        obtain ⟨ks, hks⟩ := ih (s := { s with taken := s.taken + bs.length, part := s.part ++ bs }) hn hg rfl rfl
          (by rw [Link.flight, hdrop, hrest])
        refine ⟨bs.length :: ks, ?_⟩
        rw [List.map_cons, Lts.run, linkStep_read hk, htake, hn, Option.bind_some, hks, List.sum_cons,
          ← Nat.add_assoc]
      | some gm =>
        cases hf with
        | done hd =>
          refine ⟨[bs.length], ?_⟩
          rw [List.map_cons, Lts.run, linkStep_read hk, htake, hd, Option.bind_some, List.sum_singleton]
          rfl
        | more hd => rw [hn] at hd; cases hd
        | lost hd => rw [hn] at hd; cases hd

end Params
end Rabin
