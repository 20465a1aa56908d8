import Rabin.Resend

/-!
# Hits and misses

With writes that accept everything, what the log of a server says is a function of the blocks: `entries c bs`
are the entries that a server with the cache `c` makes for the blocks `bs`, and each of them is written as
`transmission` says. So the law of hits is one about the history of blocks (`hit_law`), and a second
transmission of a file is free of data exactly if the file is not at odds with itself (`resend_free_iff`).
-/

namespace Rabin
open Mirror

/-- The data that follow the descriptors of the entries. -/
def missing (es : List Block) : ℕ := ((es.filter (!·.old)).map Block.dataSize).sum

namespace Params
variable (p : Params)

def entries : ByteCache → List (List UInt8) → List Block
  | _, [] => []
  | c, b :: bs => Block.ofBytes (p.hashFunction b) (hit p.hashFunction c b) b :: entries (learn p.hashFunction c b) bs

/-- The writes for the entry `e` when they accept everything. -/
def transmission (e : Block) : Transmission where
  block := e
  desc := ⟨.desc e, p.descImage e, some (p.descImage e).length⟩
  data := if e.old then none else some ⟨.data e, e.data, some e.data.length⟩

theorem transmission_data_old {e : Block} (h : e.old = true) : (p.transmission e).data = none := if_pos h

theorem transmission_data_new {e : Block} (h : e.old = false) :
    (p.transmission e).data = some ⟨.data e, e.data, some e.data.length⟩ :=
  if_neg (by rw [h]; exact Bool.false_ne_true)

theorem entries_append (c : ByteCache) (bs bs' : List (List UInt8)) :
    p.entries c (bs ++ bs') = p.entries c bs ++ p.entries (learnAll p.hashFunction c bs) bs' := by
  induction bs generalizing c with
  | nil => rfl
  | cons b bs ih => simp only [List.cons_append, entries, ih, learnAll_cons]

theorem length_entries (c : ByteCache) (bs : List (List UInt8)) : (p.entries c bs).length = bs.length := by
  induction bs generalizing c with
  | nil => rfl
  | cons b bs ih => simp only [entries, List.length_cons, ih]

theorem map_entries {β : Type} (f : Block → β) (g : List UInt8 → β)
    (h : ∀ old b, f (Block.ofBytes (p.hashFunction b) old b) = g b) (c : ByteCache) (bs : List (List UInt8)) :
    (p.entries c bs).map f = bs.map g := by
  induction bs generalizing c with
  | nil => rfl
  | cons b bs ih => simp only [entries, List.map_cons, h, ih]

theorem missing_cons (e : Block) (es : List Block) : missing (e :: es) = missing [e] + missing es := by
  cases ho : e.old <;> simp [missing, ho]

/-- If every block is a hit, the cache stays as it is. -/
theorem entries_old_iff (c : ByteCache) (bs : List (List UInt8)) :
    (∀ e ∈ p.entries c bs, e.old = true) ↔ ∀ b ∈ bs, hit p.hashFunction c b = true := by
  induction bs generalizing c with
  | nil => simp [entries]
  | cons b bs ih =>
    simp only [entries, List.forall_mem_cons]
    refine and_congr_right fun hb => ?_
    rw [ih, learn_of_hit hb]

theorem length_frame (c : ByteCache) (b : List UInt8) :
    (p.frame c b).length = p.host.sizeofBlockDesc + missing (p.entries c [b]) := by
  rw [frame, List.length_append, length_header]
  cases hh : hit p.hashFunction c b <;> simp [entries, missing, Block.ofBytes, hh]

theorem length_emit (c : ByteCache) (is : List Item) :
    (p.emit c is).length = p.host.sizeofBlockDesc * is.length + missing (p.entries c (blocksOf is)) := by
  induction is generalizing c with
  | nil => rfl
  | cons i is ih =>
    cases i with
    | block b =>
      have hb : blocksOf (.block b :: is) = b :: blocksOf is := rfl
      rw [emit_block, List.length_append, length_frame, ih, hb, entries, entries, entries,
        missing_cons _ (p.entries _ _), List.length_cons, Nat.mul_succ]
      omega
    | eof =>
      have hb : blocksOf (.eof :: is) = blocksOf is := rfl
      rw [emit_eof, List.length_append, length_eofFrame, ih, hb, List.length_cons, Nat.mul_succ]
      omega

/-! ### The log -/

variable {p} {srv : RabinServer}

theorem transmissions_offer_of_plan_nil (h : srv.sock.plan = []) (b : List UInt8) :
    transmissions (p.offer srv b).sock.log =
      transmissions srv.sock.log ++ [p.transmission (p.entry b srv.blocks)] := by
  have hret := Socket.ret_of_plan_nil h
  have hplan : (srv.sock.write (.desc (p.entry b srv.blocks)) (p.descImage (p.entry b srv.blocks))).2.plan = [] := by
    rw [Socket.write_plan, h]
    rfl
  have hret' := Socket.ret_of_plan_nil hplan
  simp only [offer, Socket.write_fst, hret, Option.some_ne_none, if_false]
  cases ho : (p.entry b srv.blocks).old with
  | true =>
    rw [if_pos rfl, Socket.write_log, hret, transmissions_append rfl, transmission, if_pos ho]
    rfl
  | false =>
    rw [if_neg Bool.false_ne_true, Socket.write_log, Socket.write_log, hret, hret', List.append_assoc,
      transmissions_append rfl, transmission, if_neg (by rw [ho]; exact Bool.false_ne_true)]
    rfl

theorem transmissions_offerAll (h : srv.sock.plan = []) (bs : List (List UInt8)) :
    transmissions (p.offerAll srv bs).sock.log =
      transmissions srv.sock.log ++ (p.entries srv.blocks.cache bs).map p.transmission := by
  induction bs generalizing srv with
  | nil => exact (List.append_nil _).symm
  | cons b bs ih =>
    rw [offerAll_cons, ih (p.plan_offer h b), transmissions_offer_of_plan_nil h, cache_offer, List.append_assoc]
    rfl

theorem transmissions_sent (h : srv.sock.plan = []) (file : List UInt8) :
    transmissions (p.sent srv file).sock.log =
      transmissions srv.sock.log ++ (p.entries srv.blocks.cache (p.chunks file)).map p.transmission := by
  rw [sent, transmissions_sendEof, transmissions_offerAll h]

theorem transmissions_foldl_sent (h : srv.sock.plan = []) (files : List (List UInt8)) :
    transmissions (files.foldl p.sent srv).sock.log =
      transmissions srv.sock.log ++ (p.entries srv.blocks.cache (files.flatMap p.chunks)).map p.transmission := by
  induction files generalizing srv with
  | nil => exact (List.append_nil _).symm
  | cons f fs ih =>
    rw [List.foldl_cons, ih (p.plan_sent h f), transmissions_sent h, cache_sent, after_fileItems, List.flatMap_cons,
      entries_append, List.map_append, List.append_assoc]

theorem length_flatMap_fileItems (files : List (List UInt8)) :
    (files.flatMap p.fileItems).length = (files.flatMap p.chunks).length + files.length := by
  induction files with
  | nil => rfl
  | cons f fs ih =>
    rw [List.flatMap_cons, List.flatMap_cons, List.length_append, List.length_append, ih, fileItems,
      List.length_append, List.length_map, List.length_singleton, List.length_cons]
    omega

/-- The bytes of data that follow descriptors. -/
def dataBytes (ts : List Transmission) : ℕ := ((ts.filter (!·.block.old)).map (·.block.dataSize)).sum

theorem dataBytes_map (es : List Block) : dataBytes (es.map p.transmission) = missing es := by
  rw [dataBytes, List.filter_map, List.map_map]
  rfl

/-- The law of hits. -/
theorem hit_law {files : List (List UInt8)} {ns : List (ℤ × List UInt8)}
    (hr : p.sendFiles (.fresh []) files = some (ns, srv)) :
    (transmissions srv.sock.log).map (·.block.data) = files.flatMap p.chunks ∧
    (transmissions srv.sock.log).map (fun t => (t.block.blockNum, t.block.dataSize)) =
      files.flatMap (fun f => (p.chunks f).map fun b => (p.hashFunction b, b.length)) ∧
    (∀ pre b post, files.flatMap p.chunks = pre ++ b :: post →
      ∃ t, (transmissions srv.sock.log)[pre.length]? = some t ∧ t.desc.Complete ∧
        t.desc.buf = (BlockDesc.hton p.host (p.hashFunction b) b.length t.block.old).image p.host ∧
        (t.block.old = true ↔ ∃ us u ws, pre = us ++ u :: ws ∧ p.hashFunction u = p.hashFunction b ∧
          (∀ v ∈ ws, p.hashFunction v ≠ p.hashFunction b) ∧ u = b) ∧
        (t.block.old = true → t.data = none) ∧
        (t.block.old = false → ∃ w, t.data = some w ∧ w.buf = b ∧ w.Complete)) ∧
    srv.sock.accepted.length = p.host.sizeofBlockDesc * ((files.flatMap p.chunks).length + files.length) +
      dataBytes (transmissions srv.sock.log) ∧
    (p.host.sizeofSizeT = 8 → p.host.sizeofBlockDesc = 13) := by
  have hts : transmissions srv.sock.log =
      (p.entries Blocks.empty.cache (files.flatMap p.chunks)).map p.transmission := by
    rw [p.sendFiles_eq hr]
    exact transmissions_foldl_sent rfl files
  refine ⟨?_, ?_, fun pre b post hbs => ?_, ?_, fun h8 => by rw [Host.sizeofBlockDesc, h8]⟩
  · rw [hts, List.map_map]
    exact (p.map_entries _ id (fun _ _ => rfl) _ _).trans (List.map_id _)
  · rw [hts, List.map_map, ← List.map_flatMap]
    exact p.map_entries _ _ (fun _ _ => rfl) _ _
  · refine ⟨p.transmission (Block.ofBytes (p.hashFunction b)
      (hit p.hashFunction (learnAll p.hashFunction Blocks.empty.cache pre) b) b), ?_, rfl, rfl, ?_, ?_, ?_⟩
    · rw [hts, hbs, entries_append, List.map_append, List.getElem?_append_right]
      · rw [List.length_map, length_entries, Nat.sub_self]
        rfl
      · rw [List.length_map, length_entries]
    · show hit p.hashFunction (learnAll p.hashFunction Blocks.empty.cache pre) b = true ↔ _
      have hempty (k : ℕ) : Blocks.empty.cache k = none := rfl
      rw [hit_iff, learnAll_apply, hempty, Option.or_none, lastWith_eq_some_iff]
      constructor
      · rintro ⟨us, ws, rfl, -, hws⟩
        exact ⟨us, b, ws, rfl, rfl, hws, rfl⟩
      · rintro ⟨us, u, ws, rfl, -, hws, rfl⟩
        exact ⟨us, ws, rfl, rfl, hws⟩
    · exact p.transmission_data_old
    · exact fun ho => ⟨_, p.transmission_data_new ho, rfl, rfl⟩
  · have hplan : (RabinServer.fresh []).sock.plan = [] := rfl
    have hacc := (p.foldl_sent hplan files).2.1
    rw [← p.sendFiles_eq hr] at hacc
    rw [hacc, List.length_append, length_emit, length_flatMap_fileItems, blocksOf_files, hts, dataBytes_map]
    exact Nat.zero_add _

theorem hit_law_small :
    ∃ ns srv, small.sendFiles (.fresh []) [[97], [98], [97]] = some (ns, srv) ∧
      ∃ t, (transmissions srv.sock.log)[2]? = some t ∧ t.block.old = true ∧ t.data = none := by
  have hf : ∀ f ∈ ([[97], [98], [97]] : List (List UInt8)), f.length < 2 ^ 32 := by decide
  obtain ⟨ns, h⟩ := small.exists_sendFiles hf (.fresh [])
  obtain ⟨t, ht, -, -, hiff, hold, -⟩ := (hit_law h).2.2.1 [[97], [98]] [97] [] (by decide)
  have ho : t.block.old = true := hiff.2 ⟨[], [97], [[98]], rfl, rfl, by decide, rfl⟩
  exact ⟨ns, _, h, t, ht, ho, hold ho⟩

/-! ### Sending a file again -/

/-- The second of two transmissions of a file has no data if and only if no two different blocks of the file
share a number. -/
theorem resend_free_iff (hplan : srv.sock.plan = []) {file : List UInt8} {n₁ n₂ : ℤ} {srv₁ srv₂ : RabinServer}
    (h₁ : p.sendFile srv file = some (n₁, srv₁)) (h₂ : p.sendFile srv₁ file = some (n₂, srv₂)) :
    ∃ ts, transmissions srv₂.sock.log = transmissions srv₁.sock.log ++ ts ∧
      ts.map (·.block.data) = p.chunks file ∧
      ((∀ t ∈ ts, t.block.old = true ∧ t.data = none) ∧
          srv₂.sock.accepted.length = srv₁.sock.accepted.length + p.host.sizeofBlockDesc * (ts.length + 1) ↔
        ∀ b ∈ p.chunks file, ∀ b' ∈ p.chunks file, p.hashFunction b = p.hashFunction b' → b = b') := by
  have hs := p.length_lt_of_sendFile file h₁
  rw [p.sendFile_eq_sent hs, Option.some.injEq, Prod.mk.injEq] at h₁ h₂
  obtain ⟨-, rfl⟩ := h₁
  obtain ⟨-, rfl⟩ := h₂
  have hplan₁ := p.plan_sent hplan file
  have hcache : (p.sent srv file).blocks.cache = learnAll p.hashFunction srv.blocks.cache (p.chunks file) :=
    p.cache_offerAll srv (p.chunks file)
  have hiff : (∀ e ∈ p.entries (p.sent srv file).blocks.cache (p.chunks file), e.old = true) ↔
      ∀ b ∈ p.chunks file, ∀ b' ∈ p.chunks file, p.hashFunction b = p.hashFunction b' → b = b' := by
    rw [entries_old_iff, hcache, hit_learnAll_iff]
  refine ⟨_, transmissions_sent hplan₁ file, ?_, ?_⟩
  · rw [List.map_map]
    exact (p.map_entries _ id (fun _ _ => rfl) _ _).trans (List.map_id _)
  · rw [← hiff]
    constructor
    · rintro ⟨hts, -⟩ e he
      exact (hts _ (List.mem_map_of_mem he)).1
    · intro hold
      refine ⟨fun t ht => ?_, ?_⟩
      · obtain ⟨e, he, rfl⟩ := List.mem_map.1 ht
        exact ⟨hold e he, p.transmission_data_old (hold e he)⟩
      · have hmiss : missing (p.entries (p.sent srv file).blocks.cache (p.chunks file)) = 0 := by
          have hnil : (p.entries (p.sent srv file).blocks.cache (p.chunks file)).filter (!·.old) = [] := by
            rw [List.filter_eq_nil_iff]
            intro e he
            simp [hold e he]
          rw [missing, hnil]
          rfl
        rw [p.accepted_sent hplan₁, List.length_append, length_emit, blocksOf_fileItems, hmiss, Nat.add_zero,
          fileItems, List.length_append, List.length_map, List.length_singleton, List.length_map, length_entries]

theorem resend_free_iff_small :
    ∃ n₁ n₂ srv₁ srv₂, x64.sendFile (.fresh []) threeBlocks = some (n₁, srv₁) ∧
      x64.sendFile srv₁ threeBlocks = some (n₂, srv₂) ∧
      ∃ ts, transmissions srv₂.sock.log = transmissions srv₁.sock.log ++ ts ∧ ts.length = 3 ∧
        ∀ t ∈ ts, t.block.old = true ∧ t.data = none := by
  have hs : threeBlocks.length < 2 ^ 32 := by decide
  have hplan : (RabinServer.fresh []).sock.plan = [] := rfl
  have h₁ : x64.sendFile (.fresh []) threeBlocks = _ := x64.sendFile_eq_sent hs
  have h₂ : x64.sendFile (x64.sent (.fresh []) threeBlocks) threeBlocks = _ := x64.sendFile_eq_sent hs
  obtain ⟨ts, hts, hmap, hiff⟩ := resend_free_iff hplan h₁ h₂
  have hinj : ∀ b ∈ x64.chunks threeBlocks, ∀ b' ∈ x64.chunks threeBlocks,
      x64.hashFunction b = x64.hashFunction b' → b = b' := by decide +kernel
  have hthree : (x64.chunks threeBlocks).length = 3 := by decide +kernel
  refine ⟨_, _, _, _, h₁, h₂, ts, hts, ?_, (hiff.2 hinj).1⟩
  rw [← hmap, List.length_map] at hthree
  exact hthree

/-- The two blocks of 65 zero bytes have the same number: each time one drives out the other. -/
theorem resend_sends_again :
    ((x64.sendFile (.fresh []) (List.replicate 65 0)).bind fun r => x64.sendFile r.2 (List.replicate 65 0)).any
      (fun r =>
        ((transmissions r.2.sock.log).drop 2).map (fun t => (t.block.data, t.block.old)) =
            [(List.replicate 64 0, false), ([0], false)] ∧
          r.2.sock.accepted.length = 2 * (13 * 3 + 65)) = true := by
  decide +kernel

end Params
end Rabin
