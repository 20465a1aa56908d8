import Rabin.RoundTrip

/-!
# The synchronous pair `psb` and `hrd`

`psb` sends each piece of a response as a file of its own and an empty file behind the last one; `hrd`
calls `receive_file` until it returns 1. One call then matches one piece, since a file that is not
empty has at least one block (`relay_pieces`).
-/

namespace Rabin
open Reads Mirror

/-- One request in `psb`: what `recv` returns until it returns 0, then "size 0 denotes eof". -/
def Params.respond (p : Params) (srv : RabinServer) : List (List UInt8) → Option RabinServer
  | [] => (p.sendFile srv []).map Prod.snd
  | piece :: pieces => (p.sendFile srv piece).bind fun (_, srv) => respond p srv pieces

/-- For each request the bytes the Rabin connection has taken by its end; and the server. -/
def Params.respondAll (p : Params) (srv : RabinServer) :
    List (List (List UInt8)) → Option (List (List UInt8) × RabinServer)
  | [] => some ([], srv)
  | pieces :: rest => do
    let srv ← p.respond srv pieces
    let (accs, srv') ← respondAll p srv rest
    pure (srv.sock.accepted :: accs, srv')

/-- One request in `hrd`: what it sent to the browser, and the call of `receive_file` that ended the loop. -/
structure Relayed where
  sends : List (List UInt8)
  last : Received

namespace Host
variable (h : Host)

/-- `do { ... } while (blocks_recvd > 1)`: `none` if `receive_file` throws, or if the loop is still running
after `fuel` rounds. -/
def relay : ℕ → List (List UInt8) → Blocks → Conn UInt8 → Option Relayed
  | 0, _, _, _ => none
  | fuel + 1, sends, m, c =>
    (h.receiveFile m c).bind fun r =>
      if r.last = .outOfRange then none
      else if 1 < r.numBlocks then relay fuel (sends ++ [r.file]) r.blocks r.conn
      else some ⟨sends, r⟩

/-- The first `n` requests. Every round of a loop but the last takes a byte off the stream. -/
def relayAll : ℕ → Blocks → Conn UInt8 → List Relayed
  | 0, _, _ => []
  | n + 1, m, c =>
    match h.relay ((tokens c).length + 1) [] m c with
    | none => []
    | some r => r :: relayAll n r.last.blocks r.last.conn

end Host

/-- The browser got one send for each piece, and the loop ended with the empty file behind them. -/
structure RelayedTo (total : List UInt8) (response : List (List UInt8) × List UInt8) (r : Relayed) : Prop where
  sends_eq : r.sends = response.1
  last_eq : r.last.last = .eof
  file_eq : r.last.file = []
  unread_eq : response.2 ++ unread r.last.conn = total

namespace Params
variable (p : Params)

/-- What `recv` can return into the buffer. -/
def Piece (q : List UInt8) : Prop := 1 ≤ q.length ∧ q.length ≤ 1000

instance (q : List UInt8) : Decidable (Piece q) := inferInstanceAs (Decidable (_ ∧ _))

theorem Piece.lt {q : List UInt8} (h : Piece q) : q.length < 2 ^ 32 := Nat.lt_of_le_of_lt h.2 (by decide)

theorem respond_eq (srv : RabinServer) {pieces : List (List UInt8)} (hq : ∀ q ∈ pieces, Piece q) :
    p.respond srv pieces = some ((pieces ++ [[]]).foldl p.sent srv) := by
  induction pieces generalizing srv with
  | nil =>
    rw [respond, p.sendFile_eq_sent (show ([] : List UInt8).length < 2 ^ 32 from Nat.two_pow_pos 32)]
    rfl
  | cons q qs ih =>
    rw [respond, p.sendFile_eq_sent (hq q (List.mem_cons_self ..)).lt, Option.bind_some]
    exact ih _ fun q' hq' => hq q' (List.mem_cons_of_mem _ hq')

theorem chunks_ne_nil {q : List UInt8} (hq : Piece q) : p.chunks q ≠ [] := by
  intro h
  have hflat := p.flatten_chunks q
  rw [h] at hflat
  rw [← hflat] at hq
  exact absurd hq.1 (Nat.not_succ_le_zero 0)

/-- A file that is not empty counts more than one block. -/
theorem one_lt_numBlocks {q : List UInt8} (hq : Piece q) : 1 < UInt32.ofNat ((p.chunks q).length + 1) := by
  have hpos := List.length_pos_iff.2 (p.chunks_ne_nil hq)
  rw [UInt32.lt_iff_toNat_lt, p.toNat_ofNat_length_chunks hq.lt (Nat.le_refl _)]
  exact Nat.succ_lt_succ hpos

theorem length_le_emit (c : ByteCache) (is : List Item) : is.length ≤ (p.emit c is).length := by
  induction is generalizing c with
  | nil => exact Nat.zero_le _
  | cons i is ih =>
    have hpos := p.itemFrame_pos c i
    cases i with
    | block b =>
      have := ih (learn p.hashFunction c b)
      rw [itemFrame] at hpos
      rw [emit_block, List.length_append, List.length_cons]
      omega
    | eof =>
      have := ih c
      rw [itemFrame] at hpos
      rw [emit_eof, List.length_append, List.length_cons]
      omega

theorem length_le_items (files : List (List UInt8)) : files.length ≤ (files.flatMap p.fileItems).length := by
  induction files with
  | nil => exact Nat.zero_le _
  | cons f fs ih =>
    rw [List.flatMap_cons, fileItems, List.length_append, List.length_append, List.length_cons,
      List.length_singleton]
    omega

variable {p} {m : Blocks} {conn : Conn UInt8} {ts : List (Option UInt8)}

theorem relay_pieces {pieces : List (List UInt8)} (hq : ∀ q ∈ pieces, Piece q)
    (ht : tokens conn = (p.emit m.cache ((pieces ++ [[]]).flatMap p.fileItems)).map some ++ ts) :
    ∃ m' conn', tokens conn' = ts ∧ m'.cache = p.after m.cache ((pieces ++ [[]]).flatMap p.fileItems) ∧
      ∀ fuel sends, pieces.length < fuel →
        p.host.relay fuel sends m conn = some ⟨sends ++ pieces, ⟨.eof, [], 1, m', conn'⟩⟩ := by
  induction pieces generalizing m conn with
  | nil =>
    rw [List.nil_append, List.flatMap_cons, List.flatMap_nil, List.append_nil] at ht ⊢
    obtain ⟨conn', h1, h2⟩ := p.receiveFile_file rfl [] ht
    refine ⟨_, conn', h1, p.cache_absorbAll_file rfl [], ?_⟩
    intro fuel sends hf
    obtain ⟨fuel, rfl⟩ : ∃ k, fuel = k + 1 := ⟨fuel - 1, by omega⟩
    rw [Host.relay, h2, List.append_nil]
    rfl
  | cons q qs ih =>
    have hpiece := hq q (List.mem_cons_self ..)
    rw [List.cons_append, List.flatMap_cons, emit_append, List.map_append, List.append_assoc] at ht
    obtain ⟨conn₁, h1, h2⟩ := p.receiveFile_file rfl q ht
    have hcache := p.cache_absorbAll_file (m := m) rfl q
    rw [← hcache] at h1
    obtain ⟨m', conn', h3, h4, h5⟩ := ih (fun q' hq' => hq q' (List.mem_cons_of_mem _ hq')) h1
    refine ⟨m', conn', h3, ?_, ?_⟩
    · rw [h4, hcache, ← after_append]
      rfl
    · intro fuel sends hf
      obtain ⟨fuel, rfl⟩ : ∃ k, fuel = k + 1 := ⟨fuel - 1, by omega⟩
      rw [Host.relay, h2, Option.bind_some, if_neg Got.noConfusion, if_pos (p.one_lt_numBlocks hpiece),
        h5 fuel _ (Nat.lt_of_succ_lt_succ hf), List.append_assoc]
      rfl

theorem relayAll_respondAll {srv : RabinServer} {responses : List (List (List UInt8))}
    (hq : ∀ pieces ∈ responses, ∀ q ∈ pieces, Piece q) (hp : srv.sock.plan = []) :
    ∃ accs srv' sent, p.respondAll srv responses = some (accs, srv') ∧ accs.length = responses.length ∧
      srv'.sock.accepted = srv.sock.accepted ++ sent ∧
      ∀ (m : Blocks) later conn, m.cache = srv.blocks.cache → tokens conn = (sent ++ later).map some →
        List.Forall₂ (RelayedTo (srv'.sock.accepted ++ later)) (responses.zip accs)
          (p.host.relayAll responses.length m conn) := by
  induction responses generalizing srv with
  | nil => exact ⟨[], srv, [], rfl, rfl, (List.append_nil _).symm, fun _ _ _ _ _ => .nil⟩
  | cons pieces rest ih =>
    have hpieces := hq pieces (List.mem_cons_self ..)
    have hresp := p.respond_eq srv hpieces
    obtain ⟨hplan, hacc, hcache⟩ := p.foldl_sent hp (pieces ++ [[]])
    set srv₁ := (pieces ++ [[]]).foldl p.sent srv
    set out := p.emit srv.blocks.cache ((pieces ++ [[]]).flatMap p.fileItems) with hout
    obtain ⟨accs, srv', sent, h1, h2, h3, h4⟩ := ih (fun ps hps => hq ps (List.mem_cons_of_mem _ hps)) hplan
    have hrun : p.respondAll srv (pieces :: rest) = some (srv₁.sock.accepted :: accs, srv') := by
      rw [respondAll, hresp, Option.bind_eq_bind, Option.bind_some, h1]
      rfl
    refine ⟨_, srv', out ++ sent, hrun, congrArg (· + 1) h2, by rw [h3, hacc, List.append_assoc], ?_⟩
    intro m later conn hc ht
    rw [List.append_assoc, List.map_append, hout, ← hc] at ht
    obtain ⟨m', conn', h5, h6, h7⟩ := relay_pieces hpieces ht
    rw [hc, ← hcache] at h6
    have hlen : pieces.length < (tokens conn).length + 1 := by
      have hitems := p.length_le_emit m.cache ((pieces ++ [[]]).flatMap p.fileItems)
      have hfiles := p.length_le_items (pieces ++ [[]])
      rw [ht, List.length_append, List.length_map]
      rw [List.length_append] at hfiles
      omega
    rw [List.length_cons, Host.relayAll, h7 _ _ hlen]
    refine .cons ⟨rfl, rfl, rfl, ?_⟩ (h4 m' later conn' h6 h5)
    rw [unread_of_tokens h5, h3, List.append_assoc]

variable (p) in
/-- `psb` and `hrd` start on a fresh connection. Whatever the pieces `recv` and `read` return, `hrd` sends
the response to each request to its browser and leaves only later responses unread. -/
theorem relay_responses (responses : List (List (List UInt8))) (hq : ∀ pieces ∈ responses, ∀ q ∈ pieces, Piece q) :
    ∃ accs srv, p.respondAll (.fresh []) responses = some (accs, srv) ∧ accs.length = responses.length ∧
      ∀ later conn, tokens conn = (srv.sock.accepted ++ later).map some →
        List.Forall₂ (RelayedTo (srv.sock.accepted ++ later)) (responses.zip accs)
          (p.host.relayAll responses.length .empty conn) := by
  obtain ⟨accs, srv, sent, h1, h2, h3, h4⟩ :=
    relayAll_respondAll (p := p) hq (show (RabinServer.fresh []).sock.plan = [] from rfl)
  have hsent : srv.sock.accepted = sent := h3
  refine ⟨accs, srv, h1, h2, ?_⟩
  intro later conn ht
  rw [hsent] at ht
  exact h4 .empty later conn rfl ht

/-- Two requests, the second with the block of the first again; the response in between is empty. -/
theorem relay_responses_small :
    ∃ accs srv, small.respondAll (.fresh []) [[[97], [97, 0]], [], [[97]]] = some (accs, srv) ∧
      List.Forall₂ (RelayedTo srv.sock.accepted) ([[[97], [97, 0]], [], [[97]]].zip accs)
        (small.host.relayAll 3 .empty [.piece (srv.sock.accepted.take 7), .piece (srv.sock.accepted.drop 7)]) := by
  obtain ⟨accs, srv, h1, -, h2⟩ := small.relay_responses [[[97], [97, 0]], [], [[97]]] (by decide)
  have ht : tokens [.piece (srv.sock.accepted.take 7), .piece (srv.sock.accepted.drop 7)] =
      (srv.sock.accepted ++ []).map some := by
    rw [tokens_piece, tokens_piece, tokens_nil, List.append_nil, List.append_nil, ← List.map_append,
      List.take_append_drop]
  have h := h2 [] _ ht
  rw [List.append_nil] at h
  exact ⟨accs, srv, h1, h⟩

end Params
end Rabin
