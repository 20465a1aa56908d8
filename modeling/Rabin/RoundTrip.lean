import Rabin.Channel

/-!
# Files across a connection

The server's `send_file` calls on one connection against the client's `receive_file` calls: every file
comes out as it went in (`round_trip`), and if the connection fails on the way the count tells
(`truncated_transfer`).
-/

namespace Rabin
open Reads Mirror Cut

/-- `n` successive calls of `receive_file`, each into an empty file; an exception ends them. -/
def Host.receiveFiles (h : Host) : ℕ → Blocks → Conn UInt8 → List Received
  | 0, _, _ => []
  | n + 1, m, c =>
    match h.receiveFile m c with
    | none => []
    | some r => r :: if r.last = .outOfRange then [] else receiveFiles h n r.blocks r.conn

/-- A call of `receive_file` got what a call of `send_file` sent, on a connection that carries `total`:
the file, the count, and not a byte after the final descriptor. -/
structure Delivered (total : List UInt8) (sent : List UInt8 × ℤ × List UInt8) (r : Received) : Prop where
  last_eq : r.last = .eof
  file_eq : r.file = sent.1
  count_eq : (r.numBlocks.toNat : ℤ) = sent.2.1
  unread_eq : sent.2.2 ++ unread r.conn = total

namespace Params
variable (p : Params)

theorem toNat_ofNat_length_chunks {file : List UInt8} (hf : file.length < 2 ^ 32) {k : ℕ}
    (hk : k ≤ (p.chunks file).length) : (UInt32.ofNat (k + 1)).toNat = k + 1 := by
  have := p.length_chunks_le file
  exact Nat.mod_eq_of_lt (show k + 1 < 2 ^ 32 by omega)

theorem cache_absorbAll_file {c : ByteCache} {m : Blocks} (hc : m.cache = c) (file : List UInt8) :
    (p.absorbAll c m (p.chunks file)).cache = p.after c (p.fileItems file) := by
  have hd : Decodable p.hashFunction c m.cache (p.chunks file) := by rw [hc]; exact decodable_self _
  rw [cache_absorbAll p hd, hc, after_fileItems]

theorem receiveFile_file {c : ByteCache} {m : Blocks} {conn : Conn UInt8} {ts : List (Option UInt8)}
    (hc : m.cache = c) (file : List UInt8) (ht : tokens conn = (p.emit c (p.fileItems file)).map some ++ ts) :
    ∃ conn', tokens conn' = ts ∧ p.host.receiveFile m conn =
      some ⟨.eof, file, UInt32.ofNat ((p.chunks file).length + 1), p.absorbAll c m (p.chunks file), conn'⟩ := by
  have hd : Decodable p.hashFunction c m.cache (p.chunks file) := by rw [hc]; exact decodable_self _
  obtain ⟨conn', h1, h2⟩ := p.receiveFile_whole (fun b hb => p.sized_of_mem_chunks hb) hd ht
  exact ⟨conn', h1, by rw [h2, flatten_chunks]⟩

theorem sendFiles_receiveFiles {srv : RabinServer} {m : Blocks} {files : List (List UInt8)}
    (hf : ∀ f ∈ files, f.length < 2 ^ 31) (hp : srv.sock.plan = []) (hc : m.cache = srv.blocks.cache) :
    ∃ ns srv' sent, p.sendFiles srv files = some (ns, srv') ∧ ns.length = files.length ∧
      srv'.sock.accepted = srv.sock.accepted ++ sent ∧
      ∀ later conn, tokens conn = (sent ++ later).map some →
        List.Forall₂ (Delivered (srv'.sock.accepted ++ later)) (files.zip ns)
          (p.host.receiveFiles files.length m conn) := by
  induction files generalizing srv m with
  | nil => exact ⟨[], srv, [], rfl, rfl, (List.append_nil _).symm, fun _ _ _ => .nil⟩
  | cons f fs ih =>
    have hlen : f.length < 2 ^ 31 := hf f (by simp)
    have hsend : p.sendFile srv f = _ := p.sendFile_eq_sent (show f.length < 2 ^ 32 by omega)
    have hcache := p.cache_absorbAll_file hc f
    rw [← cache_sent] at hcache
    obtain ⟨ns, srv', sent, h1, h2, h3, h4⟩ := ih (fun g hg => hf g (by simp [hg])) (p.plan_sent hp f) hcache
    rw [accepted_sent p hp, List.append_assoc] at h3
    have hrun : p.sendFiles srv (f :: fs) =
        some ((wrapInt ((p.chunks f).length + 1), (p.sent srv f).sock.accepted) :: ns, srv') := by
      simp [sendFiles, hsend, h1]
    refine ⟨_, srv', _, hrun, by rw [List.length_cons, h2, List.length_cons], h3, fun later conn ht => ?_⟩
    rw [List.append_assoc, List.map_append] at ht
    obtain ⟨conn', h5, h6⟩ := p.receiveFile_file hc f ht
    rw [List.length_cons, Host.receiveFiles, h6]
    refine .cons ⟨rfl, rfl, ?_, ?_⟩ (h4 later conn' h5)
    · rw [p.wrapInt_length_chunks hlen, p.toNat_ofNat_length_chunks (by omega) (Nat.le_refl _)]
    · rw [unread_of_tokens h5, accepted_sent p hp, h3]
      simp only [List.append_assoc]

/-- The files go from a fresh server to a fresh client; the pieces in which the stream arrives are
arbitrary, and what follows the last file stays unread. -/
theorem round_trip (files : List (List UInt8)) (hf : ∀ f ∈ files, f.length < 2 ^ 31) :
    ∃ ns srv, p.sendFiles (.fresh []) files = some (ns, srv) ∧ ns.length = files.length ∧
      ∀ later conn, tokens conn = (srv.sock.accepted ++ later).map some →
        List.Forall₂ (Delivered (srv.sock.accepted ++ later)) (files.zip ns)
          (p.host.receiveFiles files.length .empty conn) := by
  obtain ⟨ns, srv, sent, h1, h2, h3, h4⟩ :=
    p.sendFiles_receiveFiles hf (show (RabinServer.fresh []).sock.plan = [] from rfl)
      (show Blocks.empty.cache = (RabinServer.fresh []).blocks.cache from rfl)
  have hsent : srv.sock.accepted = sent := h3
  refine ⟨ns, srv, h1, h2, ?_⟩
  rw [hsent] at h4 ⊢
  exact h4

theorem round_trip_small :
    ∃ ns srv, small.sendFiles (.fresh []) [[97, 0, 98], [], [97, 0, 98]] = some (ns, srv) ∧
      List.Forall₂ (Delivered (srv.sock.accepted ++ [1])) ([[97, 0, 98], [], [97, 0, 98]].zip ns)
        (small.host.receiveFiles 3 .empty
          [.piece (srv.sock.accepted.take 5), .piece (srv.sock.accepted.drop 5 ++ [1])]) := by
  obtain ⟨ns, srv, h1, -, h2⟩ := small.round_trip [[97, 0, 98], [], [97, 0, 98]] (by decide)
  refine ⟨ns, srv, h1, h2 [1] _ ?_⟩
  rw [tokens_piece, tokens_piece, tokens_nil, List.append_nil, ← List.map_append, ← List.append_assoc,
    List.take_append_drop]

/-! ### A connection that fails on the way -/

/-- How many of the blocks `bs` have their frames within the first `n` bytes of what is sent for them. -/
def wholeBlocks (c : ByteCache) (bs : List (List UInt8)) (n : ℕ) : ℕ := wholeIn (p.frames c (bs.map .block)) n

theorem wholeBlocks_le (c : ByteCache) (bs : List (List UInt8)) (n : ℕ) : p.wholeBlocks c bs n ≤ bs.length := by
  have h := wholeIn_le (p.frames c (bs.map .block)) n
  rwa [length_frames, List.length_map] at h

theorem receiveFile_part {c : ByteCache} {m : Blocks} (hc : m.cache = c) {file part : List UInt8}
    {ts ts' : List (Option UInt8)} {conn : Conn UInt8} (hpart : part <+: p.emit c (p.fileItems file))
    (hs : Stops ts ts') (ht : tokens conn = part.map some ++ ts) :
    let bs := (p.chunks file).take (p.wholeBlocks c (p.chunks file) part.length)
    ∃ last conn', (last = .eof → part = p.emit c (p.fileItems file)) ∧ p.host.receiveFile m conn =
      some ⟨last, bs.flatten, UInt32.ofNat (bs.length + 1), p.absorbAll c m bs, conn'⟩ := by
  intro bs
  set cs := p.chunks file with hcs
  have hd : Decodable p.hashFunction c m.cache bs := by rw [hc]; exact decodable_self _
  have hsized : ∀ b ∈ bs, Sized b := fun b hb => p.sized_of_mem_chunks (List.mem_of_mem_take hb)
  -- the number of whole frames, the final descriptor included
  set k := wholeIn (p.frames c (p.fileItems file)) part.length with hk
  have hkn : p.wholeBlocks c cs part.length = min k cs.length := by
    have h := wholeIn_append (p.frames c (cs.map .block)) [p.eofFrame] part.length
    have hfr : p.frames c (cs.map .block) ++ [p.eofFrame] = p.frames c (p.fileItems file) := by
      rw [fileItems, frames_append]; rfl
    rwa [hfr, length_frames, List.length_map] at h
  obtain ⟨q, hq, hend⟩ := prefix_flatten hpart
  rw [← hk] at hq hend
  rcases hend with ⟨hall, rfl⟩ | ⟨x, hx, hqx, hlt⟩
  · have hlen : k = cs.length + 1 := by
      rw [hall, length_frames, fileItems, List.length_append, List.length_map]; rfl
    have hbs : bs = cs := by
      show cs.take (p.wholeBlocks c cs part.length) = cs
      rw [hkn, hlen, Nat.min_eq_right (Nat.le_succ _), List.take_length]
    have hwhole : part = p.emit c (cs.map .block ++ [.eof]) := by
      rw [hq, hall, List.take_length, List.append_nil]; rfl
    rw [hbs] at hd hsized ⊢
    rw [hwhole] at ht
    obtain ⟨conn', -, h⟩ := p.receiveFile_whole hsized hd ht
    exact ⟨.eof, conn', fun _ => hwhole, h⟩
  · rw [getElem?_frames, Option.map_eq_some_iff] at hx
    obtain ⟨i, hi, rfl⟩ := hx
    have hkle : k ≤ cs.length := by
      have hlt := (List.getElem?_eq_some_iff.1 hi).1
      rw [fileItems, List.length_append, List.length_map] at hlt
      exact Nat.le_of_lt_succ hlt
    have hbs : bs = cs.take k := by
      show cs.take (p.wholeBlocks c cs part.length) = cs.take k
      rw [hkn, Nat.min_eq_left hkle]
    have htake : (p.fileItems file).take k = bs.map .block := by
      rw [fileItems, List.take_append_of_le_length (by rwa [List.length_map]), hbs, List.map_take]
    have hisz : ∀ b, i = .block b → Sized b := by
      rintro b rfl
      exact p.sized_of_mem_fileItems (List.mem_of_getElem? hi)
    rw [frames_take, htake] at hq
    rw [htake, after, blocksOf_map] at hqx hlt
    rw [hq] at ht
    obtain ⟨conn', -, h⟩ := p.receiveFile_short hsized hd hisz hqx hlt ht hs
    exact ⟨.lost, conn', Got.noConfusion, h⟩

/-- The connection delivers `part` of what is sent for `file`, in any pieces, and then a read fails or
the connection is closed. -/
theorem truncated_transfer {srv srv' : RabinServer} {m : Blocks} (hp : srv.sock.plan = [])
    (hc : m.cache = srv.blocks.cache) {file : List UInt8} {n : ℤ} (hsend : p.sendFile srv file = some (n, srv')) :
    ∃ stream, srv'.sock.accepted = srv.sock.accepted ++ stream ∧
      ∀ part ts ts' conn, part <+: stream → Stops ts ts' → tokens conn = part.map some ++ ts →
        ∃ r, p.host.receiveFile m conn = some r ∧
          let bs := (p.chunks file).take (p.wholeBlocks srv.blocks.cache (p.chunks file) part.length)
          r.file = bs.flatten ∧ r.blocks = p.absorbAll srv.blocks.cache m bs ∧
          r.blocks.cache = (p.offerAll srv bs).blocks.cache ∧ r.numBlocks.toNat = bs.length + 1 ∧
          (wrapInt r.numBlocks.toNat = n ↔ r.file = file) := by
  have hf := p.length_lt_of_sendFile file hsend
  rw [p.sendFile_eq_sent hf, Option.some.injEq, Prod.mk.injEq] at hsend
  rcases hsend with ⟨rfl, rfl⟩
  refine ⟨_, p.accepted_sent hp file, ?_⟩
  intro part ts ts' conn hpart hs ht
  obtain ⟨last, conn', -, hr⟩ := p.receiveFile_part hc hpart hs ht
  have hk := p.wholeBlocks_le srv.blocks.cache (p.chunks file) part.length
  set k := p.wholeBlocks srv.blocks.cache (p.chunks file) part.length with hkk
  have hd : Decodable p.hashFunction srv.blocks.cache m.cache ((p.chunks file).take k) := by
    rw [hc]; exact decodable_self _
  have hlen : ((p.chunks file).take k).length = k := List.length_take_of_le hk
  refine ⟨_, hr, rfl, rfl, ?_, ?_, ?_⟩
  · rw [cache_absorbAll p hd, hc, cache_offerAll]
  · rw [hlen, p.toNat_ofNat_length_chunks hf hk]
  · have hflat := flatten_take_eq_iff (fun b hb => (p.mem_chunks file hb).1) hk
    rw [flatten_chunks] at hflat
    have hbound := p.length_chunks_le file
    have hinj := wrapInt_inj (a := k + 1) (b := (p.chunks file).length + 1) (by omega) (by omega)
    rw [hflat, hlen, p.toNat_ofNat_length_chunks hf hk]
    push_cast at hinj ⊢
    rw [hinj]

/-- The first block has been sent before, the second one is new, and the connection breaks in the data of the third. -/
theorem truncated_transfer_small :
    let srv := x64.sent (.fresh []) [105, 105]
    let m := x64.absorbAll Blocks.empty.cache .empty (x64.chunks [105, 105])
    ∃ (n : ℤ) (srv' : RabinServer), x64.sendFile srv threeBlocks = some (n, srv') ∧
      ∃ stream, srv'.sock.accepted = srv.sock.accepted ++ stream ∧ stream.length = 13 + (13 + 64) + (13 + 8) + 13 ∧
        ∃ r, x64.host.receiveFile m [.piece (stream.take 105), .fail] = some r ∧
          r.file = threeBlocks.take 66 ∧ r.numBlocks.toNat = 3 ∧
          (wrapInt r.numBlocks.toNat = n ↔ r.file = threeBlocks) := by
  intro srv m
  have hcache : m.cache = srv.blocks.cache := by
    rw [x64.cache_absorbAll (decodable_self _)]
    exact (x64.cache_offerAll (.fresh []) (x64.chunks [105, 105])).symm
  have hsend : x64.sendFile srv threeBlocks = _ := x64.sendFile_eq_sent (by decide)
  obtain ⟨stream, hacc, h⟩ := x64.truncated_transfer (x64.plan_sent rfl [105, 105]) hcache hsend
  have hstream : (x64.sent srv threeBlocks).sock.accepted.drop srv.sock.accepted.length = stream := by
    rw [hacc, List.drop_left]
  obtain ⟨r, h1, h2, -, -, h3, h4⟩ := h (stream.take 105) [none] [] [.piece (stream.take 105), .fail]
    (List.take_prefix ..) (.inr rfl) rfl
  have hlen : stream.length = 13 + (13 + 64) + (13 + 8) + 13 := by
    rw [← hstream]
    decide +kernel
  have hwhole : (x64.chunks threeBlocks).take (x64.wholeBlocks srv.blocks.cache (x64.chunks threeBlocks) 105) =
      [[105, 105], 105 :: List.replicate 63 100] := by decide +kernel
  rw [show (stream.take 105).length = 105 from List.length_take_of_le (by omega), hwhole] at h2 h3
  exact ⟨_, _, hsend, stream, hacc, hlen, r, h1, h2, h3, h4⟩

end Params
end Rabin
