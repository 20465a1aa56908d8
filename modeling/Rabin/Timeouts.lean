import Rabin.RoundTrip
import Rabin.Lib.Framing

/-!
# Calling `receive_file` again after a timeout

`receive_block` keeps what it has read of a frame in local buffers, so a `read` that fails inside the
frame loses it. Repeated calls of `receive_file` are a sequence of calls of `receive_block`
(`fileRun_eq`), and these take every frame if and only if no read fails inside one (`recovers_iff`).
-/

namespace Rabin
open Reads Mirror

/-- A call of `receive_block` and the bytes it took off the stream. -/
structure Reading where
  got : Got
  bytes : List UInt8

def Got.decoded : Got → Bool
  | .block _ | .eof => true
  | .lost | .outOfRange => false

/-- What is written to the file. -/
def Got.written : Got → List UInt8
  | .block b => b.data
  | _ => []

/-- The bytes of the frames that were decoded. -/
def decodedFrames (rs : List Reading) : List (List UInt8) := (rs.filter (·.got.decoded)).map Reading.bytes

namespace Host
variable (h : Host)

/-- `receive_block` until all has been read or it throws, and the map at the end. -/
def blockRun : ℕ → Blocks → Conn UInt8 → List Reading × Blocks
  | 0, m, _ => ([], m)
  | fuel + 1, m, c =>
    if tokens c = [] then ([], m)
    else
      match h.receiveBlock m c with
      | (got, m', c') =>
        let rest := if got = .outOfRange then ([], m') else blockRun fuel m' c'
        (⟨got, (unread c).take ((unread c).length - (unread c').length)⟩ :: rest.1, rest.2)

/-- `receive_file` until all has been read or it throws, and the map at the end. -/
def fileRun : ℕ → Blocks → Conn UInt8 → List Received × Blocks
  | 0, m, _ => ([], m)
  | fuel + 1, m, c =>
    if tokens c = [] then ([], m)
    else
      match h.receiveFile m c with
      | none => ([], m)
      | some r =>
        let rest := if r.last = .outOfRange then ([], r.blocks) else fileRun fuel r.blocks r.conn
        (r :: rest.1, rest.2)

variable {m : Blocks} {conn : Conn UInt8}

theorem receiveBlock_short {got : Got} {m' : Blocks} {conn' : Conn UInt8} (ht : tokens conn ≠ [])
    (hr : h.receiveBlock m conn = (got, m', conn')) : (tokens conn').length < (tokens conn).length := by
  rcases h.receiveBlock_took hr with ⟨bs, ⟨-, hpos, hts⟩ | ⟨-, rest, hts, hs⟩⟩
  · rw [hts, List.length_append, List.length_map]
    omega
  · rcases hs with ⟨rfl, hnil⟩ | rfl
    · rw [hnil]
      exact List.length_pos_iff.2 ht
    · rw [hts, List.length_append, List.length_cons]
      omega

theorem blockRun_fuel {fuel : ℕ} (hf : (tokens conn).length ≤ fuel) :
    h.blockRun fuel m conn = h.blockRun (tokens conn).length m conn := by
  induction fuel using Nat.strong_induction_on generalizing m conn with
  | _ fuel ih =>
    by_cases ht : tokens conn = []
    · rw [ht, List.length_nil]
      cases fuel with
      | zero => rfl
      | succ fuel => exact if_pos ht
    · have hpos := List.length_pos_iff.2 ht
      obtain ⟨n, hn⟩ : ∃ n, (tokens conn).length = n + 1 := ⟨(tokens conn).length - 1, by omega⟩
      obtain ⟨fuel, rfl⟩ : ∃ k, fuel = k + 1 := ⟨fuel - 1, by omega⟩
      rw [hn, blockRun, blockRun, if_neg ht, if_neg ht]
      rcases hr : h.receiveBlock m conn with ⟨got, m', conn'⟩
      have hlt := h.receiveBlock_short ht hr
      dsimp only
      rw [ih fuel (Nat.lt_succ_self _) (by omega)]
      by_cases hfn : n = fuel
      · rw [hfn, ih fuel (Nat.lt_succ_self _) (by omega)]
      · rw [ih n (by omega) (by omega)]

theorem blockRun_step {got : Got} {m' : Blocks} {conn' : Conn UInt8} {bs : List UInt8} (ht : tokens conn ≠ [])
    (hr : h.receiveBlock m conn = (got, m', conn')) (hbs : unread conn = bs ++ unread conn') :
    h.blockRun (tokens conn).length m conn =
      let rest := if got = .outOfRange then ([], m') else h.blockRun (tokens conn').length m' conn'
      (⟨got, bs⟩ :: rest.1, rest.2) := by
  have hlt := h.receiveBlock_short ht hr
  have htake : (unread conn).take ((unread conn).length - (unread conn').length) = bs := by
    rw [hbs, List.length_append, Nat.add_sub_cancel, List.take_left]
  obtain ⟨n, hn⟩ : ∃ n, (tokens conn).length = n + 1 := ⟨(tokens conn).length - 1, by omega⟩
  have hrun : h.blockRun n m' conn' = h.blockRun (tokens conn').length m' conn' := h.blockRun_fuel (by omega)
  rw [hn, blockRun, if_neg ht, hr]
  dsimp only
  rw [htake, hrun]

theorem unread_took {got : Got} {m' : Blocks} {conn' : Conn UInt8} (hr : h.receiveBlock m conn = (got, m', conn')) :
    ∃ bs, unread conn = bs ++ unread conn' ∧
      (got ≠ .lost ∧ tokens conn = bs.map some ++ tokens conn' ∨
        got = .lost ∧ (tokens conn = bs.map some ++ none :: tokens conn' ∨ tokens conn' = [])) := by
  rcases h.receiveBlock_took hr with ⟨bs, ⟨hg, -, hts⟩ | ⟨hg, rest, hts, hs⟩⟩
  · exact ⟨bs, by rw [unread, hts, filterMap_map_some_append]; rfl, .inl ⟨hg, hts⟩⟩
  · rcases hs with ⟨rfl, hnil⟩ | rfl
    · refine ⟨bs, ?_, .inr ⟨hg, .inr hnil⟩⟩
      rw [unread, unread, hts, hnil, filterMap_map_some_append]
    · refine ⟨bs, ?_, .inr ⟨hg, .inl hts⟩⟩
      rw [unread, hts, filterMap_map_some_append, List.filterMap_cons_none rfl]
      rfl

/-- The frames that are decoded are pieces of the stream, one after the other. -/
theorem pieces_blockRun (m : Blocks) (conn : Conn UInt8) :
    Pieces (tokens conn) (decodedFrames (h.blockRun (tokens conn).length m conn).1) := by
  induction hn : (tokens conn).length using Nat.strong_induction_on generalizing m conn with
  | _ n ih =>
    rw [← hn]
    by_cases ht : tokens conn = []
    · rw [ht]
      exact .rest []
    · rcases hr : h.receiveBlock m conn with ⟨got, m', conn'⟩
      have hlt := h.receiveBlock_short ht hr
      obtain ⟨bs, hbs, hcase⟩ := h.unread_took hr
      rw [h.blockRun_step ht hr hbs]
      have ihn := ih _ (hn ▸ hlt) m' conn' rfl
      cases got with
      | block b =>
        rcases hcase with ⟨-, hts⟩ | ⟨hg, -⟩
        · rw [hts]
          exact .whole bs ihn
        · cases hg
      | eof =>
        rcases hcase with ⟨-, hts⟩ | ⟨hg, -⟩
        · rw [hts]
          exact .whole bs ihn
        · cases hg
      | outOfRange => exact .rest _
      | lost =>
        rcases hcase with ⟨hg, -⟩ | ⟨-, hts | hnil⟩
        · exact absurd rfl hg
        · rw [hts]
          exact .dropped bs ihn
        · rw [hnil]
          exact .rest _

/-! ### The calls of `receive_file` -/

theorem receiveBlock_end (ht : tokens conn = []) (m : Blocks) :
    ∃ conn', tokens conn' = [] ∧ h.receiveBlock m conn = (.lost, m, conn') := by
  have hpos : ([] : List UInt8).length < h.sizeofBlockDesc := h.sizeofBlockDesc_pos
  exact h.receiveBlock_short_desc hpos ht (.inl ⟨rfl, rfl⟩)

theorem receiveLoop_le {fuel : ℕ} {n : UInt32} {file : List UInt8} {r : Received}
    (hr : h.receiveLoop fuel n file m conn = some r) : (tokens r.conn).length ≤ (tokens conn).length - 1 := by
  induction fuel generalizing n file m conn with
  | zero => cases hr
  | succ fuel ih =>
    rw [receiveLoop] at hr
    by_cases ht : tokens conn = []
    · obtain ⟨conn', h1, h2⟩ := h.receiveBlock_end ht m
      rw [h2] at hr
      cases hr
      rw [h1]
      exact Nat.zero_le _
    · rcases hb : h.receiveBlock m conn with ⟨got, m', conn'⟩
      have hlt := h.receiveBlock_short ht hb
      rw [hb] at hr
      cases got with
      | block b =>
        have := ih hr
        omega
      | eof =>
        cases hr
        exact Nat.le_sub_one_of_lt hlt
      | lost =>
        cases hr
        exact Nat.le_sub_one_of_lt hlt
      | outOfRange =>
        cases hr
        exact Nat.le_sub_one_of_lt hlt

/-- What follows a call of `receive_file`. -/
def runAfter (r : Received) : List Reading × Blocks :=
  if r.last = .outOfRange then ([], r.blocks) else h.blockRun (tokens r.conn).length r.blocks r.conn

def writtenBy (rs : List Reading) : List UInt8 := rs.flatMap (·.got.written)

theorem blockRun_receiveLoop {fuel : ℕ} {n : UInt32} {file : List UInt8} {r : Received}
    (hr : h.receiveLoop fuel n file m conn = some r) :
    file ++ writtenBy (h.blockRun (tokens conn).length m conn).1 = r.file ++ writtenBy (h.runAfter r).1 ∧
      (h.blockRun (tokens conn).length m conn).2 = (h.runAfter r).2 := by
  induction fuel generalizing n file m conn with
  | zero => cases hr
  | succ fuel ih =>
    rw [receiveLoop] at hr
    by_cases ht : tokens conn = []
    · obtain ⟨conn', h1, h2⟩ := h.receiveBlock_end ht m
      rw [h2] at hr
      cases hr
      rw [runAfter, if_neg Got.noConfusion, h1, ht]
      exact ⟨rfl, rfl⟩
    · rcases hb : h.receiveBlock m conn with ⟨got, m', conn'⟩
      obtain ⟨bs, hbs, -⟩ := h.unread_took hb
      rw [h.blockRun_step ht hb hbs]
      rw [hb] at hr
      cases got with
      | block b =>
        obtain ⟨h1, h2⟩ := ih hr
        refine ⟨?_, h2⟩
        rw [← h1, List.append_assoc]
        rfl
      | eof =>
        cases hr
        exact ⟨rfl, rfl⟩
      | lost =>
        cases hr
        exact ⟨rfl, rfl⟩
      | outOfRange =>
        cases hr
        exact ⟨rfl, rfl⟩

theorem fileRun_eq {fuel : ℕ} (hf : (tokens conn).length ≤ fuel) :
    (h.fileRun fuel m conn).1.flatMap Received.file = writtenBy (h.blockRun (tokens conn).length m conn).1 ∧
      (h.fileRun fuel m conn).2 = (h.blockRun (tokens conn).length m conn).2 := by
  induction fuel generalizing m conn with
  | zero =>
    rw [Nat.le_zero.1 hf]
    exact ⟨rfl, rfl⟩
  | succ fuel ih =>
    rw [fileRun]
    by_cases ht : tokens conn = []
    · rw [if_pos ht, ht]
      exact ⟨rfl, rfl⟩
    · obtain ⟨r, hr⟩ := h.receiveLoop_total (m := m) 0 [] (Nat.lt_succ_self (tokens conn).length)
      have hrec : h.receiveFile m conn = some r := hr
      have hle := h.receiveLoop_le hr
      obtain ⟨h1, h2⟩ := h.blockRun_receiveLoop hr
      rw [if_neg ht, hrec]
      rw [List.nil_append] at h1
      rw [h1, h2]
      have hrest :
          (if r.last = .outOfRange then ([], r.blocks) else h.fileRun fuel r.blocks r.conn).1.flatMap Received.file =
            writtenBy (h.runAfter r).1 ∧
          (if r.last = .outOfRange then ([], r.blocks) else h.fileRun fuel r.blocks r.conn).2 = (h.runAfter r).2 := by
        unfold runAfter
        split
        · exact ⟨rfl, rfl⟩
        · exact ih (by omega)
      exact ⟨congrArg (r.file ++ ·) hrest.1, hrest.2⟩

end Host

namespace Params
variable {p : Params} {m : Blocks} {conn : Conn UInt8}

/-- A client with the server's cache that no timeout hits inside a frame. -/
theorem blockRun_of_failsBetween {is : List Item} (hi : ∀ b, .block b ∈ is → Sized b)
    (ht : unread conn = p.emit m.cache is) (hb : FailsBetween (p.frames m.cache is) (tokens conn)) :
    let run := p.host.blockRun (tokens conn).length m conn
    decodedFrames run.1 = p.frames m.cache is ∧ Host.writtenBy run.1 = (blocksOf is).flatten ∧
      run.2.cache = p.after m.cache is := by
  induction hn : (tokens conn).length using Nat.strong_induction_on generalizing is m conn with
  | _ n ih =>
    rw [← hn]
    cases htok : tokens conn with
    | nil =>
      have hnil : p.emit m.cache is = [] := by
        rw [← ht, unread, htok]
        rfl
      cases is with
      | nil => exact ⟨rfl, rfl, rfl⟩
      | cons i is =>
        rw [emit_takeUp, List.append_eq_nil_iff] at hnil
        have hpos := p.itemFrame_pos m.cache i
        rw [hnil.1] at hpos
        exact absurd hpos (Nat.lt_irrefl _)
    | cons t rest =>
      have hne : tokens conn ≠ [] := by rw [htok]; exact List.cons_ne_nil _ _
      rw [← htok]
      cases t with
      | none =>
        -- a timeout between two frames
        have hpos : ([] : List UInt8).length < p.host.sizeofBlockDesc := p.host.sizeofBlockDesc_pos
        obtain ⟨conn', h1, h2⟩ := p.host.receiveBlock_short_desc (m := m) hpos htok (.inr rfl)
        have hunread : unread conn = unread conn' := by
          rw [unread, unread, htok, h1, List.filterMap_cons_none rfl]
        have hlt : (tokens conn').length < n := by
          rw [← hn, htok, h1, List.length_cons]
          exact Nat.lt_succ_self _
        rw [htok, ← h1] at hb
        rw [p.host.blockRun_step hne h2 (show unread conn = [] ++ unread conn' from hunread)]
        exact ih _ hlt hi (hunread ▸ ht) (failsBetween_none.1 hb) rfl
      | some x =>
        cases is with
        | nil =>
          rw [unread, htok] at ht
          cases ht
        | cons i is =>
          obtain ⟨hii, his⟩ := sized_of_cons hi
          rw [frames_takeUp, htok] at hb
          have hflat : (some x :: rest).filterMap id =
              (p.itemFrame m.cache i :: p.frames (p.takeUp m i).cache is).flatten := by
            rw [← frames_takeUp, ← htok]
            exact ht
          obtain ⟨ts, hts⟩ := frame_of_failsBetween hb hflat
          rw [hts, failsBetween_frame (List.ne_nil_of_length_pos (p.itemFrame_pos _ i))] at hb
          obtain ⟨got, conn', h1, hy, h2⟩ := p.receiveBlock_item (m := m) hii (htok.trans hts)
          have hunread : unread conn = p.itemFrame m.cache i ++ unread conn' := by
            rw [unread, htok, hts, filterMap_map_some_append, ← h1]
            rfl
          have hlt := p.host.receiveBlock_short hne h2
          rw [p.host.blockRun_step hne h2 hunread]
          rw [← h1] at hb
          rw [emit_takeUp, hunread] at ht
          obtain ⟨ih1, ih2, ih3⟩ := ih _ (hn ▸ hlt) his (List.append_cancel_left ht) hb rfl
          rw [frames_takeUp, ← cache_takeUp, ← ih1, ← ih3]
          cases i with
          | block b =>
            rcases hy with ⟨blk, rfl, rfl⟩
            exact ⟨rfl, congrArg (blk.data ++ ·) ih2, rfl⟩
          | eof =>
            cases hy
            exact ⟨rfl, ih2, rfl⟩

theorem flatten_chunks_files (files : List (List UInt8)) : (files.flatMap p.chunks).flatten = files.flatten := by
  rw [List.flatten_eq_flatMap, List.flatMap_assoc]
  simp [flatten_chunks]

theorem mem_files {files : List (List UInt8)} {b : List UInt8} (hb : .block b ∈ files.flatMap p.fileItems) :
    Sized b := by
  obtain ⟨f, -, hb⟩ := List.mem_flatMap.1 hb
  exact p.sized_of_mem_fileItems hb

variable (p) in
/-- A fresh server has sent `files`; the reads of `conn` meet what it has sent, in any pieces and with
failing reads anywhere. -/
theorem recovers_iff {files : List (List UInt8)} {ns : List (ℤ × List UInt8)} {srv : RabinServer}
    (hs : p.sendFiles (.fresh []) files = some (ns, srv)) (hc : unread conn = srv.sock.accepted) :
    let calls := p.host.fileRun (tokens conn).length .empty conn
    let readings := (p.host.blockRun (tokens conn).length .empty conn).1
    let frames := p.frames (fun _ => none) (files.flatMap p.fileItems)
    (calls.1.flatMap Received.file = files.flatten ∧ decodedFrames readings = frames ∧
        calls.2.cache = srv.blocks.cache) ↔ FailsBetween frames (tokens conn) := by
  intro calls readings frames
  obtain ⟨-, hacc, hcache⟩ := p.foldl_sent (show (RabinServer.fresh []).sock.plan = [] from rfl) files
  rw [← p.sendFiles_eq hs] at hacc hcache
  constructor
  · rintro ⟨-, hdec, -⟩
    refine failsBetween_of_pieces ?_ (hc.trans hacc)
    rw [← hdec]
    exact p.host.pieces_blockRun .empty conn
  · intro hb
    obtain ⟨h1, h2, h3⟩ := blockRun_of_failsBetween (p := p) (m := .empty) (fun b hb => mem_files hb)
      (hc.trans hacc) hb
    obtain ⟨h4, h5⟩ := p.host.fileRun_eq (m := .empty) (Nat.le_refl (tokens conn).length)
    refine ⟨?_, h1, ?_⟩
    · rw [h4, h2, blocksOf_files, flatten_chunks_files]
    · rw [h5, h3, hcache]
      rfl

theorem recovers_iff_small :
    ∃ ns srv, small.sendFiles (.fresh []) [[97], [98]] = some (ns, srv) ∧
      let conn : Conn UInt8 := [.fail, .piece (srv.sock.accepted.take 14), .fail, .piece (srv.sock.accepted.drop 14)]
      let readings := (small.host.blockRun (tokens conn).length .empty conn).1
      let frames := small.frames (fun _ => none) ([[97], [98]].flatMap small.fileItems)
      ((small.host.fileRun (tokens conn).length .empty conn).1.flatMap Received.file = [97, 98] ∧
          decodedFrames readings = frames ∧
          (small.host.fileRun (tokens conn).length .empty conn).2.cache = srv.blocks.cache) ↔
        FailsBetween frames (tokens conn) := by
  have hf : ∀ f ∈ ([[97], [98]] : List (List UInt8)), f.length < 2 ^ 32 := by decide
  rcases small.exists_sendFiles hf (.fresh []) with ⟨ns, h⟩
  exact ⟨ns, _, h, small.recovers_iff h (by decide)⟩

/-- A timeout after 5 bytes of the first descriptor: what follows is read as the end of a file. -/
theorem timeout_in_header :
    ∃ ns srv, small.sendFiles (.fresh []) [[97]] = some (ns, srv) ∧
      let conn : Conn UInt8 := [.piece (srv.sock.accepted.take 5), .fail, .piece (srv.sock.accepted.drop 5)]
      unread conn = srv.sock.accepted ∧
        (small.host.fileRun (tokens conn).length .empty conn).1.map (fun r => (r.last, r.file)) =
          [(.lost, []), (.eof, []), (.lost, [])] := by
  have hf : ∀ f ∈ ([[97]] : List (List UInt8)), f.length < 2 ^ 32 := by decide
  rcases small.exists_sendFiles hf (.fresh []) with ⟨ns, h⟩
  exact ⟨ns, _, h, by decide, by decide⟩

end Params
end Rabin
