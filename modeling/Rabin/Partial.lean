import Rabin.Channel

/-!
# `receive_block` between two reads

A client that runs beside the server stops after every `read`. All it then keeps of the frame it is in
is the part it has read: `asks` is how much more it asks for, `onRead` what it does with what it has.
`feeds_receiveBlock` shows that reading on in this way is `receiveBlock`.
-/

namespace Rabin
open Reads Mirror

namespace Host
variable (h : Host)

/-- The descriptor at the front of `part`, in host order. -/
def descOf (part : List UInt8) : BlockDesc :=
  let bd := BlockDesc.ofImage h (part.take h.sizeofBlockDesc)
  ⟨h.ntohl bd.blockNum, h.ntohl bd.dataSize, bd.old⟩

/-- What the next `read` asks for when `part` of a frame has been read. -/
def asks (part : List UInt8) : ℕ :=
  if part.length < h.sizeofBlockDesc then h.sizeofBlockDesc - part.length
  else h.sizeofBlockDesc + (h.descOf part).dataSize - part.length

/-- What `receive_block` comes back with, and the map it leaves, once it has `part`; `none` if it reads on. -/
def onRead (m : Blocks) (part : List UInt8) : Option (Got × Blocks) :=
  if part.length < h.sizeofBlockDesc then none
  else
    let bd := h.descOf part
    if bd.dataSize = 0 then some (.eof, m)
    else if !bd.old then
      if part.length < h.sizeofBlockDesc + bd.dataSize then none
      else
        let m := m.insertBlock (part.drop h.sizeofBlockDesc) bd.blockNum
        some (m.getBlock bd.blockNum, m)
    else some (m.getBlock bd.blockNum, m)

/-- Reading on from `part` until `receive_block` comes back. -/
inductive Feeds (m : Blocks) : List UInt8 → Conn UInt8 → Got × Blocks × Conn UInt8 → Prop
  | done {part conn got m'} (hr : h.onRead m part = some (got, m')) : Feeds m part conn (got, m', conn)
  | more {part conn bs conn' r} (hr : h.onRead m part = none) (hc : read (h.asks part) conn = (some bs, conn'))
      (hf : Feeds m (part ++ bs) conn' r) : Feeds m part conn r
  | lost {part conn conn'} (hr : h.onRead m part = none) (hc : read (h.asks part) conn = (none, conn')) :
      Feeds m part conn (.lost, m, conn')

variable {m : Blocks}

theorem asks_pos {part : List UInt8} (hr : h.onRead m part = none) : 0 < h.asks part := by
  unfold asks
  unfold onRead at hr
  split
  · omega
  · rename_i hge
    rw [if_neg hge] at hr
    dsimp only at hr
    split at hr
    · cases hr
    · split at hr
      · split at hr
        · omega
        · cases hr
      · cases hr

theorem feeds_readLoop {n : ℕ} (pre : List UInt8)
    (hstep : ∀ buf : List UInt8, buf.length < n →
      h.onRead m (pre ++ buf) = none ∧ h.asks (pre ++ buf) = n - buf.length)
    (fuel : ℕ) (buf : List UInt8) (conn : Conn UInt8) (hf : n ≤ buf.length + fuel) (hb : buf.length ≤ n) :
    match readLoop n fuel buf conn with
    | (none, c) => h.Feeds m (pre ++ buf) conn (.lost, m, c)
    | (some bs, c) => bs.length = n ∧ ∀ r, h.Feeds m (pre ++ bs) c r → h.Feeds m (pre ++ buf) conn r := by
  induction fuel generalizing buf conn with
  | zero => exact ⟨by omega, fun r hr => hr⟩
  | succ fuel ih =>
    by_cases hlt : buf.length < n
    · obtain ⟨hnone, hasks⟩ := hstep buf hlt
      rw [readLoop, if_pos hlt]
      rcases read_cases (show 0 < n - buf.length by omega) conn with
        ⟨-, hr⟩ | ⟨c', -, hr⟩ | ⟨bs, c', h1, h2, hr, -⟩
      · rw [hr]
        exact .lost hnone (by rw [hasks]; exact hr)
      · rw [hr]
        exact .lost hnone (by rw [hasks]; exact hr)
      · rw [hr]
        have hlen : (buf ++ bs).length = buf.length + bs.length := List.length_append
        have hread : read (h.asks (pre ++ buf)) conn = (some bs, c') := by rw [hasks]; exact hr
        have hi := ih (buf ++ bs) c' (by omega) (by omega)
        rw [← List.append_assoc] at hi
        dsimp only
        split <;> rename_i heq <;> rw [heq] at hi
        · exact .more hnone hread hi
        · exact ⟨hi.1, fun r hfr => .more hnone hread (hi.2 r hfr)⟩
    · rw [readLoop, if_neg hlt]
      exact ⟨by omega, fun r hr => hr⟩

theorem descOf_append {hd rest : List UInt8} (hl : hd.length = h.sizeofBlockDesc) :
    h.descOf (hd ++ rest) = h.descOf hd := by
  rw [descOf, descOf, List.take_left' hl, ← hl, List.take_length]

theorem onRead_data {hd buf : List UInt8} (hl : hd.length = h.sizeofBlockDesc) (h0 : (h.descOf hd).dataSize ≠ 0)
    (hold : (h.descOf hd).old = false) (hlt : buf.length < (h.descOf hd).dataSize) :
    h.onRead m (hd ++ buf) = none ∧ h.asks (hd ++ buf) = (h.descOf hd).dataSize - buf.length := by
  have h1 : ¬ (hd ++ buf).length < h.sizeofBlockDesc := by rw [List.length_append]; omega
  have h2 : (hd ++ buf).length < h.sizeofBlockDesc + (h.descOf hd).dataSize := by rw [List.length_append]; omega
  have hd' : h.descOf (hd ++ buf) = h.descOf hd := h.descOf_append hl
  refine ⟨?_, ?_⟩
  · simp only [onRead, h1, hd', h0, hold, h2, if_false, Bool.not_false, if_true]
  · rw [asks, if_neg h1, hd', List.length_append]
    omega

theorem feeds_receiveBlock (conn : Conn UInt8) : h.Feeds m [] conn (h.receiveBlock m conn) := by
  have hpos := h.sizeofBlockDesc_pos
  have hhead := h.feeds_readLoop (m := m) (n := h.sizeofBlockDesc) []
    (fun buf hlt => by simp [onRead, asks, hlt]) h.sizeofBlockDesc [] conn (by simp) (by simp)
  change match readFull h.sizeofBlockDesc conn with | (none, c) => _ | (some bs, c) => _ at hhead
  unfold receiveBlock
  split <;> rename_i heq <;> rw [heq] at hhead
  · exact hhead
  · rename_i bdBuf c
    obtain ⟨hlen, hcont⟩ := hhead
    refine hcont _ ?_
    rw [List.nil_append]
    have hge : ¬ bdBuf.length < h.sizeofBlockDesc := by omega
    have htake : BlockDesc.ofImage h bdBuf = BlockDesc.ofImage h (bdBuf.take h.sizeofBlockDesc) := by
      rw [← hlen, List.take_length]
    rw [htake]
    change Feeds h m bdBuf c (if (h.descOf bdBuf).dataSize = 0 then _ else if (!(h.descOf bdBuf).old) = true then
      match readFull (h.descOf bdBuf).dataSize c with
        | (none, c) => _
        | (some buf, c) => _ else _)
    split
    · rename_i h0
      exact .done (by simp [onRead, hge, h0])
    · rename_i h0
      split
      · rename_i hold
        have hold' : (h.descOf bdBuf).old = false := by simpa using hold
        have hdata := h.feeds_readLoop (m := m) bdBuf (fun buf => h.onRead_data hlen h0 hold')
          (h.descOf bdBuf).dataSize [] c (by simp) (by simp)
        change match readFull (h.descOf bdBuf).dataSize c with | (none, c) => _ | (some bs, c) => _ at hdata
        rw [List.append_nil] at hdata
        split <;> rename_i heq' <;> rw [heq'] at hdata
        · exact hdata
        · rename_i buf c'
          refine hdata.2 _ (.done ?_)
          have h1 : ¬ (bdBuf ++ buf).length < h.sizeofBlockDesc := by rw [List.length_append]; omega
          have h2 : ¬ (bdBuf ++ buf).length < h.sizeofBlockDesc + (h.descOf bdBuf).dataSize := by
            rw [List.length_append]; omega
          simp only [onRead, h1, h.descOf_append hlen, h0, hold, h2, if_false, if_true,
            List.drop_left' hlen]
          rfl
      · rename_i hold
        exact .done (by simp only [onRead, hge, h0, hold, if_false]; rfl)

end Host
end Rabin
