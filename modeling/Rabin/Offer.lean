import Rabin.Lib.Mirror
import Rabin.Server

/-!
# What the server does with one block

`insertBlock` and `writeBlockToClient` both touch the `old` flag of an entry. Taken together they
amount to `offer`: the block becomes the entry under its number, its descriptor is `old` exactly on a
hit, and its data follow a descriptor that is not. Whatever the writes do, the bytes cached are those
of the last block under each number.
-/

namespace Rabin
namespace Params
open Mirror
variable (p : Params) (srv : RabinServer) (b : List UInt8)

/-- The entry `insertBlock` leaves under the number of `b`. -/
def entry (m : Blocks) : Block := Block.ofBytes (p.hashFunction b) (hit p.hashFunction m.cache b) b

def descImage (e : Block) : List UInt8 := (BlockDesc.hton p.host e.blockNum e.dataSize e.old).image p.host

@[simp] theorem entry_old (m : Blocks) : (p.entry b m).old = hit p.hashFunction m.cache b := rfl

theorem insertBlock_eq :
    p.insertBlock srv b = (p.hashFunction b, { srv with blocks := srv.blocks.put (p.entry b srv.blocks) }) := by
  cases hg : srv.blocks.get (p.hashFunction b) with
  | none =>
    have hm : hit p.hashFunction srv.blocks.cache b = false := by simp [hit, Blocks.cache, hg]
    simp only [insertBlock, hg, entry, hm]
  | some cur =>
    have hnum := srv.blocks.num_eq hg
    have hm : hit p.hashFunction srv.blocks.cache b = decide (cur.data = b) := by simp [hit, Blocks.cache, hg]
    by_cases hd : cur.data = b
    · have hs : cur.dataSize = b.length := by rw [← cur.size_eq, hd]
      have he : p.entry b srv.blocks = cur.setOld := by
        refine Block.ext' hnum.symm ?_ hd.symm
        rw [entry_old, hm, decide_eq_true hd]; rfl
      simp only [insertBlock, hg, hs, hd, ne_eq, not_true_eq_false, or_self, if_false, he]
    · have he : p.entry b srv.blocks = Block.ofBytes (p.hashFunction b) false b := by
        rw [entry, hm, decide_eq_false hd]
      simp only [insertBlock, hg, hd, ne_eq, not_false_eq_true, or_true, if_true, he]

/-- The server after the block `b`. -/
def offer : RabinServer :=
  let e := p.entry b srv.blocks
  let w := srv.sock.write (.desc e) (p.descImage e)
  if w.1 = none then ⟨srv.blocks.put e, w.2⟩
  else if e.old then ⟨srv.blocks.put e, w.2⟩
  else ⟨srv.blocks.put e.setOld, (w.2.write (.data e) e.data).2⟩

theorem sendBlock_eq : p.sendBlock srv b = some (p.offer srv b) := by
  have hget : (srv.blocks.put (p.entry b srv.blocks)).get (p.hashFunction b) = some (p.entry b srv.blocks) :=
    Blocks.get_put_self ..
  have hput : (srv.blocks.put (p.entry b srv.blocks)).put (p.entry b srv.blocks).setOld =
      srv.blocks.put (p.entry b srv.blocks).setOld := Blocks.put_put rfl
  simp only [sendBlock, insertBlock_eq, writeBlockToClient, hget, hput, offer, descImage]
  by_cases hw : srv.sock.ret ((BlockDesc.hton p.host (p.entry b srv.blocks).blockNum
      (p.entry b srv.blocks).dataSize (p.entry b srv.blocks).old).image p.host).length = none
  · simp only [Socket.write_fst, hw, if_true]; rfl
  · simp only [Socket.write_fst, hw, if_false]
    cases ho : (p.entry b srv.blocks).old <;> simp [BlockDesc.hton]

def offerAll (bs : List (List UInt8)) : RabinServer := bs.foldl p.offer srv

@[simp] theorem offerAll_nil : p.offerAll srv [] = srv := rfl

@[simp] theorem offerAll_cons (bs : List (List UInt8)) :
    p.offerAll srv (b :: bs) = p.offerAll (p.offer srv b) bs := rfl

/-- The cache learns `b` also when its transmission fails. -/
theorem cache_offer : (p.offer srv b).blocks.cache = learn p.hashFunction srv.blocks.cache b := by
  simp only [offer]
  split
  · exact Blocks.cache_put ..
  · split
    · exact Blocks.cache_put ..
    · exact Blocks.cache_put ..

theorem cache_offerAll (bs : List (List UInt8)) :
    (p.offerAll srv bs).blocks.cache = learnAll p.hashFunction srv.blocks.cache bs := by
  induction bs generalizing srv with
  | nil => rfl
  | cons b bs ih => rw [offerAll_cons, ih, cache_offer, learnAll_cons]

/-- The calls of `write` made for `b`: the descriptor, and the data unless the descriptor failed or
says `old`. -/
theorem offer_log :
    let e := p.entry b srv.blocks
    let w : Write := ⟨.desc e, p.descImage e, srv.sock.ret (p.descImage e).length⟩
    (w.ret = none ∨ e.old = true) ∧ (p.offer srv b).sock.log = srv.sock.log ++ [w] ∨
      w.ret ≠ none ∧ e.old = false ∧
        ∃ r, (p.offer srv b).sock.log = srv.sock.log ++ [w, ⟨.data e, e.data, r⟩] := by
  intro e w
  by_cases hw : w.ret = none
  · refine .inl ⟨.inl hw, ?_⟩
    have hw' : (srv.sock.write (.desc e) (p.descImage e)).1 = none := hw
    simp only [offer, e, hw', if_true]; rfl
  · have hw' : ¬ (srv.sock.write (.desc e) (p.descImage e)).1 = none := hw
    cases ho : e.old with
    | true =>
      refine .inl ⟨.inr rfl, ?_⟩
      simp only [offer, e, hw', ho, if_false, if_true]; rfl
    | false =>
      refine .inr ⟨hw, rfl, (srv.sock.write (.desc e) (p.descImage e)).2.ret e.data.length, ?_⟩
      simp only [offer, e, hw', ho, if_false, Bool.false_eq_true, Socket.write_log, List.append_assoc]; rfl

end Params
end Rabin
