import Rabin.Offer

/-!
# What the fingerprint covers

`hash_function` is given the length of the block, but its loop runs over a copy until the first NUL. What stands
from there on does not count (`hashFunction_append_nul`), and the fingerprint is that of the whole block only if it
has no NUL, or by chance (`hashFunction_iff`).
-/

namespace Rabin

/-- djb2 from the value `hash` over all the bytes, each of them a signed `char`. -/
def djb2From (hash : ℤ) (b : List UInt8) : ℤ := b.foldl (fun hash c => (hash * 33 + c.toInt8.toInt) % 2 ^ 32) hash

def djb2All (b : List UInt8) : ℤ := djb2From 5381 b

theorem djb2All_append (u w : List UInt8) : djb2All (u ++ w) = djb2From (djb2All u) w := List.foldl_append ..

theorem toNat_toUInt32 (x : Int32) : (x.toUInt32.toNat : ℤ) = x.toInt % 2 ^ 32 := by
  have hx : x.toInt = (x.toUInt32.toNat : ℤ).bmod (2 ^ 32) := BitVec.toInt_eq_toNat_bmod _
  have hlt := x.toUInt32.toNat_lt
  have hm := Int.bmod_emod (x := (x.toUInt32.toNat : ℤ)) (m := 2 ^ 32)
  rw [← hx] at hm
  omega

theorem djb2_step (hash : UInt32) (c : UInt8) :
    ((((hash <<< 5) + hash) + charToUnsigned c).toNat : ℤ) = (hash.toNat * 33 + c.toInt8.toInt) % 2 ^ 32 := by
  have hc : ((charToUnsigned c).toNat : ℤ) = c.toInt8.toInt % 2 ^ 32 := by
    rw [charToUnsigned, toNat_toUInt32, Int8.toInt_toInt32]
  have hs : (hash <<< 5).toNat = hash.toNat * 32 % 2 ^ 32 := by
    simp [Nat.shiftLeft_eq]
  rw [UInt32.toNat_add, UInt32.toNat_add, hs]
  push_cast
  rw [hc]
  omega

theorem djb2_append_nul {u : List UInt8} (hu : 0 ∉ u) (hash : UInt32) (w : List UInt8) :
    ((djb2 hash (u ++ 0 :: w)).toNat : ℤ) = djb2From hash.toNat u := by
  induction u generalizing hash with
  | nil => rfl
  | cons c u ih =>
    rw [List.mem_cons, not_or] at hu
    rw [List.cons_append, djb2, if_neg (Ne.symm hu.1), ih hu.2, djb2_step]
    rfl

namespace Params
variable (p : Params)

theorem hashFunction_eq {u : List UInt8} (hu : 0 ∉ u) : (p.hashFunction u : ℤ) = djb2All u % p.maxSize := by
  have h := djb2_append_nul hu 5381 []
  rw [hashFunction]
  push_cast
  rw [h]
  rfl

theorem hashFunction_append_nul {u : List UInt8} (hu : 0 ∉ u) (w : List UInt8) :
    p.hashFunction (u ++ 0 :: w) = p.hashFunction u := by
  have h := djb2_append_nul hu 5381 (w ++ [0])
  rw [← djb2_append_nul hu 5381 []] at h
  rw [hashFunction, hashFunction, List.append_assoc, List.cons_append, Nat.cast_injective h]

/-- The fingerprint is djb2 over the whole block exactly if what stands from the first NUL on, should there be one,
leads back to the same remainder. -/
theorem hashFunction_iff (srv : RabinServer) (b : List UInt8) :
    (p.insertBlock srv b).1 = p.hashFunction b ∧
      ((p.hashFunction b : ℤ) = djb2All b % p.maxSize ↔
        ∀ u w, b = u ++ 0 :: w → 0 ∉ u → djb2From (djb2All u) (0 :: w) % p.maxSize = djb2All u % p.maxSize) := by
  refine ⟨by rw [insertBlock_eq], ?_⟩
  constructor
  · rintro h u w rfl hu
    rw [← djb2All_append, ← h, p.hashFunction_append_nul hu, p.hashFunction_eq hu]
  · intro h
    by_cases hb : 0 ∈ b
    · obtain ⟨u, w, rfl, hu⟩ := List.eq_append_cons_of_mem hb
      rw [djb2All_append, h u w rfl hu, p.hashFunction_append_nul hu, p.hashFunction_eq hu]
    · exact p.hashFunction_eq hb

theorem nul_not_hashed : small.hashFunction [0] = 381 ∧ djb2All [0] % small.maxSize = 573 := by decide

end Params
end Rabin
