import Mathlib.Tactic.Ring
import Mathlib.Tactic.NormNum

/-!
# Integers in memory

The bytes an unsigned integer occupies in the memory of a machine, for either byte order, and the
conversion to and from network order (`hton` / `ntoh`). An integer is a natural number; a store of
`w` bytes keeps it modulo `256 ^ w`.
-/

namespace Mem

/-- The `w` bytes of `n`, least significant first. -/
def toLE : ℕ → ℕ → List UInt8
  | 0, _ => []
  | w + 1, n => UInt8.ofNat n :: toLE w (n / 256)

/-- The number whose bytes are given, least significant first. -/
def ofLE : List UInt8 → ℕ
  | [] => 0
  | b :: bs => b.toNat + 256 * ofLE bs

@[simp] theorem length_toLE (w n : ℕ) : (toLE w n).length = w := by
  induction w generalizing n with
  | zero => rfl
  | succ w ih => simp [toLE, ih]

theorem ofLE_toLE (w n : ℕ) : ofLE (toLE w n) = n % 256 ^ w := by
  induction w generalizing n with
  | zero => simp [toLE, ofLE, Nat.mod_one]
  | succ w ih =>
    have hb : (UInt8.ofNat n).toNat = n % 256 := UInt8.toNat_ofNat'
    rw [toLE, ofLE, ih, hb, pow_succ', Nat.mod_mul]

theorem toLE_mod (w n : ℕ) : toLE w (n % 256 ^ w) = toLE w n := by
  induction w generalizing n with
  | zero => rfl
  | succ w ih =>
    have hd : n % 256 ^ (w + 1) / 256 = n / 256 % 256 ^ w := by
      rw [pow_succ', Nat.mod_mul_right_div_self]
    have hb : UInt8.ofNat (n % 256 ^ (w + 1)) = UInt8.ofNat n := by
      rw [← UInt8.toNat_inj, UInt8.toNat_ofNat', UInt8.toNat_ofNat', pow_succ']
      exact Nat.mod_mul_right_mod ..
    rw [toLE, toLE, hd, hb, ih]

theorem toLE_zero (w : ℕ) : toLE w 0 = List.replicate w 0 := by
  induction w with
  | zero => rfl
  | succ w ih => rw [toLE, Nat.zero_div, ih]; rfl

/-- A number that fits in `w` bytes leaves the bytes above them 0. -/
theorem toLE_add {w n : ℕ} (h : n < 256 ^ w) (k : ℕ) : toLE (w + k) n = toLE w n ++ List.replicate k 0 := by
  induction w generalizing n with
  | zero =>
    obtain rfl : n = 0 := by simpa using h
    simp [toLE, toLE_zero]
  | succ w ih =>
    have hd : n / 256 < 256 ^ w := Nat.div_lt_of_lt_mul (by rwa [← pow_succ'])
    rw [Nat.succ_add, toLE, toLE, ih hd]
    rfl

theorem ofLE_replicate_append (k : ℕ) (bs : List UInt8) : ofLE (List.replicate k 0 ++ bs) = 256 ^ k * ofLE bs := by
  induction k with
  | zero => simp
  | succ k ih =>
    have h0 : (0 : UInt8).toNat = 0 := rfl
    rw [List.replicate_succ, List.cons_append, ofLE, ih, h0, pow_succ']
    ring

theorem ofLE_lt (bs : List UInt8) : ofLE bs < 256 ^ bs.length := by
  induction bs with
  | nil => simp [ofLE]
  | cons b bs ih =>
    have hb : b.toNat < 256 := b.toNat_lt
    rw [ofLE, List.length_cons, pow_succ]
    omega

end Mem

inductive ByteOrder
  | little
  | big
  deriving DecidableEq, Repr

namespace ByteOrder
variable (o : ByteOrder)
open Mem

/-- The bytes a `w`-byte integer takes in memory. -/
def store (w n : ℕ) : List UInt8 :=
  match o with
  | little => toLE w n
  | big => (toLE w n).reverse

/-- The integer whose bytes in memory are `bs`. -/
def load (bs : List UInt8) : ℕ :=
  match o with
  | little => ofLE bs
  | big => ofLE bs.reverse

@[simp] theorem length_store (w n : ℕ) : (o.store w n).length = w := by
  cases o <;> simp [store]

theorem load_store (w n : ℕ) : o.load (o.store w n) = n % 256 ^ w := by
  cases o <;> simp [store, load, ofLE_toLE]

theorem load_store_of_lt {w n : ℕ} (h : n < 256 ^ w) : o.load (o.store w n) = n := by
  rw [load_store, Nat.mod_eq_of_lt h]

theorem load_lt (bs : List UInt8) : o.load bs < 256 ^ bs.length := by
  cases o with
  | little => exact ofLE_lt bs
  | big => simpa [load] using ofLE_lt bs.reverse

/-- The `w`-byte integer whose bytes on this machine are those of `n` in network order. -/
def hton (w n : ℕ) : ℕ := o.load (big.store w n)

/-- The integer whose bytes in network order are those `n` has on this machine. -/
def ntoh (w n : ℕ) : ℕ := big.load (o.store w n)

theorem hton_lt (w n : ℕ) : o.hton w n < 256 ^ w := by
  simpa [hton] using o.load_lt (big.store w n)

theorem toLE_ofLE (bs : List UInt8) : toLE bs.length (ofLE bs) = bs := by
  induction bs with
  | nil => rfl
  | cons b bs ih =>
    have hb : b.toNat < 256 := b.toNat_lt
    have hdiv : (b.toNat + 256 * ofLE bs) / 256 = ofLE bs := by omega
    have hmod : UInt8.ofNat (b.toNat + 256 * ofLE bs) = b := by
      rw [← UInt8.toNat_inj, UInt8.toNat_ofNat']
      omega
    rw [List.length_cons, ofLE, toLE, hdiv, ih, hmod]

theorem store_load (bs : List UInt8) : o.store bs.length (o.load bs) = bs := by
  cases o with
  | little => exact toLE_ofLE bs
  | big =>
    have h := toLE_ofLE bs.reverse
    rw [List.length_reverse] at h
    rw [store, load, h, List.reverse_reverse]

theorem store_hton (w n : ℕ) : o.store w (o.hton w n) = big.store w n := by
  have h := o.store_load (big.store w n)
  rwa [length_store] at h

/-- Going to network order and back keeps what fits in `w` bytes. -/
theorem ntoh_hton (w n : ℕ) : o.ntoh w (o.hton w n) = n % 256 ^ w := by
  rw [ntoh, store_hton, load_store]

/-- The same when the integer travels in a field wide enough for it. -/
theorem ntoh_load_store_hton {w v : ℕ} (hwv : w ≤ v) (n : ℕ) :
    o.ntoh w (o.load (o.store v (o.hton w n))) = n % 256 ^ w := by
  have h : o.hton w n < 256 ^ v := (o.hton_lt w n).trans_le (Nat.pow_le_pow_right (by norm_num) hwv)
  rw [load_store_of_lt o h, ntoh_hton]

/-! ### Two machines -/

section
variable {o} {o' : ByteOrder}

theorem load_store_of_ne (h : o ≠ o') (w n : ℕ) : o'.load (o.store w n) = ofLE (toLE w n).reverse := by
  cases o <;> cases o' <;> first | exact absurd rfl h | rfl

theorem ntoh_mod (w n : ℕ) : o.ntoh w (n % 256 ^ w) = o.ntoh w n := by
  cases o <;> simp only [ntoh, store, toLE_mod]

theorem ntoh_zero (w : ℕ) : o.ntoh w 0 = 0 := by
  have hof : ofLE (List.replicate w 0) = 0 := by simpa [ofLE] using ofLE_replicate_append w []
  cases o <;> simp only [ntoh, store, load, toLE_zero, List.reverse_replicate, hof]

/-- A field of exactly the width that is converted means the same to every machine. -/
theorem ntoh_load_store_hton_self (w n : ℕ) : o'.ntoh w (o'.load (o.store w (o.hton w n))) = n % 256 ^ w := by
  rw [store_hton]
  exact o'.ntoh_hton w n

/-- In a field at least twice as wide the other byte order has the converted bytes at the far end. -/
theorem ntoh_load_store_hton_of_ne (h : o ≠ o') {w v : ℕ} (hwv : 2 * w ≤ v) (n : ℕ) :
    o'.ntoh w (o'.load (o.store v (o.hton w n))) = 0 := by
  obtain ⟨k, rfl⟩ : ∃ k, v = w + (w + k) := ⟨v - 2 * w, by omega⟩
  have hrev : (toLE (w + (w + k)) (o.hton w n)).reverse =
      List.replicate (w + k) 0 ++ (toLE w (o.hton w n)).reverse := by
    rw [toLE_add (o.hton_lt w n), List.reverse_append, List.reverse_replicate]
  have hmod : 256 ^ (w + k) * ofLE (toLE w (o.hton w n)).reverse % 256 ^ w = 0 := by
    rw [pow_add, Nat.mul_assoc, Nat.mul_mod_right]
  rw [load_store_of_ne h, hrev, ofLE_replicate_append, ← ntoh_mod, hmod, ntoh_zero]

end

end ByteOrder
