import UolaOs.Lib.Bytes
import Mathlib.Data.Nat.Bitwise

/-!
# Bits of byte strings

`bitAt bs i` counts the bits of a byte string as a network prefix does, from the most
significant bit of its first byte on:

* `testBit_get_big`, `bitAt_put_big`: the bits of a big-endian number;
* `bytes_ext`: a byte string is its bits;
* `bitAt_append`, `bitAt_take`, `bitAt_drop`: the bits of parts;
* `bitField`: the number in a range of bits.
-/

namespace UolaOs

def bitAt (bs : Bytes) (i : Nat) : Bool := (bs.getD (i / 8) 0).toNat.testBit (7 - i % 8)

theorem bitAt_of_length_le {bs : Bytes} {i : Nat} (h : 8 * bs.length ≤ i) : bitAt bs i = false := by
  have out : bs.length ≤ i / 8 := by omega
  simp [bitAt, out]

theorem bitAt_zeros (n i : Nat) : bitAt (List.replicate n 0) i = false := by
  by_cases h : i / 8 < n <;> simp [bitAt, h]

theorem bitAt_append (a b : Bytes) (i : Nat) :
    bitAt (a ++ b) i = if i < 8 * a.length then bitAt a i else bitAt b (i - 8 * a.length) := by
  unfold bitAt
  split
  · have inside : i / 8 < a.length := by omega
    rw [List.getD_append _ _ _ _ inside]
  · have outside : a.length ≤ i / 8 := by omega
    have byte : (i - 8 * a.length) / 8 = i / 8 - a.length := by omega
    have bit : (i - 8 * a.length) % 8 = i % 8 := by omega
    rw [List.getD_append_right _ _ _ _ outside, byte, bit]

theorem bitAt_take (bs : Bytes) (n i : Nat) :
    bitAt (bs.take n) i = (decide (i < 8 * n) && bitAt bs i) := by
  unfold bitAt
  by_cases hi : i / 8 < n
  · have hi' : i < 8 * n := by omega
    simp [hi, hi']
  · have hi' : ¬ i < 8 * n := by omega
    simp [hi, hi']

theorem bitAt_drop (bs : Bytes) (n i : Nat) : bitAt (bs.drop n) i = bitAt bs (8 * n + i) := by
  unfold bitAt
  have byte : (8 * n + i) / 8 = n + i / 8 := by omega
  have bit : (8 * n + i) % 8 = i % 8 := by omega
  simp [byte, bit]

theorem bitAt_poke {m bs : Bytes} {off : Nat} (h : off + bs.length ≤ m.length) (i : Nat) :
    bitAt (poke m off bs) i =
      if 8 * off ≤ i ∧ i < 8 * (off + bs.length) then bitAt bs (i - 8 * off) else bitAt m i := by
  have front : (m.take off).length = off := by
    rw [List.length_take]
    omega
  rw [poke_eq_append h, bitAt_append, bitAt_append, List.length_append, front, bitAt_take,
    bitAt_drop]
  by_cases hlow : i < 8 * off
  · have hmid : i < 8 * (off + bs.length) := by omega
    simp [hlow, hmid]
  · by_cases hmid : i < 8 * (off + bs.length)
    · simp [hlow, hmid, Nat.le_of_not_lt hlow]
    · have back : 8 * (off + bs.length) + (i - 8 * (off + bs.length)) = i := by omega
      simp [hmid, back]

/-- A byte string is its length and its bits. -/
theorem bytes_ext {a b : Bytes} (len : a.length = b.length)
    (bits : ∀ i < 8 * a.length, bitAt a i = bitAt b i) : a = b := by
  apply List.ext_getElem len
  intro k hk hk'
  apply UInt8.toNat_inj.mp
  apply Nat.eq_of_testBit_eq
  intro j
  by_cases hj : j < 8
  · have byte : (8 * k + (7 - j)) / 8 = k := by omega
    have bit : 7 - (8 * k + (7 - j)) % 8 = j := by omega
    have same := bits (8 * k + (7 - j)) (by omega)
    rw [bitAt, bitAt, byte, bit] at same
    simpa [hk, hk'] using same
  · have big (x : UInt8) : x.toNat.testBit j = false :=
      Nat.testBit_lt_two_pow (Nat.lt_of_lt_of_le x.toNat_lt
        (Nat.pow_le_pow_right (by decide) (Nat.le_of_not_lt hj)))
    rw [big, big]

/-! ## Big-endian numbers -/

theorem testBit_leNat (bs : Bytes) (j : Nat) :
    (leNat bs).testBit j = (bs.getD (j / 8) 0).toNat.testBit (j % 8) := by
  induction bs generalizing j with
  | nil => simp [leNat]
  | cons b bs ih =>
    have hb : b.toNat < 2 ^ 8 := b.toNat_lt
    have shape : leNat (b :: bs) = 2 ^ 8 * leNat bs + b.toNat := by
      rw [leNat, Nat.add_comm]
      rfl
    rw [shape, Nat.testBit_two_pow_mul_add _ hb]
    split
    · have byte : j / 8 = 0 := by omega
      have bit : j % 8 = j := by omega
      simp [byte, bit]
    · have byte : j / 8 = (j - 8) / 8 + 1 := by omega
      have bit : j % 8 = (j - 8) % 8 := by omega
      rw [ih, byte, bit, List.getD_cons_succ]

theorem testBit_get_big {bs : Bytes} {j : Nat} (h : j < 8 * bs.length) :
    (Endian.big.get bs).testBit j = bitAt bs (8 * bs.length - 1 - j) := by
  have inside : j / 8 < bs.length := by omega
  have byte : (8 * bs.length - 1 - j) / 8 = bs.length - 1 - j / 8 := by omega
  have bit : 7 - (8 * bs.length - 1 - j) % 8 = j % 8 := by omega
  rw [Endian.get, testBit_leNat, bitAt, byte, bit]
  simp [List.getElem?_reverse inside]

theorem bitAt_put_big {k n i : Nat} (h : i < 8 * k) :
    bitAt (Endian.big.put k n) i = n.testBit (8 * k - 1 - i) := by
  have len := Endian.big.length_put k n
  have back : 8 * (Endian.big.put k n).length - 1 - (8 * k - 1 - i) = i := by omega
  have number : Endian.big.get (Endian.big.put k n) = n % 2 ^ (8 * k) := by
    rw [Endian.big.get_put, Nat.pow_mul]
  have bit : (Endian.big.get (Endian.big.put k n)).testBit (8 * k - 1 - i) = _ :=
    testBit_get_big (by omega)
  rw [back, number, Nat.testBit_mod_two_pow] at bit
  rw [← bit]
  simp [show 8 * k - 1 - i < 8 * k by omega]

/-! ## Fields -/

/-- The number in the `n` bits from bit `start` on. -/
def bitField (bs : Bytes) (start n : Nat) : Nat :=
  Endian.big.get bs >>> (8 * bs.length - start - n) % 2 ^ n

theorem bitField_lt (bs : Bytes) (start n : Nat) : bitField bs start n < 2 ^ n :=
  Nat.mod_lt _ (Nat.two_pow_pos n)

theorem testBit_bitField {bs : Bytes} {start n j : Nat} (h : start + n ≤ 8 * bs.length)
    (hj : j < n) : (bitField bs start n).testBit j = bitAt bs (start + (n - 1 - j)) := by
  have back : 8 * bs.length - 1 - (8 * bs.length - start - n + j) = start + (n - 1 - j) := by
    omega
  rw [bitField, Nat.testBit_mod_two_pow, Nat.testBit_shiftRight, testBit_get_big (by omega), back]
  simp [hj]

/-- Fields are equal when their bits are. -/
theorem bitField_eq_iff {a b : Bytes} {start n : Nat} (ha : start + n ≤ 8 * a.length)
    (hb : start + n ≤ 8 * b.length) :
    bitField a start n = bitField b start n ↔
      ∀ i < n, bitAt a (start + i) = bitAt b (start + i) := by
  constructor
  · intro same i hi
    have back : n - 1 - (n - 1 - i) = i := by omega
    have bit := congrArg (fun x => x.testBit (n - 1 - i)) same
    rwa [testBit_bitField ha (by omega), testBit_bitField hb (by omega), back] at bit
  · intro same
    apply Nat.eq_of_testBit_eq
    intro j
    by_cases hj : j < n
    · rw [testBit_bitField ha hj, testBit_bitField hb hj]
      exact same _ (by omega)
    · have high (bs : Bytes) : (bitField bs start n).testBit j = false :=
        Nat.testBit_lt_two_pow (Nat.lt_of_lt_of_le (bitField_lt bs start n)
          (Nat.pow_le_pow_right (by decide) (Nat.le_of_not_lt hj)))
      rw [high, high]

end UolaOs
