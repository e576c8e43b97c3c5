import UolaOs.Lib.Bytes

/-!
# A flash area as bytes

Erasing sets the bits of a range, and programming clears bits.

* `programAt_blank`: what is programmed into an erased range is found there;
* `programAt_eraseAt`: a range that is erased and programmed is overwritten;
* `poke_load`, `poke_load_of_agree`: a block that is read, changed and written back;
* `and_clearLow`: where the block of an address starts.
-/

namespace UolaOs

/-- Erase `n` bytes at `off`. -/
def eraseAt (m : Bytes) (off n : Nat) : Bytes := poke m off (List.replicate n 0xff)

/-- Program `bs` at `off`. -/
def programAt (m : Bytes) (off : Nat) (bs : Bytes) : Bytes :=
  poke m off (List.zipWith (· &&& ·) (load m off bs.length) bs)

section
variable {m bs : Bytes} {off n : Nat}

@[simp] theorem length_eraseAt (m : Bytes) (off n : Nat) : (eraseAt m off n).length = m.length :=
  length_poke _ _ _

@[simp] theorem length_programAt (m : Bytes) (off : Nat) (bs : Bytes) :
    (programAt m off bs).length = m.length :=
  length_poke _ _ _

theorem zipWith_and_blank (bs : Bytes) :
    List.zipWith (· &&& ·) (List.replicate bs.length 0xff) bs = bs := by
  induction bs with
  | nil => rfl
  | cons b bs ih =>
    have hand : 0xff &&& b = b := UInt8.neg_one_and
    rw [List.length_cons, List.replicate_succ, List.zipWith_cons_cons, ih, hand]

theorem programAt_blank (h : load m off bs.length = List.replicate bs.length 0xff) :
    programAt m off bs = poke m off bs := by
  rw [programAt, h, zipWith_and_blank]

theorem load_eraseAt (h : off + n ≤ m.length) :
    load (eraseAt m off n) off n = List.replicate n 0xff := by
  have hfit : off + (List.replicate n (0xff : UInt8)).length ≤ m.length := by
    rwa [List.length_replicate]
  have hself := load_poke_self hfit
  rwa [List.length_replicate] at hself

/-- Storing over what was stored. -/
theorem poke_poke {as : Bytes} (h : off + bs.length ≤ m.length) (hlen : as.length = bs.length) :
    poke (poke m off as) off bs = poke m off bs := by
  apply List.ext_getElem?
  intro i
  rw [getElem?_poke (by rwa [length_poke]), getElem?_poke h, getElem?_poke (by rwa [hlen])]
  split
  · rfl
  · rw [if_neg (by omega)]

theorem programAt_eraseAt (h : off + bs.length ≤ m.length) :
    programAt (eraseAt m off bs.length) off bs = poke m off bs := by
  rw [programAt_blank (load_eraseAt h), eraseAt, poke_poke h List.length_replicate]

end

/-! ## Changing a copy of a block -/

section
variable {m m' bs : Bytes} {off n p : Nat}

theorem poke_load (hp : p + bs.length ≤ n) (h : off + n ≤ m.length) :
    poke (load m off n) p bs = load (poke m (off + p) bs) off n := by
  apply List.ext_getElem?
  intro i
  rw [getElem?_poke (by rwa [length_load h]), load, load, List.getElem?_take, List.getElem?_take,
    List.getElem?_drop, List.getElem?_drop, getElem?_poke (by omega)]
  by_cases hi : p ≤ i ∧ i < p + bs.length
  · rw [if_pos hi, if_pos (by omega), if_pos (by omega), Nat.add_sub_add_left]
  · have hout : ¬ (off + p ≤ off + i ∧ off + i < off + p + bs.length) := by omega
    rw [if_neg hi, if_neg hout]

/-- Writing back a block of `m'`, which is the same as `m` outside of it. -/
theorem poke_load_of_agree (h : off + n ≤ m.length) (hlen : m'.length = m.length)
    (hagree : ∀ i, ¬ (off ≤ i ∧ i < off + n) → m'[i]? = m[i]?) :
    poke m off (load m' off n) = m' := by
  have hload : (load m' off n).length = n := length_load (by omega)
  apply List.ext_getElem?
  intro i
  rw [getElem?_poke (by omega), hload]
  split
  · rename_i hi
    exact getElem?_load hi.1 hi.2 m'
  · rename_i hi
    exact (hagree i hi).symm

end

/-! ## Operations -/

inductive FlashOp where
  | erase (off n : Nat)
  | program (off : Nat) (bs : Bytes)
  deriving DecidableEq

def FlashOp.apply (m : Bytes) : FlashOp → Bytes
  | .erase off n => eraseAt m off n
  | .program off bs => programAt m off bs

/-! ## Blocks -/

/-- Clearing the low `k` bits of a word of `w` bits. -/
theorem and_clearLow {x w k : Nat} (hx : x < 2 ^ w) (hk : k ≤ w) :
    x &&& (2 ^ w - 2 ^ k) = x / 2 ^ k * 2 ^ k := by
  have hmask : 2 ^ w - 2 ^ k = (2 ^ (w - k) - 1) <<< k := by
    rw [Nat.shiftLeft_eq, Nat.sub_mul, ← Nat.pow_add, Nat.sub_add_cancel hk, Nat.one_mul]
  rw [hmask, ← Nat.shiftRight_eq_div_pow, ← Nat.shiftLeft_eq]
  refine Nat.eq_of_testBit_eq fun i => ?_
  rw [Nat.testBit_and, Nat.testBit_shiftLeft, Nat.testBit_shiftLeft, Nat.testBit_two_pow_sub_one,
    Nat.testBit_shiftRight]
  by_cases hi : k ≤ i
  · have hback : k + (i - k) = i := by omega
    by_cases hiw : i < w
    · have hlt : i - k < w - k := by omega
      simp [hi, hlt, hback]
    · have hhigh : x.testBit i = false :=
        Nat.testBit_lt_two_pow (Nat.lt_of_lt_of_le hx (Nat.pow_le_pow_right (by decide) (by omega)))
      simp [hi, hback, hhigh]
  · simp [hi]

end UolaOs
