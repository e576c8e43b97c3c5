import Mathlib.Data.Nat.Bitwise

/-!
# Masks

A bit vector as the set of its bits. `BitVec.twoPow w i` is the mask of `i` alone, so
`||| twoPow w i` puts `i` into a mask and `&&& ~~~ twoPow w i` takes it out.
-/

namespace UolaOs

section
variable {w : Nat} {x y : BitVec w} {i j : Nat}

instance instMembershipMask : Membership Nat (BitVec w) := ⟨fun x i => x.getLsbD i = true⟩

theorem mem_mask : i ∈ x ↔ x.getLsbD i = true := Iff.rfl

instance instDecidableMemMask (i : Nat) (x : BitVec w) : Decidable (i ∈ x) := inferInstanceAs (Decidable (_ = _))

theorem lt_of_mem_mask (h : i ∈ x) : i < w := BitVec.lt_of_getLsbD h

theorem not_mem_zero : i ∉ (0 : BitVec w) := by
  rw [mem_mask, BitVec.ofNat_eq_ofNat, BitVec.getLsbD_zero]
  decide

theorem mem_twoPow : j ∈ BitVec.twoPow w i ↔ j = i ∧ i < w := by
  rw [mem_mask, BitVec.getLsbD_twoPow, Bool.and_eq_true, decide_eq_true_eq, decide_eq_true_eq]
  exact ⟨fun h => ⟨h.2.symm, h.2 ▸ h.1⟩, fun h => ⟨h.1 ▸ h.2, h.1.symm⟩⟩

@[simp] theorem mem_or : i ∈ x ||| y ↔ i ∈ x ∨ i ∈ y := by
  rw [mem_mask, BitVec.getLsbD_or, Bool.or_eq_true]
  exact Iff.rfl

@[simp] theorem mem_and : i ∈ x &&& y ↔ i ∈ x ∧ i ∈ y := by
  rw [mem_mask, BitVec.getLsbD_and, Bool.and_eq_true]
  exact Iff.rfl

theorem mem_not : i ∈ ~~~ x ↔ i < w ∧ i ∉ x := by
  rw [mem_mask, BitVec.getLsbD_not, Bool.and_eq_true, decide_eq_true_eq, Bool.not_eq_true',
    mem_mask,
    Bool.not_eq_true]

theorem mem_and_not : i ∈ x &&& ~~~ y ↔ i ∈ x ∧ i ∉ y := by
  rw [mem_and, mem_not]
  exact ⟨fun h => ⟨h.1, h.2.2⟩, fun h => ⟨h.1, lt_of_mem_mask h.1, h.2⟩⟩

theorem mem_setWidth {v : Nat} : i ∈ x.setWidth v ↔ i < v ∧ i ∈ x := by
  rw [mem_mask, BitVec.getLsbD_setWidth, Bool.and_eq_true, decide_eq_true_eq]
  exact Iff.rfl

theorem mem_allOnes : i ∈ BitVec.allOnes w ↔ i < w := by
  rw [mem_mask, BitVec.getLsbD_allOnes, decide_eq_true_eq]

theorem mem_shiftLeft {n : Nat} : i ∈ x <<< n ↔ n ≤ i ∧ i < w ∧ i - n ∈ x := by
  rw [mem_mask, BitVec.getLsbD_shiftLeft, Bool.and_eq_true, Bool.and_eq_true, decide_eq_true_eq,
    Bool.not_eq_true', decide_eq_false_iff_not, Nat.not_lt]
  exact ⟨fun h => ⟨h.1.2, h.1.1, h.2⟩, fun h => ⟨⟨h.2.1, h.1⟩, h.2.2⟩⟩

theorem mem_shiftRight {n : Nat} : i ∈ x >>> n ↔ n + i ∈ x := by
  rw [mem_mask, BitVec.getLsbD_ushiftRight]
  exact Iff.rfl

theorem mem_ofNat {n : Nat} : i ∈ BitVec.ofNat w n ↔ i < w ∧ n.testBit i = true := by
  rw [mem_mask, BitVec.getLsbD_ofNat, Bool.and_eq_true, decide_eq_true_eq]

theorem mem_ones {n : Nat} : i ∈ BitVec.ofNat w (2 ^ n - 1) ↔ i < w ∧ i < n := by
  rw [mem_mask, BitVec.getLsbD_ofNat, Bool.and_eq_true, decide_eq_true_eq,
    Nat.testBit_two_pow_sub_one, decide_eq_true_eq]

/-- Put in a number. -/
theorem mem_put (hi : i < w) : j ∈ x ||| BitVec.twoPow w i ↔ j ∈ x ∨ j = i := by
  rw [mem_or, mem_twoPow, and_iff_left hi]

/-- Take out a number. -/
theorem mem_drop : j ∈ x &&& ~~~ BitVec.twoPow w i ↔ j ∈ x ∧ j ≠ i := by
  rw [mem_and_not, mem_twoPow]
  refine and_congr_right fun hj => ?_
  exact ⟨fun h hji => h ⟨hji, hji ▸ lt_of_mem_mask hj⟩, fun h hji => h hji.1⟩

theorem mask_ext (h : ∀ i, i ∈ x ↔ i ∈ y) : x = y :=
  BitVec.eq_of_getLsbD_eq fun i _ => Bool.eq_iff_iff.mpr (h i)

theorem mask_eq_zero_iff : x = 0 ↔ ∀ i, i ∉ x :=
  ⟨fun h _ hi => not_mem_zero (h ▸ hi),
    fun h => mask_ext fun i => ⟨fun hi => absurd hi (h i), fun hi => absurd hi not_mem_zero⟩⟩

/-- The test of a bit. -/
theorem and_twoPow_ne_zero : x &&& BitVec.twoPow w i ≠ 0 ↔ i ∈ x := by
  rw [Ne, mask_eq_zero_iff, not_forall]
  constructor
  · rintro ⟨j, hj⟩
    rw [not_not, mem_and, mem_twoPow] at hj
    exact hj.2.1 ▸ hj.1
  · intro hi
    refine ⟨i, not_not.mpr ?_⟩
    rw [mem_and, mem_twoPow]
    exact ⟨hi, rfl, lt_of_mem_mask hi⟩

end

end UolaOs
