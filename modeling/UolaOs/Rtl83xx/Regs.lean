import UolaOs.Rtl83xx.Family
import Mathlib.Logic.Function.Basic

/-!
# Port registers by address

The accessors of common.c for registers with a bit for each port, which are a word on the RTL838x
and two words on the RTL839x, the higher ports first.
-/

namespace UolaOs.Rtl83xx

/-- The registers of the switch. -/
abbrev Regs := Nat → BitVec 32

/-- `sw_w32` -/
def swW32 (val : BitVec 32) (reg : Nat) (r : Regs) : Regs := Function.update r reg val

/-- `sw_w32_mask` -/
def swW32Mask (clear set : BitVec 32) (reg : Nat) (r : Regs) : Regs :=
  swW32 ((r reg &&& ~~~ clear) ||| set) reg r

/-- `priv->port_width` -/
def Family.portWidth : Family → Nat
  | .rtl8380 => 1
  | .rtl8390 => 2

/-- `priv->r->mask_port_reg_be` -/
def maskPortRegBe (fam : Family) (clear set : BitVec 64) (reg : Nat) (r : Regs) : Regs :=
  match fam with
  | .rtl8380 => swW32Mask (clear.setWidth 32) (set.setWidth 32) reg r
  | .rtl8390 =>
    swW32Mask (clear.setWidth 32) (set.setWidth 32) (reg + 4)
      (swW32Mask ((clear >>> 32).setWidth 32) ((set >>> 32).setWidth 32) reg r)

/-- `priv->r->get_port_reg_be` -/
def getPortRegBe (fam : Family) (reg : Nat) (r : Regs) : BitVec 64 :=
  match fam with
  | .rtl8380 => (r reg).setWidth 64
  | .rtl8390 => ((r reg).setWidth 64 <<< 32) ||| (r (reg + 4)).setWidth 64

/-- The words of two port registers do not overlap. -/
def Apart (fam : Family) (a b : Nat) : Prop :=
  a + 4 * fam.portWidth ≤ b ∨ b + 4 * fam.portWidth ≤ a

section
variable {fam : Family} {r : Regs} {a b reg j : Nat} {v clear set : BitVec 32} {c m : BitVec 64}

theorem swW32_of_ne (h : a ≠ reg) : swW32 v reg r a = r a := Function.update_of_ne h ..

theorem swW32_self : swW32 v reg r reg = v := Function.update_self ..

theorem mem_swW32Mask : j ∈ swW32Mask clear set reg r reg ↔ (j ∈ r reg ∧ j ∉ clear) ∨ j ∈ set := by
  rw [swW32Mask, swW32_self, mem_or, mem_and_not]

theorem swW32Mask_of_ne (h : a ≠ reg) : swW32Mask clear set reg r a = r a := swW32_of_ne h

theorem mem_high : j ∈ (c >>> 32).setWidth 32 ↔ j < 32 ∧ j + 32 ∈ c := by
  rw [mem_setWidth, mem_mask, BitVec.getLsbD_ushiftRight, Nat.add_comm, mem_mask]

/-- Where the bit of a port is. -/
theorem mem_getPortRegBe : j ∈ getPortRegBe fam reg r ↔
    match fam with
    | .rtl8380 => j ∈ r reg
    | .rtl8390 => j ∈ r (reg + 4) ∨ 32 ≤ j ∧ j - 32 ∈ r reg := by
  cases fam with
  | rtl8380 =>
    rw [getPortRegBe, mem_setWidth]
    refine and_iff_right_of_imp fun h => ?_
    have hlt := lt_of_mem_mask h
    omega
  | rtl8390 =>
    have hshift : j ∈ (r reg).setWidth 64 <<< 32 ↔ 32 ≤ j ∧ j - 32 ∈ r reg := by
      rw [mem_mask, BitVec.getLsbD_shiftLeft, Bool.and_eq_true, Bool.and_eq_true, decide_eq_true_eq,
        Bool.not_eq_true', decide_eq_false_iff_not, ← mem_mask, mem_setWidth]
      constructor
      · rintro ⟨⟨-, h⟩, -, hj⟩
        exact ⟨Nat.not_lt.mp h, hj⟩
      · rintro ⟨h, hj⟩
        have hlt := lt_of_mem_mask hj
        exact ⟨⟨by omega, by omega⟩, by omega, hj⟩
    have hlow : j ∈ (r (reg + 4)).setWidth 64 ↔ j ∈ r (reg + 4) := by
      rw [mem_setWidth]
      refine and_iff_right_of_imp fun h => ?_
      have hlt := lt_of_mem_mask h
      omega
    rw [getPortRegBe, mem_or, hshift, hlow, or_comm]

theorem cpuPort_lt_bits (fam : Family) : fam.cpuPort < 32 * fam.portWidth := by
  cases fam <;> decide

theorem bits_le (fam : Family) : 32 * fam.portWidth ≤ 64 := by cases fam <;> decide

theorem lt_bits_of_mem (h : j ∈ getPortRegBe fam reg r) : j < 32 * fam.portWidth := by
  rw [mem_getPortRegBe] at h
  cases fam with
  | rtl8380 => exact lt_of_mem_mask h
  | rtl8390 =>
    rw [Family.portWidth]
    rcases h with h | ⟨hle, h⟩
    · have hlt := lt_of_mem_mask h
      omega
    · have hlt := lt_of_mem_mask h
      omega

/-- Setting and clearing the bits of ports. -/
theorem mem_maskPortRegBe (hj : j < 32 * fam.portWidth) :
    j ∈ getPortRegBe fam reg (maskPortRegBe fam c m reg r) ↔
      (j ∈ getPortRegBe fam reg r ∧ j ∉ c) ∨ j ∈ m := by
  rw [mem_getPortRegBe, mem_getPortRegBe]
  cases fam with
  | rtl8380 =>
    have hlow : j < 32 := hj
    show j ∈ swW32Mask _ _ reg r reg ↔ _
    rw [mem_swW32Mask, mem_setWidth, mem_setWidth, and_iff_right hlow, and_iff_right hlow]
  | rtl8390 =>
    have hne : reg ≠ reg + 4 := by omega
    show j ∈ swW32Mask _ _ (reg + 4) _ (reg + 4) ∨ 32 ≤ j ∧ j - 32 ∈ swW32Mask _ _ (reg + 4) _ reg ↔
      _
    rw [mem_swW32Mask, swW32Mask_of_ne hne, mem_swW32Mask, swW32Mask_of_ne hne.symm, mem_setWidth,
      mem_setWidth, mem_high, mem_high]
    by_cases hlow : j < 32
    · have hnot : ¬ 32 ≤ j := Nat.not_le.mpr hlow
      simp only [hlow, hnot, true_and, false_and, or_false]
    · have hhigh : 32 ≤ j := Nat.not_lt.mp hlow
      have hcpu : j < 64 := hj
      have hsub : j - 32 < 32 := by omega
      have hout : j ∉ r (reg + 4) := fun h => hlow (lt_of_mem_mask h)
      simp only [hlow, hhigh, hsub, hout, true_and, false_and, or_false, false_or,
        Nat.sub_add_cancel hhigh]

/-- A register apart from the one that is written. -/
theorem getPortRegBe_congr {r' : Regs} (h : ∀ k < 4 * fam.portWidth, r' (reg + k) = r (reg + k)) :
    getPortRegBe fam reg r' = getPortRegBe fam reg r := by
  cases fam with
  | rtl8380 =>
    rw [getPortRegBe, getPortRegBe]
    exact congrArg _ (h 0 (by decide))
  | rtl8390 =>
    have h₀ : r' reg = r reg := h 0 (by decide)
    rw [getPortRegBe, getPortRegBe, h 4 (by decide), h₀]

/-- The word that is read first has all ports of an RTL838x, and the ports from 32 on of an
RTL839x. -/
theorem first_word_eq_zero_iff :
    r reg = 0 ↔ ∀ j ∈ getPortRegBe fam reg r, fam = .rtl8390 ∧ j < 32 := by
  rw [mask_eq_zero_iff]
  simp only [mem_getPortRegBe]
  cases fam with
  | rtl8380 => exact ⟨fun h j hj => absurd hj (h j), fun h j hj => absurd (h j hj).1 (by decide)⟩
  | rtl8390 =>
    constructor
    · rintro h j (hj | hj)
      · exact ⟨rfl, lt_of_mem_mask hj⟩
      · exact absurd hj.2 (h _)
    · intro h j hj
      have hmem : j + 32 - 32 ∈ r reg := by rwa [Nat.add_sub_cancel]
      have hlt := (h (j + 32) (.inr ⟨Nat.le_add_left _ _, hmem⟩)).2
      omega

theorem maskPortRegBe_of_ne (h : b < a ∨ a + 4 * fam.portWidth ≤ b) :
    maskPortRegBe fam c m a r b = r b := by
  cases fam with
  | rtl8380 =>
    have hne : b ≠ a := by
      rw [Family.portWidth] at h
      omega
    exact swW32Mask_of_ne hne
  | rtl8390 =>
    have hne : b ≠ a ∧ b ≠ a + 4 := by
      rw [Family.portWidth] at h
      omega
    exact (swW32Mask_of_ne hne.2).trans (swW32Mask_of_ne hne.1)

theorem getPortRegBe_of_apart (h : Apart fam a b) :
    getPortRegBe fam b (maskPortRegBe fam c m a r) = getPortRegBe fam b r := by
  refine getPortRegBe_congr fun k hk => maskPortRegBe_of_ne ?_
  rw [Apart] at h
  omega

end

end UolaOs.Rtl83xx
