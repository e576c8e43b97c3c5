import UolaOs.Lib.Mask

/-!
# The RTL838x and RTL839x families

What rtl83xx_sw_probe sets for a family, and the registers with a bit for each port.
-/

namespace UolaOs.Rtl83xx

/-- The families with `rtl83xx_switch_ops`. -/
inductive Family where
  | rtl8380
  | rtl8390
  deriving DecidableEq

/-- `RTL838X_CPU_PORT`, `RTL839X_CPU_PORT` -/
def Family.cpuPort : Family → Nat
  | .rtl8380 => 28
  | .rtl8390 => 52

/-- `ds->num_ports` -/
def Family.numPorts : Family → Nat
  | .rtl8380 => 29
  | .rtl8390 => 53

/-- What the port registers keep of a value; they have one word or two. -/
def Family.word : Family → BitVec 64 → BitVec 64
  | .rtl8380, v => (v.setWidth 32).setWidth 64
  | .rtl8390, v => v

/-- `BIT`, on a processor that shifts 32 bits by the low five bits of `n`. -/
def bit32 (n : Nat) : BitVec 64 := BitVec.twoPow 64 (n % 32)

/-- `BIT_ULL` -/
def bitULL (n : Nat) : BitVec 64 := BitVec.twoPow 64 n

section
variable {fam : Family} {v : BitVec 64} {n j : Nat}

theorem cpuPort_lt (fam : Family) : fam.cpuPort < 64 := by cases fam <;> decide

theorem numPorts_eq (fam : Family) : fam.numPorts = fam.cpuPort + 1 := by cases fam <;> rfl

/-- The registers have a bit for every port. -/
theorem mem_word (hj : j ≤ fam.cpuPort) : j ∈ fam.word v ↔ j ∈ v := by
  cases fam with
  | rtl8380 =>
    have hlow : j < 32 := Nat.lt_of_le_of_lt hj (by decide)
    have hhigh : j < 64 := Nat.lt_of_lt_of_le hlow (by decide)
    rw [mem_mask, Family.word, BitVec.getLsbD_setWidth, BitVec.getLsbD_setWidth,
      decide_eq_true hlow, decide_eq_true hhigh, Bool.true_and, Bool.true_and, mem_mask]
  | rtl8390 => exact Iff.rfl

theorem mem_bitULL (hn : n < 64) : j ∈ bitULL n ↔ j = n := by
  rw [bitULL, mem_twoPow, and_iff_left hn]

theorem mem_bit32 (hn : n < 32) : j ∈ bit32 n ↔ j = n := by
  rw [bit32, Nat.mod_eq_of_lt hn, mem_twoPow, and_iff_left (by omega)]

end

end UolaOs.Rtl83xx
