import UolaOs.Lib.Mask

/-!
# Table commands

A command has flags, and the index of a row in its low bits.
-/

namespace UolaOs.Rtl83xx

section
variable {flags low c : BitVec 32} {idx n : Nat}

/-- The flags of a command. -/
theorem command_flags (h : low &&& c = 0) :
    (flags ||| (BitVec.ofNat 32 idx &&& low)) &&& c = flags &&& c := by
  refine mask_ext fun i => ?_
  rw [mem_and, mem_or, mem_and, mem_and]
  constructor
  · rintro ⟨hflag | ⟨-, hlow⟩, hc⟩
    · exact ⟨hflag, hc⟩
    · exact absurd (mem_and.mpr ⟨hlow, hc⟩) (h ▸ not_mem_zero)
  · rintro ⟨hflag, hc⟩
    exact ⟨.inl hflag, hc⟩

/-- The row of a command. -/
theorem command_index (hlow : low.toNat = 2 ^ n - 1) (h : flags &&& low = 0) (hn : n ≤ 32)
    (hidx : idx < 2 ^ n) : ((flags ||| (BitVec.ofNat 32 idx &&& low)) &&& low).toNat = idx := by
  have hrow : (flags ||| (BitVec.ofNat 32 idx &&& low)) &&& low = BitVec.ofNat 32 idx &&& low := by
    refine mask_ext fun i => ?_
    rw [mem_and, mem_or, mem_and]
    constructor
    · rintro ⟨hflag | hin, hmem⟩
      · exact absurd (mem_and.mpr ⟨hflag, hmem⟩) (h ▸ not_mem_zero)
      · exact hin
    · rintro ⟨hin, hmem⟩
      exact ⟨.inr ⟨hin, hmem⟩, hmem⟩
  have hlt : idx < 2 ^ 32 := Nat.lt_of_lt_of_le hidx (Nat.pow_le_pow_right (by decide) hn)
  rw [hrow, BitVec.toNat_and, BitVec.toNat_ofNat, hlow, Nat.and_two_pow_sub_one_eq_mod,
    Nat.mod_eq_of_lt hlt, Nat.mod_eq_of_lt hidx]

/-- The flags of a command without the row. -/
theorem command_ushiftRight (hlow : low = BitVec.ofNat 32 (2 ^ n - 1)) :
    (flags ||| (BitVec.ofNat 32 idx &&& low)) >>> n = flags >>> n := by
  refine mask_ext fun i => ?_
  rw [mem_shiftRight, mem_shiftRight, mem_or, mem_and, hlow, mem_ones]
  refine or_iff_left fun h => ?_
  omega

end

end UolaOs.Rtl83xx
