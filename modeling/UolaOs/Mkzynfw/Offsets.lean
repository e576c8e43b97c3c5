import UolaOs.Lib.FlashArea
import UolaOs.Mkzynfw.Image

/-!
# Offsets of a ZyNOS image

The 32-bit offsets of mkzynfw.c against the number of bytes that are written.

* `toNat_align`, `align_zero`: what `ALIGN` does for a power of two, and for the default;
* `rawsData_end`: where the data end, however often the offset has wrapped.
-/

namespace UolaOs.Mkzynfw

section
variable {n k : Nat} {off x y : UInt32}

theorem align_div (hy : y.toNat = 2 ^ k) :
    (align x y).toNat = (x + (y - 1)).toNat / 2 ^ k * 2 ^ k := by
  have hlt : 2 ^ k < 2 ^ 32 := hy ▸ y.toNat_lt
  have hk : k ≤ 32 := Nat.le_of_lt ((Nat.pow_lt_pow_iff_right (by decide)).mp hlt)
  have hpos : 0 < 2 ^ k := Nat.two_pow_pos k
  have hone : (1 : UInt32).toNat = 1 := rfl
  have hpred : (y - 1).toNat = 2 ^ k - 1 := by
    rw [UInt32.toNat_sub, hy, hone]
    omega
  have hmask : (~~~ (y - 1)).toNat = 2 ^ 32 - 2 ^ k := by
    rw [UInt32.toNat_not, hpred]
    show 2 ^ 32 - 1 - (2 ^ k - 1) = _
    omega
  rw [align, UInt32.toNat_and, hmask, and_clearLow (UInt32.toNat_lt _) hk]

/-- Rounding up, as long as there is no carry. -/
theorem toNat_align (hy : y.toNat = 2 ^ k) (hx : x.toNat + 2 ^ k ≤ 2 ^ 32) :
    (align x y).toNat = roundUp x.toNat (2 ^ k) := by
  have hlt : 2 ^ k < 2 ^ 32 := hy ▸ y.toNat_lt
  have hpos : 0 < 2 ^ k := Nat.two_pow_pos k
  have hone : (1 : UInt32).toNat = 1 := rfl
  have hsum : (x + (y - 1)).toNat = x.toNat + (2 ^ k - 1) := by
    rw [UInt32.toNat_add, UInt32.toNat_sub, hy, hone]
    omega
  rw [align_div hy, hsum, roundUp]

/-- Without an alignment the next offset is the start of the flash. -/
theorem align_zero (x : UInt32) : align x 0 = 0 := by
  have hmask : ~~~ ((0 : UInt32) - 1) = 0 := by decide
  rw [align, hmask, UInt32.and_zero]

/-! ## What is written up to an offset -/

theorem ofNat_padBytes (hoff : UInt32.ofNat n = off) (y : UInt32) :
    UInt32.ofNat (n + (padBytes off y).length) = align off y := by
  rw [padBytes, List.length_replicate, UInt32.ofNat_add, UInt32.ofNat_toNat, hoff, add_sub_self]

theorem length_block_bytes (block : Block) : block.bytes.length = block.fileSize.toNat :=
  List.length_take_of_le (by
    rw [Block.fileSize, UInt32.toNat_ofNat']
    exact Nat.mod_le _ _)

theorem ofNat_block (hoff : UInt32.ofNat n = off) (block : Block) :
    UInt32.ofNat (n + block.bytes.length) = off + block.fileSize := by
  rw [length_block_bytes, UInt32.ofNat_add, UInt32.ofNat_toNat, hoff]

theorem length_mmapBuf (board : Board) (addr : UInt32) :
    (mmapBuf board addr).length = mmapDataSize := by
  rw [mmapBuf, length_poke, length_poke, List.length_replicate]

theorem ofNat_bootextData (board : Board) (block : Block) :
    UInt32.ofNat (board.romioOffs.toNat + hdrSize + (bootextData board block).length) =
      rawsStart board block := by
  have hstart : UInt32.ofNat (board.romioOffs.toNat + hdrSize) =
      board.romioOffs + UInt32.ofNat hdrSize := by
    rw [UInt32.ofNat_add, UInt32.ofNat_toNat]
  have hmap : UInt32.ofNat (board.romioOffs.toNat + hdrSize + block.bytes.length +
      (padBytes (bootextStop board block) 16).length) = mmapStart board block :=
    ofNat_padBytes (ofNat_block hstart block) 16
  rw [bootextData, List.length_append, List.length_append, List.length_append, length_mmapBuf,
    List.length_replicate, ← Nat.add_assoc, ← Nat.add_assoc, ← Nat.add_assoc, UInt32.ofNat_add,
    UInt32.ofNat_toNat, UInt32.ofNat_add, hmap]
  exact add_sub_self _ _

/-- The end of the data is a multiple of four. -/
theorem rawsData_end (hoff : UInt32.ofNat n = off) (raws : List Block) :
    4 ∣ n + (rawsData off raws).length := by
  induction raws generalizing n off with
  | nil =>
    have hend := congrArg UInt32.toNat (ofNat_padBytes hoff 4)
    have hfour : (4 : UInt32).toNat = 2 ^ 2 := rfl
    rw [UInt32.toNat_ofNat', align_div hfour] at hend
    rw [rawsData]
    omega
  | cons block raws ih =>
    have hnext := ofNat_block (ofNat_padBytes hoff block.align) block
    rw [rawsData, List.length_append, List.length_append, ← Nat.add_assoc, ← Nat.add_assoc]
    exact ih hnext

end

end UolaOs.Mkzynfw
