import UolaOs.Lib.File

/-!
# CRC-32

* `crc32`: the table-driven loop that package/system/mtd/src/crc32.h and tools/firmware-utils's
  otrx share, over their common table;
* `crcShift`: one bit of the polynomial division the table is computed from;
* `crc32_eq_remainder`: the loop computes the remainder bit by bit;
* `crc32_middle`: what images that differ in one place have to agree on for the same CRC.
-/

namespace UolaOs

def crc32Table : List UInt32 :=
  [0x00000000, 0x77073096, 0xee0e612c, 0x990951ba, 0x076dc419, 0x706af48f, 0xe963a535, 0x9e6495a3,
   0x0edb8832, 0x79dcb8a4, 0xe0d5e91e, 0x97d2d988, 0x09b64c2b, 0x7eb17cbd, 0xe7b82d07, 0x90bf1d91,
   0x1db71064, 0x6ab020f2, 0xf3b97148, 0x84be41de, 0x1adad47d, 0x6ddde4eb, 0xf4d4b551, 0x83d385c7,
   0x136c9856, 0x646ba8c0, 0xfd62f97a, 0x8a65c9ec, 0x14015c4f, 0x63066cd9, 0xfa0f3d63, 0x8d080df5,
   0x3b6e20c8, 0x4c69105e, 0xd56041e4, 0xa2677172, 0x3c03e4d1, 0x4b04d447, 0xd20d85fd, 0xa50ab56b,
   0x35b5a8fa, 0x42b2986c, 0xdbbbc9d6, 0xacbcf940, 0x32d86ce3, 0x45df5c75, 0xdcd60dcf, 0xabd13d59,
   0x26d930ac, 0x51de003a, 0xc8d75180, 0xbfd06116, 0x21b4f4b5, 0x56b3c423, 0xcfba9599, 0xb8bda50f,
   0x2802b89e, 0x5f058808, 0xc60cd9b2, 0xb10be924, 0x2f6f7c87, 0x58684c11, 0xc1611dab, 0xb6662d3d,
   0x76dc4190, 0x01db7106, 0x98d220bc, 0xefd5102a, 0x71b18589, 0x06b6b51f, 0x9fbfe4a5, 0xe8b8d433,
   0x7807c9a2, 0x0f00f934, 0x9609a88e, 0xe10e9818, 0x7f6a0dbb, 0x086d3d2d, 0x91646c97, 0xe6635c01,
   0x6b6b51f4, 0x1c6c6162, 0x856530d8, 0xf262004e, 0x6c0695ed, 0x1b01a57b, 0x8208f4c1, 0xf50fc457,
   0x65b0d9c6, 0x12b7e950, 0x8bbeb8ea, 0xfcb9887c, 0x62dd1ddf, 0x15da2d49, 0x8cd37cf3, 0xfbd44c65,
   0x4db26158, 0x3ab551ce, 0xa3bc0074, 0xd4bb30e2, 0x4adfa541, 0x3dd895d7, 0xa4d1c46d, 0xd3d6f4fb,
   0x4369e96a, 0x346ed9fc, 0xad678846, 0xda60b8d0, 0x44042d73, 0x33031de5, 0xaa0a4c5f, 0xdd0d7cc9,
   0x5005713c, 0x270241aa, 0xbe0b1010, 0xc90c2086, 0x5768b525, 0x206f85b3, 0xb966d409, 0xce61e49f,
   0x5edef90e, 0x29d9c998, 0xb0d09822, 0xc7d7a8b4, 0x59b33d17, 0x2eb40d81, 0xb7bd5c3b, 0xc0ba6cad,
   0xedb88320, 0x9abfb3b6, 0x03b6e20c, 0x74b1d29a, 0xead54739, 0x9dd277af, 0x04db2615, 0x73dc1683,
   0xe3630b12, 0x94643b84, 0x0d6d6a3e, 0x7a6a5aa8, 0xe40ecf0b, 0x9309ff9d, 0x0a00ae27, 0x7d079eb1,
   0xf00f9344, 0x8708a3d2, 0x1e01f268, 0x6906c2fe, 0xf762575d, 0x806567cb, 0x196c3671, 0x6e6b06e7,
   0xfed41b76, 0x89d32be0, 0x10da7a5a, 0x67dd4acc, 0xf9b9df6f, 0x8ebeeff9, 0x17b7be43, 0x60b08ed5,
   0xd6d6a3e8, 0xa1d1937e, 0x38d8c2c4, 0x4fdff252, 0xd1bb67f1, 0xa6bc5767, 0x3fb506dd, 0x48b2364b,
   0xd80d2bda, 0xaf0a1b4c, 0x36034af6, 0x41047a60, 0xdf60efc3, 0xa867df55, 0x316e8eef, 0x4669be79,
   0xcb61b38c, 0xbc66831a, 0x256fd2a0, 0x5268e236, 0xcc0c7795, 0xbb0b4703, 0x220216b9, 0x5505262f,
   0xc5ba3bbe, 0xb2bd0b28, 0x2bb45a92, 0x5cb36a04, 0xc2d7ffa7, 0xb5d0cf31, 0x2cd99e8b, 0x5bdeae1d,
   0x9b64c2b0, 0xec63f226, 0x756aa39c, 0x026d930a, 0x9c0906a9, 0xeb0e363f, 0x72076785, 0x05005713,
   0x95bf4a82, 0xe2b87a14, 0x7bb12bae, 0x0cb61b38, 0x92d28e9b, 0xe5d5be0d, 0x7cdcefb7, 0x0bdbdf21,
   0x86d3d2d4, 0xf1d4e242, 0x68ddb3f8, 0x1fda836e, 0x81be16cd, 0xf6b9265b, 0x6fb077e1, 0x18b74777,
   0x88085ae6, 0xff0f6a70, 0x66063bca, 0x11010b5c, 0x8f659eff, 0xf862ae69, 0x616bffd3, 0x166ccf45,
   0xa00ae278, 0xd70dd2ee, 0x4e048354, 0x3903b3c2, 0xa7672661, 0xd06016f7, 0x4969474d, 0x3e6e77db,
   0xaed16a4a, 0xd9d65adc, 0x40df0b66, 0x37d83bf0, 0xa9bcae53, 0xdebb9ec5, 0x47b2cf7f, 0x30b5ffe9,
   0xbdbdf21c, 0xcabac28a, 0x53b39330, 0x24b4a3a6, 0xbad03605, 0xcdd70693, 0x54de5729, 0x23d967bf,
   0xb3667a2e, 0xc4614ab8, 0x5d681b02, 0x2a6f2b94, 0xb40bbe37, 0xc30c8ea1, 0x5a05df1b, 0x2d02ef8d]

/-- One round of the loop. -/
def crcByte (val : UInt32) (b : UInt8) : UInt32 :=
  crc32Table.getD ((val ^^^ b.toUInt32) &&& 0xff).toNat 0 ^^^ (val >>> 8)

def crc32 (val : UInt32) (buf : Bytes) : UInt32 := buf.foldl crcByte val

@[simp] theorem crc32_nil (val : UInt32) : crc32 val [] = val := rfl

theorem crc32_append (val : UInt32) (a b : Bytes) :
    crc32 val (a ++ b) = crc32 (crc32 val a) b := List.foldl_append

/-- The CRC of a file that is read a buffer at a time. -/
theorem copyChunks_crc32 {size : Nat} (hsize : 0 < size) (val : UInt32) (bs : Bytes) :
    copyChunks size crc32 val bs = crc32 val bs :=
  copyChunks_eq hsize crc32_nil (fun s a b => (crc32_append s a b).symm) val bs

/-! ## The remainder -/

/-- One step of the division by the reflected polynomial. -/
def crcShift (v : BitVec 32) : BitVec 32 :=
  if v.getLsbD 0 then (v >>> 1) ^^^ 0xedb88320#32 else v >>> 1

def crcShifts : Nat → BitVec 32 → BitVec 32
  | 0, v => v
  | n + 1, v => crcShift (crcShifts n v)

/-- The remainder after the bytes of `buf`, each taken eight steps. -/
def remainder (val : BitVec 32) (buf : Bytes) : BitVec 32 :=
  buf.foldl (fun v b => crcShifts 8 (v ^^^ b.toBitVec.setWidth 32)) val

theorem crcShift_xor (a b : BitVec 32) : crcShift (a ^^^ b) = crcShift a ^^^ crcShift b := by
  have cancel (x y p : BitVec 32) : x ^^^ p ^^^ (y ^^^ p) = x ^^^ y := by
    rw [BitVec.xor_assoc, BitVec.xor_comm y p, ← BitVec.xor_assoc p p y, BitVec.xor_self,
      BitVec.zero_xor]
  unfold crcShift
  simp only [BitVec.getLsbD_xor, BitVec.ushiftRight_xor_distrib]
  cases a.getLsbD 0 <;> cases b.getLsbD 0
  · simp
  · simp [BitVec.xor_assoc]
  · simp only [Bool.xor_false, Bool.false_eq_true, if_true, if_false]
    rw [BitVec.xor_assoc, BitVec.xor_comm (b >>> 1), ← BitVec.xor_assoc]
  · simp [cancel]

theorem crcShifts_xor (n : Nat) (a b : BitVec 32) :
    crcShifts n (a ^^^ b) = crcShifts n a ^^^ crcShifts n b := by
  induction n with
  | zero => rfl
  | succ n ih => simp only [crcShifts, ih, crcShift_xor]

/-- While only zeros are shifted out, the steps are a plain shift. -/
theorem crcShifts_of_clear {v : BitVec 32} (n : Nat) (h : ∀ i < n, v.getLsbD i = false) :
    crcShifts n v = v >>> n := by
  induction n with
  | zero => simp [crcShifts]
  | succ n ih =>
    have low : (v >>> n).getLsbD 0 = false := by simpa using h n (by omega)
    rw [crcShifts, ih fun i hi => h i (by omega), crcShift, low]
    simp [BitVec.shiftRight_add]

theorem map_crc32Table : crc32Table.map UInt32.toBitVec =
    (List.range 256).map fun i => crcShifts 8 (BitVec.ofNat 32 i) := by
  decide +kernel

theorem crc32Table_eq (i : Fin 256) :
    (crc32Table.getD i 0).toBitVec = crcShifts 8 (BitVec.ofNat 32 i) := by
  have hentry := congrArg (fun t => t[(i : Nat)]?) map_crc32Table
  rw [List.getElem?_map, List.getElem?_map, List.getElem?_range i.isLt] at hentry
  rw [List.getD_eq_getElem?_getD]
  cases hget : crc32Table[(i : Nat)]? with
  | none => simp [hget] at hentry
  | some v => simpa [hget] using hentry

theorem getLsbD_lowByte (i : Nat) : (0xff#32).getLsbD i = decide (i < 8) := by
  show ((BitVec.allOnes 8).setWidth 32).getLsbD i = _
  rw [BitVec.getLsbD_setWidth, BitVec.getLsbD_allOnes]
  simp
  omega

theorem crcByte_eq (val : UInt32) (b : UInt8) :
    (crcByte val b).toBitVec = crcShifts 8 (val.toBitVec ^^^ b.toBitVec.setWidth 32) := by
  generalize hx : val.toBitVec ^^^ b.toBitVec.setWidth 32 = x
  have hbits (i : Nat) : x.getLsbD i = (val.toBitVec.getLsbD i ^^ b.toBitVec.getLsbD i) := by
    rw [← hx, BitVec.getLsbD_xor, BitVec.getLsbD_setWidth]
    by_cases hi : i < 32
    · simp [hi]
    · simp [BitVec.getLsbD_of_ge b.toBitVec i (by omega),
        BitVec.getLsbD_of_ge _ i (Nat.le_of_not_lt hi)]
  -- the index takes the low byte, the shift keeps the rest
  have hlow : (crc32Table.getD ((val ^^^ b.toUInt32) &&& 0xff).toNat 0).toBitVec =
      crcShifts 8 (x &&& 0xff#32) := by
    have hidx : ((val ^^^ b.toUInt32) &&& 0xff).toNat = (x &&& 0xff#32).toNat := by
      rw [← hx]
      rfl
    have hlt : (x &&& 0xff#32).toNat < 256 := by
      rw [BitVec.toNat_and]
      exact Nat.lt_of_le_of_lt Nat.and_le_right (by decide)
    have := crc32Table_eq ⟨_, hlt⟩
    rw [hidx, this, BitVec.ofNat_toNat, BitVec.setWidth_eq]
  have hhigh : crcShifts 8 (x &&& ~~~0xff#32) = val.toBitVec >>> 8 := by
    have clear : ∀ i < 8, (x &&& ~~~0xff#32).getLsbD i = false := by
      intro i hi
      rw [BitVec.getLsbD_and, BitVec.getLsbD_not, getLsbD_lowByte, decide_eq_true hi]
      simp
    rw [crcShifts_of_clear 8 clear]
    apply BitVec.eq_of_getLsbD_eq
    intro i hi
    simp only [BitVec.getLsbD_ushiftRight, BitVec.getLsbD_and, BitVec.getLsbD_not,
      getLsbD_lowByte, hbits, BitVec.getLsbD_of_ge b.toBitVec (8 + i) (by omega), Bool.xor_false]
    by_cases h : 8 + i < 32
    · simp [h]
    · simp [BitVec.getLsbD_of_ge val.toBitVec (8 + i) (by omega)]
  have hsplit : x = (x &&& 0xff#32) ^^^ (x &&& ~~~0xff#32) := by
    apply BitVec.eq_of_getLsbD_eq
    intro i hi
    simp only [BitVec.getLsbD_xor, BitVec.getLsbD_and, BitVec.getLsbD_not, hi]
    cases x.getLsbD i <;> cases (0xff#32).getLsbD i <;> rfl
  rw [crcByte, UInt32.toBitVec_xor, hlow, UInt32.toBitVec_shiftRight]
  conv_rhs => rw [hsplit, crcShifts_xor, hhigh]
  rfl

theorem crc32_eq_remainder (val : UInt32) (buf : Bytes) :
    (crc32 val buf).toBitVec = remainder val.toBitVec buf := by
  induction buf generalizing val with
  | nil => rfl
  | cons b buf ih =>
    rw [crc32, List.foldl_cons, ← crc32, ih, crcByte_eq]
    rfl

theorem crcShifts_add (m n : Nat) (v : BitVec 32) :
    crcShifts (m + n) v = crcShifts m (crcShifts n v) := by
  induction m with
  | zero => rw [Nat.zero_add]; rfl
  | succ m ih => rw [Nat.succ_add, crcShifts, ih, crcShifts]

/-- The bytes of a number, the lowest first, are taken as if they were in the register. -/
theorem remainder_leBytes {k n : Nat} (hn : n < 256 ^ k) (hk : k ≤ 4) (v : BitVec 32) :
    remainder v (leBytes k n) = crcShifts (8 * k) (v ^^^ BitVec.ofNat 32 n) := by
  induction k generalizing v n with
  | zero =>
    rw [Nat.pow_zero, Nat.lt_one_iff] at hn
    rw [hn]
    exact (BitVec.xor_zero).symm
  | succ k ih =>
    have hhigh : n / 256 < 256 ^ k := by
      rw [Nat.pow_succ] at hn
      exact Nat.div_lt_of_lt_mul (by rw [Nat.mul_comm]; exact hn)
    have h24 : n / 256 < 2 ^ 24 := hhigh.trans_le
      ((Nat.pow_le_pow_right (by decide) (by omega : k ≤ 3)).trans (by decide))
    have hlow : (UInt8.ofNat n).toBitVec.setWidth 32 = BitVec.ofNat 32 (n % 256) := by
      apply BitVec.eq_of_toNat_eq
      rw [BitVec.toNat_setWidth, BitVec.toNat_ofNat]
      exact congrArg (· % 2 ^ 32) UInt8.toNat_ofNat'
    have hsplit : BitVec.ofNat 32 n =
        BitVec.ofNat 32 (n % 256) ^^^ (BitVec.ofNat 32 (n / 256)) <<< 8 := by
      apply BitVec.eq_of_getLsbD_eq
      intro i hi
      have hmod : (n % 256).testBit i = (decide (i < 8) && n.testBit i) :=
        Nat.testBit_mod_two_pow n 8 i
      have hdiv (j : Nat) : (n / 256).testBit j = n.testBit (8 + j) := by
        rw [show n / 256 = n >>> 8 from (Nat.shiftRight_eq_div_pow n 8).symm,
          Nat.testBit_shiftRight]
      simp only [BitVec.getLsbD_xor, BitVec.getLsbD_shiftLeft, BitVec.getLsbD_ofNat, hmod, hdiv, hi,
        decide_true, Bool.true_and]
      by_cases h8 : i < 8
      · simp [h8]
      · have hback : 8 + (i - 8) = i := by omega
        have hlt : i - 8 < 32 := by omega
        simp [h8, hback, hlt]
    have hclear : ∀ i < 8, ((BitVec.ofNat 32 (n / 256)) <<< 8).getLsbD i = false := by
      intro i hi
      simp [BitVec.getLsbD_shiftLeft, hi]
    have hback : ((BitVec.ofNat 32 (n / 256)) <<< 8) >>> 8 = BitVec.ofNat 32 (n / 256) := by
      apply BitVec.eq_of_toNat_eq
      rw [BitVec.toNat_ushiftRight, BitVec.toNat_shiftLeft, BitVec.toNat_ofNat, Nat.shiftLeft_eq,
        Nat.shiftRight_eq_div_pow, Nat.mod_eq_of_lt (by omega : n / 256 < 2 ^ 32),
        Nat.mod_eq_of_lt (by omega), Nat.mul_div_cancel _ (by decide)]
    rw [leBytes, remainder, List.foldl_cons, ← remainder, ih hhigh (by omega), hlow, hsplit,
      Nat.mul_succ, crcShifts_add (8 * k) 8, ← BitVec.xor_assoc,
      crcShifts_xor 8 _ (BitVec.ofNat 32 (n / 256) <<< 8), crcShifts_of_clear 8 hclear, hback]

/-! ## Images that differ in one place -/

theorem crcShift_injective {a b : BitVec 32} (h : crcShift a = crcShift b) : a = b := by
  -- the highest bit of the polynomial is set, and a shift leaves it clear
  have hlow (v : BitVec 32) : (crcShift v).getLsbD 31 = v.getLsbD 0 := by
    unfold crcShift
    cases hv : v.getLsbD 0 <;> simp [BitVec.getLsbD_of_ge]
  have hnext (v : BitVec 32) (i : Nat) :
      v.getLsbD (i + 1) = ((crcShift v).getLsbD i ^^ ((0xedb88320#32).getLsbD i && v.getLsbD 0)) := by
    unfold crcShift
    cases hv : v.getLsbD 0 <;> simp [Nat.add_comm]
  have h0 : a.getLsbD 0 = b.getLsbD 0 := by rw [← hlow, ← hlow, h]
  apply BitVec.eq_of_getLsbD_eq
  intro i hi
  cases i with
  | zero => exact h0
  | succ i => rw [hnext, hnext, h, h0]

theorem crcShifts_injective {n : Nat} {a b : BitVec 32} (h : crcShifts n a = crcShifts n b) :
    a = b := by
  induction n with
  | zero => exact h
  | succ n ih => exact ih (crcShift_injective h)

theorem crc32_injective {a b : UInt32} {bs : Bytes} (h : crc32 a bs = crc32 b bs) : a = b := by
  induction bs generalizing a b with
  | nil => exact h
  | cons x bs ih =>
    have hbyte := congrArg UInt32.toBitVec (ih (a := crcByte a x) (b := crcByte b x) h)
    rw [crcByte_eq, crcByte_eq] at hbyte
    exact UInt32.toBitVec_inj.mp ((BitVec.xor_left_inj _).mp (crcShifts_injective hbyte))

/-- The value at the start and the bytes do not mix. -/
theorem remainder_xor (a : BitVec 32) (bs : Bytes) :
    remainder a bs = remainder a (List.replicate bs.length 0) ^^^ remainder 0 bs := by
  have hlinear (a b : BitVec 32) : remainder (a ^^^ b) bs =
      remainder a (List.replicate bs.length 0) ^^^ remainder b bs := by
    induction bs generalizing a b with
    | nil => rfl
    | cons x bs ih =>
      have h0 : (UInt8.toBitVec 0).setWidth 32 = 0#32 := rfl
      simp only [remainder, List.length_cons, List.replicate_succ, List.foldl_cons] at ih ⊢
      rw [h0, BitVec.xor_zero, BitVec.xor_assoc, crcShifts_xor, ih]
  have h := hlinear a 0#32
  rw [BitVec.xor_zero] at h
  exact h

theorem crc32_middle {val : UInt32} {pre bs bs' post : Bytes} (hlen : bs.length = bs'.length) :
    crc32 val (pre ++ (bs ++ post)) = crc32 val (pre ++ (bs' ++ post)) ↔
      crc32 0 bs = crc32 0 bs' := by
  rw [crc32_append, crc32_append, crc32_append, crc32_append]
  generalize crc32 val pre = c
  have hmix (bs : Bytes) : (crc32 c bs).toBitVec =
      remainder c.toBitVec (List.replicate bs.length 0) ^^^ (crc32 0 bs).toBitVec := by
    rw [crc32_eq_remainder, crc32_eq_remainder]
    exact remainder_xor _ _
  constructor
  · intro h
    have h := congrArg UInt32.toBitVec (crc32_injective h)
    rw [hmix, hmix, hlen] at h
    exact UInt32.toBitVec_inj.mp ((BitVec.xor_right_inj _).mp h)
  · intro h
    congr 1
    apply UInt32.toBitVec_inj.mp
    rw [hmix, hmix, hlen, h]

end UolaOs
