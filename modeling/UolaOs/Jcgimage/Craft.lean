import UolaOs.Lib.Crc32

/-!
# A checksum that is wanted

`craftcrc` of jcgimage.c, and its call for a uImage file, with a `size_t` of 64 bits.

* `crcShifts_craftPatch`: the patch takes the register to any value;
* `craftcrc_iff`: when the checksum is the one that is wanted, and when the buffer is there.
-/

namespace UolaOs.Jcgimage

/-! ## The tool -/

/-- `crc32` of zlib over the first bytes of a buffer, from its start value on. The length is an
`unsigned int`. -/
def zlibCrc (buf : Bytes) (len : Nat) : UInt32 := ~~~ crc32 0xffffffff (buf.take (len % 2 ^ 32))

/-- A round of the first loop of `craftcrc` on `patch` and `a`. -/
def craftRound (s : UInt32 × UInt32) : UInt32 × UInt32 :=
  let patch := if s.1 &&& 1 ≠ 0 then (s.1 >>> 1) ^^^ 0xedb88320 else s.1 >>> 1
  (if s.2 &&& 1 ≠ 0 then patch ^^^ 0x5b358fd3 else patch, s.2 >>> 1)

def craftRounds : Nat → UInt32 × UInt32 → UInt32 × UInt32
  | 0, s => s
  | n + 1, s => craftRound (craftRounds n s)

/-- What `patch` is after the loop. -/
def craftPatch (a : UInt32) : UInt32 := (craftRounds 32 (0, a)).1

/-- `craftcrc`: the buffer, and whether the program ends with an error. -/
def craftcrc (dcrc : UInt32) (buf : Bytes) : Bytes × Bool :=
  let len := buf.length
  let patch := craftPatch (~~~ dcrc) ^^^ ~~~ zlibCrc buf (len - 4)
  let buf := poke buf (len - 4) (leBytes 4 patch.toNat)
  (buf, zlibCrc buf len != dcrc)

/-- `sizeof(struct jcg_header)` -/
def jcgHeaderSize : Nat := 512

/-- `sizeof(struct uimage_header)` -/
def uimageHeaderSize : Nat := 64

/-- What `main` does with a uImage file of `size1` bytes: the size of the output, and the offset and
the length of the buffer that `craftcrc` gets. -/
def uimageCall (maxsize size1 : Nat) : Option (Nat × Nat × Nat) :=
  let sizeu := size1 + 4
  let sizeo := jcgHeaderSize + sizeu
  if maxsize < sizeo then none
  else
    some (sizeo, jcgHeaderSize + uimageHeaderSize, (sizeu + (2 ^ 64 - uimageHeaderSize)) % 2 ^ 64)

/-! ## What is wanted -/

/-- The CRC-32 of a whole buffer. -/
def wholeCrc (buf : Bytes) : UInt32 := ~~~ crc32 0xffffffff buf

/-- The checksum is the one that is wanted, the program goes on, and only the last four bytes have
changed. -/
structure Crafted (dcrc : UInt32) (buf : Bytes) : Prop where
  crc : wholeCrc (craftcrc dcrc buf).1 = dcrc
  checked : (craftcrc dcrc buf).2 = false
  length : (craftcrc dcrc buf).1.length = buf.length
  front : (craftcrc dcrc buf).1.take (buf.length - 4) = buf.take (buf.length - 4)

/-- zlib sees the whole buffer; of a longer one, the bytes that it sees have the right checksums by
chance. -/
def Seen (dcrc : UInt32) (buf : Bytes) : Prop :=
  buf.length < 2 ^ 32 ∨
    wholeCrc (buf.take ((buf.length - 4) % 2 ^ 32)) = wholeCrc (buf.take (buf.length - 4)) ∧
      wholeCrc (buf.take (buf.length % 2 ^ 32)) = dcrc

/-- The buffer of a call is inside of the output, and has room for the patch. -/
def CallsInside (maxsize size1 : Nat) : Prop :=
  ∀ sizeo off len, uimageCall maxsize size1 = some (sizeo, off, len) → 4 ≤ len ∧ off + len ≤ sizeo

/-! ## The patch -/

section

theorem and_one_ne_zero (x : UInt32) : x &&& 1 ≠ 0 ↔ x.toBitVec.getLsbD 0 = true := by
  rw [Ne, ← UInt32.toBitVec_inj, UInt32.toBitVec_and]
  show ¬ x.toBitVec &&& 1#32 = 0#32 ↔ _
  rw [BitVec.and_one_eq_setWidth_ofBool_getLsbD]
  cases x.toBitVec.getLsbD 0 <;> decide

/-- One round takes a bit of `a`. -/
theorem craftRound_eq (s : UInt32 × UInt32) :
    (craftRound s).1.toBitVec = crcShift s.1.toBitVec ^^^
        (if s.2.toBitVec.getLsbD 0 = true then 0x5b358fd3#32 else 0#32) ∧
      (craftRound s).2.toBitVec = s.2.toBitVec >>> 1 := by
  have hshift (x : UInt32) : (x >>> 1).toBitVec = x.toBitVec >>> 1 := UInt32.toBitVec_shiftRight _ _
  have hcrc : (if s.1 &&& 1 ≠ 0 then (s.1 >>> 1) ^^^ 0xedb88320 else s.1 >>> 1 : UInt32).toBitVec =
      crcShift s.1.toBitVec := by
    rw [crcShift]
    by_cases hbit : s.1 &&& 1 ≠ 0
    · rw [if_pos hbit, if_pos ((and_one_ne_zero _).mp hbit), UInt32.toBitVec_xor, hshift]
      rfl
    · rw [if_neg hbit, if_neg fun h => hbit ((and_one_ne_zero _).mpr h), hshift]
  refine ⟨?_, hshift s.2⟩
  rw [craftRound]
  dsimp only
  rw [← hcrc]
  by_cases hbit : s.2 &&& 1 ≠ 0
  · rw [if_pos hbit, if_pos ((and_one_ne_zero _).mp hbit), UInt32.toBitVec_xor]
    rfl
  · rw [if_neg hbit, if_neg fun h => hbit ((and_one_ne_zero _).mpr h), BitVec.xor_zero]

/-- The constant of the loop is what becomes the highest bit in 32 steps. -/
theorem crcShifts_constant : crcShifts 32 0x5b358fd3#32 = 0x80000000#32 := by decide +kernel

theorem crcShifts_zero (n : Nat) : crcShifts n 0 = 0 := by
  induction n with
  | zero => rfl
  | succ n ih => rw [crcShifts, ih]; rfl

/-- After `i` rounds, 32 steps take the patch to the low `i` bits of `a`, in the highest place. -/
theorem craftRounds_invariant (a : UInt32) {i : Nat} (hi : i ≤ 32) :
    crcShifts 32 (craftRounds i (0, a)).1.toBitVec = a.toBitVec <<< (32 - i) ∧
      (craftRounds i (0, a)).2.toBitVec = a.toBitVec >>> i := by
  induction i with
  | zero =>
    refine ⟨?_, (BitVec.ushiftRight_zero _).symm⟩
    rw [craftRounds]
    show crcShifts 32 0#32 = _
    rw [BitVec.shiftLeft_eq_zero (by decide)]
    exact crcShifts_zero 32
  | succ i ih =>
    obtain ⟨hpatch, ha⟩ := ih (by omega)
    obtain ⟨hround, hrest⟩ := craftRound_eq (craftRounds i (0, a))
    rw [craftRounds, hround, hrest, ha]
    refine ⟨?_, (BitVec.shiftRight_add _ _ _).symm⟩
    -- the steps of one round are taken before the others
    have hswap (v : BitVec 32) : crcShifts 32 (crcShift v) = crcShift (crcShifts 32 v) := by
      rw [show crcShift v = crcShifts 1 v from rfl, ← crcShifts_add 32 1, Nat.add_comm 32 1,
        crcShifts_add 1 32]
      rfl
    have hlow : (a.toBitVec <<< (32 - i)).getLsbD 0 = false := by
      rw [BitVec.getLsbD_shiftLeft]
      simp
      omega
    rw [crcShifts_xor, hswap, hpatch, crcShift, if_neg (by rw [hlow]; decide)]
    have hconstant : crcShifts 32 (if (a.toBitVec >>> i).getLsbD 0 = true then 0x5b358fd3#32
        else 0#32) = if a.toBitVec.getLsbD i = true then BitVec.twoPow 32 31 else 0#32 := by
      rw [BitVec.getLsbD_ushiftRight, Nat.add_zero]
      split_ifs
      · exact crcShifts_constant
      · exact crcShifts_zero 32
    rw [hconstant]
    apply BitVec.eq_of_getLsbD_eq
    intro j hj
    rw [BitVec.getLsbD_xor, BitVec.getLsbD_ushiftRight, BitVec.getLsbD_shiftLeft,
      BitVec.getLsbD_shiftLeft]
    by_cases hlast : j = 31
    · -- the bit that this round brings in
      have hindex : 31 - (31 - i) = i := by omega
      subst hlast
      cases hbit : a.toBitVec.getLsbD i <;> simp [hindex, hbit]
    · have hnext : 1 + j < 32 := by omega
      have hindex : 1 + j - (32 - i) = j - (32 - (i + 1)) := by omega
      have hiff : 1 + j < 32 - i ↔ j < 32 - (i + 1) := by omega
      have hother : (if a.toBitVec.getLsbD i = true then BitVec.twoPow 32 31 else 0#32).getLsbD j =
          false := by
        split_ifs
        · rw [BitVec.getLsbD_twoPow]
          simp
          omega
        · exact BitVec.getLsbD_zero
      simp only [hother, hnext, hindex, hiff, hj, decide_true, Bool.true_and, Bool.xor_false]

theorem crcShifts_craftPatch (a : UInt32) : crcShifts 32 (craftPatch a).toBitVec = a.toBitVec := by
  have h := (craftRounds_invariant a (Nat.le_refl 32)).1
  rw [Nat.sub_self, BitVec.shiftLeft_zero] at h
  exact h

end

/-! ## The checksum -/

section
variable {dcrc : UInt32} {buf : Bytes}

/-- The register behind the patch of a register is what was wanted. -/
theorem crc32_patch (val a : UInt32) :
    crc32 val (leBytes 4 (craftPatch a ^^^ val).toNat) = a := by
  have hlt : (craftPatch a ^^^ val).toNat < 256 ^ 4 := UInt32.toNat_lt _
  have hxor : val.toBitVec ^^^ (craftPatch a ^^^ val).toBitVec = (craftPatch a).toBitVec := by
    rw [UInt32.toBitVec_xor, BitVec.xor_comm, BitVec.xor_assoc, BitVec.xor_self, BitVec.xor_zero]
  apply UInt32.toBitVec_inj.mp
  rw [crc32_eq_remainder, remainder_leBytes hlt (Nat.le_refl 4)]
  show crcShifts 32 (val.toBitVec ^^^ BitVec.ofNat 32 (craftPatch a ^^^ val).toBitVec.toNat) = _
  rw [BitVec.ofNat_toNat, BitVec.setWidth_eq, hxor, crcShifts_craftPatch]

/-- The patch is behind what was in front of it. -/
theorem craftcrc_append (hlen : 4 ≤ buf.length) : (craftcrc dcrc buf).1 =
    buf.take (buf.length - 4) ++ leBytes 4 (craftPatch (~~~ dcrc) ^^^
      crc32 0xffffffff (buf.take ((buf.length - 4) % 2 ^ 32))).toNat := by
  have hend (n : Nat) : buf.length - 4 + (leBytes 4 n).length = buf.length := by
    rw [length_leBytes, Nat.sub_add_cancel hlen]
  have hpoke (n : Nat) :
      poke buf (buf.length - 4) (leBytes 4 n) = buf.take (buf.length - 4) ++ leBytes 4 n := by
    rw [poke_eq_append (Nat.le_of_eq (hend n)), hend, List.drop_length, List.append_nil]
  have hseen : ~~~ zlibCrc buf (buf.length - 4) =
      crc32 0xffffffff (buf.take ((buf.length - 4) % 2 ^ 32)) := UInt32.not_not
  rw [← hseen]
  exact hpoke _

/-- The checksum is right when that of the bytes in front of the patch is. -/
theorem wholeCrc_craftcrc (hlen : 4 ≤ buf.length) : wholeCrc (craftcrc dcrc buf).1 = dcrc ↔
    wholeCrc (buf.take ((buf.length - 4) % 2 ^ 32)) = wholeCrc (buf.take (buf.length - 4)) := by
  have hpatch := crc32_patch (crc32 0xffffffff (buf.take ((buf.length - 4) % 2 ^ 32))) (~~~ dcrc)
  rw [wholeCrc, craftcrc_append hlen, crc32_append, wholeCrc, wholeCrc, UInt32.not_inj]
  revert hpatch
  generalize crc32 0xffffffff (buf.take ((buf.length - 4) % 2 ^ 32)) = seen
  generalize crc32 0xffffffff (buf.take (buf.length - 4)) = front
  generalize leBytes 4 (craftPatch (~~~ dcrc) ^^^ seen).toNat = patch
  intro hpatch
  constructor
  · intro h
    have hfront : crc32 front patch = ~~~ dcrc := by rw [← h, UInt32.not_not]
    exact crc32_injective (hpatch.trans hfront.symm)
  · rintro rfl
    rw [hpatch, UInt32.not_not]

theorem length_craftcrc : (craftcrc dcrc buf).1.length = buf.length := length_poke _ _ _

theorem take_craftcrc (hlen : 4 ≤ buf.length) {n : Nat} (hn : n ≤ buf.length - 4) :
    (craftcrc dcrc buf).1.take n = buf.take n := by
  have hfront : (buf.take (buf.length - 4)).length = buf.length - 4 :=
    List.length_take_of_le (by omega)
  rw [craftcrc_append hlen, List.take_append_of_le_length (by omega), List.take_take,
    Nat.min_eq_left hn]

/-- What the check at the end sees. -/
theorem craftcrc_checked : (craftcrc dcrc buf).2 = false ↔
    wholeCrc ((craftcrc dcrc buf).1.take (buf.length % 2 ^ 32)) = dcrc := by
  rw [craftcrc]
  dsimp only
  rw [bne_eq_false_iff_eq, zlibCrc, wholeCrc]

/-- **Crafting** works for the buffers that zlib sees completely. -/
theorem crafted_iff (hlen : 4 ≤ buf.length) : Crafted dcrc buf ↔ Seen dcrc buf := by
  have hcrc := @wholeCrc_craftcrc dcrc _ hlen
  have hchecked := @craftcrc_checked dcrc buf
  rw [Seen]
  rcases Nat.lt_or_ge buf.length (2 ^ 32) with hsmall | hlarge
  · rw [Nat.mod_eq_of_lt (by omega : buf.length - 4 < 2 ^ 32)] at hcrc
    have hwhole := hcrc.mpr rfl
    rw [Nat.mod_eq_of_lt hsmall, List.take_of_length_le (Nat.le_of_eq length_craftcrc)] at hchecked
    exact ⟨fun _ => .inl hsmall, fun _ =>
      ⟨hwhole, hchecked.mpr hwhole, length_craftcrc, take_craftcrc hlen (Nat.le_refl _)⟩⟩
  · have hseen : buf.length % 2 ^ 32 ≤ buf.length - 4 := by
      have hmod := Nat.mod_lt buf.length (by decide : 0 < 2 ^ 32)
      have hdiv := Nat.div_add_mod buf.length (2 ^ 32)
      omega
    rw [take_craftcrc hlen hseen] at hchecked
    constructor
    · intro hcrafted
      exact .inr ⟨hcrc.mp hcrafted.crc, hchecked.mp hcrafted.checked⟩
    · rintro (hsmall | ⟨hsame, hchance⟩)
      · exact absurd hsmall (Nat.not_lt.mpr hlarge)
      · exact ⟨hcrc.mpr hsame, hchecked.mpr hchance, length_craftcrc,
          take_craftcrc hlen (Nat.le_refl _)⟩

end

/-! ## The call -/

/-- **The calls** are inside of the output when there is a whole header. -/
theorem callsInside_iff {maxsize size1 : Nat} (hsize : size1 < 2 ^ 63) :
    CallsInside maxsize size1 ↔ maxsize < jcgHeaderSize + size1 + 4 ∨ uimageHeaderSize ≤ size1 := by
  have h512 : jcgHeaderSize = 512 := rfl
  have h64 : uimageHeaderSize = 64 := rfl
  rw [CallsInside, uimageCall]
  by_cases hmax : maxsize < jcgHeaderSize + (size1 + 4)
  · rw [if_pos hmax]
    refine ⟨fun _ => .inl (by omega), fun _ sizeo off len hcall => by cases hcall⟩
  · rw [if_neg hmax]
    constructor
    · intro hcalls
      obtain ⟨hlen, hinside⟩ := hcalls _ _ _ rfl
      right
      rcases Nat.lt_or_ge size1 uimageHeaderSize with hlt | hge
      · exfalso
        omega
      · exact hge
    · rintro (h | h) sizeo off len hcall
      · omega
      · cases hcall
        omega

/-- **The checksum that is wanted.** `craftcrc` makes it for the buffers that zlib sees completely,
and is called with a buffer of the output for the files with a whole header. -/
theorem craftcrc_iff (dcrc : UInt32) (buf : Bytes) (maxsize : Nat) (size1 : Fin (2 ^ 63)) :
    (4 ≤ buf.length → (Crafted dcrc buf ↔ Seen dcrc buf)) ∧
      (CallsInside maxsize size1 ↔
        maxsize < jcgHeaderSize + size1 + 4 ∨ uimageHeaderSize ≤ size1) :=
  ⟨crafted_iff, callsInside_iff size1.isLt⟩

/-- A file of 60 bytes: there is no room for the patch. -/
theorem not_callsInside : ¬ CallsInside 3866624 60 := by
  intro hcalls
  exact absurd (hcalls _ _ _ rfl).1 (by decide)

end UolaOs.Jcgimage
