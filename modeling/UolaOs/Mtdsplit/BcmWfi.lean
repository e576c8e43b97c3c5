import UolaOs.Mtdsplit.Wfi

/-!
# Partitions of a WFI image

The parsers of mtdsplit_bcm_wfi.c over the search for files:

* `WfiTable`: the partitions of an image, one behind the other up to the end of its range;
* `WfiImage`: a range holds an image;
* `wfiTables_iff`: the partitions of an image are such ones, and the parsers of two images count
  what they store exactly when the active one is an image.
-/

namespace UolaOs.Mtdsplit

/-! ## The parsers -/

inductive WfiName where
  | cferam
  | firmware
  | kernel
  | ubi
  | img1
  | img2
  deriving DecidableEq

/-- `MTD_WRITEABLE` -/
def mtdWriteable : Nat := 0x400

structure WfiPart where
  name : WfiName
  offset : Int
  size : Int
  mask_flags : Nat := 0
  deriving DecidableEq

/-- The return value, and what is stored in `*pparts`. -/
structure ParseEnd where
  ret : Int
  pparts : Option (List WfiPart)
  deriving DecidableEq

/-- `KERNEL_NAME` -/
def kernelName : Bytes := [0x76, 0x6d, 0x6c, 0x69, 0x6e, 0x75, 0x78, 0x2e, 0x6c, 0x7a]

section
variable (m : Master) (e : Endian)

/-- A block begins with the magic of UBI. -/
def beginsUbi (offs : Nat) : Bool :=
  match m.read offs 4 with
  | .error _ => false
  | .ok magic => decide (magic.length = 4 ∧ Endian.big.get magic = 0x55424923)

/-- `ubifs_find` up to the offset `last`, with the offset and the return value. -/
def ubifsFindFrom (last : Int) (offs : Nat) : Nat × Int :=
  if (offs : Int) < last then
    if beginsUbi m offs then (offs, 0) else ubifsFindFrom last (offs + m.erasesize)
  else (offs, -2)
termination_by (last - offs).toNat
decreasing_by
  have := m.erasesize_pos
  omega

/-- `ubifs_find` -/
def ubifsFind (offs : Nat) (size : Int) : Nat × Int := ubifsFindFrom m (offs + size) offs

/-- The search for the CFE, when there is one. -/
def cfeFind (fuel off : Nat) (size : Int) (cfe_part : Bool) : Option FileEnd :=
  if cfe_part then findFile m e fuel cferamName false off size else some ⟨off, 0, none⟩

/-- Where the search for the kernel begins. -/
def kernelOff (off : Nat) (cfe_part : Bool) (cfe : FileEnd) : Nat :=
  if cfe_part then cfe.offs + m.erasesize else off

/-- The table of `parse_bcm_wfi`, which has `num_parts` entries. -/
def wfiParts (off : Nat) (size : Int) (cfe_part : Bool) (cfe_off kernel_off rootfs_off : Nat) :
    List WfiPart :=
  (if cfe_part then [⟨.cferam, cfe_off, kernel_off - cfe_off, mtdWriteable⟩] else []) ++
    [⟨.firmware, kernel_off, size - (kernel_off - off), 0⟩,
      ⟨.kernel, kernel_off, rootfs_off - kernel_off, 0⟩,
      ⟨.ubi, rootfs_off, size - (rootfs_off - off), 0⟩]

/-- `parse_bcm_wfi` -/
def parseBcmWfi (fuel off : Nat) (size : Int) (cfe_part kzalloc : Bool) : Option ParseEnd := do
  let cfe ← cfeFind m e fuel off size cfe_part
  if cfe.ret ≠ 0 then return ⟨cfe.ret, none⟩
  let kernel_off := kernelOff m off cfe_part cfe
  let kernel ← findFile m e fuel kernelName false kernel_off (size - (kernel_off - off))
  if kernel.ret ≠ 0 then return ⟨kernel.ret, none⟩
  let rootfs_off := kernel.offs + m.erasesize
  let rootfs := ubifsFind m rootfs_off (size - (rootfs_off - off))
  if rootfs.2 ≠ 0 then return ⟨rootfs.2, none⟩
  if kzalloc = false then return ⟨-12, none⟩
  let parts := wfiParts off size cfe_part cfe.offs kernel.offs rootfs.1
  return ⟨parts.length, some parts⟩

end

/-! ## Two images -/

/-- `char_to_num` -/
def charToNum (c : UInt8) : Int := if 0x30 ≤ c ∧ c ≤ 0x39 then c.toNat - 0x30 else 0

def threeDigits (a b c : UInt8) : Int := charToNum a * 100 + charToNum b * 10 + charToNum c

/-- A byte of a copied name, or of what is behind it in the memory. -/
def nameAt (name : Bytes) (heap : Nat → UInt8) (i : Nat) : UInt8 :=
  if i < name.length then name.getD i 0 else if i = name.length then 0 else heap i

/-- `CFE_MAGIC_PFX` -/
def cfeMagicPfx : Bytes := [0x63, 0x66, 0x65, 0x72, 0x61, 0x6d, 0x2e]

/-- `cferam_bootflag_value` -/
def cferamBootflagValue (heap : Nat → UInt8) (name : Option Bytes) (name_len : Nat) : Int :=
  match name with
  | none => -2
  | some name =>
    if 10 ≤ name_len ∧ (List.range 7).map (nameAt name heap) = cfeMagicPfx then
      threeDigits (nameAt name heap 7) (nameAt name heap 8) (nameAt name heap 9)
    else -2

/-- `SERCOMM_MAGIC_PFX` -/
def sercommMagicPfx : Bytes := [0x65, 0x52, 0x63, 0x4f, 0x6d, 0x4d, 0x2e]

/-- The boot flag at an offset of a partition. -/
def sercommFlagAt (m : Master) (offs : Nat) : Option Int :=
  match m.read offs 10 with
  | .error _ => none
  | .ok buf =>
    if buf.length = 10 ∧ buf.take 7 = sercommMagicPfx then
      some (threeDigits (buf.getD 7 0) (buf.getD 8 0) (buf.getD 9 0))
    else none

/-- `sercomm_bootflag_value` from an offset on -/
def sercommBootflagValue (m : Master) (offs : Nat) : Int :=
  if offs < m.size then
    match sercommFlagAt m offs with
    | none => sercommBootflagValue m (offs + m.erasesize)
    | some flag => flag
  else -2
termination_by m.size - offs
decreasing_by
  have := m.erasesize_pos
  omega

/-- Which allocations succeed. -/
structure Alloc where
  buf : Bool
  /-- The copies of the names. -/
  names : Bool
  /-- The table of `parse_bcm_wfi`. -/
  parts : Bool
  /-- The table that is returned. -/
  table : Bool

def Alloc.success : Alloc := ⟨true, true, true, true⟩

section
variable (m : Master) (e : Endian)

/-- The first half of the flash, or the second one. -/
def halfOff (first : Bool) : Nat := if first then 0 else m.size / 2

def halfSize (first : Bool) : Int := if first then (m.size / 2 : Nat) else m.size - (m.size / 2 :
    Nat)

def halfPart (first : Bool) : WfiPart :=
  ⟨if first then .img1 else .img2, halfOff m first, halfSize m first, 0⟩

/-- What the parsers of two images make of the end of `parse_bcm_wfi` on the active one. Without a
table the halves are stored through a null pointer. -/
def finishTable (table first : Bool) (parsed : ParseEnd) : Option ParseEnd :=
  if 0 < parsed.ret then
    if table = false then some ⟨-12, parsed.pparts⟩
    else some ⟨parsed.ret + 1,
      some ((parsed.pparts.getD []).take parsed.ret.toNat ++ [halfPart m !first])⟩
  else if table = false then none
  else some ⟨parsed.ret, some [halfPart m true, halfPart m false]⟩

/-- The boot flag of a half in `mtdsplit_parse_bcm_wfi_split`. -/
def splitBootflag (fuel : Nat) (names : Bool) (heap : Nat → UInt8) (first : Bool) : Option Int :=
  (findFile m e fuel cferamName true (halfOff m first) (halfSize m first)).map fun cfe =>
    cferamBootflagValue heap (if names then cfe.name.map Prod.fst else none)
      ((cfe.name.map Prod.snd).getD 0)

/-- Whether the first half is the active one. `heap₁` and `heap₂` are what is behind the names. -/
def splitActive (fuel : Nat) (names : Bool) (heap₁ heap₂ : Nat → UInt8) : Option Bool := do
  let bf1 ← splitBootflag m e fuel names heap₁ true
  let bf2 ← splitBootflag m e fuel names heap₂ false
  return decide (bf2 ≤ bf1)

/-- `mtdsplit_parse_bcm_wfi_split` -/
def mtdsplitParseBcmWfiSplit (fuel : Nat) (alloc : Alloc) (heap₁ heap₂ : Nat → UInt8) :
    Option ParseEnd :=
  if alloc.buf = false then some ⟨-12, none⟩
  else do
    let first ← splitActive m e fuel alloc.names heap₁ heap₂
    let parsed ← parseBcmWfi m e fuel (halfOff m first) (halfSize m first) true alloc.parts
    finishTable m alloc.table first parsed

/-- Whether the first half is the active one: the flags decide, or the first one when they are the
same. -/
def serActive (bootflag1 bootflag2 : Master) : Bool :=
  let bf1 := sercommBootflagValue bootflag1 0
  let bf2 := sercommBootflagValue bootflag2 0
  let bf2 := if bf1 = bf2 ∧ 0 ≤ bf2 then -2 else bf2
  decide (bf2 ≤ bf1)

/-- `mtdsplit_parse_ser_wfi`, up to the erasure of the second flag when both are the same. -/
def mtdsplitParseSerWfi (fuel : Nat) (alloc : Alloc) (bootflag1 bootflag2 : Option Master) :
    Option ParseEnd :=
  match bootflag1, bootflag2 with
  | some bootflag1, some bootflag2 =>
    if alloc.buf = false then some ⟨-12, none⟩
    else do
      let first := serActive bootflag1 bootflag2
      let parsed ← parseBcmWfi m e fuel (halfOff m first) (halfSize m first) false alloc.parts
      finishTable m alloc.table first parsed
  | _, _ => some ⟨-2, none⟩

end

/-! ## Images -/

section
variable (m : Master) (e : Endian)

/-- The search from a block finds the file in another one, behind the mark. -/
def HasFile (name : Bytes) (last : Int) (start o : Nat) : Prop :=
  Marked m e name last start ∧ ∃ buf p, SeenFile m e name last start o buf p

/-- From an offset on, a block begins with the magic of UBI. -/
def UbiBehind (last : Int) (start : Nat) : Prop :=
  ∃ o, start ≤ o ∧ m.erasesize ∣ o - start ∧ (o : Int) < last ∧ beginsUbi m o = true

/-- Where the search for the kernel has to begin: behind the CFE, when there is one. -/
def KernelFrom (off : Nat) (size : Int) (cfe_part : Bool) (kernel_off : Nat) : Prop :=
  if cfe_part then
    ∃ cfe, HasFile m e cferamName (off + size) off cfe ∧ kernel_off = cfe + m.erasesize
  else kernel_off = off

/-- The range holds an image: the CFE if there is one, then the kernel, then a UBI block. -/
def WfiImage (off : Nat) (size : Int) (cfe_part : Bool) : Prop :=
  ∃ kernel_off kernel, KernelFrom m e off size cfe_part kernel_off ∧
    HasFile m e kernelName (off + size) kernel_off kernel ∧
    UbiBehind m (off + size) (kernel + m.erasesize)

end

/-- The partitions of a range: none is empty, one begins where the one before it ends, the last one
ends with the range, and the firmware is the kernel and the UBI. -/
structure Laid (off : Nat) (size : Int) (cfe_part : Bool) (cferam firmware kernel ubi : WfiPart) :
    Prop where
  names : cferam.name = .cferam ∧ firmware.name = .firmware ∧ kernel.name = .kernel ∧
    ubi.name = .ubi
  begins : off ≤ if cfe_part then cferam.offset else kernel.offset
  cferam_pos : cfe_part = true → 0 < cferam.size
  kernel_pos : 0 < kernel.size
  ubi_pos : 0 < ubi.size
  cferam_end : cfe_part = true → cferam.offset + cferam.size = kernel.offset
  kernel_end : kernel.offset + kernel.size = ubi.offset
  ubi_end : ubi.offset + ubi.size = off + size
  firmware_offset : firmware.offset = kernel.offset
  firmware_size : firmware.size = kernel.size + ubi.size

/-- The table of an image. -/
def WfiTable (off : Nat) (size : Int) (cfe_part : Bool) (parts : List WfiPart) : Prop :=
  ∃ cferam firmware kernel ubi, Laid off size cfe_part cferam firmware kernel ubi ∧
    parts = (if cfe_part then [cferam] else []) ++ [firmware, kernel, ubi]

section
variable {m : Master} {e : Endian} {name : Bytes} {last size : Int} {out cfe_part kzalloc : Bool}
  {start off o fuel : Nat} {r : FileEnd}

/-- How a search ends. -/
theorem findFile_cases (h : findFile m e fuel name out start size = some r) :
    r.ret < 0 ∧ (∀ o, ¬ HasFile m e name (start + size) start o) ∨
      r.ret = 0 ∧ HasFile m e name (start + size) start r.offs ∧ start ≤ r.offs ∧
        (r.offs : Int) < start + size := by
  have hnot (hret : r.ret < 0) (o : Nat) : ¬ HasFile m e name (start + size) start o := by
    rintro ⟨hmarked, buf, p, hseen⟩
    obtain ⟨v, hv, hfound⟩ := (search_seen h).2 o buf p hseen
    rw [hv.mpr (.inr hmarked)] at hfound
    have := (fileFound_valid hfound).1
    omega
  cases searchEnd h with
  | past _ _ => exact .inl ⟨show (-2 : Int) < 0 by decide, hnot (show (-2 : Int) < 0 by decide)⟩
  | unread _ hneg => exact .inl ⟨hneg, hnot hneg⟩
  | @file o buf p v _ hfile hv hfound =>
    by_cases hvalid : v = true
    · rw [hvalid] at hfound
      obtain ⟨hret, hoffs, -⟩ := fileFound_valid hfound
      refine .inr ⟨hret, ?_, ?_, ?_⟩
      · rw [hoffs]
        exact ⟨(hv.mp hvalid).resolve_left (by decide), buf, p, hfile⟩
      · rw [hoffs]
        exact Reaches.le hfile.seen.reached
      · rw [hoffs]
        exact hfile.seen.block.before
    · have hneg : r.ret < 0 := by
        rw [fileFound, if_pos (by simpa using hvalid)] at hfound
        cases hfound
        show (-22 : Int) < 0
        decide
      exact .inl ⟨hneg, hnot hneg⟩

/-- The file is in one block only. -/
theorem HasFile.unique {o' : Nat} (h : HasFile m e name last start o)
    (h' : HasFile m e name last start o') : o = o' := by
  obtain ⟨-, buf, p, hfile⟩ := h
  obtain ⟨-, buf', p', hfile'⟩ := h'
  exact (Reaches.stop (visited_before_stop passes_rightUnique hfile.seen.reached hfile.not_passes
    hfile'.seen.reached) hfile'.not_passes)

theorem ubifsFindFrom_cases (m : Master) (last : Int) (start : Nat) :
    ((ubifsFindFrom m last start).2 = 0 ∧ UbiBehind m last start ∧
      start ≤ (ubifsFindFrom m last start).1 ∧ ((ubifsFindFrom m last start).1 : Int) < last) ∨
    (ubifsFindFrom m last start).2 = -2 ∧ ¬ UbiBehind m last start := by
  induction hn : (last - start).toNat using Nat.strongRecOn generalizing start with
  | ind n ih =>
    have hpos := m.erasesize_pos
    rw [ubifsFindFrom]
    by_cases hlast : (start : Int) < last
    · rw [if_pos hlast]
      by_cases hubi : beginsUbi m start = true
      · rw [if_pos hubi]
        exact .inl ⟨rfl, ⟨start, Nat.le_refl _, by rw [Nat.sub_self]; exact Nat.dvd_zero _, hlast,
          hubi⟩, Nat.le_refl _, hlast⟩
      · have hbehind : UbiBehind m last start ↔ UbiBehind m last (start + m.erasesize) := by
          constructor
          · rintro ⟨o, hle, hdvd, ho, hbegins⟩
            have hne : o ≠ start := by
              rintro rfl
              exact hubi hbegins
            have hge := Nat.le_of_dvd (by omega) hdvd
            refine ⟨o, by omega, ?_, ho, hbegins⟩
            rw [Nat.sub_add_eq]
            exact Nat.dvd_sub hdvd (Nat.dvd_refl _)
          · rintro ⟨o, hle, hdvd, ho, hbegins⟩
            refine ⟨o, by omega, ?_, ho, hbegins⟩
            have := Nat.dvd_add hdvd (Nat.dvd_refl m.erasesize)
            rwa [Nat.sub_add_eq, Nat.sub_add_cancel (by omega)] at this
        rw [if_neg hubi, hbehind]
        rcases ih _ (by omega) (start + m.erasesize) rfl with ⟨hret, hub, hle, hlt⟩ | hno
        · exact .inl ⟨hret, hub, by omega, hlt⟩
        · exact .inr hno
    · rw [if_neg hlast]
      refine .inr ⟨rfl, ?_⟩
      rintro ⟨o, hle, -, ho, -⟩
      omega

/-- How the parser of one image ends. -/
inductive ParseCases (m : Master) (e : Endian) (off : Nat) (size : Int) (cfe_part kzalloc : Bool) :
    ParseEnd → Prop
  | failed {ret : Int} : ret < 0 →
      (kzalloc = true → ¬ WfiImage m e off size cfe_part) →
      ParseCases m e off size cfe_part kzalloc ⟨ret, none⟩
  | parsed {parts : List WfiPart} : WfiImage m e off size cfe_part →
      WfiTable off size cfe_part parts →
      ParseCases m e off size cfe_part kzalloc ⟨parts.length, some parts⟩

theorem cfeFind_cases {cfe : FileEnd} (h : cfeFind m e fuel off size cfe_part = some cfe) :
    cfe.ret < 0 ∧ (∀ k, ¬ KernelFrom m e off size cfe_part k) ∨
      cfe.ret = 0 ∧ KernelFrom m e off size cfe_part (kernelOff m off cfe_part cfe) ∧
        off ≤ cfe.offs ∧ cfe.offs ≤ kernelOff m off cfe_part cfe ∧
        (cfe_part = true → cfe.offs < kernelOff m off cfe_part cfe) := by
  have hpos := m.erasesize_pos
  cases cfe_part with
  | true =>
    rcases findFile_cases h with ⟨hneg, hno⟩ | ⟨hret, hfile, hle, -⟩
    · refine .inl ⟨hneg, fun k hk => ?_⟩
      obtain ⟨c, hc, -⟩ := hk
      exact hno c hc
    · have hkernel : kernelOff m off true cfe = cfe.offs + m.erasesize := rfl
      exact .inr ⟨hret, ⟨_, hfile, rfl⟩, hle, by omega, fun _ => by omega⟩
  | false =>
    cases h
    exact .inr ⟨rfl, rfl, Nat.le_refl _, Nat.le_refl _, fun hno => by cases hno⟩

theorem KernelFrom.unique {k k' : Nat} (h : KernelFrom m e off size cfe_part k)
    (h' : KernelFrom m e off size cfe_part k') : k = k' := by
  cases cfe_part with
  | true =>
    obtain ⟨c, hc, rfl⟩ := h
    obtain ⟨c', hc', rfl⟩ := h'
    rw [hc.unique hc']
  | false => exact h.trans h'.symm

theorem wfiTable_wfiParts {cfe kernel rootfs : Nat} (hcfe : off ≤ cfe)
    (hkernel : cfe ≤ kernel ∧ (cfe_part = true → cfe < kernel)) (hrootfs : kernel < rootfs)
    (hlast : (rootfs : Int) < off + size) :
    WfiTable off size cfe_part (wfiParts off size cfe_part cfe kernel rootfs) := by
  refine ⟨⟨.cferam, cfe, kernel - cfe, mtdWriteable⟩, _, _, _, ?_, rfl⟩
  refine ⟨⟨rfl, rfl, rfl, rfl⟩, ?_, ?_, ?_, ?_, ?_, ?_, ?_, rfl, ?_⟩
  · split <;> dsimp only <;> omega
  · intro hyes
    have := hkernel.2 hyes
    dsimp only
    omega
  · dsimp only
    omega
  · dsimp only
    omega
  · intro _
    dsimp only
    omega
  · dsimp only
    omega
  · dsimp only
    omega
  · dsimp only
    omega

theorem parseBcmWfi_cases {r : ParseEnd}
    (h : parseBcmWfi m e fuel off size cfe_part kzalloc = some r) :
    ParseCases m e off size cfe_part kzalloc r := by
  have hpos := m.erasesize_pos
  rw [parseBcmWfi] at h
  cases hcfe : cfeFind m e fuel off size cfe_part with
  | none =>
    rw [hcfe] at h
    cases h
  | some cfe =>
  rw [hcfe, Option.bind_eq_bind, Option.bind_some] at h
  rcases cfeFind_cases hcfe with ⟨hneg, hno⟩ | ⟨hret, hfrom, hle, hcfe_le, hcfe_lt⟩
  · rw [if_pos (by omega)] at h
    cases h
    refine .failed hneg fun _ himage => ?_
    obtain ⟨k, _, hk, -⟩ := himage
    exact hno k hk
  rw [if_neg (not_not.mpr hret)] at h
  generalize kernelOff m off cfe_part cfe = kernel_off at h hfrom hcfe_le hcfe_lt
  dsimp only at h
  have hlast : (kernel_off : Int) + (size - (kernel_off - off)) = off + size := by omega
  cases hkernel : findFile m e fuel kernelName false kernel_off (size - (kernel_off - off)) with
  | none =>
    rw [hkernel] at h
    cases h
  | some kernel =>
  rw [hkernel, Option.bind_some] at h
  have hcases := findFile_cases hkernel
  rw [hlast] at hcases
  rcases hcases with ⟨hneg, hno⟩ | ⟨hkret, hfile, hkle, hklt⟩
  · rw [if_pos (by omega)] at h
    cases h
    refine .failed hneg fun _ himage => ?_
    obtain ⟨k, kernel, hk, hfile, -⟩ := himage
    rw [hk.unique hfrom] at hfile
    exact hno kernel hfile
  rw [if_neg (not_not.mpr hkret)] at h
  have hlast' : ((kernel.offs + m.erasesize : Nat) : Int) +
      (size - ((kernel.offs + m.erasesize : Nat) - off)) = off + size := by omega
  have hubi := ubifsFindFrom_cases m (off + size) (kernel.offs + m.erasesize)
  rw [ubifsFind, hlast'] at h
  rcases hubi with ⟨hrret, hubi, hrle, hrlt⟩ | ⟨hrret, hno⟩
  · rw [if_neg (not_not.mpr hrret)] at h
    have himage : WfiImage m e off size cfe_part := ⟨_, _, hfrom, hfile, hubi⟩
    split at h
    · rename_i hk
      cases h
      exact .failed (by decide) fun hyes => by cases hk.symm.trans hyes
    · cases h
      exact .parsed himage (wfiTable_wfiParts hle ⟨by omega, fun hyes => by
        have := hcfe_lt hyes
        omega⟩ (by omega) hrlt)
  · rw [if_pos (by omega)] at h
    cases h
    refine .failed (by omega) fun _ himage => ?_
    obtain ⟨k, kernel', hk, hfile', hubi⟩ := himage
    rw [hk.unique hfrom] at hfile'
    rw [hfile'.unique hfile] at hubi
    exact hno hubi

end

/-! ## What is returned -/

/-- The return value is the number of the entries that are stored: those of the active image and the
other half, or both halves. -/
structure CountsStored (m : Master) (first : Bool) (parsed r : ParseEnd) : Prop where
  count : ∃ parts, r.pparts = some parts ∧ r.ret = parts.length
  table : r.pparts = some (if 0 < parsed.ret then parsed.pparts.getD [] ++ [halfPart m !first]
    else [halfPart m true, halfPart m false])

section
variable (m : Master) (e : Endian)

/-- When the parser of one image succeeds, it returns the number of entries of a table of the
range. -/
def ParseSound (off : Nat) (size : Int) (cfe_part : Bool) : Prop :=
  ∀ fuel kzalloc r, parseBcmWfi m e fuel off size cfe_part kzalloc = some r → 0 < r.ret →
    ∃ parts, r = ⟨parts.length, some parts⟩ ∧ WfiTable off size cfe_part parts

def SplitCounts (heap₁ heap₂ : Nat → UInt8) : Prop :=
  ∀ fuel r, mtdsplitParseBcmWfiSplit m e fuel .success heap₁ heap₂ = some r →
    ∃ first parsed, splitActive m e fuel true heap₁ heap₂ = some first ∧
      parseBcmWfi m e fuel (halfOff m first) (halfSize m first) true true = some parsed ∧
      CountsStored m first parsed r

/-- The half that the boot flags make the active one is an image, if the parser ends there. -/
def SplitParses (heap₁ heap₂ : Nat → UInt8) : Prop :=
  ∀ fuel first parsed, splitActive m e fuel true heap₁ heap₂ = some first →
    parseBcmWfi m e fuel (halfOff m first) (halfSize m first) true true = some parsed →
    WfiImage m e (halfOff m first) (halfSize m first) true

def SerCounts (bootflag1 bootflag2 : Master) : Prop :=
  ∀ fuel r, mtdsplitParseSerWfi m e fuel .success (some bootflag1) (some bootflag2) = some r →
    ∃ parsed, parseBcmWfi m e fuel (halfOff m (serActive bootflag1 bootflag2))
        (halfSize m (serActive bootflag1 bootflag2)) false true = some parsed ∧
      CountsStored m (serActive bootflag1 bootflag2) parsed r

def SerParses (bootflag1 bootflag2 : Master) : Prop :=
  ∀ fuel parsed, parseBcmWfi m e fuel (halfOff m (serActive bootflag1 bootflag2))
      (halfSize m (serActive bootflag1 bootflag2)) false true = some parsed →
    WfiImage m e (halfOff m (serActive bootflag1 bootflag2))
      (halfSize m (serActive bootflag1 bootflag2)) false

end

section
variable {m : Master} {e : Endian} {off : Nat} {size : Int} {cfe_part first : Bool}
  {parsed : ParseEnd}

theorem WfiTable.length {parts : List WfiPart} (h : WfiTable off size cfe_part parts) :
    0 < parts.length := by
  obtain ⟨cferam, firmware, kernel, ubi, -, rfl⟩ := h
  rw [List.length_append]
  exact Nat.add_pos_right _ (Nat.succ_pos 2)

/-- Behind an image that was parsed the count is right; otherwise the error is returned. -/
theorem finishTable_counts (h : ParseCases m e off size cfe_part true parsed) :
    ∃ r, finishTable m true first parsed = some r ∧
      (CountsStored m first parsed r ↔ WfiImage m e off size cfe_part) := by
  cases h with
  | @failed ret hneg hno =>
    refine ⟨⟨ret, some [halfPart m true, halfPart m false]⟩, ?_, iff_of_false ?_ (hno rfl)⟩
    · exact if_neg (by dsimp only; omega)
    · rintro ⟨⟨parts, hparts, hcount⟩, -⟩
      dsimp only at hcount
      omega
  | @parsed parts himage htable =>
    have hpos : (0 : Int) < parts.length := by exact_mod_cast htable.length
    refine ⟨⟨parts.length + 1, some (parts ++ [halfPart m !first])⟩, ?_, iff_of_true ?_ himage⟩
    · rw [finishTable, if_pos hpos, if_neg (by decide)]
      simp only [Option.getD_some, Int.toNat_natCast, List.take_length]
    · refine ⟨⟨_, rfl, ?_⟩, ?_⟩
      · rw [List.length_append, List.length_singleton, Int.natCast_add]
        rfl
      · rw [if_pos hpos]
        rfl

theorem splitCounts_iff (heap₁ heap₂ : Nat → UInt8) :
    SplitCounts m e heap₁ heap₂ ↔ SplitParses m e heap₁ heap₂ := by
  constructor
  · intro h fuel first parsed hactive hparsed
    obtain ⟨r, hfinish, hcounts⟩ :=
        @finishTable_counts m e _ _ _ first _ (parseBcmWfi_cases hparsed)
    have hrun : mtdsplitParseBcmWfiSplit m e fuel .success heap₁ heap₂ = some r := by
      rw [mtdsplitParseBcmWfiSplit, if_neg (by decide)]
      rw [show Alloc.success.names = true from rfl, hactive, Option.bind_eq_bind, Option.bind_some,
        show Alloc.success.parts = true from rfl, hparsed]
      exact hfinish
    obtain ⟨first', parsed', hactive', hparsed', hstored⟩ := h fuel r hrun
    cases hactive.symm.trans hactive'
    cases hparsed.symm.trans hparsed'
    exact hcounts.mp hstored
  · intro h fuel r hrun
    rw [mtdsplitParseBcmWfiSplit, if_neg (by decide)] at hrun
    obtain ⟨first, hactive, hrun⟩ := Option.bind_eq_some_iff.mp hrun
    obtain ⟨parsed, hparsed, hrun⟩ := Option.bind_eq_some_iff.mp hrun
    obtain ⟨r', hfinish, hcounts⟩ :=
        @finishTable_counts m e _ _ _ first _ (parseBcmWfi_cases hparsed)
    cases hrun.symm.trans hfinish
    exact ⟨first, parsed, hactive, hparsed, hcounts.mpr (h fuel first parsed hactive hparsed)⟩

theorem serCounts_iff (bootflag1 bootflag2 : Master) :
    SerCounts m e bootflag1 bootflag2 ↔ SerParses m e bootflag1 bootflag2 := by
  constructor
  · intro h fuel parsed hparsed
    obtain ⟨r, hfinish, hcounts⟩ := @finishTable_counts m e _ _ _ (serActive bootflag1 bootflag2) _
      (parseBcmWfi_cases hparsed)
    have hrun : mtdsplitParseSerWfi m e fuel .success (some bootflag1) (some bootflag2) =
        some r := by
      rw [mtdsplitParseSerWfi]
      dsimp only
      rw [if_neg (by decide), show Alloc.success.parts = true from rfl, hparsed]
      exact hfinish
    obtain ⟨parsed', hparsed', hstored⟩ := h fuel r hrun
    cases hparsed.symm.trans hparsed'
    exact hcounts.mp hstored
  · intro h fuel r hrun
    rw [mtdsplitParseSerWfi] at hrun
    dsimp only at hrun
    rw [if_neg (by decide)] at hrun
    obtain ⟨parsed, hparsed, hrun⟩ := Option.bind_eq_some_iff.mp hrun
    obtain ⟨r', hfinish, hcounts⟩ := @finishTable_counts m e _ _ _ (serActive bootflag1 bootflag2) _
      (parseBcmWfi_cases hparsed)
    cases hrun.symm.trans hfinish
    exact ⟨parsed, hparsed, hcounts.mpr (h fuel parsed hparsed)⟩

/-- **WFI partitions.** The partitions of an image are laid out in its range, and the parsers of two
images return the number of entries that they store exactly when the active half is an image. -/
theorem wfiTables_iff (m : Master) (e : Endian) :
    (∀ off size cfe_part, ParseSound m e off size cfe_part) ∧
      (∀ heap₁ heap₂, SplitCounts m e heap₁ heap₂ ↔ SplitParses m e heap₁ heap₂) ∧
      ∀ bootflag1 bootflag2, SerCounts m e bootflag1 bootflag2 ↔
        SerParses m e bootflag1 bootflag2 := by
  refine ⟨?_, splitCounts_iff, serCounts_iff⟩
  intro off size cfe_part fuel kzalloc r hrun hpos
  cases parseBcmWfi_cases hrun with
  | @failed ret hneg _ =>
    dsimp only at hpos
    omega
  | @parsed parts _ htable => exact ⟨parts, rfl, htable⟩

/-- An erased flash. -/
def erasedBlocks : Master := smallBlocks (List.replicate 128 0xff)

/-- Both halves are stored, and an error is returned. -/
theorem wfiTables_erased :
    mtdsplitParseBcmWfiSplit erasedBlocks .little 0 .success (fun _ => 0) (fun _ => 0) =
        some ⟨-2, some [⟨.img1, 0, 64, 0⟩, ⟨.img2, 64, 64, 0⟩]⟩ ∧
      ¬ SplitCounts erasedBlocks .little (fun _ => 0) (fun _ => 0) ∧
      ¬ SerCounts erasedBlocks .little erasedBlocks erasedBlocks := by
  have hsplit : mtdsplitParseBcmWfiSplit erasedBlocks .little 0 .success (fun _ => 0)
      (fun _ => 0) = some ⟨-2, some [⟨.img1, 0, 64, 0⟩, ⟨.img2, 64, 64, 0⟩]⟩ := by
    decide +kernel
  have hser : mtdsplitParseSerWfi erasedBlocks .little 0 .success (some erasedBlocks)
      (some erasedBlocks) = some ⟨-2, some [⟨.img1, 0, 64, 0⟩, ⟨.img2, 64, 64, 0⟩]⟩ := by
    decide +kernel
  refine ⟨hsplit, fun h => ?_, fun h => ?_⟩
  · obtain ⟨_, _, -, -, ⟨parts, hparts, hcount⟩, -⟩ := h 0 _ hsplit
    dsimp only at hcount
    omega
  · obtain ⟨_, -, ⟨parts, hparts, hcount⟩, -⟩ := h 0 _ hser
    dsimp only at hcount
    omega

end

end UolaOs.Mtdsplit
