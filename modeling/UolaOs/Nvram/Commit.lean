import UolaOs.Nvram.Image
import UolaOs.Lib.Packing

/-!
# Committing and reopening the nvram store

`nvramCommit` writes the table back to the mapped partition and reads it again;
`nvramOpen` finds the store in a partition image. `commit_mmap` is the layout a commit
leaves, `parseTuples_committed` what the next reader finds in it.
-/

namespace UolaOs.Nvram

def NVRAM_VERSION : Nat := 1
def NVRAM_CRC_START_POSITION : Nat := 9

/-- `MEM4MX16X2` -/
def SDRAM_INIT : Nat := 0x419

/-- `SDRAM_BURSTFULL` -/
def SDRAM_CONFIG : Nat := 0

/-- `SDRAM_REF(0x40)` -/
def SDRAM_REFRESH : Nat := 0x8040

def crc8Table : List UInt8 :=
  [0x00, 0xF7, 0xB9, 0x4E, 0x25, 0xD2, 0x9C, 0x6B, 0x4A, 0xBD, 0xF3, 0x04,
   0x6F, 0x98, 0xD6, 0x21, 0x94, 0x63, 0x2D, 0xDA, 0xB1, 0x46, 0x08, 0xFF,
   0xDE, 0x29, 0x67, 0x90, 0xFB, 0x0C, 0x42, 0xB5, 0x7F, 0x88, 0xC6, 0x31,
   0x5A, 0xAD, 0xE3, 0x14, 0x35, 0xC2, 0x8C, 0x7B, 0x10, 0xE7, 0xA9, 0x5E,
   0xEB, 0x1C, 0x52, 0xA5, 0xCE, 0x39, 0x77, 0x80, 0xA1, 0x56, 0x18, 0xEF,
   0x84, 0x73, 0x3D, 0xCA, 0xFE, 0x09, 0x47, 0xB0, 0xDB, 0x2C, 0x62, 0x95,
   0xB4, 0x43, 0x0D, 0xFA, 0x91, 0x66, 0x28, 0xDF, 0x6A, 0x9D, 0xD3, 0x24,
   0x4F, 0xB8, 0xF6, 0x01, 0x20, 0xD7, 0x99, 0x6E, 0x05, 0xF2, 0xBC, 0x4B,
   0x81, 0x76, 0x38, 0xCF, 0xA4, 0x53, 0x1D, 0xEA, 0xCB, 0x3C, 0x72, 0x85,
   0xEE, 0x19, 0x57, 0xA0, 0x15, 0xE2, 0xAC, 0x5B, 0x30, 0xC7, 0x89, 0x7E,
   0x5F, 0xA8, 0xE6, 0x11, 0x7A, 0x8D, 0xC3, 0x34, 0xAB, 0x5C, 0x12, 0xE5,
   0x8E, 0x79, 0x37, 0xC0, 0xE1, 0x16, 0x58, 0xAF, 0xC4, 0x33, 0x7D, 0x8A,
   0x3F, 0xC8, 0x86, 0x71, 0x1A, 0xED, 0xA3, 0x54, 0x75, 0x82, 0xCC, 0x3B,
   0x50, 0xA7, 0xE9, 0x1E, 0xD4, 0x23, 0x6D, 0x9A, 0xF1, 0x06, 0x48, 0xBF,
   0x9E, 0x69, 0x27, 0xD0, 0xBB, 0x4C, 0x02, 0xF5, 0x40, 0xB7, 0xF9, 0x0E,
   0x65, 0x92, 0xDC, 0x2B, 0x0A, 0xFD, 0xB3, 0x44, 0x2F, 0xD8, 0x96, 0x61,
   0x55, 0xA2, 0xEC, 0x1B, 0x70, 0x87, 0xC9, 0x3E, 0x1F, 0xE8, 0xA6, 0x51,
   0x3A, 0xCD, 0x83, 0x74, 0xC1, 0x36, 0x78, 0x8F, 0xE4, 0x13, 0x5D, 0xAA,
   0x8B, 0x7C, 0x32, 0xC5, 0xAE, 0x59, 0x17, 0xE0, 0x2A, 0xDD, 0x93, 0x64,
   0x0F, 0xF8, 0xB6, 0x41, 0x60, 0x97, 0xD9, 0x2E, 0x45, 0xB2, 0xFC, 0x0B,
   0xBE, 0x49, 0x07, 0xF0, 0x9B, 0x6C, 0x22, 0xD5, 0xF4, 0x03, 0x4D, 0xBA,
   0xD1, 0x26, 0x68, 0x9F]

def hndcrc8 (data : Bytes) (crc : UInt8) : UInt8 :=
  data.foldl (fun crc b => crc8Table.getD (crc ^^^ b).toNat 0) crc

/-! ## The code -/

def Target.ulongMax (tg : Target) : Nat := 2 ^ (8 * tg.ptrSize) - 1

/-- The header words `crc_ver_init` (still without the checksum), `config_refresh` and
`config_ncdl`. -/
def headerParams (tg : Target) (h : Handle) : Nat × Nat × Nat :=
  let ver := NVRAM_VERSION <<< 8
  match nvramGet tg h sdramInit, nvramGet tg h sdramConfig, nvramGet tg h sdramRefresh,
      nvramGet tg h sdramNcdl with
  | some init, some config, some refresh, some ncdl =>
    let num (s : CStr) := strtoul tg.ulongMax 0 s.bytes
    (ver ||| (num init &&& 0xffff) <<< 16,
      (num config &&& 0xffff) ||| (num refresh &&& 0xffff) <<< 16, num ncdl % 2 ^ 32)
  | _, _, _, _ => (ver ||| SDRAM_INIT <<< 16, SDRAM_CONFIG ||| SDRAM_REFRESH <<< 16, 0)

/-- `sprintf(ptr, "%s=%s", t->name, t->value)` with its terminator. -/
def tupleText (t : Tuple) : Bytes := t.name.bytes ++ 61 :: t.value.bytes ++ [0]

def tupleSize (t : Tuple) : Nat := t.name.length + 1 + t.value.length + 1

/-- The inner loop over one chain. `out` is the text so far, so that `ptr` is
`headerSize + out.length` bytes after the header. -/
def writeChain (endPos : Nat) (out : Bytes) : List Tuple → Bytes
  | [] => out
  | t :: c =>
    if headerSize + out.length + t.name.length + 1 + t.value.length + 1 > endPos then out
    else writeChain endPos (out ++ tupleText t) c

/-- Write out all tuples. -/
def writeTable (endPos : Nat) (T : Chains) : Bytes :=
  (List.finRange 257).foldl (fun out i => writeChain endPos out (T i)) []

/-- How many bytes `memset` clears after `ptr`: the remainder is that of the address
as an `int`, so it is negative for an address with bit 31 set. -/
def padLength (ptr : Nat) : Nat :=
  let r := (Int.bmod ptr (2 ^ 32)).tmod 4
  if r ≠ 0 then (4 - r).toNat else 0

def headerBytes (tg : Target) (len crcVerInit configRefresh configNcdl : Nat) : Bytes :=
  tg.endian.put 4 NVRAM_MAGIC ++ tg.endian.put 4 len ++ tg.endian.put 4 crcVerInit ++
    tg.endian.put 4 configRefresh ++ tg.endian.put 4 configNcdl

/-- The mapping with the data area cleared, the tuples written and the end marked. -/
def commitData (h : Handle) (out : Bytes) (pad : Nat) : Bytes :=
  let data := h.area.offset + headerSize
  let cleared := poke h.mmap data (List.replicate (h.area.space - headerSize) 0xFF)
  let written := poke cleared data out
  let ended := poke written (data + out.length) [0]
  poke ended (data + out.length + 1) (List.replicate pad 0)

theorem length_commitData (h : Handle) (out : Bytes) (pad : Nat) :
    (commitData h out pad).length = h.area.length := by
  simp [commitData, h.mmap_length]

/-- The header for a data area whose text ends `len` bytes after the header's start. The
checksum covers the header words after it, taken from a zeroed copy, and the data. -/
def commitHeader (tg : Target) (h : Handle) (data : Bytes) (len : Nat) : Bytes :=
  let params := headerParams tg h
  let tmp := tg.endian.put 4 0 ++ tg.endian.put 4 0 ++ tg.endian.put 4 params.1 ++
    tg.endian.put 4 params.2.1 ++ tg.endian.put 4 params.2.2
  let crc := hndcrc8 (load data (h.area.offset + headerSize) (len - headerSize))
    (hndcrc8 (tmp.drop NVRAM_CRC_START_POSITION) 0xff)
  headerBytes tg len (params.1 ||| crc.toNat) params.2.1 params.2.2

/-- `nvram_commit` up to `msync`; `none` when a store leaves the mapping. -/
def writeBack (tg : Target) (h : Handle) : Option Handle :=
  let out := writeTable (h.area.space - 2) h.nvram_hash
  let ptr := headerSize + out.length + 1
  let pad := padLength (h.area.addr + h.area.offset + ptr)
  if ptr + pad > h.area.space then none
  else
    let data := commitData h out pad
    some { h with
      mmap := poke data h.area.offset (commitHeader tg h data (roundUp (ptr + 1) 4))
      mmap_length := by rw [length_poke, length_commitData] }

/-- Regenerate NVRAM. -/
def nvramCommit (tg : Target) (h : Handle) : Option (Handle × Int) :=
  ((writeBack tg h).bind (nvramRehash tg)).map (·, 0)

/-- The first word equal to the magic in the scanned part of a partition. -/
def findMagic (tg : Target) (image : Bytes) : Option Nat :=
  ((List.range ((image.length - NVRAM_MIN_SPACE) / 4 + 1)).find?
    fun i => wordAt tg image (i * 4) = NVRAM_MAGIC).map (· * 4)

theorem findMagic_spec {tg : Target} {image : Bytes} {off : Nat}
    (h : findMagic tg image = some off) (hl : NVRAM_MIN_SPACE ≤ image.length) :
    4 ∣ off ∧ off + NVRAM_MIN_SPACE ≤ image.length := by
  obtain ⟨i, hi, rfl⟩ := Option.map_eq_some_iff.mp h
  have := List.mem_range.mp (List.mem_of_find?_eq_some hi)
  exact ⟨Nat.dvd_mul_left 4 i, by omega⟩

/-- The partition sizes the scan copes with: below `NVRAM_MIN_SPACE` bytes its bound wraps
around and it leaves the mapping. The size itself is read into an `int`. -/
structure Scannable (image : Bytes) : Prop where
  min : NVRAM_MIN_SPACE ≤ image.length
  lt : image.length < 2 ^ 31

instance (image : Bytes) : Decidable (Scannable image) :=
  decidable_of_iff (NVRAM_MIN_SPACE ≤ image.length ∧ image.length < 2 ^ 31)
    ⟨fun h => ⟨h.1, h.2⟩, fun h => ⟨h.min, h.lt⟩⟩

/-- A handle on a mapped partition, with an empty table. -/
def openHandle {tg : Target} {image : Bytes} {off : Nat} (addr : { a : Nat // 4096 ∣ a })
    (hm : findMagic tg image = some off) (hl : Scannable image) : Handle where
  area :=
    { addr := addr.1, length := image.length, offset := off, page := addr.2
      aligned := (findMagic_spec hm hl.min).1
      room := (findMagic_spec hm hl.min).2
      length_lt := hl.lt }
  mmap := image
  mmap_length := rfl
  nvram_hash := fun _ => []
  nvram_dead := []

/-- Open NVRAM and obtain a handle; the partition is mapped at the page `addr`. -/
def nvramOpen (tg : Target) (addr : { a : Nat // 4096 ∣ a }) (image : Bytes) (rdonly : Bool) :
    Option Handle :=
  if hl : Scannable image then
    match (findMagic tg image).attach with
    | none => none
    | some ⟨_, hm⟩ =>
      let h := openHandle addr hm hl
      if headerMagic tg h = NVRAM_MAGIC ∧ (rdonly ∨ headerLen tg h < h.area.space) then
        nvramRehash tg h
      else none
  else none

theorem nvramOpen_eq {tg : Target} {addr : { a : Nat // 4096 ∣ a }} {image : Bytes} {off : Nat}
    (hm : findMagic tg image = some off) (hl : Scannable image) (rdonly : Bool) :
    nvramOpen tg addr image rdonly =
      if headerMagic tg (openHandle addr hm hl) = NVRAM_MAGIC ∧
          (rdonly ∨ headerLen tg (openHandle addr hm hl) < (openHandle addr hm hl).area.space)
      then nvramRehash tg (openHandle addr hm hl) else none := by
  have found : (findMagic tg image).attach = some ⟨off, hm⟩ := by
    generalize findMagic tg image = o at hm
    subst hm
    rfl
  rw [nvramOpen, dif_pos hl, found]

theorem nvramOpen_spec {tg : Target} {addr : { a : Nat // 4096 ∣ a }} {image : Bytes}
    {rdonly : Bool} {h : Handle} (ho : nvramOpen tg addr image rdonly = some h) :
    ∃ (off : Nat) (hm : findMagic tg image = some off) (hl : Scannable image),
      nvramRehash tg (openHandle addr hm hl) = some h ∧
      (rdonly = false → headerLen tg (openHandle addr hm hl) < image.length - off) := by
  by_cases hl : Scannable image
  · rcases Option.eq_none_or_eq_some (findMagic tg image) with hm | ⟨off, hm⟩
    · have missing : (findMagic tg image).attach = none := by simp [hm]
      rw [nvramOpen, dif_pos hl, missing] at ho
      cases ho
    · rw [nvramOpen_eq hm hl] at ho
      split at ho
      · rename_i hcond
        exact ⟨off, hm, hl, ho, fun hro => hcond.2.resolve_left (by simp [hro])⟩
      · cases ho
  · rw [nvramOpen, dif_neg hl] at ho
    cases ho

/-! ## What is written -/

/-- The room for the text of the tuples: the header comes before it, the double zero
byte after it. -/
def capacity (h : Handle) : Nat := h.area.space - 2 - headerSize

/-- The tuples a commit writes. -/
def committed (h : Handle) : List Tuple :=
  Packing.packed tupleSize (capacity h) ((List.finRange 257).map h.nvram_hash)

theorem length_tupleText (t : Tuple) : (tupleText t).length = tupleSize t := by
  simp [tupleText, tupleSize, CStr.length]
  omega

theorem length_text (ts : List Tuple) :
    (ts.flatMap tupleText).length = Packing.total tupleSize ts := by
  induction ts with
  | nil => rfl
  | cons t ts ih => simp [ih, length_tupleText]

theorem writeChain_eq (endPos : Nat) (out : Bytes) (c : List Tuple) :
    writeChain endPos out c = out ++
      (Packing.fitting tupleSize (endPos - headerSize - out.length) c).flatMap tupleText := by
  induction c generalizing out with
  | nil => simp [writeChain, Packing.fitting]
  | cons t c ih =>
    have size : tupleSize t = t.name.length + 1 + t.value.length + 1 := rfl
    unfold writeChain Packing.fitting
    by_cases hfit : headerSize + out.length + t.name.length + 1 + t.value.length + 1 > endPos
    · rw [if_pos hfit, if_neg (by omega)]
      simp
    · have room : endPos - headerSize - (out ++ tupleText t).length =
          endPos - headerSize - out.length - tupleSize t := by
        rw [List.length_append, length_tupleText]
        omega
      rw [if_neg hfit, if_pos (by omega), ih, room, List.flatMap_cons, List.append_assoc]

theorem writeTable_eq (endPos : Nat) (T : Chains) :
    writeTable endPos T =
      (Packing.packed tupleSize (endPos - headerSize) ((List.finRange 257).map T)).flatMap
        tupleText := by
  have walk : ∀ (is : List (Fin 257)) (out : Bytes),
      is.foldl (fun out i => writeChain endPos out (T i)) out = out ++
        (Packing.packed tupleSize (endPos - headerSize - out.length) (is.map T)).flatMap
          tupleText := by
    intro is
    induction is with
    | nil => intro out; simp [Packing.packed]
    | cons i is ih =>
      intro out
      have room : endPos - headerSize - (writeChain endPos out (T i)).length =
          endPos - headerSize - out.length - Packing.total tupleSize
            (Packing.fitting tupleSize (endPos - headerSize - out.length) (T i)) := by
        rw [writeChain_eq, List.length_append, length_text]
        omega
      rw [List.foldl_cons, ih, room, writeChain_eq, List.map_cons, Packing.packed,
        List.flatMap_append, List.append_assoc]
  have := walk (List.finRange 257) []
  simpa [writeTable] using this

theorem writeTable_committed (h : Handle) :
    writeTable (h.area.space - 2) h.nvram_hash = (committed h).flatMap tupleText :=
  writeTable_eq _ _

theorem length_committed_le (h : Handle) :
    ((committed h).flatMap tupleText).length ≤ capacity h := by
  rw [length_text]
  exact Packing.total_packed_le _ _ _

theorem committed_sublist (h : Handle) :
    (committed h).Sublist (ChainTable.entries h.nvram_hash) := by
  rw [ChainTable.entries, List.flatMap_def]
  exact Packing.packed_sublist tupleSize _ _

/-- Every tuple is written exactly when all of them fit together. -/
theorem committed_eq_iff (h : Handle) :
    committed h = ChainTable.entries h.nvram_hash ↔
      Packing.total tupleSize (ChainTable.entries h.nvram_hash) ≤ capacity h := by
  rw [ChainTable.entries, List.flatMap_def]
  exact Packing.packed_eq_iff

/-- The layout of the data area: the text, a zero byte and a rest. -/
theorem commitData_layout {h : Handle} {out : Bytes} {pad : Nat}
    (hpad : headerSize + out.length + 1 + pad ≤ h.area.space) :
    ∃ rest, commitData h out pad =
      h.mmap.take (h.area.offset + headerSize) ++ (out ++ 0 :: rest) := by
  have room := h.area.room
  simp only [headerSize, Area.space, NVRAM_MIN_SPACE] at hpad room
  let data := h.area.offset + headerSize
  let size := h.area.space - headerSize
  have lpre : (h.mmap.take data).length = data := by
    rw [List.length_take, h.mmap_length]
    simp only [data, headerSize]
    omega
  have ldata : (h.mmap.drop data).length = size := by
    rw [List.length_drop, h.mmap_length]
    simp only [data, size, headerSize, Area.space]
    omega
  have hsize : out.length + 1 + pad ≤ size := by
    simp only [size, headerSize, Area.space]
    omega
  have cleared : poke h.mmap data (List.replicate size 0xFF) =
      h.mmap.take data ++ List.replicate size 0xFF := by
    have step : poke (h.mmap.take data ++ h.mmap.drop data) data (List.replicate size 0xFF) = _ :=
      poke_append lpre (by simp [ldata])
    rwa [List.take_append_drop, List.length_replicate, List.drop_of_length_le (by omega),
      List.append_nil] at step
  let rest := (List.replicate size (0xFF : UInt8)).drop out.length
  have written : poke (h.mmap.take data ++ List.replicate size 0xFF) data out =
      h.mmap.take data ++ (out ++ rest) :=
    poke_append lpre (by simp; omega)
  have ended : poke (h.mmap.take data ++ out ++ rest) (data + out.length) [0] =
      h.mmap.take data ++ out ++ ([0] ++ rest.drop 1) :=
    poke_append (by simp only [List.length_append, lpre]) (by simp [rest]; omega)
  have padded : poke (h.mmap.take data ++ (out ++ [0]) ++ rest.drop 1) (data + out.length + 1)
      (List.replicate pad 0) = h.mmap.take data ++ (out ++ [0]) ++
        (List.replicate pad 0 ++ (rest.drop 1).drop (List.replicate pad (0 : UInt8)).length) :=
    poke_append (by simp only [List.length_append, lpre, List.length_singleton]; omega)
      (by simp [rest]; omega)
  refine ⟨List.replicate pad 0 ++ (rest.drop 1).drop (List.replicate pad (0 : UInt8)).length, ?_⟩
  change poke (poke (poke (poke h.mmap data (List.replicate size 0xFF)) data out)
    (data + out.length) [0]) (data + out.length + 1) (List.replicate pad 0) = _
  rw [cleared, written, ← List.append_assoc, ended, List.append_assoc, ← List.append_assoc out,
    ← List.append_assoc, padded, List.append_assoc, List.append_assoc, List.singleton_append]

/-- The layout a commit leaves: what lay before the header, the header, the text, a
zero byte and a rest. -/
theorem commit_layout {h : Handle} {out hdr : Bytes} {pad : Nat}
    (hhdr : hdr.length = headerSize)
    (hpad : headerSize + out.length + 1 + pad ≤ h.area.space) :
    ∃ rest, poke (commitData h out pad) h.area.offset hdr =
      h.mmap.take h.area.offset ++ (hdr ++ (out ++ 0 :: rest)) := by
  obtain ⟨rest, hrest⟩ := commitData_layout hpad
  have room := h.area.room
  simp only [NVRAM_MIN_SPACE] at room
  have lpre : (h.mmap.take h.area.offset).length = h.area.offset := by
    rw [List.length_take, h.mmap_length]
    omega
  have lold : ((h.mmap.drop h.area.offset).take headerSize).length = headerSize := by
    rw [List.length_take, List.length_drop, h.mmap_length, headerSize]
    omega
  refine ⟨rest, ?_⟩
  rw [hrest, List.take_add, List.append_assoc, poke_append lpre (by simp [lold, hhdr]),
    List.drop_append_of_le_length (by rw [lold, hhdr]), List.drop_of_length_le (by rw [lold, hhdr]),
    List.nil_append]

/-- The reader finds the written tuples again, in the order they were written. -/
theorem parseTuples_text {ts : List Tuple} (hn : ∀ t ∈ ts, 61 ∉ t.name.bytes) (rest : Bytes) :
    parseTuples (ts.flatMap tupleText ++ 0 :: rest) = some ts := by
  induction ts with
  | nil => exact parseTuples_zero rest
  | cons t ts ih =>
    have step : parseTuples (t.name.bytes ++ 61 :: t.value.bytes ++
        0 :: (ts.flatMap tupleText ++ 0 :: rest)) = _ := parseTuples_cons (hn t List.mem_cons_self) _
    rw [ih fun u hu => hn u (List.mem_cons_of_mem t hu)] at step
    simpa [tupleText] using step

theorem length_headerBytes (tg : Target) (len a b c : Nat) :
    (headerBytes tg len a b c).length = headerSize := by
  simp [headerBytes, headerSize]

theorem length_commitHeader (tg : Target) (h : Handle) (data : Bytes) (len : Nat) :
    (commitHeader tg h data len).length = headerSize := length_headerBytes tg _ _ _ _

/-- The bytes from the header to the end of the last tuple. -/
def writtenLength (h : Handle) : Nat :=
  headerSize + Packing.total tupleSize (committed h)

/-- What `nvram_commit` writes out. -/
theorem writeBack_spec {tg : Target} {h w : Handle} (hw : writeBack tg h = some w) :
    w.area = h.area ∧ ∃ a b c rest,
      w.mmap = h.mmap.take h.area.offset ++
        (headerBytes tg (roundUp (writtenLength h + 2) 4) a b c ++
          ((committed h).flatMap tupleText ++ 0 :: rest)) := by
  simp only [writeBack, writeTable_committed] at hw
  split at hw
  · cases hw
  · rename_i hpad
    obtain rfl := Option.some.inj hw
    obtain ⟨rest, hrest⟩ := commit_layout (length_commitHeader tg h _ _) (Nat.le_of_not_lt hpad)
    simp only [writtenLength, ← length_text]
    exact ⟨trivial, _, _, _, rest, hrest⟩

theorem offset_le_mmap (h : Handle) : h.area.offset + headerSize ≤ h.mmap.length := by
  have := h.area.room
  simp only [NVRAM_MIN_SPACE] at this
  rw [h.mmap_length, headerSize]
  omega

theorem length_take_offset (h : Handle) : (h.mmap.take h.area.offset).length = h.area.offset := by
  have := offset_le_mmap h
  rw [List.length_take]
  omega

/-- The data area a commit writes parses to the tuples it has written. -/
theorem parseTuples_writeBack {tg : Target} {h w : Handle} (hw : writeBack tg h = some w)
    (hn : ∀ t ∈ committed h, 61 ∉ t.name.bytes) :
    parseTuples (w.mmap.drop (w.area.offset + headerSize)) = some (committed h) := by
  obtain ⟨area, a, b, c, rest, mmap⟩ := writeBack_spec hw
  have lhead : (h.mmap.take h.area.offset ++
      headerBytes tg (roundUp (writtenLength h + 2) 4) a b c).length =
        h.area.offset + headerSize := by
    rw [List.length_append, length_take_offset, length_headerBytes]
  rw [mmap, area, ← List.append_assoc, ← lhead, List.drop_left]
  exact parseTuples_text hn rest

/-- After a commit the table holds what the written image means. -/
theorem nvramCommit_spec {tg : Target} {h h' : Handle} {r : Int}
    (hc : nvramCommit tg h = some (h', r)) (hn : ∀ t ∈ committed h, 61 ∉ t.name.bytes) :
    ∃ w, writeBack tg h = some w ∧ r = 0 ∧ h'.area = w.area ∧ h'.mmap = w.mmap ∧
      TableOk tg h' ∧ ∀ n, nvramGet tg h' n = imageValue tg w (committed h) n := by
  obtain ⟨h₁, hr, heq⟩ := Option.map_eq_some_iff.mp hc
  obtain ⟨rfl, rfl⟩ := Prod.mk.injEq .. ▸ heq
  obtain ⟨w, hw, hr⟩ := Option.bind_eq_some_iff.mp hr
  obtain ⟨ts, hts, ok, area, mmap, get⟩ := nvramRehash_spec hr
  rw [parseTuples_writeBack hw hn] at hts
  obtain rfl := Option.some.inj hts
  exact ⟨w, hw, rfl, area, mmap, ok, get⟩

/-- The rehash after the write never leaves the mapping. -/
theorem nvramCommit_returns {tg : Target} {h w : Handle} (hw : writeBack tg h = some w)
    (hn : ∀ t ∈ committed h, 61 ∉ t.name.bytes) : ∃ h', nvramCommit tg h = some (h', 0) := by
  simp [nvramCommit, hw, nvramRehash, parseTuples_writeBack hw hn]

end UolaOs.Nvram
