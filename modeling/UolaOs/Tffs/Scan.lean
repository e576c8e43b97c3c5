import UolaOs.Tffs.Nand
import Mathlib.Data.Nat.Find

/-!
# The scan for bad sectors

`check_block` and `scan_mtd` of fritz_tffs_nand_read.c, on a device whose reads may fail.

* `scanRound`: one round of the loop, on a bitmap that is not left;
* `Alive` and `listedAt`: what a sector needs to be good, and which sectors a header marks;
* `scan_spec`: the bitmap after some rounds;
* `scanMtd_iff`: when exactly the right sectors are good.
-/

namespace UolaOs.Tffs

/-! ## The device -/

/-- A device, and what is read at the position of each sector. -/
structure Mtd where
  /-- `info.size` -/
  size : Nat
  size_lt : size < 2 ^ 32
  data : Nat → Option Bytes
  oob : Nat → Option Bytes
  length_data : ∀ sector buf, data sector = some buf → buf.length = 0x800
  length_oob : ∀ sector buf, oob sector = some buf → buf.length = 0x40

/-- `TFFS_BLOCK_HEADER_MAGIC` -/
def blockHeaderMagic : Nat := 0x41564d5f54464653

/-- `TFFS_SECTORS_PER_PAGE` -/
def sectorsPerPage : Nat := 2

/-- The bitmap of the good sectors: sector `n` has bit `0x80 >> n % 8` of byte `n / 8`. -/
abbrev Bitmap := List Bool

/-- `sector_mark_bad`, `none` outside of the bitmap. A number from 2^31 on is negative. -/
def sectorMarkBad (sectors : Bitmap) (num : Nat) : Option Bitmap :=
  if num < sectors.length then some (sectors.set num false) else none

/-- `sector_get_good` -/
def sectorGetGood (sectors : Bitmap) (num : Nat) : Option Bool := sectors[num]?

/-- `read_uint64`, `none` outside of the buffer. -/
def Reader.word64 (c : Reader) (buf : Bytes) (off : Nat) : Option Nat :=
  if off + 8 ≤ buf.length then some (c.order.get (load buf off 8)) else none

section
variable (c : Reader) (m : Mtd)

/-- `check_sector` -/
def checkSector (sector : Nat) : Bool :=
  if c.health = false then true
  else
    match m.oob sector with
    | none => false
    | some oob => decide (oob.getD 0 0 = 0xff ∧ oob.getD 1 0 = 0xff)

/-- The header of the block at a sector, when `check_block` accepts it. -/
def acceptedHeader (sector : Nat) : Option Bytes :=
  if checkSector c m sector = false then none
  else
    match m.data sector with
    | none => none
    | some buf =>
      if c.word64 buf 0x00 ≠ some blockHeaderMagic then none
      else if c.word buf 0x0c ≠ sectorsPerPage then none
      else some buf

/-- The loop of `check_block`: `num_hdr_bad` comes from the header, and so do the numbers. -/
def markListed (buf : Bytes) (sector : Nat) (sectors : Bitmap) : Option Bitmap :=
  (List.range (c.word buf 0x0c)).foldlM
    (fun sectors i => do
      let entry ← c.word64 buf (0x1c + 8 * i)
      sectorMarkBad sectors (u32 (sector + entry)))
    sectors

/-- `check_block` -/
def checkBlock (sector : Nat) (sectors : Bitmap) : Option (Bool × Bitmap) :=
  match acceptedHeader c m sector with
  | none => some (false, sectors)
  | some buf => (markListed c buf sector sectors).map (Prod.mk true)

/-- What `scan_mtd` knows. -/
structure ScanState where
  blockOk : Bool
  validBlocks : Nat
  sectors : Bitmap
  deriving DecidableEq

/-- A block begins at a sector. -/
def Starts (sector : Nat) : Prop := sector * 0x800 % c.blocksize = 0

instance (sector : Nat) : Decidable (Starts c sector) := inferInstanceAs (Decidable (_ = _))

/-- A round of `scan_mtd`. -/
def scanRound (st : ScanState) (sector : Nat) : Option ScanState :=
  if Starts c sector then do
    let block ← checkBlock c m sector st.sectors
    let sectors ← sectorMarkBad block.2 sector
    some ⟨block.1, if block.1 = true then st.validBlocks + 1 else st.validBlocks, sectors⟩
  else if st.blockOk = false then
    (sectorMarkBad st.sectors sector).map fun sectors => { st with sectors := sectors }
  else do
    let good ← sectorGetGood st.sectors sector
    if good = false ∨ checkSector c m sector = false then
      (sectorMarkBad st.sectors sector).map fun sectors => { st with sectors := sectors }
    else some st

/-- `num_sectors` -/
def Mtd.numSectors : Nat := m.size / 0x800

/-- The bits of the bitmap. -/
def Mtd.bits : Nat := (m.numSectors + 7) / 8 * 8

/-- The rounds of the loop, which goes to the end of the device in steps of a sector. -/
def Mtd.rounds : Nat := (m.size + 0x7ff) / 0x800

def scanFirst (n : Nat) : Option ScanState :=
  (List.range n).foldlM (scanRound c m) ⟨false, 0, List.replicate m.bits true⟩

/-- `scan_mtd`, `none` when the bitmap or a buffer is left. -/
def scanMtd : Option ScanState := scanFirst c m m.rounds

/-! ## What is to be good -/

/-- The first sector of a block. -/
def blockStart (sector : Nat) : Nat := Nat.findGreatest (Starts c) sector

/-- The numbers in a header. -/
def listed (buf : Bytes) (sector : Nat) : List Nat :=
  (List.range sectorsPerPage).map fun i =>
    u32 (sector + c.order.get (load buf (0x1c + 8 * i) 8))

/-- The numbers in the header of the block that begins at a sector. -/
def listedAt (sector : Nat) : List Nat :=
  if Starts c sector then ((acceptedHeader c m sector).map (listed c · sector)).getD [] else []

/-- The block of a sector has a valid header. -/
def Valid (sector : Nat) : Prop := (acceptedHeader c m (blockStart c sector)).isSome = true

/-- What a sector needs, apart from the list of bad ones. -/
structure Alive (sector : Nat) : Prop where
  valid : Valid c m sector
  inner : ¬ Starts c sector
  sound : checkSector c m sector = true

/-- What a sector needs to be good. -/
structure Good (sector : Nat) : Prop where
  alive : Alive c m sector
  unlisted : sector ∉ listedAt c m (blockStart c sector)

/-- The scan stays in its bitmap, and exactly the right sectors are good. -/
def Exact : Prop :=
  ∃ st, scanMtd c m = some st ∧
    ∀ sector < m.numSectors, st.sectors[sector]? = some true ↔ Good c m sector

/-- The numbers in the headers are in the bitmap, and mark no sector that another block needs. -/
structure Marked : Prop where
  whole : m.size % 0x800 = 0 ∨ m.numSectors % 8 ≠ 0
  inside : ∀ start < m.rounds, ∀ num ∈ listedAt c m start, num < m.bits
  own : ∀ sector < m.numSectors, Good c m sector →
    ∀ start < m.rounds, sector ∉ listedAt c m start

end

/-! ## The bitmap -/

/-- The good sectors of a bitmap of `n` bits. -/
def Marks (sectors : Bitmap) (n : Nat) (P : Nat → Prop) : Prop :=
  sectors.length = n ∧ ∀ num < n, sectors[num]? = some true ↔ P num

section
variable {sectors : Bitmap} {n num : Nat} {P Q : Nat → Prop}

theorem Marks.congr (h : Marks sectors n P) (hPQ : ∀ num < n, P num ↔ Q num) :
    Marks sectors n Q :=
  ⟨h.1, fun num hnum => (h.2 num hnum).trans (hPQ num hnum)⟩

theorem Marks.markBad (h : Marks sectors n P) (hnum : num < n) :
    ∃ sectors', sectorMarkBad sectors num = some sectors' ∧
      Marks sectors' n fun k => P k ∧ k ≠ num := by
  refine ⟨sectors.set num false, if_pos (h.1.symm ▸ hnum), by rw [List.length_set, h.1], ?_⟩
  intro k hk
  by_cases hkn : k = num
  · subst hkn
    rw [List.getElem?_set_self (h.1.symm ▸ hnum)]
    simp
  · rw [List.getElem?_set_ne (Ne.symm hkn), h.2 k hk]
    exact ⟨fun hP => ⟨hP, hkn⟩, And.left⟩

theorem Marks.markBad_none (h : Marks sectors n P) (hnum : n ≤ num) :
    sectorMarkBad sectors num = none :=
  if_neg (by rw [h.1]; omega)

theorem Marks.getGood (h : Marks sectors n P) (hnum : num < n) :
    ∃ good, sectorGetGood sectors num = some good ∧ (good = true ↔ P num) := by
  obtain ⟨good, hgood⟩ : ∃ good, sectors[num]? = some good :=
    Option.isSome_iff_exists.mp (by simpa [h.1] using hnum)
  refine ⟨good, hgood, ?_⟩
  rw [← h.2 num hnum, hgood, Option.some.injEq]

theorem Marks.getGood_none (h : Marks sectors n P) (hnum : n ≤ num) :
    sectorGetGood sectors num = none := by
  rw [sectorGetGood, List.getElem?_eq_none (h.1.trans_le hnum)]

theorem marks_first (n : Nat) : Marks (List.replicate n true) n fun _ => True :=
  ⟨List.length_replicate, fun num hnum => by simp [hnum]⟩

/-- Several marks. -/
theorem Marks.markAll {nums : List Nat} (h : Marks sectors n P) :
    (∃ sectors', nums.foldlM sectorMarkBad sectors = some sectors') ↔ ∀ num ∈ nums, num < n := by
  induction nums generalizing sectors P with
  | nil => simp
  | cons num nums ih =>
    rw [List.foldlM_cons, List.forall_mem_cons]
    by_cases hnum : num < n
    · obtain ⟨sectors', hmark, hmarks⟩ := h.markBad hnum
      rw [hmark, and_iff_right hnum]
      exact ih hmarks
    · rw [h.markBad_none (Nat.le_of_not_lt hnum)]
      exact iff_of_false (fun ⟨_, hx⟩ => by cases hx) fun hall => hnum hall.1

theorem Marks.markAll_eq {nums : List Nat} {sectors' : Bitmap} (h : Marks sectors n P)
    (hrun : nums.foldlM sectorMarkBad sectors = some sectors') :
    Marks sectors' n fun k => P k ∧ k ∉ nums := by
  induction nums generalizing sectors P with
  | nil =>
    cases hrun
    exact h.congr fun k _ => by simp
  | cons num nums ih =>
    rw [List.foldlM_cons] at hrun
    by_cases hnum : num < n
    · obtain ⟨sectors'', hmark, hmarks⟩ := h.markBad hnum
      rw [hmark] at hrun
      refine (ih hmarks hrun).congr fun k _ => ?_
      rw [List.mem_cons, not_or, and_assoc]
    · rw [h.markBad_none (Nat.le_of_not_lt hnum)] at hrun
      cases hrun

end

/-! ## One round -/

section
variable {c : Reader} {m : Mtd} {sector n : Nat} {st : ScanState} {P : Nat → Prop} {buf : Bytes}

theorem acceptedHeader_some (h : acceptedHeader c m sector = some buf) :
    buf.length = 0x800 ∧ c.word buf 0x0c = sectorsPerPage := by
  rw [acceptedHeader] at h
  split at h
  · cases h
  · split at h
    · cases h
    · rename_i hdata
      split at h
      · cases h
      · split at h
        · cases h
        · rename_i hpage
          cases h
          exact ⟨m.length_data _ _ hdata, not_ne_iff.mp hpage⟩

/-- What the header lists is read inside of the buffer. -/
theorem markListed_eq (h : acceptedHeader c m sector = some buf) (sectors : Bitmap) :
    markListed c buf sector sectors = (listed c buf sector).foldlM sectorMarkBad sectors := by
  obtain ⟨hlength, hpage⟩ := acceptedHeader_some h
  have hword (i : Nat) (hi : i < 2) :
      c.word64 buf (0x1c + 8 * i) = some (c.order.get (load buf (0x1c + 8 * i) 8)) :=
    if_pos (by omega)
  rw [markListed, hpage, listed, sectorsPerPage]
  simp only [List.range_succ, List.range_zero, List.nil_append, List.cons_append, List.map_cons,
    List.map_nil, List.foldlM_cons, hword 0 (by decide), hword 1 (by decide), Option.bind_eq_bind,
    Option.bind_some]
  rfl

theorem listedAt_start (hstart : Starts c sector) (h : acceptedHeader c m sector = some buf) :
    listedAt c m sector = listed c buf sector := by
  rw [listedAt, if_pos hstart, h]
  rfl

theorem listedAt_rejected (h : acceptedHeader c m sector = none) : listedAt c m sector = [] := by
  rw [listedAt, h]
  split <;> rfl

theorem listedAt_inner (h : ¬ Starts c sector) : listedAt c m sector = [] := if_neg h

/-- What `check_block` leaves at the start of a block. -/
theorem checkBlock_spec (hstart : Starts c sector) {sectors : Bitmap} (h : Marks sectors n P) :
    (∃ r, checkBlock c m sector sectors = some r) ↔ ∀ num ∈ listedAt c m sector, num < n := by
  rw [checkBlock]
  cases hheader : acceptedHeader c m sector with
  | none =>
    rw [listedAt_rejected hheader]
    exact iff_of_true ⟨_, rfl⟩ (by simp)
  | some buf =>
    dsimp only
    rw [listedAt_start hstart hheader, markListed_eq hheader, ← h.markAll]
    constructor
    · rintro ⟨r, hr⟩
      obtain ⟨sectors', hrun, -⟩ := Option.map_eq_some_iff.mp hr
      exact ⟨sectors', hrun⟩
    · rintro ⟨sectors', hrun⟩
      rw [hrun]
      exact ⟨_, rfl⟩

theorem checkBlock_eq (hstart : Starts c sector) {sectors : Bitmap} (h : Marks sectors n P)
    {r : Bool × Bitmap} (hr : checkBlock c m sector sectors = some r) :
    r.1 = (acceptedHeader c m sector).isSome ∧
      Marks r.2 n fun k => P k ∧ k ∉ listedAt c m sector := by
  rw [checkBlock] at hr
  cases hheader : acceptedHeader c m sector with
  | none =>
    rw [hheader] at hr
    cases hr
    rw [listedAt_rejected hheader]
    exact ⟨rfl, h.congr fun k _ => by simp⟩
  | some buf =>
    rw [hheader] at hr
    obtain ⟨sectors', hrun, rfl⟩ := Option.map_eq_some_iff.mp hr
    rw [markListed_eq hheader] at hrun
    rw [listedAt_start hstart hheader]
    exact ⟨rfl, h.markAll_eq hrun⟩

theorem blockStart_start (h : Starts c n) : blockStart c n = n := Nat.findGreatest_eq h

theorem blockStart_inner (h : ¬ Starts c (n + 1)) : blockStart c (n + 1) = blockStart c n :=
  Nat.findGreatest_of_not h

theorem starts_zero (c : Reader) : Starts c 0 := by
  rw [Starts, Nat.zero_mul, Nat.zero_mod]

/-- What holds after the first rounds. -/
structure After (c : Reader) (m : Mtd) (n : Nat) (st : ScanState) : Prop where
  blockOk : ∀ k, n = k + 1 → (st.blockOk = true ↔ Valid c m k)
  marks : Marks st.sectors m.bits fun sector =>
    (∀ start < n, sector ∉ listedAt c m start) ∧ (sector < n → Alive c m sector)

/-- A sector inside of a block has the block of the sector before. -/
theorem After.blockOk_iff (h : After c m n st) (hinner : ¬ Starts c n) :
    st.blockOk = true ↔ Valid c m n := by
  cases n with
  | zero => exact absurd (starts_zero c) hinner
  | succ k => rw [h.blockOk k rfl, Valid, Valid, blockStart_inner hinner]

/-- The next sector is not good, or it is left as it is. -/
theorem After.next_marks {sectors : Bitmap} (h : After c m n st) (alive : Prop)
    (hmarks : Marks sectors m.bits fun sector =>
      ((∀ start < n, sector ∉ listedAt c m start) ∧ (sector < n → Alive c m sector)) ∧
        sector ∉ listedAt c m n ∧ (sector = n → alive))
    (halive : (∀ start < n, n ∉ listedAt c m start) → (alive ↔ Alive c m n)) :
    Marks sectors m.bits fun sector =>
      (∀ start < n + 1, sector ∉ listedAt c m start) ∧ (sector < n + 1 → Alive c m sector) := by
  refine hmarks.congr fun sector _ => ?_
  rw [Nat.forall_lt_succ_right]
  constructor
  · rintro ⟨⟨hlisted, hbefore⟩, hnow, hsame⟩
    refine ⟨⟨hlisted, hnow⟩, fun hlt => ?_⟩
    rcases Nat.lt_succ_iff_lt_or_eq.mp hlt with hlt | rfl
    · exact hbefore hlt
    · exact (halive hlisted).mp (hsame rfl)
  · rintro ⟨⟨hlisted, hnow⟩, hall⟩
    refine ⟨⟨hlisted, fun hlt => hall (Nat.lt_succ_of_lt hlt)⟩, hnow, ?_⟩
    rintro rfl
    exact (halive hlisted).mpr (hall (Nat.lt_succ_self _))

/-- When a round stays in the bitmap. -/
theorem scanRound_isSome (h : After c m n st) :
    (∃ st', scanRound c m st n = some st') ↔
      n < m.bits ∧ ∀ num ∈ listedAt c m n, num < m.bits := by
  rw [scanRound]
  by_cases hstart : Starts c n
  · rw [if_pos hstart, ← checkBlock_spec hstart h.marks]
    constructor
    · rintro ⟨st', hst⟩
      obtain ⟨r, hr, hst⟩ := Option.bind_eq_some_iff.mp hst
      refine ⟨?_, r, hr⟩
      by_contra hn
      rw [(checkBlock_eq hstart h.marks hr).2.markBad_none (Nat.le_of_not_lt hn)] at hst
      cases hst
    · rintro ⟨hn, r, hr⟩
      obtain ⟨sectors, hmark, -⟩ := (checkBlock_eq hstart h.marks hr).2.markBad hn
      rw [hr, Option.bind_eq_bind, Option.bind_some, hmark]
      exact ⟨_, rfl⟩
  · rw [if_neg hstart, listedAt_inner hstart, and_iff_left (by simp)]
    by_cases hn : n < m.bits
    · refine iff_of_true ?_ hn
      obtain ⟨sectors, hmark, -⟩ := h.marks.markBad hn
      obtain ⟨good, hgood, -⟩ := h.marks.getGood hn
      rw [hmark, hgood]
      split
      · exact ⟨_, rfl⟩
      · rw [Option.bind_eq_bind, Option.bind_some]
        split <;> exact ⟨_, rfl⟩
    · refine iff_of_false ?_ hn
      rw [h.marks.markBad_none (Nat.le_of_not_lt hn), h.marks.getGood_none (Nat.le_of_not_lt hn)]
      rintro ⟨st', hst⟩
      split at hst <;> cases hst

/-- **What a round does** to the bitmap. -/
theorem scanRound_after {st' : ScanState} (h : After c m n st)
    (hst : scanRound c m st n = some st') : After c m (n + 1) st' := by
  have hn : n < m.bits := ((scanRound_isSome h).mp ⟨st', hst⟩).1
  rw [scanRound] at hst
  by_cases hstart : Starts c n
  · rw [if_pos hstart] at hst
    obtain ⟨r, hr, hst⟩ := Option.bind_eq_some_iff.mp hst
    obtain ⟨hok, hmarks⟩ := checkBlock_eq hstart h.marks hr
    obtain ⟨sectors, hmark, hmarks'⟩ := hmarks.markBad hn
    rw [hmark, Option.bind_eq_bind, Option.bind_some, Option.some.injEq] at hst
    subst hst
    refine ⟨fun k hk => ?_, ?_⟩
    · cases hk
      rw [Valid, blockStart_start hstart, ← hok]
    · refine h.next_marks False (hmarks'.congr fun sector _ => ?_)
        fun _ => iff_of_false not_false fun halive => halive.inner hstart
      rw [and_assoc]
  · rw [if_neg hstart] at hst
    have hok := h.blockOk_iff hstart
    obtain ⟨sectors, hmark, hmarks⟩ := h.marks.markBad hn
    -- marking the sector is right when it is not alive
    have hbad (hdead : (∀ start < n, n ∉ listedAt c m start) → ¬ Alive c m n) :
        After c m (n + 1) { st with sectors := sectors } := by
      refine ⟨fun k hk => ?_, h.next_marks False (hmarks.congr fun sector _ => ?_)
        fun hlisted => iff_of_false not_false (hdead hlisted)⟩
      · cases hk
        exact hok
      · rw [listedAt_inner hstart]
        simp
    rw [hmark] at hst
    by_cases hblock : st.blockOk = false
    · rw [if_pos hblock, Option.map_some, Option.some.injEq] at hst
      subst hst
      refine hbad fun _ halive => ?_
      exact absurd hblock (by simp [hok.mpr halive.valid])
    · rw [if_neg hblock] at hst
      obtain ⟨good, hget, hgood⟩ := h.marks.getGood hn
      rw [hget, Option.bind_eq_bind, Option.bind_some] at hst
      split at hst
      · rename_i hcase
        cases hst
        refine hbad fun hlisted halive => ?_
        rcases hcase with hno | hcheck
        · rw [hgood.mpr ⟨hlisted, fun hlt => absurd hlt (Nat.lt_irrefl _)⟩] at hno
          cases hno
        · rw [halive.sound] at hcheck
          cases hcheck
      · rename_i hcase
        cases hst
        refine ⟨fun k hk => ?_, h.next_marks True (h.marks.congr fun sector _ => ?_)
          fun _ => iff_of_true trivial ?_⟩
        · cases hk
          exact hok
        · rw [listedAt_inner hstart]
          simp
        · rw [not_or, Bool.not_eq_false, Bool.not_eq_false] at hcase
          exact ⟨hok.mp (by simpa using hblock), hstart, hcase.2⟩

theorem scanFirst_succ (n : Nat) :
    scanFirst c m (n + 1) = (scanFirst c m n).bind fun st => scanRound c m st n := by
  rw [scanFirst, List.range_succ, List.foldlM_append]
  simp [scanFirst]

theorem scanFirst_after (hst : scanFirst c m n = some st) : After c m n st := by
  induction n generalizing st with
  | zero =>
    cases hst
    refine ⟨fun k hk => absurd hk.symm (Nat.succ_ne_zero k), (marks_first _).congr fun num _ => ?_⟩
    simp
  | succ n ih =>
    rw [scanFirst_succ] at hst
    obtain ⟨st', hst', hround⟩ := Option.bind_eq_some_iff.mp hst
    exact scanRound_after (ih hst') hround

/-- When the scan stays in its bitmap. -/
theorem scan_spec (n : Nat) : (∃ st, scanFirst c m n = some st) ↔
    ∀ k < n, k < m.bits ∧ ∀ num ∈ listedAt c m k, num < m.bits := by
  induction n with
  | zero => exact iff_of_true ⟨_, rfl⟩ fun k hk => absurd hk (Nat.not_lt_zero k)
  | succ n ih =>
    rw [Nat.forall_lt_succ_right, ← ih, scanFirst_succ]
    constructor
    · rintro ⟨st, hst⟩
      obtain ⟨st', hst', hround⟩ := Option.bind_eq_some_iff.mp hst
      exact ⟨⟨st', hst'⟩, (scanRound_isSome (scanFirst_after hst')).mp ⟨st, hround⟩⟩
    · rintro ⟨⟨st, hst⟩, hround⟩
      rw [hst, Option.bind_some]
      exact (scanRound_isSome (scanFirst_after hst)).mpr hround

/-! ## The whole scan -/

theorem rounds_le_iff (m : Mtd) :
    m.rounds ≤ m.bits ↔ m.size % 0x800 = 0 ∨ m.numSectors % 8 ≠ 0 := by
  rw [Mtd.rounds, Mtd.bits, Mtd.numSectors]
  omega

theorem numSectors_le (m : Mtd) : m.numSectors ≤ m.rounds ∧ m.numSectors ≤ m.bits := by
  rw [Mtd.rounds, Mtd.bits, Mtd.numSectors]
  omega

/-- **When the scan marks exactly the right sectors**, and only bits of its bitmap. -/
theorem scanMtd_iff (c : Reader) (m : Mtd) : Exact c m ↔ Marked c m := by
  obtain ⟨hrounds, hbits⟩ := numSectors_le m
  have hinside : (∀ k < m.rounds, k < m.bits ∧ ∀ num ∈ listedAt c m k, num < m.bits) ↔
      (m.size % 0x800 = 0 ∨ m.numSectors % 8 ≠ 0) ∧
        ∀ start < m.rounds, ∀ num ∈ listedAt c m start, num < m.bits := by
    rw [← rounds_le_iff, forall₂_and]
    refine and_congr_left fun _ => ⟨fun h => ?_, fun h k hk => hk.trans_le h⟩
    by_contra hlt
    exact absurd (h m.bits (Nat.lt_of_not_le hlt)) (Nat.lt_irrefl _)
  -- what the bitmap says in the end, for a sector
  have hgood {st : ScanState} (hst : scanMtd c m = some st) (sector : Nat)
      (hsector : sector < m.numSectors) : st.sectors[sector]? = some true ↔
        (∀ start < m.rounds, sector ∉ listedAt c m start) ∧ Alive c m sector := by
    rw [(scanFirst_after hst).marks.2 sector (hsector.trans_le hbits)]
    dsimp only
    rw [imp_iff_right (hsector.trans_le hrounds)]
  constructor
  · rintro ⟨st, hst, hexact⟩
    obtain ⟨hwhole, hlisted⟩ := hinside.mp ((scan_spec m.rounds).mp ⟨st, hst⟩)
    refine ⟨hwhole, hlisted, fun sector hsector hsgood => ?_⟩
    exact ((hgood hst sector hsector).mp ((hexact sector hsector).mpr hsgood)).1
  · rintro ⟨hwhole, hlisted, hown⟩
    obtain ⟨st, hst⟩ := (scan_spec m.rounds).mpr (hinside.mpr ⟨hwhole, hlisted⟩)
    refine ⟨st, hst, fun sector hsector => ?_⟩
    rw [hgood hst sector hsector]
    constructor
    · rintro ⟨hnone, halive⟩
      refine ⟨halive, hnone _ ?_⟩
      exact (Nat.findGreatest_le sector).trans_lt (hsector.trans_le hrounds)
    · intro hsgood
      exact ⟨hown sector hsector hsgood, hsgood.alive⟩

/-! ## Numbers that lead out of their block -/

theorem blocksize_pos_4096 : 0 < 0x1000 := Nat.succ_pos _

theorem size_lt_8192 : 0x2000 < 2 ^ 32 := by decide

/-- Blocks of two sectors. -/
def twoSectors : Reader := ⟨.little, false, 0x1000, blocksize_pos_4096⟩

/-- Two blocks, where the header of the first one has a number and the other one has none. -/
def twoBlocks (num : Nat) (sector : Nat) : Option Bytes :=
  some (padded 0x800 (leBytes 8 blockHeaderMagic ++ leBytes 4 0 ++ leBytes 4 sectorsPerPage ++
    leBytes 12 0 ++ leBytes 8 (if sector = 0 then num else 0)))

theorem length_twoBlocks (num sector : Nat) (buf : Bytes) (h : twoBlocks num sector = some buf) :
    buf.length = 0x800 := by
  cases h
  exact length_padded _ _

def noOob (_ : Nat) : Option Bytes := none

theorem length_noOob (sector : Nat) (buf : Bytes) (h : noOob sector = some buf) :
    buf.length = 0x40 := by
  cases h

/-- A device with these blocks. -/
def listing (num : Nat) : Mtd :=
  ⟨0x2000, size_lt_8192, twoBlocks num, noOob, length_twoBlocks num, length_noOob⟩

theorem scanMtd_listing : ¬ Exact twoSectors (listing 100) ∧ ¬ Exact twoSectors (listing 3) := by
  constructor
  · -- number 100 is not in the bitmap, which has 8 bits
    rintro ⟨st, hst, -⟩
    have hnone : scanMtd twoSectors (listing 100) = none := by decide +kernel
    rw [hnone] at hst
    cases hst
  · -- sector 3 is in the other block
    rintro ⟨st, hst, hexact⟩
    have hbad : (scanMtd twoSectors (listing 3)).map (fun st => st.sectors[3]?) =
        some (some false) := by decide +kernel
    have hvalid : Valid twoSectors (listing 3) 3 := by
      rw [Valid]
      decide +kernel
    have hgood : Good twoSectors (listing 3) 3 :=
      ⟨⟨hvalid, by decide, by decide⟩, by decide +kernel⟩
    have hmark := (hexact 3 (by decide)).mpr hgood
    rw [hst, Option.map_some, hmark] at hbad
    cases hbad

end

end UolaOs.Tffs
