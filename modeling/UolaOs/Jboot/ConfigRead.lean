import UolaOs.Lib.Buffer
import Mathlib.Algebra.Ring.Nat

/-!
# Reading a JBOOT configuration

jboot_config_read.c: `find_header` and what `main` does with its table.

* `findHeader`, `main`: the program, whose reads fail outside of the file;
* `walk_overruns`: a walk over the entries only ends behind the file;
* `readsConfig_never`: no file is read as it should be.
-/

namespace UolaOs.Jboot

inductive Fault where
  /-- An access outside of the file. -/
  | outside
  /-- An entry behind the end of the table. -/
  | table
  /-- An entry that was not stored. -/
  | uninitialised
  deriving DecidableEq

def stagSize : Nat := 16

def csxfSize : Nat := 16

def csxfMagic : Nat := 0x5343

def maxDataHeader : Nat := 128

def dataHeaderUnknown : Nat := 0x8000

def dataHeaderEeprom : UInt8 := 0xF5

def dataHeaderConfig : UInt8 := 0x42

def dataHeaderSize : Nat := 6

def exitSuccess : Nat := 0

def exitFailure : Nat := 1

/-! ## Checksums -/

/-- `while (counter >> 16)`: three rounds are enough for 32 bits. -/
def foldCarry (counter : Nat) : Nat :=
  (fun c => c % 2 ^ 16 + c / 2 ^ 16)^[3] counter

section
variable (h : Endian)

/-- The loop of `jboot_checksum`, and the byte at the end. -/
def addWords (counter : Nat) : Bytes → Nat
  | [] => counter
  | [b] => (counter + b.toNat + (2 ^ 32 - 0xFF)) % 2 ^ 32
  | a :: b :: bs => addWords (foldCarry (counter + h.get [a, b])) bs

def jbootChecksum (data : Bytes) : Nat := foldCarry (addWords h 0 data)

/-! ## Finding the header -/

section
variable (buf : Bytes)

def half (off : Nat) : Except Fault Nat := (fetch .outside buf off 2).map h.get

def word (off : Nat) : Except Fault Nat := (fetch .outside buf off 4).map h.get

def byte (off : Nat) : Except Fault UInt8 :=
  (fetch .outside buf off 1).map fun bs => bs.headD 0

/-- `memcmp`, which stops at the first byte that differs. -/
def same : Nat → Bytes → Except Fault Bool
  | _, [] => .ok true
  | off, b :: bs => do
    if (← byte buf off) = b then same (off + 1) bs else return false

def stagMagic : Bytes := [0x02, 0x02, 0x24, 0x2B]

/-- There is a STAG header, with its checksum. -/
def isStag (off : Nat) : Except Fault Bool := do
  if ← same buf off stagMagic then
    let stored ← half h buf (off + 14)
    let tag ← fetch .outside buf off (stagSize - 2)
    return stored == 2 ^ 16 - 1 - jbootChecksum h tag
  else return false

/-- The first loop. There is no byte behind its last round. -/
def scan : Nat → Nat → Except Fault Nat
  | 0, off => if off % 2 ^ 32 ≤ buf.length then .error .outside else .ok off
  | n + 1, off =>
    if off % 2 ^ 32 ≤ buf.length then do
      if ← isStag h buf off then return off else scan n (off + 1)
    else .ok off

/-- The second loop: the entries that it stores, after `count` others. -/
def walk : Nat → Nat → Nat → Except Fault (List Nat)
  | 0, p, _ => if p % 2 ^ 32 ≤ buf.length then .error .outside else .ok []
  | n + 1, p, count =>
    if p % 2 ^ 32 ≤ buf.length then do
      if (← half h buf (p + 2)) ≠ dataHeaderUnknown then walk n (p + 1) count
      else
        let type ← byte buf (p + 1)
        if type ≠ dataHeaderEeprom ∧ type ≠ dataHeaderConfig then walk n (p + 1) count
        else if count = maxDataHeader then .error .table
        else
          let length ← half h buf (p + 4)
          let rest ← walk n (p + dataHeaderSize + length) (count + 1)
          return p :: rest
    else .ok []

end

/-- What a length is as an `int`; there is nothing to read when it is negative. -/
def intSize (size : Nat) : Nat := if size % 2 ^ 32 < 2 ^ 31 then size % 2 ^ 32 else 0

/-- `find_header`: what it returns, the entries of the table, and the file in memory. -/
def findHeader (buf : Bytes) (start : Nat) : Except Fault (Nat × List Nat × Bytes) := do
  let stag ← scan h buf (buf.length + 1 - start) start
  let csxf := stag + stagSize
  if (← half h buf csxf) ≠ csxfMagic then return (exitFailure, [], buf)
  else
    let stored ← half h buf (csxf + 2)
    let buf ← store .outside buf (csxf + 2) (h.put 2 0)
    let raw ← word h buf (csxf + 12)
    let body ← fetch .outside buf csxf (intSize (raw + csxfSize))
    let checksum := 2 ^ 16 - 1 - jbootChecksum h body
    let buf ← store .outside buf (csxf + 2) (h.put 2 checksum)
    if stored ≠ checksum then return (exitFailure, [], buf)
    else
      let p := stag + stagSize + csxfSize
      let table ← walk h buf (buf.length + 1 - p) p 0
      return (table.length, table, buf)

/-! ## The program -/

/-- What `print_data_header` prints. -/
structure DataHeader where
  id : UInt8
  type : UInt8
  unknown : Nat
  length : Nat
  data : Bytes

/-- `-p`, `-v`, `-m`, and `-e` with the status of `write_file`. -/
structure Options where
  printData : Bool
  verbose : Bool
  macPrint : Bool
  eeprom : Option (Bytes → Nat)

/-- An entry of the table, which is only there when it was stored. -/
def entry (table : List Nat) (i : Nat) : Except Fault Nat :=
  match table[i]? with
  | some p => .ok p
  | none => .error .uninitialised

section
variable (buf : Bytes) (table : List Nat)

def printDataHeader (i : Nat) : Except Fault DataHeader := do
  let p ← entry table i
  let length ← half h buf (p + 4)
  return ⟨← byte buf p, ← byte buf (p + 1), ← half h buf (p + 2), length,
    ← fetch .outside buf (p + dataHeaderSize) length⟩

/-- An entry of a type and an id. -/
def isEntry (type id : UInt8) (p : Nat) : Except Fault Bool := do
  if (← byte buf (p + 1)) = type then return (← byte buf p) == id else return false

/-- A round of `print_mac`. -/
def printMac (i : Nat) : Except Fault Bytes := do
  let p ← entry table i
  if ← isEntry buf dataHeaderConfig 0x30 p then fetch .outside buf (p + dataHeaderSize) 6
  else return []

/-- `write_eeprom`, from an entry on. -/
def writeEeprom (writeFile : Bytes → Nat) : List Nat → Except Fault Nat
  | [] => .ok exitFailure
  | i :: is => do
    let p ← entry table i
    if ← isEntry buf dataHeaderEeprom 0x0 p then
      let length ← half h buf (p + 4)
      return writeFile (← fetch .outside buf (p + dataHeaderSize) length)
    else writeEeprom writeFile is

end

/-- What is printed, and the exit status. -/
structure Outcome where
  headers : List DataHeader
  macs : List Bytes
  status : Nat

/-- The bytes of the file that are read, as its size has 32 bits. -/
def config (file : Bytes) : Bytes := file.take (file.length % 2 ^ 32)

/-- What `-p` and `-v` print. -/
def printHeaders (o : Options) (buf : Bytes) (table : List Nat) (cnt : Nat) :
    Except Fault (List DataHeader) :=
  if o.printData || o.verbose then (List.range cnt).mapM (printDataHeader h buf table) else .ok []

/-- What `-m` prints. -/
def printMacs (o : Options) (buf : Bytes) (table : List Nat) (cnt : Nat) :
    Except Fault (List Bytes) :=
  if o.macPrint then (List.range cnt).mapM (printMac buf table) else .ok []

/-- The status of `-e`. -/
def saveEeprom (o : Options) (buf : Bytes) (table : List Nat) (cnt : Nat) : Except Fault Nat :=
  match o.eeprom with
  | none => .ok exitSuccess
  | some writeFile => writeEeprom h buf table writeFile (List.range cnt)

/-- `main`, for a file that can be read. -/
def main (file : Bytes) (start : Nat) (o : Options) : Except Fault Outcome := do
  if (config file).length = 0 then return ⟨[], [], exitSuccess⟩
  else
    let (cnt, table, buf) ← findHeader h (config file) start
    if cnt = 0 then return ⟨[], [], exitSuccess⟩
    else
      let headers ← printHeaders h o buf table cnt
      let macs ← printMacs o buf table cnt
      let status ← saveEeprom h o buf table cnt
      return ⟨headers, macs, status⟩

/-! ## What is to be read -/

/-- A STAG header with its checksum is in the file. -/
structure StagAt (buf : Bytes) (off : Nat) : Prop where
  inside : off + stagSize ≤ buf.length
  magic : load buf off 4 = stagMagic
  checksum : h.get (load buf (off + 14) 2) = 2 ^ 16 - 1 - jbootChecksum h (load buf off 14)

/-- The first STAG header from `start` on has a CSXF header and a body with their checksum behind
it. -/
structure ValidHeader (buf : Bytes) (start stag : Nat) : Prop where
  start_le : start ≤ stag
  tag : StagAt h buf stag
  first : ∀ off, start ≤ off → off < stag → ¬ StagAt h buf off
  inside : stag + stagSize + csxfSize ≤ buf.length
  magic : h.get (load buf (stag + stagSize) 2) = csxfMagic
  body : stag + stagSize + intSize (h.get (load buf (stag + stagSize + 12) 4) + csxfSize) ≤
    buf.length
  checksum : h.get (load buf (stag + stagSize + 2) 2) = 2 ^ 16 - 1 - jbootChecksum h
    (load (poke buf (stag + stagSize + 2) (h.put 2 0)) (stag + stagSize)
      (intSize (h.get (load buf (stag + stagSize + 12) 4) + csxfSize)))

/-- An entry with its body is in the file. -/
def EntryInside (buf : Bytes) (p : Nat) : Prop :=
  p + dataHeaderSize + h.get (load buf (p + 4) 2) ≤ buf.length

/-- The file is read as it should be. An entry that is used without a header in the file is one that
was not stored. -/
structure ReadsConfig (file : Bytes) (start : Nat) (o : Options) : Prop where
  safe : ∃ r, findHeader h (config file) start = .ok r
  few : ∀ cnt table buf, findHeader h (config file) start = .ok (cnt, table, buf) →
    table.length ≤ maxDataHeader
  entries : ∀ cnt table buf, findHeader h (config file) start = .ok (cnt, table, buf) →
    ∀ p ∈ table, EntryInside h buf p
  failure : (¬ ∃ stag, ValidHeader h (config file) start stag) →
    ∃ out, main h file start o = .ok out ∧ out.status = exitFailure

end

/-! ## Reads -/

section
variable {h : Endian} {buf : Bytes} {off v : Nat}

theorem half_eq_ok : half h buf off = .ok v ↔
    off + 2 ≤ buf.length ∧ h.get (load buf off 2) = v := by
  rw [half, map_eq_ok]
  constructor
  · rintro ⟨bs, hfetch, rfl⟩
    obtain ⟨hin, rfl⟩ := (fetch_eq_ok (by decide)).mp hfetch
    exact ⟨hin, rfl⟩
  · rintro ⟨hin, rfl⟩
    exact ⟨_, fetch_eq hin, rfl⟩

theorem word_eq_ok : word h buf off = .ok v ↔
    off + 4 ≤ buf.length ∧ h.get (load buf off 4) = v := by
  rw [word, map_eq_ok]
  constructor
  · rintro ⟨bs, hfetch, rfl⟩
    obtain ⟨hin, rfl⟩ := (fetch_eq_ok (by decide)).mp hfetch
    exact ⟨hin, rfl⟩
  · rintro ⟨hin, rfl⟩
    exact ⟨_, fetch_eq hin, rfl⟩

theorem byte_eq_ok {b : UInt8} : byte buf off = .ok b ↔ buf[off]? = some b := by
  rw [byte, map_eq_ok]
  by_cases hoff : off < buf.length
  · have hload : load buf off 1 = [buf[off]] := by
      rw [load, List.drop_eq_getElem_cons hoff, List.take_succ_cons, List.take_zero]
    rw [List.getElem?_eq_getElem hoff, fetch_eq hoff, hload]
    constructor
    · rintro ⟨bs, hbs, rfl⟩
      cases hbs
      rfl
    · intro hb
      exact ⟨_, rfl, Option.some.inj hb⟩
  · rw [List.getElem?_eq_none (Nat.le_of_not_lt hoff)]
    constructor
    · rintro ⟨bs, hfetch, -⟩
      exact absurd ((fetch_eq_ok (by decide)).mp hfetch).1 hoff
    · intro hb
      cases hb

theorem same_eq_true {bs : Bytes} (hoff : off ≤ buf.length) : same buf off bs = .ok true ↔
    off + bs.length ≤ buf.length ∧ load buf off bs.length = bs := by
  induction bs generalizing off with
  | nil => exact ⟨fun _ => ⟨hoff, rfl⟩, fun _ => rfl⟩
  | cons b bs ih =>
    rw [same, bind_eq_ok]
    have hload (hlt : off < buf.length) :
        load buf off (bs.length + 1) = buf[off] :: load buf (off + 1) bs.length := by
      rw [load, List.drop_eq_getElem_cons hlt, List.take_succ_cons, load]
    constructor
    · rintro ⟨c, hbyte, hrest⟩
      have hlt := List.getElem?_eq_some_iff.mp (byte_eq_ok.mp hbyte)
      obtain ⟨hlt, hc⟩ := hlt
      split_ifs at hrest with hcb
      · obtain ⟨hin, htail⟩ := (ih hlt).mp hrest
        refine ⟨by rw [List.length_cons]; omega, ?_⟩
        rw [List.length_cons, hload hlt, htail, hc, hcb]
      · cases hrest
    · rintro ⟨hin, heq⟩
      rw [List.length_cons] at hin heq
      have hlt : off < buf.length := by omega
      rw [hload hlt] at heq
      obtain ⟨hb, htail⟩ := List.cons.inj heq
      refine ⟨b, byte_eq_ok.mpr ?_, ?_⟩
      · rw [List.getElem?_eq_getElem hlt, hb]
      · rw [if_pos rfl]
        exact (ih hlt).mpr ⟨by omega, htail⟩

/-- The test for a header, where it does not fail. -/
theorem isStag_eq_ok {found : Bool} (hoff : off ≤ buf.length)
    (hrun : isStag h buf off = .ok found) : found = true ↔ StagAt h buf off := by
  have h4 : stagMagic.length = 4 := rfl
  have h16 : stagSize = 16 := rfl
  rw [isStag] at hrun
  obtain ⟨magic, hmagic, hrun⟩ := bind_eq_ok.mp hrun
  cases magic with
  | false =>
    cases hrun
    refine ⟨(fun hno => by cases hno), fun hstag => ?_⟩
    have hin := hstag.inside
    rw [(@same_eq_true buf off stagMagic hoff).mpr ⟨by omega, hstag.magic⟩] at hmagic
    cases hmagic
  | true =>
    rw [if_pos rfl] at hrun
    obtain ⟨stored, hstored, hrun⟩ := bind_eq_ok.mp hrun
    obtain ⟨tag, htag, hrun⟩ := bind_eq_ok.mp hrun
    obtain ⟨hin, rfl⟩ := half_eq_ok.mp hstored
    obtain ⟨-, rfl⟩ := (fetch_eq_ok (by decide)).mp htag
    cases hrun
    rw [beq_iff_eq]
    constructor
    · intro hsum
      exact ⟨by omega, ((same_eq_true hoff).mp hmagic).2, hsum⟩
    · intro hstag
      exact hstag.checksum

end

/-! ## Loops -/

section
variable {h : Endian} {buf : Bytes} (hlen : buf.length < 2 ^ 32)
include hlen

/-- The first loop stops at the first header. -/
theorem scan_stag {n off stag found : Nat} (htag : StagAt h buf stag) (hle : off ≤ stag)
    (hfirst : ∀ o, off ≤ o → o < stag → ¬ StagAt h buf o) (hn : buf.length < off + n)
    (hrun : scan h buf n off = .ok found) : found = stag := by
  have hin := htag.inside
  have h16 : stagSize = 16 := rfl
  induction n generalizing off with
  | zero => omega
  | succ n ih =>
    rw [scan, if_pos (by omega)] at hrun
    obtain ⟨here, hhere, hrun⟩ := bind_eq_ok.mp hrun
    have hiff := isStag_eq_ok (by omega) hhere
    cases here with
    | true =>
      cases hrun
      by_contra hne
      exact hfirst found (Nat.le_refl _) (by omega) (hiff.mp rfl)
    | false =>
      have hne : off ≠ stag := by
        intro heq
        rw [heq] at hiff
        cases hiff.mpr htag
      exact ih (by omega) (fun o ho => hfirst o (by omega)) (by omega) hrun

/-- The second loop only ends without a failure when an entry reaches behind the file. -/
theorem walk_overruns {n p count : Nat} {table : List Nat} (hp : p ≤ buf.length)
    (hn : buf.length < p + n) (hrun : walk h buf n p count = .ok table) :
    ∃ e ∈ table, ¬ EntryInside h buf e := by
  induction n generalizing p count table with
  | zero => omega
  | succ n ih =>
    rw [walk, if_pos (by omega)] at hrun
    obtain ⟨unknown, hunknown, hrun⟩ := bind_eq_ok.mp hrun
    have hin := (half_eq_ok.mp hunknown).1
    by_cases hskip : unknown ≠ dataHeaderUnknown
    · rw [if_pos hskip] at hrun
      exact ih (by omega) (by omega) hrun
    · rw [if_neg hskip] at hrun
      obtain ⟨type, -, hrun⟩ := bind_eq_ok.mp hrun
      by_cases htype : type ≠ dataHeaderEeprom ∧ type ≠ dataHeaderConfig
      · rw [if_pos htype] at hrun
        exact ih (by omega) (by omega) hrun
      by_cases hcount : count = maxDataHeader
      · rw [if_neg htype, if_pos hcount] at hrun
        cases hrun
      · rw [if_neg htype, if_neg hcount] at hrun
        obtain ⟨length, hlength, hrun⟩ := bind_eq_ok.mp hrun
        obtain ⟨rest, hrest, hrun⟩ := bind_eq_ok.mp hrun
        cases hrun
        obtain ⟨-, rfl⟩ := half_eq_ok.mp hlength
        have h6 : dataHeaderSize = 6 := rfl
        by_cases hend : EntryInside h buf p
        · rw [EntryInside] at hend
          obtain ⟨e, he, hout⟩ := ih hend (by omega) hrest
          exact ⟨e, List.mem_cons_of_mem p he, hout⟩
        · exact ⟨p, List.mem_cons_self, hend⟩

/-- Where `find_header` does not fail, it has no header, or an entry that is not in the file. -/
theorem findHeader_cases {start cnt : Nat} {table : List Nat} {buf' : Bytes}
    (hrun : findHeader h buf start = .ok (cnt, table, buf')) :
    (cnt = exitFailure ∧ table = [] ∧ ¬ ∃ stag, ValidHeader h buf start stag) ∨
      ∃ p ∈ table, ¬ EntryInside h buf' p := by
  have h16 : stagSize = 16 := rfl
  have h16' : csxfSize = 16 := rfl
  have hput (n : Nat) : (h.put 2 n).length = 2 := Endian.length_put _ _ _
  rw [findHeader] at hrun
  obtain ⟨found, hscan, hrun⟩ := bind_eq_ok.mp hrun
  obtain ⟨magic, hmagic, hrun⟩ := bind_eq_ok.mp hrun
  obtain ⟨-, rfl⟩ := half_eq_ok.mp hmagic
  have hfound {stag : Nat} (hvalid : ValidHeader h buf start stag) : found = stag := by
    have hle := hvalid.start_le
    have hin := hvalid.inside
    exact scan_stag hlen hvalid.tag hle hvalid.first (by omega) hscan
  split_ifs at hrun with hno
  · cases hrun
    refine .inl ⟨rfl, rfl, ?_⟩
    rintro ⟨stag, hvalid⟩
    rw [hfound hvalid] at hno
    exact hno hvalid.magic
  · obtain ⟨stored, hstored, hrun⟩ := bind_eq_ok.mp hrun
    obtain ⟨hin, rfl⟩ := half_eq_ok.mp hstored
    obtain ⟨zeroed, hzeroed, hrun⟩ := bind_eq_ok.mp hrun
    obtain ⟨-, rfl⟩ := (store_eq_ok (by rw [hput]; decide)).mp hzeroed
    obtain ⟨raw, hraw, hrun⟩ := bind_eq_ok.mp hrun
    obtain ⟨hinside, rfl⟩ := word_eq_ok.mp hraw
    obtain ⟨body, hbody, hrun⟩ := bind_eq_ok.mp hrun
    obtain ⟨buf₂, hstore, hrun⟩ := bind_eq_ok.mp hrun
    obtain ⟨-, rfl⟩ := (store_eq_ok (by rw [hput]; decide)).mp hstore
    rw [length_poke] at hinside
    split_ifs at hrun with hsum
    · cases hrun
      refine .inl ⟨rfl, rfl, ?_⟩
      rintro ⟨stag, hvalid⟩
      obtain rfl := hfound hvalid
      have hsame : load (poke buf (found + stagSize + 2) (h.put 2 0)) (found + stagSize + 12) 4 =
          load buf (found + stagSize + 12) 4 :=
        load_poke_of_disjoint (by rw [hput]; omega) (by rw [hput]; omega)
      rw [hsame, fetch_eq (by rw [length_poke]; exact hvalid.body)] at hbody
      cases hbody
      exact hsum hvalid.checksum
    · obtain ⟨entries, hwalk, hrun⟩ := bind_eq_ok.mp hrun
      cases hrun
      refine .inr (walk_overruns ?_ ?_ ?_ hwalk)
      · simpa only [length_poke] using hlen
      · simp only [length_poke]
        omega
      · omega

end

/-! ## The program -/

section
variable {h : Endian} {file : Bytes} {start : Nat} {o : Options}

theorem length_config : (config file).length < 2 ^ 32 := by
  have hmod := Nat.mod_lt file.length (by decide : 0 < 2 ^ 32)
  rw [config, List.length_take]
  omega

/-- The failure of `find_header` counts as one entry: either an entry that was not stored is used,
or the program succeeds. -/
theorem main_failure {buf : Bytes} {out : Outcome}
    (hrun : findHeader h (config file) start = .ok (exitFailure, [], buf))
    (hmain : main h file start o = .ok out) : out.status = exitSuccess := by
  rw [main] at hmain
  by_cases hempty : (config file).length = 0
  · rw [if_pos hempty] at hmain
    cases hmain
    rfl
  · rw [if_neg hempty, hrun, ok_bind] at hmain
    obtain ⟨headers, -, hmain⟩ := bind_eq_ok.mp hmain
    obtain ⟨macs, -, hmain⟩ := bind_eq_ok.mp hmain
    obtain ⟨status, hstatus, hmain⟩ := bind_eq_ok.mp hmain
    cases hmain
    rw [saveEeprom] at hstatus
    cases heeprom : o.eeprom with
    | none =>
      rw [heeprom] at hstatus
      cases hstatus
      rfl
    | some writeFile =>
      -- the first entry is not there
      rw [heeprom] at hstatus
      cases hstatus

/-- **No file** is read as it should be: the loops read behind its end, or an entry reaches behind
it, or the failure goes unseen. -/
theorem readsConfig_never (h : Endian) (file : Bytes) (start : Nat) (o : Options) :
    ¬ ReadsConfig h file start o := by
  intro hreads
  obtain ⟨⟨cnt, table, buf⟩, hrun⟩ := hreads.safe
  rcases findHeader_cases length_config hrun with ⟨rfl, rfl, hno⟩ | ⟨p, hp, hout⟩
  · obtain ⟨out, hmain, hstatus⟩ := hreads.failure hno
    rw [main_failure hrun hmain] at hstatus
    cases hstatus
  · exact hout (hreads.entries _ _ _ hrun p hp)

/-- A STAG header, and no CSXF header. -/
def noCsxf : Bytes :=
  stagMagic ++ List.replicate 10 0 ++ [0xD9, 0xD2] ++ List.replicate 16 0

/-- For `-m` the first entry is used, which was not stored; without options, the program succeeds. -/
theorem readsConfig_noCsxf :
    findHeader .little noCsxf 0 = .ok (exitFailure, [], noCsxf) ∧
      main .little noCsxf 0 ⟨false, false, true, none⟩ = .error .uninitialised ∧
      main .little noCsxf 0 ⟨false, false, false, none⟩ = .ok ⟨[], [], exitSuccess⟩ ∧
      ¬ ReadsConfig .little noCsxf 0 ⟨false, false, false, none⟩ := by
  have hmain : main .little noCsxf 0 ⟨false, false, false, none⟩ = .ok ⟨[], [], exitSuccess⟩ := rfl
  have hrun : findHeader .little noCsxf 0 = .ok (exitFailure, [], noCsxf) := rfl
  refine ⟨hrun, rfl, hmain, fun hreads => ?_⟩
  rcases findHeader_cases (by decide) hrun with ⟨-, -, hno⟩ | ⟨p, hp, -⟩
  · obtain ⟨out, hout, hstatus⟩ := hreads.failure hno
    rw [hmain] at hout
    cases hout
    cases hstatus
  · cases hp

end

end UolaOs.Jboot
