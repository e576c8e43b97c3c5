import UolaOs.Lib.Records
import UolaOs.Ptgen.Layout

/-!
# The partition table of the MBR

`gen_ptable` of ptgen.c: the table in the file, and what is printed.

* `table_mbrFile`: the entries are read back from the file;
* `fits_of_right`: a partition that is stored and printed as it is;
* `sound_of_fits`, `fits_of_sound`: all of them;
* `genPtable_iff`: when the table and the output describe the partitions.
-/

namespace UolaOs.Ptgen

/-! ## The file -/

/-- What `to_chs` stores: head, sector and cylinder. -/
structure Chs where
  h : UInt8
  s : UInt8
  c : UInt8
  deriving DecidableEq

/-- `struct pte` -/
structure Pte where
  active : UInt8
  chsStart : Chs
  type : UInt8
  chsEnd : Chs
  start : UInt32
  length : UInt32
  deriving DecidableEq

namespace Pte

def zero : Pte := ⟨0, ⟨0, 0, 0⟩, 0, ⟨0, 0, 0⟩, 0, 0⟩

/-- The fields in memory: `cpu_to_le32` makes the last two little-endian. -/
def fields (x : Pte) : List (Nat × Nat) :=
  [(1, x.active.toNat), (1, x.chsStart.h.toNat), (1, x.chsStart.s.toNat), (1, x.chsStart.c.toNat),
    (1, x.type.toNat), (1, x.chsEnd.h.toNat), (1, x.chsEnd.s.toNat), (1, x.chsEnd.c.toNat),
    (4, x.start.toNat), (4, x.length.toNat)]

def bytes (x : Pte) : Bytes := Endian.little.putAll x.fields

end Pte

/-- `MBR_DISK_SIGNATURE_OFFSET` -/
def mbrDiskSignatureOffset : Nat := 440

/-- `MBR_PARTITION_ENTRY_OFFSET` -/
def mbrPartitionEntryOffset : Nat := 446

/-- `MBR_ENTRY_MAX` -/
def mbrEntryMax : Nat := 4

/-- `sizeof(struct pte)` -/
def pteSize : Nat := 16

/-- The file, with zeros where nothing is written. The signature is not converted. -/
def mbrFile (e : Endian) (signature : UInt32) (pte : List Pte) : Bytes :=
  List.replicate mbrDiskSignatureOffset 0 ++ (e.put 4 signature.toNat ++
    (List.replicate 2 0 ++ (pte.flatMap Pte.bytes ++ [0x55, 0xaa])))

/-! ## `gen_ptable` -/

/-- A number of sectors, printed in bytes as a `long`. -/
def printed (sectors : Nat) : Int := signed (sectors * diskSectorSize % 2 ^ 64)

/-- The two lines of each partition. -/
def stdout (placed : List (Option (Nat × Nat))) : List (Int × Int) :=
  placed.filterMap fun x => x.map fun q => (printed q.1, printed (ulong ((q.2 : Int) - q.1)))

namespace Options

variable (o : Options)

/-- `to_chs` -/
def toChs (sect : Int) : Chs :=
  let s := sect.tmod o.sectors + 1
  let sect := sect.tdiv o.sectors
  let h := sect.tmod o.heads
  let c := (sect.tdiv o.heads % 2 ^ 32).toNat
  ⟨UInt8.ofInt h, UInt8.ofInt s ||| UInt8.ofNat ((c >>> 2) &&& 0xc0), UInt8.ofNat (c &&& 0xff)⟩

/-- The entry of partition `i`. -/
def pte (i : Nat) (p : Part) (q : Nat × Nat) : Pte :=
  let len := ulong ((q.2 : Int) - q.1)
  { active := if i + 1 = o.active then 0x80 else 0
    type := p.type
    start := UInt32.ofNat q.1
    length := UInt32.ofNat len
    chsStart := o.toChs (signed q.1)
    chsEnd := o.toChs (signed (ulong ((q.1 : Int) + len - 1))) }

/-- The entries of the partitions. -/
def ptes : Nat → List Part → List (Option (Nat × Nat)) → List Pte
  | i, p :: ps, some q :: qs => o.pte i p q :: ptes (i + 1) ps qs
  | i, _ :: ps, none :: qs => Pte.zero :: ptes (i + 1) ps qs
  | _, _, _ => []

/-- `gen_ptable` where the file can be written: the file and the output, or `none` when it fails. -/
def genPtable (e : Endian) (signature : UInt32) (parts : List Part) :
    Option (Bytes × List (Int × Int)) :=
  (o.placeAll 0 parts).map fun r =>
    (mbrFile e signature (o.ptes 0 parts r.1 ++
      List.replicate (mbrEntryMax - parts.length) Pte.zero), stdout r.1)

end Options

/-! ## Reading the table -/

/-- The start and the length of entry `i` of a file. -/
def entryAt (file : Bytes) (i : Nat) : Nat × Nat :=
  let off := mbrPartitionEntryOffset + pteSize * i
  (Endian.little.get (load file (off + 8) 4), Endian.little.get (load file (off + 12) 4))

def table (file : Bytes) : List (Nat × Nat) := (List.range mbrEntryMax).map (entryAt file)

section
variable {ptes : List Pte} {x : Pte} {i : Nat}

theorem length_pte_bytes (x : Pte) : x.bytes.length = pteSize := Endian.little.length_putAll _

theorem entryAt_mbrFile (h : ptes[i]? = some x) (e : Endian) (signature : UInt32) :
    entryAt (mbrFile e signature ptes) i = (x.start.toNat, x.length.toNat) := by
  obtain ⟨after, hafter⟩ := drop_flatMap length_pte_bytes h [0x55, 0xaa]
  have hfront : (List.replicate mbrDiskSignatureOffset 0 ++ (e.put 4 signature.toNat ++
      List.replicate 2 (0 : UInt8))).length = mbrPartitionEntryOffset := by
    simp only [List.length_append, List.length_replicate, Endian.length_put]
    rfl
  have hfile : (mbrFile e signature ptes).drop (mbrPartitionEntryOffset + pteSize * i) =
      x.bytes ++ after := by
    have hsplit : mbrFile e signature ptes = (List.replicate mbrDiskSignatureOffset 0 ++
        (e.put 4 signature.toNat ++ List.replicate 2 (0 : UInt8))) ++
          (ptes.flatMap Pte.bytes ++ [0x55, 0xaa]) := by
      simp only [mbrFile, List.append_assoc]
    rw [hsplit, ← List.drop_drop, List.drop_left' hfront, hafter]
  have hload (k : Nat) : load (mbrFile e signature ptes)
      (mbrPartitionEntryOffset + pteSize * i + k) 4 = load (x.bytes ++ after) k 4 := by
    rw [load, load, ← hfile, List.drop_drop]
  have hwidths : x.fields.map Prod.fst = [1, 1, 1, 1, 1, 1, 1, 1, 4, 4] := rfl
  have hstart : Endian.little.get (load (x.bytes ++ after) 8 4) = x.start.toNat :=
    (Endian.get_field (i := 8) .little x.fields hwidths rfl after).trans
      (Nat.mod_eq_of_lt x.start.toNat_lt)
  have hlength : Endian.little.get (load (x.bytes ++ after) 12 4) = x.length.toNat :=
    (Endian.get_field (i := 9) .little x.fields hwidths rfl after).trans
      (Nat.mod_eq_of_lt x.length.toNat_lt)
  rw [entryAt, hload, hload, hstart, hlength]

/-- The table is read back. -/
theorem table_mbrFile (h : ptes.length = mbrEntryMax) (e : Endian) (signature : UInt32) :
    table (mbrFile e signature ptes) = ptes.map fun x => (x.start.toNat, x.length.toNat) := by
  apply List.ext_getElem?
  intro i
  rw [table, List.getElem?_map, List.getElem?_map]
  by_cases hi : i < mbrEntryMax
  · have hx : ptes[i]? = some (ptes.get ⟨i, h ▸ hi⟩) := List.getElem?_eq_getElem _
    rw [List.getElem?_range hi, hx, Option.map_some, Option.map_some, entryAt_mbrFile hx]
  · rw [List.getElem?_eq_none (by rw [List.length_range]; omega),
      List.getElem?_eq_none (by omega)]
    rfl

end

/-! ## What is said about a partition -/

/-- An entry as the table has it, with the partition that it is for. -/
structure Entry where
  part : Part
  start : Nat
  length : Nat

/-- The entries of the partitions that are not null. -/
def stored : List Part → List (Nat × Nat) → List Entry
  | p :: ps, x :: xs => if p.size = 0 then stored ps xs else ⟨p, x.1, x.2⟩ :: stored ps xs
  | _, _ => []

/-- The size is as large as requested, and the start is the one that was asked for. -/
structure Entry.Right (x : Entry) : Prop where
  large : 2 * x.part.size.toNat ≤ x.length
  explicit : x.part.start ≠ 0 → x.start = 2 * x.part.start.toNat

/-- What is printed for it, in bytes. -/
def Entry.lines (x : Entry) : Int × Int :=
  ((diskSectorSize * x.start : Nat), (diskSectorSize * x.length : Nat))

/-- The table and the output describe the partitions. -/
structure Options.Sound (o : Options) (parts : List Part) (file : Bytes) (out : List (Int × Int)) :
    Prop where
  ordered : (stored parts (table file)).Pairwise fun a b => a.start + a.length ≤ b.start
  track : ∀ x ∈ stored parts (table file), o.sectors ≤ x.start
  right : ∀ x ∈ stored parts (table file), x.Right
  printed : out = (stored parts (table file)).map Entry.lines

/-- In numbers that do not wrap, the partition starts below sector `2 ^ 32` and is shorter than
`2 ^ 32` sectors; where it is rounded up to a cylinder, that is a positive `int`. -/
structure Options.FitsAt (o : Options) (sect : Nat) (p : Part) : Prop where
  start : o.exactStart sect p < 2 ^ 32
  length : o.exactEnd (o.exactStart sect p) p < o.exactStart sect p + 2 ^ 32
  cyl : o.kbAlign = 0 → 0 < o.cylSize

/-- All partitions that are not null. -/
def Options.Fits (o : Options) : Nat → List Part → Prop
  | _, [] => True
  | sect, p :: ps =>
    if p.size = 0 then o.Fits sect ps
    else o.FitsAt sect p ∧ o.Fits (o.exactEnd (o.exactStart sect p) p) ps

/-- The fields of the entry for a placement. -/
def fieldsOf : Option (Nat × Nat) → Nat × Nat
  | none => (0, 0)
  | some q => (q.1 % 2 ^ 32, ulong ((q.2 : Int) - q.1) % 2 ^ 32)

section
variable {o : Options} {sect : Nat} {p : Part} {q : Nat × Nat}

theorem exactStart_lt (hp : p.start.toNat < 2 ^ 31) : o.exactStart sect p < sect + 2 ^ 33 := by
  have hsectors := o.sectors_lt
  have hkb := o.kbAlign_lt
  rw [Options.exactStart]
  split
  · omega
  split
  · have hlt := roundUp_lt (sect + o.sectors) (y := o.kbAlign) (by omega)
    omega
  · omega

theorem printed_of_lt {x : Nat} (h : x < 2 ^ 32) : printed x = (diskSectorSize * x : Nat) := by
  rw [printed, diskSectorSize, Nat.mod_eq_of_lt (by omega), signed_of_lt (by omega), Nat.mul_comm]

/-- A length that has wrapped is printed as a negative number. -/
theorem printed_neg {x : Nat} (hlo : 2 ^ 64 - 2 ^ 40 ≤ x) (hx : x < 2 ^ 64) : printed x < 0 := by
  have hhigh : 2 ^ 63 ≤ x * diskSectorSize % 2 ^ 64 := by
    rw [diskSectorSize]
    omega
  rw [printed, signed, if_neg (by omega)]
  omega

theorem Options.FitsAt.room (h : o.FitsAt sect p) : o.RoomAt sect p := by
  obtain ⟨hstart, hlength, hcyl⟩ := h
  exact ⟨by omega, hcyl⟩

/-- A partition that is stored and printed as it is. -/
theorem fits_of_right (hsect : sect ≤ 2 ^ 33) (h : o.place sect p = some q)
    (hright : Entry.Right ⟨p, (fieldsOf (some q)).1, (fieldsOf (some q)).2⟩)
    (hstart : printed q.1 = (diskSectorSize * (fieldsOf (some q)).1 : Nat))
    (hlength : printed (ulong ((q.2 : Int) - q.1)) =
      (diskSectorSize * (fieldsOf (some q)).2 : Nat)) : o.FitsAt sect p := by
  obtain ⟨hs, he⟩ := place_eq_some h
  obtain ⟨hlarge, hexplicit⟩ := hright
  rw [fieldsOf] at hlarge hexplicit hstart hlength
  dsimp only at hlarge hexplicit hstart hlength
  have hp : p.start.toNat < 2 ^ 31 := by
    by_cases hzero : p.start ≠ 0
    · have heq := hexplicit hzero
      omega
    · rw [not_not.mp hzero]
      decide
  have hexact : o.exactStart sect p < sect + 2 ^ 33 := exactStart_lt hp
  obtain ⟨heqStart, htrack⟩ := placeStart_of_lt (by omega) (by omega) hs
  rw [printed, diskSectorSize, Nat.mod_eq_of_lt (by omega), signed_of_lt (by omega)] at hstart
  have hcyl : o.kbAlign = 0 → 0 < o.cylSize := by
    intro hkb
    by_contra hneg
    rw [Options.placeEnd, if_pos hkb, Nat.mod_eq_of_lt (by omega)] at he
    have hback := (roundToCyl_spec (by omega) he).2 hneg
    have hulong : ulong ((q.2 : Int) - q.1) < 2 ^ 64 := by
      rw [ulong]
      omega
    -- the length is too small, or it is printed as a negative number
    by_cases hle : q.1 ≤ q.2 ∧ q.2 < q.1 + 2 * p.size.toNat
    · have hlen : ulong ((q.2 : Int) - q.1) = q.2 - q.1 := by
        rw [ulong]
        omega
      omega
    · have hneg : printed (ulong ((q.2 : Int) - q.1)) < 0 := by
        refine printed_neg ?_ hulong
        rw [ulong]
        omega
      omega
  obtain ⟨heqEnd, hlt⟩ := placeEnd_of_lt hcyl (by omega) he
  have hle := le_exactEnd q.1 p hcyl
  have hlen : ulong ((q.2 : Int) - q.1) = q.2 - q.1 := by
    rw [ulong]
    omega
  rw [hlen, printed, diskSectorSize, Nat.mod_eq_of_lt (by omega), signed_of_lt (by omega)]
    at hlength
  exact ⟨by omega, by rw [← heqStart, ← heqEnd]; omega, hcyl⟩

/-! ## All partitions -/

variable {ps : List Part} {r : List (Option (Nat × Nat)) × Nat}

theorem sound_of_fits (hsect : sect ≤ 2 ^ 33) (h : o.placeAll sect ps = some r)
    (hfit : o.Fits sect ps) :
    (stored ps (r.1.map fieldsOf)).Pairwise (fun a b => a.start + a.length ≤ b.start) ∧
      (∀ x ∈ stored ps (r.1.map fieldsOf), sect + o.sectors ≤ x.start ∧ x.Right) ∧
      stdout r.1 = (stored ps (r.1.map fieldsOf)).map Entry.lines := by
  induction ps generalizing sect r with
  | nil =>
    obtain rfl := Option.some.inj h
    exact ⟨List.Pairwise.nil, fun _ hx => absurd hx List.not_mem_nil, rfl⟩
  | cons p ps ih =>
    rw [Options.Fits] at hfit
    rcases placeAll_cons h with ⟨hsize, rest, hrest, rfl⟩ | ⟨hsize, q, rest, hq, hrest, rfl⟩
    · rw [if_pos hsize] at hfit
      rw [List.map_cons, stored, if_pos hsize]
      exact ih hsect hrest hfit
    · rw [if_neg hsize] at hfit
      obtain ⟨hone, hfit⟩ := hfit
      obtain ⟨hs, he, htrack, hle⟩ := place_exact (by omega) hone.room hq
      obtain ⟨hstart, hlength, -⟩ := hone
      rw [← hs] at hstart hlength hfit
      rw [← he] at hlength hfit
      obtain ⟨hpair, hall, hout⟩ := ih (by omega) hrest hfit
      have hlen : ulong ((q.2 : Int) - q.1) = q.2 - q.1 := by
        rw [ulong]
        omega
      have hfields : fieldsOf (some q) = (q.1, q.2 - q.1) := by
        rw [fieldsOf, hlen, Nat.mod_eq_of_lt hstart, Nat.mod_eq_of_lt (by omega)]
      rw [List.map_cons, stored, if_neg hsize, hfields]
      refine ⟨List.Pairwise.cons (fun x hx => ?_) hpair, fun x hx => ?_, ?_⟩
      · have hnext := (hall x hx).1
        dsimp only
        omega
      · rcases List.mem_cons.mp hx with rfl | hx
        · refine ⟨htrack, by dsimp only; omega, fun hexplicit => ?_⟩
          rw [← exactStart_explicit hexplicit]
          exact hs
        · obtain ⟨hnext, hright⟩ := hall x hx
          exact ⟨by omega, hright⟩
      · rw [List.map_cons, ← hout, Entry.lines, ← printed_of_lt hstart,
          ← printed_of_lt (show q.2 - q.1 < 2 ^ 32 by omega), ← hlen]
        rfl

theorem fits_of_sound (hsect : sect ≤ 2 ^ 33) (h : o.placeAll sect ps = some r)
    (hright : ∀ x ∈ stored ps (r.1.map fieldsOf), x.Right)
    (hout : stdout r.1 = (stored ps (r.1.map fieldsOf)).map Entry.lines) : o.Fits sect ps := by
  induction ps generalizing sect r with
  | nil => trivial
  | cons p ps ih =>
    rw [Options.Fits]
    rcases placeAll_cons h with ⟨hsize, rest, hrest, rfl⟩ | ⟨hsize, q, rest, hq, hrest, rfl⟩
    · rw [if_pos hsize]
      rw [List.map_cons, stored, if_pos hsize] at hright hout
      exact ih hsect hrest hright hout
    · rw [if_neg hsize]
      rw [List.map_cons, stored, if_neg hsize] at hright hout
      obtain ⟨hlines, hout⟩ := List.cons.inj hout
      obtain ⟨hstart, hlength⟩ := Prod.mk.inj hlines
      have hone := fits_of_right hsect hq (hright _ List.mem_cons_self) hstart hlength
      obtain ⟨hs, he, -, -⟩ := place_exact (by omega) hone.room hq
      have hend := hone.length
      have hlt := hone.start
      rw [← hs, ← he] at hend
      refine ⟨hone, ?_⟩
      rw [← hs, ← he]
      exact ih (by omega) hrest (fun x hx => hright x (List.mem_cons_of_mem _ hx)) hout

/-! ## The table in the file -/

theorem map_ptes {i : Nat} {placed : List (Option (Nat × Nat))}
    (hlen : placed.length = ps.length) :
    (o.ptes i ps placed).map (fun x => (x.start.toNat, x.length.toNat)) =
      placed.map fieldsOf := by
  induction ps generalizing i placed with
  | nil =>
    obtain rfl := List.length_eq_zero_iff.mp hlen
    rfl
  | cons p ps ih =>
    cases placed with
    | nil => cases hlen
    | cons x xs =>
      have hrest := ih (i := i + 1) (Nat.succ.inj hlen)
      cases x with
      | none => rw [Options.ptes, List.map_cons, hrest]; rfl
      | some q =>
        rw [Options.ptes, List.map_cons, hrest, List.map_cons, fieldsOf, Options.pte,
          UInt32.toNat_ofNat', UInt32.toNat_ofNat']

theorem stored_append {xs ys : List (Nat × Nat)} (hlen : xs.length = ps.length) :
    stored ps (xs ++ ys) = stored ps xs := by
  induction ps generalizing xs with
  | nil => simp [stored]
  | cons p ps ih =>
    cases xs with
    | nil => cases hlen
    | cons x xs => rw [List.cons_append, stored, stored, ih (Nat.succ.inj hlen)]

/-- **The table.** When `gen_ptable` accepts the partitions, the ranges of the table are in order
and do not overlap, begin behind the first track, are as large as requested, start where they were
asked to and are the ones that are printed, exactly if they fit the fields. -/
theorem genPtable_iff {e : Endian} {signature : UInt32} {parts : List Part} {file : Bytes}
    {out : List (Int × Int)} (hmax : parts.length ≤ mbrEntryMax)
    (h : o.genPtable e signature parts = some (file, out)) :
    o.Sound parts file out ↔ o.Fits 0 parts := by
  obtain ⟨r, hr, heq⟩ := Option.map_eq_some_iff.mp h
  obtain ⟨rfl, rfl⟩ := Prod.mk.inj heq
  have hlen := length_placeAll hr
  have hptes := congrArg List.length (map_ptes (o := o) (i := 0) hlen)
  rw [List.length_map, List.length_map, hlen] at hptes
  have hstored : stored parts (table (mbrFile e signature (o.ptes 0 parts r.1 ++
      List.replicate (mbrEntryMax - parts.length) Pte.zero))) =
      stored parts (r.1.map fieldsOf) := by
    rw [table_mbrFile, List.map_append, map_ptes hlen, stored_append]
    · rw [List.length_map, hlen]
    · rw [List.length_append, hptes, List.length_replicate, Nat.add_sub_cancel' hmax]
  constructor
  · rintro ⟨-, -, hright, hout⟩
    rw [hstored] at hright hout
    exact fits_of_sound (Nat.zero_le _) hr hright hout
  · intro hfit
    obtain ⟨hpair, hall, hout⟩ := sound_of_fits (Nat.zero_le _) hr hfit
    rw [← hstored] at hpair hall hout
    exact ⟨hpair, fun x hx => Nat.zero_add o.sectors ▸ (hall x hx).1, fun x hx => (hall x hx).2,
      hout⟩

end

section

theorem pos_16 : 0 < 16 := by decide

theorem pos_63 : 0 < 63 := by decide

theorem lt_16 : 16 < 2 ^ 31 := by decide

theorem lt_63 : 63 < 2 ^ 31 := by decide

theorem lt_512 : 512 < 2 ^ 31 := by decide

/-- `-h 16 -s 63 -l 256` -/
def alignedOptions : Options := ⟨16, 63, 512, false, 1, pos_16, pos_63, lt_16, lt_63, lt_512⟩

/-- 16 and 104 MiB. -/
def usualParts : List Part := [⟨0, 16384, 0x83⟩, ⟨0, 106496, 0x83⟩]

theorem genPtable_usual :
    ∃ file out, alignedOptions.genPtable .little 0x5452574f usualParts = some (file, out) ∧
      alignedOptions.Sound usualParts file out := by
  have hsome : (alignedOptions.genPtable .little 0x5452574f usualParts).isSome = true := by
    decide
  obtain ⟨⟨file, out⟩, hrun⟩ := Option.isSome_iff_exists.mp hsome
  refine ⟨file, out, hrun, (genPtable_iff (by decide) hrun).mpr ?_⟩
  rw [usualParts, Options.Fits, if_neg (by decide), Options.Fits, if_neg (by decide)]
  exact ⟨⟨by decide, by decide, by decide⟩, ⟨by decide, by decide, by decide⟩, trivial⟩

/-- A partition of 2 TiB has the length 0 in the table. -/
theorem not_genPtable_sound :
    ∃ file out, alignedOptions.genPtable .little 0x5452574f [⟨0, 0x80000000, 0x83⟩] =
        some (file, out) ∧
      ¬ alignedOptions.Sound [⟨0, 0x80000000, 0x83⟩] file out := by
  have hany : (alignedOptions.genPtable .little 0x5452574f [⟨0, 0x80000000, 0x83⟩]).any (fun r =>
      (stored [⟨0, 0x80000000, 0x83⟩] (table r.1)).any fun x =>
        decide (x.length < 2 * x.part.size.toNat)) = true := by
    decide +kernel
  cases hrun : alignedOptions.genPtable .little 0x5452574f [⟨0, 0x80000000, 0x83⟩] with
  | none =>
    rw [hrun] at hany
    cases hany
  | some r =>
    rw [hrun] at hany
    obtain ⟨x, hx, hlt⟩ := List.any_eq_true.mp hany
    have hlt := of_decide_eq_true hlt
    exact ⟨r.1, r.2, rfl, fun h => Nat.not_le.mpr hlt (h.right x hx).large⟩

end

end UolaOs.Ptgen
