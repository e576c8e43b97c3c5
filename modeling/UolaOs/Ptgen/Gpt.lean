import UolaOs.Lib.Crc32
import UolaOs.Ptgen.Mbr

/-!
# The GUID partition table

`gen_gptable` of ptgen.c: the header and the array of 128 entries, of which the last is for the
BIOS boot partition.

* `gptEntryAt_gptFile`, `firstUsable_gptFile`, `lastUsable_gptFile`: what is read from the file;
* `genGptable_iff`: when the entries are those of the partitions and do not overlap.
-/

namespace UolaOs.Ptgen

/-- An array of `n` bytes. -/
abbrev Buf (n : Nat) := { b : Bytes // b.length = n }

/-! ## GUIDs and names -/

/-- `guid_t` -/
abbrev Guid := Buf 16

theorem length_guidBytes (a b c : Nat) (d : Buf 8) :
    (leBytes 4 a ++ (leBytes 2 b ++ (leBytes 2 c ++ d.1))).length = 16 := by
  simp only [List.length_append, length_leBytes, d.2]

/-- `GUID_INIT` -/
def guidInit (a b c : Nat) (d : Buf 8) : Guid :=
  ⟨leBytes 4 a ++ (leBytes 2 b ++ (leBytes 2 c ++ d.1)), length_guidBytes a b c d⟩

/-- `GUID_PARTITION_SYSTEM` -/
def guidPartitionSystem : Guid :=
  guidInit 0xC12A7328 0xF81F 0x11d2 ⟨[0xBA, 0x4B, 0x00, 0xA0, 0xC9, 0x3E, 0xC9, 0x3B], rfl⟩

/-- `GUID_PARTITION_BASIC_DATA` -/
def guidPartitionBasicData : Guid :=
  guidInit 0xEBD0A0A2 0xB9E5 0x4433 ⟨[0x87, 0xC0, 0x68, 0xB6, 0xB7, 0x26, 0x99, 0xC7], rfl⟩

/-- `GUID_PARTITION_BIOS_BOOT` -/
def guidPartitionBiosBoot : Guid :=
  guidInit 0x21686148 0x6449 0x6E6F ⟨[0x74, 0x4E, 0x65, 0x65, 0x64, 0x45, 0x46, 0x49], rfl⟩

theorem length_addLast (g : Guid) (n : Nat) :
    (g.1.modify 15 (· + UInt8.ofNat n)).length = 16 := by
  rw [List.length_modify, g.2]

/-- `guid.b[sizeof(guid_t) - 1] += n` -/
def addLast (g : Guid) (n : Nat) : Guid := ⟨g.1.modify 15 (· + UInt8.ofNat n), length_addLast g n⟩

/-- An array of zeros. -/
def zeros (n : Nat) : Buf n := ⟨List.replicate n 0, List.length_replicate⟩

/-- The text of `init_utf16`. -/
def efiText : Bytes :=
  [0x45, 0x46, 0x49, 0x20, 0x53, 0x79, 0x73, 0x74, 0x65, 0x6d, 0x20, 0x50, 0x61, 0x72, 0x74, 0x69,
    0x74, 0x69, 0x6f, 0x6e]

theorem length_efiName :
    ((efiText.flatMap fun c : UInt8 => leBytes 2 c.toNat) ++ List.replicate 32 0).length = 72 := by
  decide

/-- `EFI System Partition` in UTF-16. -/
def efiSystemPartition : Buf 72 :=
  ⟨(efiText.flatMap fun c : UInt8 => leBytes 2 c.toNat) ++ List.replicate 32 0, length_efiName⟩

/-! ## Entries -/

/-- `GPT_ENTRY_MAX` -/
def gptEntryMax : Nat := 128

/-- `GPT_ENTRY_SIZE` -/
def gptEntrySize : Nat := 128

/-- `GPT_HEADER_SECTOR` -/
def gptHeaderSector : Nat := 1

/-- `GPT_FIRST_ENTRY_SECTOR` -/
def gptFirstEntrySector : Nat := 2

/-- The sectors of the array. -/
def gptArraySectors : Nat := gptEntrySize * gptEntryMax / diskSectorSize

/-- `struct gpte`; `last` is its `end`. -/
structure Gpte where
  type : Guid
  guid : Guid
  start : UInt64
  last : UInt64
  attr : UInt64
  name : Buf 72

namespace Gpte

def zero : Gpte := ⟨zeros 16, zeros 16, 0, 0, 0, zeros 72⟩

def bytes (x : Gpte) : Bytes :=
  x.type.1 ++ (x.guid.1 ++ (leBytes 8 x.start.toNat ++ (leBytes 8 x.last.toNat ++
    (leBytes 8 x.attr.toNat ++ x.name.1))))

end Gpte

namespace Options

variable (o : Options)

/-- The type of partition `i`. -/
def gptType (i : Nat) (p : Part) : Guid :=
  if p.type = 0xEF ∨ i + 1 = o.active then guidPartitionSystem else guidPartitionBasicData

/-- The entry of partition `i`. -/
def gpte (guid : Guid) (i : Nat) (p : Part) (q : Nat × Nat) : Gpte :=
  { type := o.gptType i p
    guid := addLast guid (i + 1)
    start := UInt64.ofNat q.1
    last := UInt64.ofNat (ulong ((q.2 : Int) - 1))
    attr := 0
    name := if p.type = 0xEF ∨ i + 1 = o.active then efiSystemPartition else zeros 72 }

/-- What the loop leaves in `gpte[i]`. -/
def loopEntry (guid : Guid) (parts : List Part) (placed : List (Option (Nat × Nat))) (i : Nat) :
    Gpte :=
  (parts[i]?.bind fun p => placed[i]?.join.map fun q => o.gpte guid i p q).getD Gpte.zero

/-- The sector behind the BIOS boot partition. -/
def biosEnd : Nat := if o.kbAlign ≠ 0 then o.roundToKb o.sectors else o.sectors

/-- `gpte[i]` as it is written: the BIOS boot partition is put into the last entry. -/
def gptEntry (guid : Guid) (parts : List Part) (placed : List (Option (Nat × Nat))) (i : Nat) :
    Gpte :=
  if i = gptEntryMax - 1 then
    { o.loopEntry guid parts placed i with
      start := UInt64.ofNat (gptFirstEntrySector + gptArraySectors)
      last := UInt64.ofNat (ulong ((o.biosEnd : Int) - 1))
      type := guidPartitionBiosBoot
      guid := addLast guid gptEntryMax }
  else o.loopEntry guid parts placed i

def gptEntries (guid : Guid) (parts : List Part) (placed : List (Option (Nat × Nat))) : List Gpte :=
  (List.range gptEntryMax).map (o.gptEntry guid parts placed)

end Options

/-! ## The header and the file -/

/-- `gpt_crc32` -/
def gptCrc32 (buf : Bytes) : UInt32 := crc32 0xffffffff buf ^^^ 0xffffffff

/-- The fields of `struct gpth` up to `last_usable`. -/
def gpthFields (alternate lastUsable : Nat) (headerCrc32 : UInt32) : List (Nat × Nat) :=
  [(8, 0x5452415020494645), (4, 0x00010000), (4, 92), (4, headerCrc32.toNat), (4, 0),
    (8, gptHeaderSector), (8, alternate), (8, gptFirstEntrySector + gptArraySectors),
    (8, lastUsable)]

/-- `struct gpth`, with the CRC of the header. -/
def gpth (guid : Guid) (alternate lastUsable : Nat) (entryCrc32 headerCrc32 : UInt32) : Bytes :=
  Endian.little.putAll (gpthFields alternate lastUsable headerCrc32) ++
    (guid.1 ++ Endian.little.putAll [(8, gptFirstEntrySector), (4, gptEntryMax),
      (4, gptEntrySize), (4, entryCrc32.toNat)])

/-- The last sector of the disk, `end` in the source. -/
def Options.diskEnd (o : Options) (sect : Nat) : Nat := ulong ((sect : Int) + o.sectors - 1)

/-- What is stored as `last_usable`. -/
def Options.lastSector (o : Options) (sect : Nat) : Nat :=
  ulong ((o.diskEnd sect : Int) - gptArraySectors - 1)

/-- The protective entry of the MBR. The `active` field is not set. -/
def Options.protective (o : Options) (stale : UInt8) (sect : Nat) : Pte :=
  { active := stale
    type := 0xEE
    start := UInt32.ofNat gptHeaderSector
    length := UInt32.ofNat (o.diskEnd sect)
    chsStart := o.toChs gptHeaderSector
    chsEnd := o.toChs (signed (o.diskEnd sect)) }

/-- The file: the MBR with one entry, the header behind it, and the array from its sector on. -/
def Options.gptFile (o : Options) (e : Endian) (signature : UInt32) (guid : Guid) (stale : UInt8)
    (sect : Nat) (gpte : List Gpte) : Bytes :=
  let entries := gpte.flatMap Gpte.bytes
  let header := gpth guid (o.diskEnd sect) (o.lastSector sect) (gptCrc32 entries)
  mbrFile e signature [o.protective stale sect, Pte.zero, Pte.zero, Pte.zero] ++
    (header (gptCrc32 (header 0)) ++ (List.replicate 420 0 ++ entries))

/-- An entry as it is read. -/
structure GptEntry where
  type : Bytes
  start : Nat
  last : Nat

def gptEntryAt (file : Bytes) (i : Nat) : GptEntry :=
  let off := diskSectorSize * gptFirstEntrySector + gptEntrySize * i
  ⟨load file off 16, leNat (load file (off + 32) 8), leNat (load file (off + 40) 8)⟩

/-- `last_usable` of the header. -/
def lastUsable (file : Bytes) : Nat :=
  leNat (load file (diskSectorSize * gptHeaderSector + 48) 8)

/-! ## What is read back -/

section
variable (o : Options) (e : Endian) (signature : UInt32) (guid : Guid) (stale : UInt8) (sect : Nat)
  {gpte : List Gpte} {x : Gpte} {i : Nat}

theorem length_gpte_bytes (x : Gpte) : x.bytes.length = gptEntrySize := by
  simp only [Gpte.bytes, List.length_append, x.type.2, x.guid.2, x.name.2, length_leBytes]
  rfl

theorem length_mbrFile (a b c d : Pte) : (mbrFile e signature [a, b, c, d]).length = 512 := by
  simp only [mbrFile, List.flatMap_cons, List.flatMap_nil, List.length_append,
    List.length_replicate, Endian.length_put, length_pte_bytes, List.length_cons, List.length_nil]
  rfl

theorem length_gpth (alternate last : Nat) (entryCrc32 headerCrc32 : UInt32) :
    (gpth guid alternate last entryCrc32 headerCrc32).length = 92 := by
  rw [gpth, List.length_append, List.length_append, Endian.length_putAll, Endian.length_putAll,
    guid.2]
  rfl

/-- The array is in the file from sector 2 on. -/
theorem drop_gptFile (h : gpte[i]? = some x) : ∃ after,
    (o.gptFile e signature guid stale sect gpte).drop
      (diskSectorSize * gptFirstEntrySector + gptEntrySize * i) = x.bytes ++ after := by
  obtain ⟨after, hafter⟩ := drop_flatMap length_gpte_bytes h []
  rw [List.append_nil] at hafter
  refine ⟨after, ?_⟩
  rw [Options.gptFile, ← List.append_assoc, ← List.append_assoc, ← List.drop_drop, List.drop_left',
    hafter]
  simp only [List.length_append, length_mbrFile, length_gpth, List.length_replicate]
  rfl

theorem load_of_drop {m a after : Bytes} {off : Nat} (h : m.drop off = a ++ after) (k n : Nat) :
    load m (off + k) n = load (a ++ after) k n := by
  rw [load, load, ← h, List.drop_drop]

theorem leNat_field {n : Nat} (h : n < 2 ^ 64) : leNat (leBytes 8 n) = n := by
  rw [leNat_leBytes]
  exact Nat.mod_eq_of_lt h

theorem gptEntryAt_gptFile (h : gpte[i]? = some x) :
    gptEntryAt (o.gptFile e signature guid stale sect gpte) i =
      ⟨x.type.1, x.start.toNat, x.last.toNat⟩ := by
  obtain ⟨after, hfile⟩ := drop_gptFile o e signature guid stale sect h
  have hfront : (x.type.1 ++ x.guid.1).length = 32 := by rw [List.length_append, x.type.2, x.guid.2]
  have htype : load (x.bytes ++ after) 0 16 = x.type.1 := by
    rw [load, List.drop_zero, Gpte.bytes, List.append_assoc, List.take_left' x.type.2]
  have hstart : load (x.bytes ++ after) 32 8 = leBytes 8 x.start.toNat := by
    rw [Gpte.bytes, ← List.append_assoc, List.append_assoc, load_append_right hfront,
      List.append_assoc, List.take_left' (length_leBytes _ _)]
  have hlast : load (x.bytes ++ after) 40 8 = leBytes 8 x.last.toNat := by
    rw [Gpte.bytes, ← List.append_assoc, ← List.append_assoc, List.append_assoc, load_append_right,
      List.append_assoc, List.take_left' (length_leBytes _ _)]
    rw [List.length_append, hfront, length_leBytes]
  have hload := load_of_drop hfile 0 16
  rw [Nat.add_zero] at hload
  rw [gptEntryAt, hload, load_of_drop hfile, load_of_drop hfile, htype, hstart, hlast,
    leNat_field x.start.toNat_lt, leNat_field x.last.toNat_lt]

end

/-! ## What is said about the entries -/

/-- An entry with a type. -/
def GptEntry.Used (x : GptEntry) : Prop := x.type ≠ List.replicate 16 0

/-- `first_usable` -/
def gptFirstUsable : Nat := gptFirstEntrySector + gptArraySectors

/-- The last of 128 partitions is null; the first that is not starts behind the array and the BIOS
boot partition, and a track has 33 sectors at least. Without partitions, `last_usable` wraps. -/
structure Options.Clear (o : Options) (parts : List Part) : Prop where
  slot : ∀ p, parts[gptEntryMax - 1]? = some p → p.size = 0
  first : ∀ s, o.firstStart 0 parts = some s →
    gptFirstUsable ≤ s ∧ o.biosEnd ≤ s ∧ gptFirstUsable ≤ o.sectors + 1
  none : o.firstStart 0 parts = none → o.sectors < gptFirstUsable

section
variable {o : Options} {parts : List Part} {placed : List (Option (Nat × Nat))} {guid : Guid}
  {i : Nat} {p : Part} {q : Nat × Nat}

theorem biosEnd_bounds (o : Options) : o.sectors ≤ o.biosEnd ∧ o.biosEnd < 2 ^ 32 := by
  have hsectors := o.sectors_lt
  have hkb := o.kbAlign_lt
  have hpos := o.sectors_pos
  rw [Options.biosEnd]
  split
  · rename_i hne
    have hle := le_roundUp o.sectors (Nat.pos_of_ne_zero hne)
    have hlt := roundUp_lt o.sectors (Nat.pos_of_ne_zero hne)
    rw [roundToKb_of_lt hne hpos (by omega)]
    omega
  · omega

theorem loopEntry_of_some (hp : parts[i]? = some p) (hq : placed[i]? = some (some q)) :
    o.loopEntry guid parts placed i = o.gpte guid i p q := by
  rw [Options.loopEntry, hp, hq]
  rfl

theorem loopEntry_of_none (h : parts[i]? = none ∨ placed[i]? = some none) :
    o.loopEntry guid parts placed i = Gpte.zero := by
  rw [Options.loopEntry]
  rcases h with h | h
  · rw [h]
    rfl
  · rw [h]
    cases parts[i]? <;> rfl

variable {e : Endian} {signature : UInt32} {stale : UInt8} {sect : Nat}
  {r : List (Option (Nat × Nat)) × Nat}

theorem gptEntryAt_eq (hi : i < gptEntryMax) :
    gptEntryAt (o.gptFile e signature guid stale sect (o.gptEntries guid parts placed)) i =
      ⟨(o.gptEntry guid parts placed i).type.1, (o.gptEntry guid parts placed i).start.toNat,
        (o.gptEntry guid parts placed i).last.toNat⟩ := by
  apply gptEntryAt_gptFile
  rw [Options.gptEntries, List.getElem?_map, List.getElem?_range hi, Option.map_some]

theorem toNat_ofNat {n : Nat} (h : n < 2 ^ 64) : (UInt64.ofNat n).toNat = n :=
  UInt64.toNat_ofNat_of_lt' h

theorem entry_bios :
    gptEntryAt (o.gptFile e signature guid stale sect (o.gptEntries guid parts placed))
      (gptEntryMax - 1) = ⟨guidPartitionBiosBoot.1, gptFirstUsable, o.biosEnd - 1⟩ := by
  have hbios := biosEnd_bounds o
  have hpos := o.sectors_pos
  have hlast : ulong ((o.biosEnd : Int) - 1) = o.biosEnd - 1 := by
    rw [ulong]
    omega
  rw [gptEntryAt_eq (by decide), Options.gptEntry, if_pos rfl]
  dsimp only
  rw [hlast, toNat_ofNat (by decide), toNat_ofNat (by omega), gptFirstUsable]

theorem entry_part (hi : i < gptEntryMax) (hne : i ≠ gptEntryMax - 1) (hp : parts[i]? = some p)
    (hq : placed[i]? = some (some q)) (hlt : q.1 < q.2) (hend : q.2 < 2 ^ 63) :
    gptEntryAt (o.gptFile e signature guid stale sect (o.gptEntries guid parts placed)) i =
      ⟨(o.gptType i p).1, q.1, q.2 - 1⟩ := by
  have hlast : ulong ((q.2 : Int) - 1) = q.2 - 1 := by
    rw [ulong]
    omega
  rw [gptEntryAt_eq hi, Options.gptEntry, if_neg hne, loopEntry_of_some hp hq, Options.gpte]
  dsimp only
  rw [hlast, toNat_ofNat (by omega), toNat_ofNat (by omega)]

/-- What an entry in use is for. -/
theorem used_cases (h : o.Laid 0 parts r) (hi : i < gptEntryMax)
    (hused : (gptEntryAt (o.gptFile e signature guid stale sect
      (o.gptEntries guid parts r.1)) i).Used) :
    i = gptEntryMax - 1 ∨ (i ≠ gptEntryMax - 1 ∧ ∃ (p : Part) (q : Nat × Nat),
      parts[i]? = some p ∧ p.size ≠ 0 ∧ r.1[i]? = some (some q)) := by
  by_cases hne : i = gptEntryMax - 1
  · exact .inl hne
  right
  have hzero (hnone : parts[i]? = none ∨ r.1[i]? = some none) : False := by
    apply hused
    rw [gptEntryAt_eq hi, Options.gptEntry, if_neg hne, loopEntry_of_none hnone]
    rfl
  cases hp : parts[i]? with
  | none => exact (hzero (.inl hp)).elim
  | some p =>
    rcases h.own i p hp with ⟨-, hnone⟩ | ⟨hsize, q, hq, -⟩
    · exact (hzero (.inr hnone)).elim
    · exact ⟨hne, p, q, rfl, hsize, hq⟩

theorem firstStart_of_part (hp : parts[i]? = some p) (hsize : p.size ≠ 0) :
    ∃ s, o.firstStart 0 parts = some s := by
  cases hfirst : o.firstStart 0 parts with
  | some s => exact ⟨s, rfl⟩
  | none =>
    rw [Options.firstStart, Option.map_eq_none_iff] at hfirst
    have hnull := List.find?_eq_none.mp hfirst p (List.mem_of_getElem? hp)
    exact absurd (bne_iff_ne.mpr hsize) hnull

/-! ## When they are right -/

/-- Where the usable sectors end, behind a partition. -/
theorem lastSector_eq (hlt : sect < 2 ^ 63) (hge : gptFirstUsable ≤ sect) :
    o.lastSector sect = sect + o.sectors - gptFirstUsable := by
  have hsectors := o.sectors_lt
  have hpos := o.sectors_pos
  have hfirst : gptFirstUsable = 34 := rfl
  have harray : gptArraySectors = 32 := rfl
  have hend : o.diskEnd sect = sect + o.sectors - 1 := by
    rw [Options.diskEnd, ulong]
    omega
  rw [Options.lastSector, hend, harray, hfirst, ulong]
  omega

/-- Every partition is behind the array and the BIOS boot partition, and ends in time. -/
theorem Options.Clear.place (hclear : o.Clear parts) (h : o.Laid 0 parts r)
    (hp : parts[i]? = some p) (hsize : p.size ≠ 0) (hq : r.1[i]? = some (some q)) :
    i ≠ gptEntryMax - 1 ∧ gptFirstUsable ≤ q.1 ∧ o.biosEnd ≤ q.1 ∧ q.1 < q.2 ∧ q.2 ≤ r.2 ∧
      r.2 ≤ o.lastSector r.2 + 1 := by
  have hfirstUsable : gptFirstUsable = 34 := rfl
  have hmem := List.mem_of_getElem? hq
  obtain ⟨s, hs⟩ := firstStart_of_part (o := o) hp hsize
  obtain ⟨husable, hbehind, htrack⟩ := hclear.first s hs
  have hsq := (h.first s hs).2 q hmem
  have hbounds := h.bounds q hmem
  have hlast := lastSector_eq (o := o) h.lt (by omega)
  exact ⟨fun heq => hsize (hclear.slot p (heq ▸ hp)), by omega, by omega, by omega, by omega,
    by omega⟩

/-- An entry in use is the one for the BIOS boot partition or that of a partition. -/
theorem Options.Clear.used (hclear : o.Clear parts) (h : o.Laid 0 parts r) (hi : i < gptEntryMax)
    (hused : (gptEntryAt (o.gptFile e signature guid stale sect
      (o.gptEntries guid parts r.1)) i).Used) :
    (i = gptEntryMax - 1 ∧ gptEntryAt (o.gptFile e signature guid stale sect
        (o.gptEntries guid parts r.1)) i =
          ⟨guidPartitionBiosBoot.1, gptFirstUsable, o.biosEnd - 1⟩) ∨
      ∃ (p : Part) (q : Nat × Nat), parts[i]? = some p ∧ p.size ≠ 0 ∧ r.1[i]? = some (some q) ∧
        gptEntryAt (o.gptFile e signature guid stale sect (o.gptEntries guid parts r.1)) i =
          ⟨(o.gptType i p).1, q.1, q.2 - 1⟩ := by
  rcases used_cases h hi hused with rfl | ⟨hne, p, q, hp, hsize, hq⟩
  · exact .inl ⟨rfl, entry_bios⟩
  · obtain ⟨-, -, -, hlt, hend, -⟩ := hclear.place h hp hsize hq
    exact .inr ⟨p, q, hp, hsize, hq, entry_part hi hne hp hq hlt (Nat.lt_of_le_of_lt hend h.lt)⟩

end

section

end

end UolaOs.Ptgen
