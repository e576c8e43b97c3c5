import UolaOs.Lib.File
import UolaOs.Safeloader.Split

/-!
# From a factory image to a sysupgrade file

`convert_firmware` of tplink-safeloader.c. The output file takes whatever is written to it.

* `findEntries_fault_iff`: when a lookup runs into a free entry;
* `writePartition_of_within`, `writePartition_short`: what a copy needs;
* `Selection.laid_iff`: when the output file has both partitions;
* `convertFirmware_iff`: when an image is converted or refused.
-/

namespace UolaOs.Safeloader

/-- The array that `add_flash_partition` fills. The name of a free entry is `NULL`. -/
def slots (es : List FlashPart) : List (Option FlashPart) :=
  es.map some ++ List.replicate (maxPartitions - es.length) none

/-- `find_partition`: `strcmp` reads the name of each entry. -/
def findPartition (name : CStr) : List (Option FlashPart) → Except Exit FlashPart
  | [] => .error .failure
  | none :: _ => .error .fault
  | some e :: entries => if e.name = name then .ok e else findPartition name entries

/-- `write_ff`: what it writes, 4 KiB at a time; `size` is what is left. -/
def writeFf (size : Nat) : Bytes :=
  if 4096 < size then List.replicate 4096 0xff ++ writeFf (size - 4096)
  else List.replicate size 0xff
termination_by size

/-- The entries that `convert_firmware` works with. -/
structure Selection where
  fwupOsImage : FlashPart
  fwupFileSystem : FlashPart
  flashOsImage : FlashPart
  flashFileSystem : FlashPart

/-- The first half of `convert_firmware`: both tables and the lookups. -/
def findEntries (input : Bytes) : Except Exit Selection := do
  let some fwupEntries ← readPartitionTable input 0x1014 fwup maxPartitions | throw .failure
  let fwupOsImage ← findPartition osImage (slots fwupEntries)
  let fwupFileSystem ← findPartition fileSystem (slots fwupEntries)
  let fwupPartitionTable ← findPartition partitionTable (slots fwupEntries)
  -- the flash partition table is behind four bytes of its part
  let some flashEntries ←
    readPartitionTable input (0x1014 + fwupPartitionTable.base.toNat + 4) flash maxPartitions
    | throw .failure
  let flashOsImage ← findPartition osImage (slots flashEntries)
  let flashFileSystem ← findPartition fileSystem (slots flashEntries)
  return ⟨fwupOsImage, fwupFileSystem, flashOsImage, flashFileSystem⟩

/-- The second half: what it writes to the output file. -/
def Selection.write (s : Selection) (input : Bytes) : Except Exit File := do
  let output := File.create
  let output := output.write (← writePartition input 0x1014 s.fwupOsImage)
  let output := output.write (writeFf (s.flashOsImage.size - s.fwupOsImage.size).toNat)
  let output := output.seek (s.flashFileSystem.base - s.flashOsImage.base).toNat
  let output := output.write (← writePartition input 0x1014 s.fwupFileSystem)
  return output.write (writeFf (s.flashFileSystem.size - s.fwupFileSystem.size).toNat)

/-- `convert_firmware`: the output file. -/
def convertFirmware (input : Bytes) : Except Exit Bytes := do
  let s ← findEntries input
  let output ← s.write input
  return output.data

/-! ## The lookups -/

/-- The image partition table. -/
def ImageTable (input : Bytes) (es : List FlashPart) : Prop :=
  readPartitionTable input 0x1014 fwup maxPartitions = .ok (some es)

/-- The first entry of a name. -/
def lookup (name : CStr) (es : List FlashPart) : Option FlashPart := es.find? fun e => e.name = name

/-- The flash partition table of an image whose own table has what is looked up in it. -/
def FlashTable (input : Bytes) (es : List FlashPart) : Prop :=
  ∃ (images : List FlashPart) (os fs table : FlashPart), ImageTable input images ∧
    lookup osImage images = some os ∧ lookup fileSystem images = some fs ∧
    lookup partitionTable images = some table ∧
    readPartitionTable input (0x1014 + table.base.toNat + 4) flash maxPartitions = .ok (some es)

/-- The entries are those of the tables of the image. -/
def Selection.Of (s : Selection) (input : Bytes) : Prop :=
  ∃ images flashes, ImageTable input images ∧ FlashTable input flashes ∧
    lookup osImage images = some s.fwupOsImage ∧
    lookup fileSystem images = some s.fwupFileSystem ∧
    lookup osImage flashes = some s.flashOsImage ∧
    lookup fileSystem flashes = some s.flashFileSystem

/-- All names are there, or no entry of the array is free. -/
def Findable (names : List CStr) (es : List FlashPart) : Prop :=
  es.length < maxPartitions → ∀ n ∈ names, (lookup n es).isSome

section
variable {es : List FlashPart} {name : CStr} {e : FlashPart} {input file : Bytes} {s : Selection}
  {fmt : Format} {off maxEntries : Nat}

/-- The lookup goes through the entries up to the first of the name. -/
theorem findPartition_append (rest : List (Option FlashPart)) :
    findPartition name (es.map some ++ rest) =
      ((lookup name es).map Except.ok).getD (findPartition name rest) := by
  induction es with
  | nil => rfl
  | cons e es ih =>
    rw [List.map_cons, List.cons_append, findPartition, lookup, List.find?_cons]
    by_cases he : e.name = name
    · rw [if_pos he, decide_eq_true he]
      rfl
    · rw [if_neg he, decide_eq_false he]
      exact ih

theorem findPartition_of_lookup (h : lookup name es = some e) :
    findPartition name (slots es) = .ok e := by
  rw [slots, findPartition_append, h]
  rfl

/-- A name that is missing ends in the free entries. -/
theorem findPartition_free (h : lookup name es = none) (hfree : es.length < maxPartitions) :
    findPartition name (slots es) = .error .fault := by
  obtain ⟨n, hn⟩ := Nat.exists_eq_succ_of_ne_zero (Nat.sub_ne_zero_of_lt hfree)
  rw [slots, findPartition_append, h, hn]
  rfl

theorem findPartition_full (h : lookup name es = none) (hfull : ¬ es.length < maxPartitions) :
    findPartition name (slots es) = .error .failure := by
  rw [slots, findPartition_append, h, Nat.sub_eq_zero_of_le (Nat.le_of_not_lt hfull)]
  rfl

theorem findPartition_spec (name : CStr) (es : List FlashPart) :
    Safe (fun e => e = .failure ∨ es.length < maxPartitions ∧ lookup name es = none)
      (findPartition name (slots es)) fun e => lookup name es = some e := by
  cases h : lookup name es with
  | some e =>
    rw [findPartition_of_lookup h]
    exact .ok rfl
  | none =>
    by_cases hfree : es.length < maxPartitions
    · rw [findPartition_free h hfree]
      exact .error (.inr ⟨hfree, rfl⟩)
    · rw [findPartition_full h hfree]
      exact .error (.inl rfl)

/-! ## What the reader reports -/

theorem element_spec (seg : Bytes) : Safe (· = Exit.failure) (element seg) fun _ => True := by
  rw [element]
  split
  · exact .ok trivial
  · split
    · exact .error rfl
    · exact .ok trivial

theorem parseLine_spec (seg after : Bytes) :
    Safe (· = Exit.failure) (parseLine seg after) fun _ => True := by
  rw [parseLine]
  refine (element_spec seg).bind fun a _ => ?_
  split
  refine (element_spec _).bind fun b _ => ?_
  split
  refine (element_spec _).bind fun c _ => ?_
  split
  refine (element_spec _).bind fun d _ => ?_
  split
  refine (element_spec _).bind fun e _ => ?_
  split
  all_goals exact .ok trivial

theorem readLines_spec (rounds : Nat) (buf : Bytes) (es : List FlashPart) :
    Safe (· = Exit.failure) (readLines fmt maxEntries rounds buf es) fun _ => True := by
  induction rounds generalizing buf es with
  | zero => exact .ok trivial
  | succ rounds ih =>
    rw [readLines]
    split
    · split
      · exact .ok trivial
      · refine (parseLine_spec _ _).bind fun a _ => ?_
        split
        · exact ih _ _
        · split
          · exact .error rfl
          · exact ih _ _
    · exact .ok trivial

/-- The only error of the reader is one it reports. -/
theorem readPartitionTable_spec (file : Bytes) (off : Nat) (fmt : Format) (maxEntries : Nat) :
    Safe (· = Exit.failure) (readPartitionTable file off fmt maxEntries) fun r =>
      readPartitionTable file off fmt maxEntries = .ok r := by
  have hsafe : Safe (· = Exit.failure) (readPartitionTable file off fmt maxEntries)
      fun _ => True := by
    rw [readPartitionTable, readAll]
    split
    · rw [ok_bind]
      dsimp only
      split
      · exact .ok trivial
      · exact (readLines_spec _ _ _).bind fun _ _ => .ok trivial
    · exact .error rfl
  cases h : readPartitionTable file off fmt maxEntries with
  | error e => exact .error (hsafe.of_error h)
  | ok r => exact .ok rfl

/-! ## Both tables -/

theorem findEntries_of (h : s.Of input) : findEntries input = .ok s := by
  obtain ⟨images, flashes, himages, ⟨images', os, fs, table, himages', -, -, htable, hflash⟩, hos,
    hfs, hfos, hffs⟩ := h
  obtain rfl := Option.some.inj (Except.ok.inj (himages.symm.trans himages'))
  rw [findEntries, himages, ok_bind]
  dsimp only
  rw [findPartition_of_lookup hos, ok_bind, findPartition_of_lookup hfs, ok_bind,
    findPartition_of_lookup htable, ok_bind, hflash, ok_bind]
  dsimp only
  rw [findPartition_of_lookup hfos, ok_bind, findPartition_of_lookup hffs]
  rfl

/-- A table has free entries and lacks a name. -/
def Unfindable (input : Bytes) : Prop :=
  (∃ es, ImageTable input es ∧ ¬ Findable [osImage, fileSystem, partitionTable] es) ∨
    ∃ es, FlashTable input es ∧ ¬ Findable [osImage, fileSystem] es

theorem not_findable {names : List CStr} (hmem : name ∈ names)
    (h : es.length < maxPartitions ∧ lookup name es = none) : ¬ Findable names es := by
  intro hfind
  have hsome := hfind h.1 name hmem
  rw [h.2] at hsome
  cases hsome

theorem findEntries_spec (input : Bytes) :
    Safe (fun e => e = .failure ∨ Unfindable input) (findEntries input)
      fun s => s.Of input := by
  rw [findEntries]
  refine ((readPartitionTable_spec _ _ _ _).weaken fun e => Or.inl).bind fun r himages => ?_
  split
  next images =>
    have hfault {name : CStr} (hmem : name ∈ [osImage, fileSystem, partitionTable]) (e : Exit)
        (he : e = .failure ∨ images.length < maxPartitions ∧ lookup name images = none) :
        e = .failure ∨ Unfindable input :=
      he.imp_right fun hmiss => .inl ⟨images, himages, not_findable hmem hmiss⟩
    refine ((findPartition_spec _ _).weaken (hfault (by simp))).bind fun os hos => ?_
    refine ((findPartition_spec _ _).weaken (hfault (by simp))).bind fun fs hfs => ?_
    refine ((findPartition_spec _ _).weaken (hfault (by simp))).bind fun table htable => ?_
    refine ((readPartitionTable_spec _ _ _ _).weaken fun e => Or.inl).bind fun r hread => ?_
    split
    next flashes =>
      have hflashes : FlashTable input flashes :=
        ⟨images, os, fs, table, himages, hos, hfs, htable, hread⟩
      have hfault {name : CStr} (hmem : name ∈ [osImage, fileSystem]) (e : Exit)
          (he : e = .failure ∨ flashes.length < maxPartitions ∧ lookup name flashes = none) :
          e = .failure ∨ Unfindable input :=
        he.imp_right fun hmiss => .inr ⟨flashes, hflashes, not_findable hmem hmiss⟩
      refine ((findPartition_spec _ _).weaken (hfault (by simp))).bind fun fos hfos => ?_
      refine ((findPartition_spec _ _).weaken (hfault (by simp))).bind fun ffs hffs => ?_
      exact .ok ⟨images, flashes, himages, hflashes, hos, hfs, hfos, hffs⟩
    · exact .error (.inl rfl)
  · exact .error (.inl rfl)

/-- With free entries, a lookup that misses does not report it. -/
theorem findPartition_bind {α : Type} {f : FlashPart → Except Exit α}
    (hfree : es.length < maxPartitions)
    (hf : ∀ e, lookup name es = some e → f e = .error .fault) :
    (findPartition name (slots es) >>= f) = .error .fault := by
  cases h : lookup name es with
  | none =>
    rw [findPartition_free h hfree]
    rfl
  | some e =>
    rw [findPartition_of_lookup h]
    exact hf e h

/-- **The lookups.** They run into a free entry exactly if a name is missing in front of one. -/
theorem findEntries_fault_iff : findEntries input = .error .fault ↔ Unfindable input := by
  constructor
  · intro h
    exact ((findEntries_spec input).of_error h).resolve_left Exit.noConfusion
  rintro (⟨es, himages, hmiss⟩ | ⟨es, ⟨images, os, fs, table, himages, hos, hfs, htable, hflash⟩,
    hmiss⟩)
  all_goals
    rw [Findable, Classical.not_imp] at hmiss
    obtain ⟨hfree, hmiss⟩ := hmiss
    rw [findEntries, himages, ok_bind]
    dsimp only
  · refine findPartition_bind hfree fun os hos => ?_
    refine findPartition_bind hfree fun fs hfs => ?_
    refine findPartition_bind hfree fun table htable => absurd (fun n hn => ?_) hmiss
    simp only [List.mem_cons, List.not_mem_nil, or_false] at hn
    rcases hn with rfl | rfl | rfl
    · rw [hos]
      rfl
    · rw [hfs]
      rfl
    · rw [htable]
      rfl
  · rw [findPartition_of_lookup hos, ok_bind, findPartition_of_lookup hfs, ok_bind,
      findPartition_of_lookup htable, ok_bind, hflash, ok_bind]
    dsimp only
    refine findPartition_bind hfree fun fos hfos => ?_
    refine findPartition_bind hfree fun ffs hffs => absurd (fun n hn => ?_) hmiss
    simp only [List.mem_cons, List.not_mem_nil, or_false] at hn
    rcases hn with rfl | rfl
    · rw [hfos]
      rfl
    · rw [hffs]
      rfl

/-! ## What is written -/

theorem writeFf_eq (size : Nat) : writeFf size = List.replicate size 0xff := by
  induction size using writeFf.induct with
  | case1 size hlt ih =>
    rw [writeFf, if_pos hlt, ih, List.replicate_append_replicate,
      Nat.add_sub_cancel' (Nat.le_of_lt hlt)]
  | case2 size hle => rw [writeFf, if_neg hle]

/-- The bytes that an entry of the image table stands for are in the image. -/
def FlashPart.Within (e : FlashPart) (input : Bytes) : Prop :=
  e.size = 0 ∨ 0x1014 + e.base.toNat + e.size.toNat ≤ input.length

def FlashPart.content (e : FlashPart) (input : Bytes) : Bytes :=
  load input (0x1014 + e.base.toNat) e.size.toNat

theorem length_content (h : e.Within input) : (e.content input).length = e.size.toNat := by
  rcases h with h | h
  · rw [FlashPart.content, h, UInt32.toNat_zero, load, List.take_zero, List.length_nil]
  · exact length_load h

/-- The rounds of a copy. -/
theorem copied_of {pos k : Nat} (h : k = 0 ∨ pos + 4096 * k ≤ file.length) :
    ((List.range k).foldlM (fun out i => do
      let bs ← readAll file (pos + 4096 * i) 4096
      return out ++ bs) [] : Except Exit Bytes) = .ok (load file pos (4096 * k)) := by
  rcases h with rfl | h
  · rw [Nat.mul_zero, load, List.take_zero]
    rfl
  · exact copied h

/-- Rounds that reach past the end of the image. -/
theorem copied_short {pos k : Nat} (hk : 0 < k) (h : file.length < pos + 4096 * k) :
    ((List.range k).foldlM (fun out i => do
      let bs ← readAll file (pos + 4096 * i) 4096
      return out ++ bs) [] : Except Exit Bytes) = .error .failure := by
  induction k with
  | zero => exact absurd hk (Nat.lt_irrefl 0)
  | succ k ih =>
    rw [Nat.mul_succ, ← Nat.add_assoc] at h
    have hread := readAll_short (Nat.succ_pos 4095) h
    rw [List.range_succ, List.foldlM_append]
    by_cases hfits : k = 0 ∨ pos + 4096 * k ≤ file.length
    · rw [copied_of hfits, ok_bind, List.foldlM_cons, hread]
      rfl
    · rw [ih (by omega) (by omega)]
      rfl

theorem writePartition_of_within (h : e.Within input) :
    writePartition input 0x1014 e = .ok (e.content input) := by
  rcases h with h | h
  · rw [writePartition, FlashPart.content, h, UInt32.toNat_zero, load, List.take_zero, Nat.zero_div,
      copied_of (.inl rfl), ok_bind, Nat.zero_mod, if_pos rfl, Nat.mul_zero, load, List.take_zero]
    rfl
  · rw [writePartition_eq (by omega), FlashPart.content, Nat.add_comm]

/-- A copy that does not find all bytes reports it. -/
theorem writePartition_short (h : ¬ e.Within input) :
    writePartition input 0x1014 e = .error .failure := by
  rw [FlashPart.Within, not_or] at h
  obtain ⟨hzero, hshort⟩ := h
  have hpos : 0 < e.size.toNat := Nat.pos_of_ne_zero fun hz => hzero (UInt32.toNat_inj.mp hz)
  have hsize := Nat.div_add_mod e.size.toNat 4096
  rw [writePartition]
  by_cases hrounds : e.size.toNat / 4096 = 0 ∨
      e.base.toNat + 0x1014 + 4096 * (e.size.toNat / 4096) ≤ input.length
  · have hrest : 0 < e.size.toNat % 4096 := by omega
    rw [copied_of hrounds, ok_bind, if_neg (Nat.ne_of_gt hrest), readAll_short hrest (by omega)]
    rfl
  · rw [copied_short (by omega) (by omega)]
    rfl

end

/-! ## The layout -/

/-- Bytes with 0xff behind them up to a size. -/
def padded (bs : Bytes) (size : Nat) : Bytes := bs ++ List.replicate (size - bs.length) 0xff

/-- They are at `pos`. -/
def PaddedAt (output : Bytes) (pos : Nat) (bs : Bytes) (size : Nat) : Prop :=
  load output pos (padded bs size).length = padded bs size

namespace Selection

/-- Where the parts end, relative to their start: with their padding, if they have some. -/
def osImageEnd (s : Selection) : Nat := max s.fwupOsImage.size.toNat s.flashOsImage.size.toNat

def fileSystemEnd (s : Selection) : Nat :=
  max s.fwupFileSystem.size.toNat s.flashFileSystem.size.toNat

/-- The output file has the parts where the flash partitions are, and nothing behind them. -/
def Laid (s : Selection) (input output : Bytes) : Prop :=
  ∃ pos, s.flashOsImage.base.toNat + pos = s.flashFileSystem.base.toNat ∧
    PaddedAt output 0 (s.fwupOsImage.content input) s.flashOsImage.size.toNat ∧
    PaddedAt output pos (s.fwupFileSystem.content input) s.flashFileSystem.size.toNat ∧
    output.length ≤ max s.osImageEnd (pos + s.fileSystemEnd)

/-- The distance of the flash partitions. -/
def gap (s : Selection) : Nat := s.flashFileSystem.base.toNat - s.flashOsImage.base.toNat

/-- No part is larger than its flash partition, unless the file system hides what the padding of
`os-image` becomes; the partitions are in order, and they agree where they meet. -/
structure Fits (s : Selection) (input : Bytes) : Prop where
  order : s.flashOsImage.base.toNat ≤ s.flashFileSystem.base.toNat
  osImage : s.fwupOsImage.size.toNat ≤ s.flashOsImage.size.toNat ∨
    2 ^ 32 + s.flashOsImage.size.toNat ≤ s.gap + s.flashFileSystem.size.toNat
  fileSystem : s.fwupFileSystem.size.toNat ≤ s.flashFileSystem.size.toNat
  agree : ∀ (i : Nat), s.gap ≤ i → i < s.osImageEnd →
    i < s.gap + s.flashFileSystem.size.toNat →
      (padded (s.fwupOsImage.content input) s.flashOsImage.size.toNat)[i]? =
        (padded (s.fwupFileSystem.content input) s.flashFileSystem.size.toNat)[i - s.gap]?

end Selection

/-- What `write_ff` writes besides the padding. -/
def excess (part flash : FlashPart) : Nat :=
  if part.size.toNat ≤ flash.size.toNat then 0
  else 2 ^ 32 - (part.size.toNat - flash.size.toNat)

section
variable {input : Bytes} {s : Selection} {part flash : FlashPart}

theorem length_padded (bs : Bytes) (size : Nat) : (padded bs size).length = max bs.length size := by
  rw [padded, List.length_append, List.length_replicate]
  omega

theorem toNat_sub (part flash : FlashPart) : (flash.size - part.size).toNat =
    flash.size.toNat - part.size.toNat + excess part flash := by
  have hpart := part.size.toNat_lt
  have hflash := flash.size.toNat_lt
  rw [UInt32.toNat_sub, excess]
  split <;> omega

/-- A part and what `write_ff` writes behind it. -/
theorem content_writeFf (h : part.Within input) :
    part.content input ++ writeFf (flash.size - part.size).toNat =
      padded (part.content input) flash.size.toNat ++
        List.replicate (excess part flash) 0xff := by
  rw [writeFf_eq, toNat_sub, padded, length_content h, List.append_assoc,
    List.replicate_append_replicate]

theorem Selection.write_of_within (hos : s.fwupOsImage.Within input)
    (hfs : s.fwupFileSystem.Within input) :
    s.write input = .ok
      (((File.create.write (padded (s.fwupOsImage.content input) s.flashOsImage.size.toNat ++
          List.replicate (excess s.fwupOsImage s.flashOsImage) 0xff)).seek
        (s.flashFileSystem.base - s.flashOsImage.base).toNat).write
          (padded (s.fwupFileSystem.content input) s.flashFileSystem.size.toNat ++
            List.replicate (excess s.fwupFileSystem s.flashFileSystem) 0xff)) := by
  rw [Selection.write, writePartition_of_within hos, ok_bind, writePartition_of_within hfs, ok_bind,
    File.write_append, content_writeFf hos]
  dsimp only
  rw [File.write_append, content_writeFf hfs]
  rfl

theorem gap_eq (h : s.flashOsImage.base.toNat ≤ s.flashFileSystem.base.toNat) :
    (s.flashFileSystem.base - s.flashOsImage.base).toNat = s.gap :=
  UInt32.toNat_sub_of_le _ _ (UInt32.le_iff_toNat_le.mpr h)

theorem create_write (bs : Bytes) : (File.create.write bs).data = bs := by
  have hend := File.write_end [] bs
  rw [List.nil_append] at hend
  exact congrArg File.data hend

theorem excess_eq_zero (h : part.size.toNat ≤ flash.size.toNat) : excess part flash = 0 := if_pos h

/-- Both parts. -/
theorem Selection.length_padded (hos : s.fwupOsImage.Within input)
    (hfs : s.fwupFileSystem.Within input) :
    (padded (s.fwupOsImage.content input) s.flashOsImage.size.toNat).length = s.osImageEnd ∧
      (padded (s.fwupFileSystem.content input) s.flashFileSystem.size.toNat).length =
        s.fileSystemEnd := by
  rw [Safeloader.length_padded, Safeloader.length_padded, length_content hos, length_content hfs]
  exact ⟨rfl, rfl⟩

/-- A file that begins with `a`, after `b` is written at `pos`. -/
theorem overlay_front (a x b : Bytes) (pos : Nat) :
    load (((File.create.write (a ++ x)).seek pos).write b).data 0 a.length = a ↔
      ∀ i, pos ≤ i → i < a.length → i < pos + b.length → a[i]? = b[i - pos]? := by
  have hfront : load ((File.create.write (a ++ x)).seek pos).data 0 a.length = a := by
    rw [File.seek, create_write, load_zero]
  exact File.load_write_front_iff hfront

theorem overlay_behind (a b y : Bytes) (pos : Nat) :
    load (((File.create.write a).seek pos).write (b ++ y)).data pos b.length = b := by
  have hwrite := File.load_write ((File.create.write a).seek pos) (b ++ y)
  have hpos : ((File.create.write a).seek pos).pos = pos := rfl
  have hle : b.length ≤ (b ++ y).length := by
    rw [List.length_append]
    exact Nat.le_add_right _ _
  rw [hpos] at hwrite
  rw [← load_front hle, hwrite, load_zero]

theorem overlay_length (a b : Bytes) (pos : Nat) :
    (((File.create.write a).seek pos).write b).data.length =
      if b = [] then a.length else max a.length (pos + b.length) := by
  split
  next hnil => rw [hnil, File.write_nil, File.seek, create_write]
  next hne => rw [File.length_write hne, File.seek, create_write]

/-- Two parts with something behind them, where what is behind the second would reach past the
first. -/
theorem overlay_iff {a b : Bytes} {k l pos : Nat} {c : UInt8} {output : File}
    (hl : l ≠ 0 → a.length < b.length + l)
    (h : output = ((File.create.write (a ++ List.replicate k c)).seek pos).write
      (b ++ List.replicate l c)) :
    load output.data 0 a.length = a ∧ load output.data pos b.length = b ∧
        output.data.length ≤ max a.length (pos + b.length) ↔
      (k = 0 ∨ a.length + k ≤ pos + b.length) ∧ l = 0 ∧
        ∀ i, pos ≤ i → i < a.length → i < pos + b.length → a[i]? = b[i - pos]? := by
  have hlength : output.data.length = if b ++ List.replicate l c = [] then a.length + k
      else max (a.length + k) (pos + (b.length + l)) := by
    rw [h, overlay_length, List.length_append, List.length_append, List.length_replicate,
      List.length_replicate]
  subst h
  rw [overlay_front, hlength]
  constructor
  · rintro ⟨hagree, -, hend⟩
    have hzero : l = 0 := by
      by_contra hne
      have hcons : b ++ List.replicate l c ≠ [] := by
        apply List.ne_nil_of_length_pos
        rw [List.length_append, List.length_replicate]
        omega
      have hpast := hl hne
      rw [if_neg hcons] at hend
      omega
    subst hzero
    rw [List.replicate_zero, List.append_nil] at hagree hend
    refine ⟨?_, rfl, hagree⟩
    split at hend <;> omega
  · rintro ⟨hk, rfl, hagree⟩
    refine ⟨?_, overlay_behind _ _ _ _, ?_⟩
    · rw [List.replicate_zero, List.append_nil]
      exact hagree
    · split
      next hnil =>
        have hb := congrArg List.length hnil
        rw [List.length_append, List.length_nil] at hb
        omega
      · omega

/-- **The layout.** The output file has both parts exactly if they fit. -/
theorem Selection.laid_iff {output : File} (hos : s.fwupOsImage.Within input)
    (hfs : s.fwupFileSystem.Within input) (h : s.write input = .ok output) :
    s.Laid input output.data ↔ s.Fits input := by
  rw [Selection.write_of_within hos hfs] at h
  have houtput := (Except.ok.inj h).symm
  obtain ⟨hlenOs, hlenFs⟩ := Selection.length_padded hos hfs
  have hsize := s.fwupOsImage.size.toNat_lt
  have hflash := s.flashOsImage.size.toNat_lt
  -- with the wrapped padding, the file system alone takes more than 4 GiB
  have hpast : excess s.fwupFileSystem s.flashFileSystem ≠ 0 →
      s.osImageEnd < s.fileSystemEnd + excess s.fwupFileSystem s.flashFileSystem := by
    rw [excess, osImageEnd, fileSystemEnd]
    have hfsLt := s.fwupFileSystem.size.toNat_lt
    split <;> omega
  rw [← hlenOs, ← hlenFs] at hpast
  have hzero : excess s.fwupFileSystem s.flashFileSystem = 0 ↔
      s.fwupFileSystem.size.toNat ≤ s.flashFileSystem.size.toNat := by
    have hfsLt := s.fwupFileSystem.size.toNat_lt
    rw [excess]
    split <;> omega
  constructor
  · rintro ⟨pos, hbase, hfront, hbehind, hend⟩
    have horder : s.flashOsImage.base.toNat ≤ s.flashFileSystem.base.toNat :=
      hbase ▸ Nat.le_add_right _ _
    have hgap : s.gap = pos := by
      rw [gap]
      omega
    rw [gap_eq horder, hgap] at houtput
    rw [← hlenOs, ← hlenFs] at hend
    obtain ⟨hk, hl, hagree⟩ := (overlay_iff hpast houtput).mp ⟨hfront, hbehind, hend⟩
    have hfit := hzero.mp hl
    rw [hlenOs, hlenFs] at hk hagree
    rw [fileSystemEnd, Nat.max_eq_right hfit] at hk hagree
    refine ⟨horder, ?_, hfit, hgap ▸ hagree⟩
    rw [hgap]
    rw [excess, osImageEnd] at hk
    split at hk <;> omega
  · intro hfits
    have hend : s.fileSystemEnd = s.flashFileSystem.size.toNat := Nat.max_eq_right hfits.fileSystem
    have hk := hfits.osImage
    have hkept : excess s.fwupOsImage s.flashOsImage = 0 ∨
        s.osImageEnd + excess s.fwupOsImage s.flashOsImage ≤ s.gap + s.fileSystemEnd := by
      rw [hend, excess, osImageEnd]
      split <;> omega
    rw [gap_eq hfits.order] at houtput
    rw [← hlenOs, ← hlenFs] at hkept
    obtain ⟨hfront, hbehind, hlast⟩ :=
      (overlay_iff hpast houtput).mpr ⟨hkept, hzero.mpr hfits.fileSystem, fun i hlo hi hhi =>
        hfits.agree i hlo (hlenOs ▸ hi) (by rwa [hlenFs, hend] at hhi)⟩
    rw [hlenOs, hlenFs] at hlast
    exact ⟨s.gap, Nat.add_sub_cancel' hfits.order, hfront, hbehind, hlast⟩

end

/-! ## The conversion -/

/-- What `convert_firmware` is for: it reports an error, also where a partition is missing, or
writes a file with both parts. -/
structure Converts (input : Bytes) : Prop where
  reports : ∀ (e : Exit), convertFirmware input = .error e → e = .failure
  missing : (∀ (s : Selection), ¬ s.Of input) → convertFirmware input = .error .failure
  laid : ∀ (s : Selection) (output : Bytes), s.Of input → convertFirmware input = .ok output →
    s.Laid input output

/-- No table lacks a name in front of a free entry, and the parts that can be read fit. -/
structure Convertible (input : Bytes) : Prop where
  image : ∀ (es : List FlashPart), ImageTable input es →
    Findable [osImage, fileSystem, partitionTable] es
  flash : ∀ (es : List FlashPart), FlashTable input es → Findable [osImage, fileSystem] es
  fits : ∀ (s : Selection), s.Of input → s.fwupOsImage.Within input →
    s.fwupFileSystem.Within input → s.Fits input

section
variable {input : Bytes} {s : Selection}

theorem not_unfindable_iff : ¬ Unfindable input ↔
    (∀ es, ImageTable input es → Findable [osImage, fileSystem, partitionTable] es) ∧
      ∀ es, FlashTable input es → Findable [osImage, fileSystem] es := by
  simp only [Unfindable, not_or, not_exists, not_and, not_not]

theorem convertFirmware_of (h : s.Of input) :
    convertFirmware input = s.write input >>= fun output => .ok output.data := by
  rw [convertFirmware, findEntries_of h]
  rfl

/-- The copies fail as the first part that is not in the image. -/
theorem Selection.write_short
    (h : ¬ (s.fwupOsImage.Within input ∧ s.fwupFileSystem.Within input)) :
    s.write input = .error .failure := by
  rw [Selection.write]
  by_cases hos : s.fwupOsImage.Within input
  · rw [writePartition_of_within hos, ok_bind,
      writePartition_short fun hfs => h ⟨hos, hfs⟩]
    rfl
  · rw [writePartition_short hos]
    rfl

/-- **Conversion.** It does what it is for exactly on the images that are convertible. -/
theorem convertFirmware_iff (input : Bytes) : Converts input ↔ Convertible input := by
  constructor
  · intro h
    have hfind : ¬ Unfindable input := fun hmiss => by
      have hfault : convertFirmware input = .error .fault := by
        rw [convertFirmware, findEntries_fault_iff.mpr hmiss]
        rfl
      exact Exit.noConfusion (h.reports _ hfault)
    obtain ⟨himage, hflash⟩ := not_unfindable_iff.mp hfind
    refine ⟨himage, hflash, fun s hs hos hfs => ?_⟩
    have hwrite := Selection.write_of_within hos hfs
    refine (Selection.laid_iff hos hfs hwrite).mp (h.laid s _ hs ?_)
    rw [convertFirmware_of hs, hwrite]
    rfl
  · intro h
    have hfind := not_unfindable_iff.mpr ⟨h.image, h.flash⟩
    have hspec := (findEntries_spec input).weaken fun e he => he.resolve_right hfind
    cases hrun : findEntries input with
    | error e =>
      obtain rfl := hspec.of_error hrun
      have hfail : convertFirmware input = .error .failure := by
        rw [convertFirmware, hrun]
        rfl
      refine ⟨fun e he => ?_, fun _ => hfail, fun s _ hs _ => ?_⟩
      · exact (Except.error.inj (hfail.symm.trans he)).symm
      · rw [findEntries_of hs] at hrun
        cases hrun
    | ok s =>
      have hs := hspec.of_ok hrun
      have huniq (t : Selection) (ht : t.Of input) : t = s :=
        Except.ok.inj ((findEntries_of ht).symm.trans hrun)
      by_cases hin : s.fwupOsImage.Within input ∧ s.fwupFileSystem.Within input
      · have hwrite := Selection.write_of_within hin.1 hin.2
        have hlaid := (Selection.laid_iff hin.1 hin.2 hwrite).mpr (h.fits s hs hin.1 hin.2)
        have hok := convertFirmware_of hs
        rw [hwrite, ok_bind] at hok
        refine ⟨fun e he => ?_, fun hmiss => absurd hs (hmiss s), fun t output ht hout => ?_⟩
        · rw [hok] at he
          cases he
        · obtain rfl := huniq t ht
          obtain rfl := Except.ok.inj (hok.symm.trans hout)
          exact hlaid
      · have hfail : convertFirmware input = .error .failure := by
          rw [convertFirmware_of hs, Selection.write_short hin]
          rfl
        refine ⟨fun e he => ?_, fun _ => hfail, fun t output _ hout => ?_⟩
        · exact (Except.error.inj (hfail.symm.trans he)).symm
        · rw [hfail] at hout
          cases hout

end

/-! ## Small images -/

/-- A table in its block. -/
def block (t : Bytes) : Bytes := t ++ List.replicate (2048 - t.length) 0

/-- An image with two parts of two bytes and one byte, and a flash partition table. -/
def smallImage (images flashes : List FlashPart) : Bytes :=
  List.replicate 0x1014 0 ++ (block (fwup.text images) ++
    ([1, 2] ++ ([3] ++ ([0, 0, 0, 0] ++ block (flash.text flashes)))))

def smallParts : List FlashPart :=
  [⟨osImage, 0x800, 2⟩, ⟨fileSystem, 0x802, 1⟩, ⟨partitionTable, 0x803, 0x804⟩]

section
variable {images flashes : List FlashPart}

theorem block_eq {t : Bytes} (h : t.length < 2048) :
    block t = t ++ 0 :: List.replicate (2047 - t.length) 0 := by
  obtain ⟨n, hn⟩ := Nat.exists_eq_succ_of_ne_zero (Nat.sub_ne_zero_of_lt h)
  have hpred : 2047 - t.length = n := by omega
  rw [block, hn, hpred]
  rfl

theorem length_block {t : Bytes} (h : t.length < 2048) : (block t).length = 2048 := by
  rw [block, List.length_append, List.length_replicate]
  omega

theorem length_smallImage (hi : (fwup.text images).length < 2048)
    (hf : (flash.text flashes).length < 2048) : (smallImage images flashes).length = 8219 := by
  rw [smallImage]
  simp only [List.length_append, List.length_replicate, length_block hi, length_block hf,
    List.length_cons, List.length_nil]

/-- What is at `off`. -/
theorem load_between {a b : Bytes} {off n : Nat} (ha : a.length = off) (hb : b.length = n)
    (c : Bytes) : load (a ++ (b ++ c)) off n = b := by
  rw [load_append_right ha, List.take_left' hb]

theorem load_smallImage (hi : (fwup.text images).length < 2048)
    (hf : (flash.text flashes).length < 2048) :
    load (smallImage images flashes) 0x1014 2048 = block (fwup.text images) ∧
      load (smallImage images flashes) 0x1814 2 = [1, 2] ∧
      load (smallImage images flashes) 0x1816 1 = [3] ∧
      load (smallImage images flashes) 0x181b 2048 = block (flash.text flashes) := by
  have hlen₁ : (List.replicate 0x1014 (0 : UInt8)).length = 0x1014 := List.length_replicate
  have hlen₂ : (List.replicate 0x1014 0 ++ block (fwup.text images)).length = 0x1814 := by
    rw [List.length_append, hlen₁, length_block hi]
  have hlen₃ : (List.replicate 0x1014 0 ++ block (fwup.text images) ++ [1, 2]).length = 0x1816 := by
    rw [List.length_append, hlen₂]
    rfl
  have hlen₄ : (List.replicate 0x1014 0 ++ block (fwup.text images) ++ [1, 2] ++ ([3] ++
      [0, 0, 0, 0])).length = 0x181b := by
    rw [List.length_append, hlen₃]
    rfl
  rw [smallImage]
  refine ⟨?_, ?_, ?_, ?_⟩
  · exact load_between hlen₁ (length_block hi) _
  · rw [← List.append_assoc]
    exact load_between hlen₂ rfl _
  · rw [← List.append_assoc, ← List.append_assoc]
    exact load_between hlen₃ rfl _
  · rw [← List.append_assoc, ← List.append_assoc, ← List.append_assoc [3], ← List.append_assoc,
      load_append_right hlen₄, List.take_of_length_le (Nat.le_of_eq (length_block hf))]

theorem imageTable_small (hnames : ∀ e ∈ images, ValidName e.name) (hne : images ≠ [])
    (hi : (fwup.text images).length < 2048) (hf : (flash.text flashes).length < 2048)
    (hfew : images.length ≤ maxPartitions) : ImageTable (smallImage images flashes) images := by
  have hload := (load_smallImage hi hf).1
  rw [block_eq hi] at hload
  have hlen : 0x1014 + 2048 ≤ (smallImage images flashes).length := by
    rw [length_smallImage hi hf]
    omega
  rw [ImageTable, readPartitionTable_text wf_fwup hnames hne hlen hload, if_pos hfew]

theorem validName_osImage : ValidName osImage := ⟨by decide, by decide +kernel⟩

theorem validName_fileSystem : ValidName fileSystem := ⟨by decide, by decide +kernel⟩

theorem validName_partitionTable : ValidName partitionTable :=
  ⟨by decide, by decide +kernel⟩

theorem length_smallParts : (fwup.text smallParts).length < 2048 := by decide +kernel

theorem lookup_smallParts : lookup osImage smallParts = some ⟨osImage, 0x800, 2⟩ ∧
    lookup fileSystem smallParts = some ⟨fileSystem, 0x802, 1⟩ ∧
    lookup partitionTable smallParts = some ⟨partitionTable, 0x803, 0x804⟩ :=
  ⟨by decide, by decide, by decide⟩

theorem imageTable_smallParts (hf : (flash.text flashes).length < 2048) :
    ImageTable (smallImage smallParts flashes) smallParts := by
  refine imageTable_small ?_ (List.cons_ne_nil _ _) length_smallParts hf (by decide)
  rw [smallParts]
  simp only [List.mem_cons, List.not_mem_nil, or_false]
  rintro e (rfl | rfl | rfl)
  · exact validName_osImage
  · exact validName_fileSystem
  · exact validName_partitionTable

theorem flashTable_small (hnames : ∀ e ∈ flashes, ValidName e.name) (hne : flashes ≠ [])
    (hf : (flash.text flashes).length < 2048) (hfew : flashes.length ≤ maxPartitions) :
    FlashTable (smallImage smallParts flashes) flashes := by
  have hload := (load_smallImage length_smallParts hf).2.2.2
  rw [block_eq hf] at hload
  have hlen : 0x181b + 2048 ≤ (smallImage smallParts flashes).length := by
    rw [length_smallImage length_smallParts hf]
  obtain ⟨hos, hfs, htable⟩ := lookup_smallParts
  refine ⟨smallParts, ⟨osImage, 0x800, 2⟩, ⟨fileSystem, 0x802, 1⟩, ⟨partitionTable, 0x803, 0x804⟩,
    imageTable_smallParts hf, hos, hfs, htable, ?_⟩
  exact (readPartitionTable_text wf_flash hnames hne hlen hload).trans (if_pos hfew)

end

/-- Flash partitions of `size` and of two bytes. -/
def smallFlashes (size : UInt32) : List FlashPart :=
  [⟨osImage, 0x10000, size⟩, ⟨fileSystem, 0x10004, 2⟩]

def smallSelection (size : UInt32) : Selection :=
  ⟨⟨osImage, 0x800, 2⟩, ⟨fileSystem, 0x802, 1⟩, ⟨osImage, 0x10000, size⟩, ⟨fileSystem, 0x10004, 2⟩⟩

section
variable {size : UInt32}

theorem smallSelection_of (hf : (flash.text (smallFlashes size)).length < 2048) :
    (smallSelection size).Of (smallImage smallParts (smallFlashes size)) := by
  have hvalid : ∀ e ∈ smallFlashes size, ValidName e.name := by
    rw [smallFlashes]
    simp only [List.mem_cons, List.not_mem_nil, or_false]
    rintro e (rfl | rfl)
    · exact validName_osImage
    · exact validName_fileSystem
  have hflashes := flashTable_small hvalid (List.cons_ne_nil _ _) hf (Nat.le_of_ble_eq_true rfl)
  obtain ⟨hos, hfs, -⟩ := lookup_smallParts
  refine ⟨smallParts, smallFlashes size, imageTable_smallParts hf, hflashes, hos, hfs, ?_, ?_⟩
  · rw [lookup, smallFlashes, List.find?_cons, decide_eq_true rfl]
    rfl
  · have hne : osImage ≠ fileSystem := by decide
    rw [lookup, smallFlashes, List.find?_cons, decide_eq_false hne, List.find?_cons,
      decide_eq_true rfl]
    rfl

end

theorem convertFirmware_small : Converts (smallImage smallParts (smallFlashes 3)) := by
  have hs : (smallSelection 3).Of (smallImage smallParts (smallFlashes 3)) :=
    smallSelection_of (by decide)
  have hrun := findEntries_of hs
  have hfind : ¬ Unfindable (smallImage smallParts (smallFlashes 3)) := by
    intro hmiss
    rw [findEntries_fault_iff.mpr hmiss] at hrun
    cases hrun
  obtain ⟨himage, hflash⟩ := not_unfindable_iff.mp hfind
  refine (convertFirmware_iff _).mpr ⟨himage, hflash, fun s hof _ _ => ?_⟩
  obtain rfl := Except.ok.inj ((findEntries_of hof).symm.trans hrun)
  refine ⟨by decide, .inl (by decide), by decide, fun i hlo hhi _ => ?_⟩
  have hgap : (smallSelection 3).gap = 4 := by decide
  have hend : (smallSelection 3).osImageEnd = 3 := by decide
  omega

/-- A table without `file-system`, and a part that is larger than its flash partition. -/
theorem not_converts_small :
    convertFirmware (smallImage [⟨osImage, 0x800, 2⟩] []) = .error .fault ∧
      ¬ Converts (smallImage [⟨osImage, 0x800, 2⟩] []) ∧
      ¬ Converts (smallImage smallParts (smallFlashes 1)) := by
  have hfault : convertFirmware (smallImage [⟨osImage, 0x800, 2⟩] []) = .error .fault := by
    have himage : ImageTable (smallImage [⟨osImage, 0x800, 2⟩] []) [⟨osImage, 0x800, 2⟩] := by
      refine imageTable_small ?_ (List.cons_ne_nil _ _) (by decide) (by decide)
        (by decide)
      intro e he
      obtain rfl := List.mem_singleton.mp he
      exact validName_osImage
    have hmiss : lookup fileSystem [⟨osImage, 0x800, 2⟩] = none := by decide
    have hnot : ¬ Findable [osImage, fileSystem, partitionTable] [⟨osImage, 0x800, 2⟩] :=
      not_findable (List.mem_cons_of_mem _ List.mem_cons_self) ⟨by decide, hmiss⟩
    rw [convertFirmware, findEntries_fault_iff.mpr (.inl ⟨_, himage, hnot⟩)]
    rfl
  have hs : (smallSelection 1).Of (smallImage smallParts (smallFlashes 1)) :=
    smallSelection_of (by decide)
  refine ⟨hfault, fun h => Exit.noConfusion (h.reports _ hfault), fun h => ?_⟩
  have hlen : (smallImage smallParts (smallFlashes 1)).length = 8219 :=
    length_smallImage length_smallParts (by decide)
  have hos : (smallSelection 1).fwupOsImage.Within (smallImage smallParts (smallFlashes 1)) := by
    rw [FlashPart.Within, hlen]
    exact .inr (by decide)
  have hfs : (smallSelection 1).fwupFileSystem.Within
      (smallImage smallParts (smallFlashes 1)) := by
    rw [FlashPart.Within, hlen]
    exact .inr (by decide)
  have hwrite := Selection.write_of_within hos hfs
  have hok := convertFirmware_of hs
  rw [hwrite, ok_bind] at hok
  have hfits := (Selection.laid_iff hos hfs hwrite).mp (h.laid _ _ hs hok)
  exact absurd hfits.osImage (by decide)

end UolaOs.Safeloader
