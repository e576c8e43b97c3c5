import Mathlib.Data.List.GetD
import UolaOs.Safeloader.Sysupgrade

/-!
# Kernel and rootfs in one partition

`build_image` of tplink-safeloader.c splits the partition `firmware` of a board at the end of the
kernel.

* `shiftUp_spec`: the loop that makes room in the table;
* `splitPartitions_eq`: the table after the split;
* `splitPartitions_iff`: when both halves make up the partition.
-/

namespace UolaOs.Safeloader

/-- `MAX_PARTITIONS` -/
def maxPartitions : Nat := 32

/-- The array `partitions` of a board, with zeros behind its entries. -/
def partitionArray (ps : List FlashPart) : List (Option FlashPart) :=
  ps.map some ++ List.replicate (maxPartitions + 1 - ps.length) none

theorem firmware_nulFree : 0 ∉ ascii "firmware" := by decide

def firmware : CStr := ⟨ascii "firmware", firmware_nulFree⟩

/-- `firmware_partition_index`, once it is set. -/
def firmwareIndex (ps : List FlashPart) : Option Nat :=
  ps.zipIdx.foldl (fun s e => if e.1.name = firmware then some e.2 else s) none

/-- The loop that moves `n` entries from `start` on, the last one first. -/
def shiftUp (a : List (Option FlashPart)) (start n : Nat) : List (Option FlashPart) :=
  (List.range' start n).reverse.foldl (fun a i => a.set (i + 1) (a.getD i none)) a

/-- The entries `os-image` and `file-system`, for a kernel of `kernelSize` bytes. -/
def osImagePartition (fw : FlashPart) (kernelSize : Nat) : FlashPart :=
  ⟨osImage, fw.base, UInt32.ofNat kernelSize⟩

def fileSystemPartition (sysupgrade : Bool) (fw : FlashPart) (kernelSize : Nat) : FlashPart :=
  -- erase blocks for factory images only
  let base := UInt32.ofNat (if sysupgrade then fw.base.toNat + kernelSize
    else roundUp (fw.base.toNat + kernelSize) 0x10000)
  ⟨fileSystem, base, fw.size - base⟩

/-- The split in `build_image`: the array `partitions` after it. -/
def splitPartitions (sysupgrade : Bool) (kernelSize : Nat) (ps : List FlashPart) :
    Except Exit (List (Option FlashPart)) :=
  match firmwareIndex ps with
  | none => .ok (partitionArray ps)
  | some i =>
    match ps[i]? with
    | none => .error .fault
    | some fw =>
      if fw.size.toNat < kernelSize then .error .failure
      else
        let a := shiftUp (partitionArray ps) (i + 1) (maxPartitions - (i + 1))
        .ok ((a.set (i + 1) (some (fileSystemPartition sysupgrade fw kernelSize))).set i
          (some (osImagePartition fw kernelSize)))

/-! ## The table -/

section
variable {ps : List FlashPart} {i : Nat}

theorem firmwareIndex_spec (ps : List FlashPart) :
    ∀ i, firmwareIndex ps = some i → LastNamed ps firmware i := by
  induction ps using List.reverseRecOn with
  | nil => exact fun i hi => by cases hi
  | append_singleton ps f ih =>
    intro i hi
    rw [firmwareIndex, List.zipIdx_append, List.foldl_append, List.zipIdx_singleton, Nat.zero_add,
      ← firmwareIndex, List.foldl_cons, List.foldl_nil] at hi
    split at hi
    next hname =>
      obtain rfl := Option.some.inj hi
      exact LastNamed.self hname
    next hname => exact (ih i hi).snoc hname

theorem firmwareIndex_isSome (h : ∃ f ∈ ps, f.name = firmware) : ∃ i, firmwareIndex ps = some i := by
  induction ps using List.reverseRecOn with
  | nil =>
    obtain ⟨f, hf, -⟩ := h
    exact absurd hf List.not_mem_nil
  | append_singleton ps f ih =>
    rw [firmwareIndex, List.zipIdx_append, List.foldl_append, List.zipIdx_singleton, Nat.zero_add,
      ← firmwareIndex, List.foldl_cons, List.foldl_nil]
    split
    next hname => exact ⟨_, rfl⟩
    next hname =>
      obtain ⟨g, hg, hgname⟩ := h
      rcases List.mem_append.mp hg with hg | hg
      · exact ih ⟨g, hg, hgname⟩
      · exact absurd (List.mem_singleton.mp hg ▸ hgname) hname

theorem LastNamed.unique {name : CStr} {j : Nat} (hi : LastNamed ps name i)
    (hj : LastNamed ps name j) : i = j := by
  obtain ⟨f, hf, hfname⟩ := hi.here
  obtain ⟨g, hg, hgname⟩ := hj.here
  rcases Nat.lt_trichotomy i j with hlt | heq | hgt
  · exact absurd hgname (hi.after j g hlt hg)
  · exact heq
  · exact absurd hfname (hj.after i f hgt hf)

/-- The loop finds the last partition of this name. -/
theorem firmwareIndex_iff : firmwareIndex ps = some i ↔ LastNamed ps firmware i := by
  refine ⟨firmwareIndex_spec ps i, fun h => ?_⟩
  obtain ⟨f, hf, hname⟩ := h.here
  obtain ⟨j, hj⟩ := firmwareIndex_isSome ⟨f, List.mem_of_getElem? hf, hname⟩
  rw [hj, h.unique (firmwareIndex_spec ps j hj)]

/-- Entries move up by one. -/
theorem shiftUp_spec (a : List (Option FlashPart)) (start n : Nat) (h : start + n < a.length)
    (j : Nat) : (shiftUp a start n)[j]? = if start < j ∧ j ≤ start + n then a[j - 1]? else a[j]? := by
  induction n generalizing a with
  | zero =>
    rw [if_neg (by omega)]
    rfl
  | succ n ih =>
    rw [shiftUp, List.range'_concat, List.reverse_append, List.reverse_singleton, Nat.one_mul,
      List.singleton_append, List.foldl_cons, ← shiftUp,
      ih _ (by rw [List.length_set]; omega)]
    have hget : a.getD (start + n) none = a[start + n] := List.getD_eq_getElem _ _ _
    rw [hget]
    split
    next hin =>
      rw [List.getElem?_set_ne (by omega), if_pos (by omega)]
    next hout =>
      by_cases hj : j = start + n + 1
      · rw [hj, List.getElem?_set_self (by omega), if_pos (by omega), Nat.add_sub_cancel,
          List.getElem?_eq_getElem]
      · rw [List.getElem?_set_ne (Ne.symm hj), if_neg (by omega)]

theorem length_partitionArray (h : ps.length ≤ maxPartitions) :
    (partitionArray ps).length = maxPartitions + 1 := by
  rw [partitionArray, List.length_append, List.length_map, List.length_replicate]
  omega

theorem length_shiftUp (a : List (Option FlashPart)) (start n : Nat) :
    (shiftUp a start n).length = a.length := by
  induction n generalizing a with
  | zero => rfl
  | succ n ih =>
    rw [shiftUp, List.range'_concat, List.reverse_append, List.reverse_singleton, Nat.one_mul,
      List.singleton_append, List.foldl_cons, ← shiftUp, ih, List.length_set]

theorem getElem?_partitionArray {j : Nat} {f : FlashPart} (h : ps[j]? = some f) :
    (partitionArray ps)[j]? = some (some f) := by
  obtain ⟨hlt, -⟩ := List.getElem?_eq_some_iff.mp h
  rw [partitionArray, List.getElem?_append_left (by rwa [List.length_map]), List.getElem?_map, h]
  rfl

theorem getElem?_partitionArray_end {j : Nat} (hlo : ps.length ≤ j) (hhi : j ≤ maxPartitions) :
    (partitionArray ps)[j]? = some none := by
  rw [partitionArray, List.getElem?_append_right (by rwa [List.length_map]), List.length_map,
    List.getElem?_replicate, if_pos (by omega)]

end

/-! ## The halves -/

/-- The first address behind a partition. -/
def FlashPart.stop (f : FlashPart) : Nat := f.base.toNat + f.size.toNat

/-- The two entries make up the partition: the first is in it, the second begins behind the first
and ends where the partition ends. -/
structure Halves (fw os fs : FlashPart) : Prop where
  osBase : fw.base ≤ os.base
  osStop : os.stop ≤ fw.stop
  fsBase : fw.base ≤ fs.base
  fsStop : fs.stop = fw.stop
  disjoint : os.stop ≤ fs.base.toNat ∨ fs.stop ≤ os.base.toNat

/-- The partition `i` has become two, and the others are as they were. -/
structure IsSplit (ps : List FlashPart) (i : Nat) (fw : FlashPart)
    (a : List (Option FlashPart)) : Prop where
  halves : ∃ os fs, a[i]? = some (some os) ∧ a[i + 1]? = some (some fs) ∧ os.name = osImage ∧
    fs.name = fileSystem ∧ Halves fw os fs
  before : ∀ j f, j < i → ps[j]? = some f → a[j]? = some (some f)
  behind : ∀ j f, i < j → ps[j]? = some f → a[j + 1]? = some (some f)
  blank : ∀ j, ps.length < j → j ≤ maxPartitions → a[j]? = some none

/-- The partition begins at the address 0, and the rootfs within it. -/
def Splits (sysupgrade : Bool) (fw : FlashPart) (kernelSize : Nat) : Prop :=
  fw.base = 0 ∧ (sysupgrade = true ∨ roundUp kernelSize 0x10000 ≤ fw.size.toNat)

instance instDecidableSplits (sysupgrade : Bool) (fw : FlashPart) (kernelSize : Nat) :
    Decidable (Splits sysupgrade fw kernelSize) :=
  inferInstanceAs (Decidable (_ ∧ _))

section
variable {fw : FlashPart} {kernelSize : Nat} {sysupgrade : Bool} {ps : List FlashPart} {i : Nat}

/-- The rootfs ends at the size of the partition, not at its end. -/
theorem fileSystemPartition_stop (sysupgrade : Bool) (fw : FlashPart) (kernelSize : Nat) :
    (fileSystemPartition sysupgrade fw kernelSize).stop % 2 ^ 32 = fw.size.toNat := by
  rw [FlashPart.stop, fileSystemPartition, ← UInt32.toNat_add, UInt32.add_comm,
    UInt32.sub_add_cancel]

theorem base_eq_zero_of_stop
    (h : (fileSystemPartition sysupgrade fw kernelSize).stop = fw.stop) : fw.base = 0 := by
  have hmod := fileSystemPartition_stop sysupgrade fw kernelSize
  have hbase := fw.base.toNat_lt
  have hsize := fw.size.toNat_lt
  rw [h, FlashPart.stop] at hmod
  apply UInt32.toNat_inj.mp
  rw [UInt32.toNat_zero]
  omega

/-- The base of the rootfs, as a number. -/
theorem fileSystemPartition_base (sysupgrade : Bool) (kernelSize : Nat) (h : fw.base = 0) :
    (fileSystemPartition sysupgrade fw kernelSize).base.toNat =
      (if sysupgrade then kernelSize else roundUp kernelSize 0x10000) % 2 ^ 32 := by
  rw [fileSystemPartition, h, UInt32.toNat_zero, Nat.zero_add, UInt32.toNat_ofNat']

theorem halves_iff (hk : kernelSize ≤ fw.size.toNat) :
    Halves fw (osImagePartition fw kernelSize) (fileSystemPartition sysupgrade fw kernelSize) ↔
      Splits sysupgrade fw kernelSize := by
  have hlt := fw.size.toNat_lt
  have hos : (osImagePartition fw kernelSize).stop = fw.base.toNat + kernelSize := by
    rw [FlashPart.stop, osImagePartition,
      UInt32.toNat_ofNat_of_lt' (Nat.lt_of_le_of_lt hk fw.size.toNat_lt)]
  constructor
  · intro h
    have hzero := base_eq_zero_of_stop h.fsStop
    have hbase := fileSystemPartition_base sysupgrade kernelSize hzero
    have hstop := h.fsStop
    have hdisjoint := h.disjoint
    have hosBase : (osImagePartition fw kernelSize).base = fw.base := rfl
    have hfw : fw.stop = fw.size.toNat := by
      rw [FlashPart.stop, hzero, UInt32.toNat_zero, Nat.zero_add]
    rw [hos, hosBase, hstop, hfw, hzero, UInt32.toNat_zero, Nat.zero_add] at hdisjoint
    refine ⟨hzero, ?_⟩
    cases sysupgrade with
    | true => exact .inl rfl
    | false =>
      right
      rw [if_neg Bool.false_ne_true] at hbase
      -- a kernel in the last 64 KiB of the address space is rounded up to 0
      have hround : roundUp kernelSize 0x10000 ≤ 2 ^ 32 :=
        (roundUp_le_iff (by decide) (by decide)).mpr (by omega)
      rcases Nat.lt_or_eq_of_le hround with hround | hround
      · rw [FlashPart.stop, hbase, Nat.mod_eq_of_lt hround] at hstop
        omega
      · rw [hbase, hround, Nat.mod_self] at hdisjoint
        have hempty : kernelSize = 0 := by omega
        rw [hempty, roundUp_of_dvd (by decide) (Nat.dvd_zero _)]
        exact Nat.zero_le _
  · rintro ⟨hzero, hfits⟩
    have hbase := fileSystemPartition_base sysupgrade kernelSize hzero
    have hfw : fw.stop = fw.size.toNat := by
      rw [FlashPart.stop, hzero, UInt32.toNat_zero, Nat.zero_add]
    rw [hzero, UInt32.toNat_zero, Nat.zero_add] at hos
    have hin : kernelSize ≤ (fileSystemPartition sysupgrade fw kernelSize).base.toNat ∧
        (fileSystemPartition sysupgrade fw kernelSize).base ≤ fw.size := by
      rw [UInt32.le_iff_toNat_le, hbase]
      cases sysupgrade with
      | true =>
        rw [if_pos rfl, Nat.mod_eq_of_lt (by omega)]
        exact ⟨Nat.le_refl _, hk⟩
      | false =>
        have hround := hfits.resolve_left Bool.false_ne_true
        rw [if_neg Bool.false_ne_true, Nat.mod_eq_of_lt (by omega)]
        exact ⟨le_roundUp kernelSize (by decide), hround⟩
    have hstop : (fileSystemPartition sysupgrade fw kernelSize).stop = fw.stop := by
      have hsize : (fileSystemPartition sysupgrade fw kernelSize).size =
          fw.size - (fileSystemPartition sysupgrade fw kernelSize).base := rfl
      rw [FlashPart.stop, hsize, UInt32.toNat_sub_of_le _ _ hin.2, hfw]
      have hle := UInt32.le_iff_toNat_le.mp hin.2
      omega
    refine ⟨UInt32.le_refl _, by omega, ?_, hstop, .inl (by omega)⟩
    rw [hzero]
    exact UInt32.zero_le

/-- The array after the split. -/
theorem splitPartitions_eq {fw : FlashPart} (sysupgrade : Bool) (hi : firmwareIndex ps = some i)
    (hfw : ps[i]? = some fw) (hk : kernelSize ≤ fw.size.toNat) (hlen : ps.length ≤ maxPartitions) :
    ∃ a, splitPartitions sysupgrade kernelSize ps = .ok a ∧
      ∀ j, j ≤ maxPartitions → a[j]? =
        if j = i then some (some (osImagePartition fw kernelSize))
        else if j = i + 1 then some (some (fileSystemPartition sysupgrade fw kernelSize))
        else if i + 1 < j then (partitionArray ps)[j - 1]?
        else (partitionArray ps)[j]? := by
  obtain ⟨hlt, -⟩ := List.getElem?_eq_some_iff.mp hfw
  have harray := length_partitionArray hlen
  rw [splitPartitions, hi]
  dsimp only
  rw [hfw]
  dsimp only
  rw [if_neg (Nat.not_lt_of_le hk)]
  refine ⟨_, rfl, fun j hj => ?_⟩
  have hshift := shiftUp_spec (partitionArray ps) (i + 1) (maxPartitions - (i + 1))
    (by omega) j
  have hlength := length_shiftUp (partitionArray ps) (i + 1) (maxPartitions - (i + 1))
  split
  next heq => rw [heq, List.getElem?_set_self (by rw [List.length_set]; omega)]
  next hne =>
    rw [List.getElem?_set_ne (Ne.symm hne)]
    split
    next heq => rw [heq, List.getElem?_set_self (by omega)]
    next hne' =>
      rw [List.getElem?_set_ne (Ne.symm hne'), hshift]
      split
      next hin => rw [if_pos hin.1]
      next hout => rw [if_neg (by omega)]

theorem halves_of_isSplit {fw : FlashPart} {a : List (Option FlashPart)}
    (hi : LastNamed ps firmware i) (hfw : ps[i]? = some fw) (hk : kernelSize ≤ fw.size.toNat)
    (hlen : ps.length ≤ maxPartitions) (ha : splitPartitions sysupgrade kernelSize ps = .ok a)
    (h : IsSplit ps i fw a) :
    Halves fw (osImagePartition fw kernelSize) (fileSystemPartition sysupgrade fw kernelSize) := by
  obtain ⟨hlt, -⟩ := List.getElem?_eq_some_iff.mp hfw
  obtain ⟨a', ha', hget⟩ := splitPartitions_eq sysupgrade (firmwareIndex_iff.mpr hi) hfw hk hlen
  obtain rfl := Except.ok.inj (ha.symm.trans ha')
  obtain ⟨os, fs, hos, hfs, -, -, hhalves⟩ := h.halves
  rw [hget i (by omega), if_pos rfl] at hos
  rw [hget (i + 1) (by omega), if_neg (by omega), if_pos rfl] at hfs
  obtain rfl := Option.some.inj (Option.some.inj hos)
  obtain rfl := Option.some.inj (Option.some.inj hfs)
  exact hhalves

theorem exists_isSplit {fw : FlashPart} (hi : LastNamed ps firmware i) (hfw : ps[i]? = some fw)
    (hk : kernelSize ≤ fw.size.toNat) (hlen : ps.length ≤ maxPartitions)
    (h : Halves fw (osImagePartition fw kernelSize)
      (fileSystemPartition sysupgrade fw kernelSize)) :
    ∃ a, splitPartitions sysupgrade kernelSize ps = .ok a ∧ IsSplit ps i fw a := by
  obtain ⟨hlt, -⟩ := List.getElem?_eq_some_iff.mp hfw
  obtain ⟨a, ha, hget⟩ := splitPartitions_eq sysupgrade (firmwareIndex_iff.mpr hi) hfw hk hlen
  refine ⟨a, ha, ⟨_, _, ?_, ?_, rfl, rfl, h⟩, fun j f hj hf => ?_, fun j f hj hf => ?_,
    fun j hlo hhi => ?_⟩
  · rw [hget i (by omega), if_pos rfl]
  · rw [hget (i + 1) (by omega), if_neg (by omega), if_pos rfl]
  · rw [hget j (by omega), if_neg (by omega), if_neg (by omega), if_neg (by omega)]
    exact getElem?_partitionArray hf
  · obtain ⟨hjlt, -⟩ := List.getElem?_eq_some_iff.mp hf
    rw [hget (j + 1) (by omega), if_neg (by omega), if_neg (by omega), if_pos (by omega),
      Nat.add_sub_cancel]
    exact getElem?_partitionArray hf
  · rw [hget j hhi, if_neg (by omega), if_neg (by omega), if_pos (by omega)]
    exact getElem?_partitionArray_end (by omega) (by omega)

/-- **The split.** The two entries make up the partition exactly if it begins at the address 0 and
the rootfs begins within it: the size of the rootfs is computed from its address, not from its
offset in the partition. -/
theorem splitPartitions_iff {fw : FlashPart} (hi : LastNamed ps firmware i)
    (hfw : ps[i]? = some fw) (hk : kernelSize ≤ fw.size.toNat) (hlen : ps.length ≤ maxPartitions) :
    (∃ a, splitPartitions sysupgrade kernelSize ps = .ok a ∧ IsSplit ps i fw a) ↔
      Splits sysupgrade fw kernelSize := by
  rw [← halves_iff hk]
  constructor
  · rintro ⟨a, ha, h⟩
    exact halves_of_isSplit hi hfw hk hlen ha h
  · exact exists_isSplit hi hfw hk hlen

theorem partitionTable_ne_firmware : partitionTable ≠ firmware := by decide

/-- A table whose firmware has one partition behind it. -/
def twoEntries (base : UInt32) : List FlashPart :=
  [⟨firmware, base, 0x770000⟩, ⟨partitionTable, base + 0x770000, 0x2000⟩]

theorem twoEntries_lastNamed (base : UInt32) : LastNamed (twoEntries base) firmware 0 := by
  refine ⟨⟨_, rfl, rfl⟩, fun j f hj hf => ?_⟩
  obtain ⟨hlt, hget⟩ := List.getElem?_eq_some_iff.mp hf
  have hone : j = 1 := by
    rw [twoEntries, List.length_cons, List.length_singleton] at hlt
    omega
  subst hone
  rw [← hget]
  exact partitionTable_ne_firmware

theorem splitPartitions_zero : ∃ a,
    splitPartitions false 0x123456 (twoEntries 0) = .ok a ∧
      IsSplit (twoEntries 0) 0 ⟨firmware, 0, 0x770000⟩ a :=
  (splitPartitions_iff (twoEntries_lastNamed 0) rfl (by decide) (by decide)).mpr (by decide)

/-- The rootfs ends at 0x770000 of a partition that ends at 0x7b0000. -/
theorem not_splitPartitions : ¬ ∃ a,
    splitPartitions true 0x123456 (twoEntries 0x40000) = .ok a ∧
      IsSplit (twoEntries 0x40000) 0 ⟨firmware, 0x40000, 0x770000⟩ a := by
  rintro ⟨a, ha, h⟩
  have hhalves := halves_of_isSplit (twoEntries_lastNamed 0x40000) rfl (by decide) (by decide) ha h
  exact absurd hhalves.fsStop (by decide)

end

end UolaOs.Safeloader
