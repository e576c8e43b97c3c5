import UolaOs.Safeloader.RoundTrip

/-!
# The sysupgrade image

`generate_sysupgrade_image` of tplink-safeloader.c.

* `findBounds_spec`: which partitions are the first and the last;
* `putSysupgradePart_spec`: a round keeps what was copied before it;
* `generateSysupgradeImage_spec`: where the image parts are.
-/

namespace UolaOs.Safeloader

/-- What the sysupgrade image takes of `struct device_info` besides. -/
structure SysupgradeInfo extends DeviceInfo where
  firstSysupgradePartition : CStr
  lastSysupgradePartition : CStr

/-- `flash_first_partition_index` and `flash_last_partition_index`, once they are set. -/
structure Bounds where
  first : Option Nat
  last : Option Nat
  deriving DecidableEq

/-- A round of the first loop. -/
def findRound (first last : CStr) (s : Bounds) (e : FlashPart × Nat) : Bounds :=
  if e.1.name = first then { s with first := some e.2 }
  else if e.1.name = last then { s with last := some e.2 }
  else s

def findBounds (first last : CStr) (partitions : List FlashPart) : Bounds :=
  partitions.zipIdx.foldl (findRound first last) ⟨none, none⟩

/-- The partitions from the first index to the last. -/
def between (partitions : List FlashPart) (first last : Nat) : List FlashPart :=
  (partitions.drop first).take (last + 1 - first)

/-- The part that a loop over `image_parts` finds. -/
def imagePart (parts : List ImagePart) (name : CStr) : Option ImagePart :=
  parts.find? fun p => p.name = name

/-- A round of the loop that copies. -/
def putSysupgradePart (firstBase : UInt32) (parts : List ImagePart) (image : Bytes)
    (f : FlashPart) : Except Exit Bytes :=
  match imagePart parts f.name with
  | none => .ok image
  | some p =>
    if f.size.toNat < p.data.length then .error .failure
    -- before the block
    else if f.base < firstBase then .error .fault
    else store .fault image (f.base.toNat - firstBase.toNat) p.data

/-- What is allocated and filled, from the first partition to the last. -/
def sysupgradeImage (info : SysupgradeInfo) (parts : List ImagePart) (first last : Nat)
    (flashFirst flashLast : FlashPart) : Except Exit Bytes :=
  match imagePart parts info.lastSysupgradePartition with
  | none => .error .abort
  | some imageLast =>
    -- the bases are of type `uint32_t`
    let len := (flashLast.base - flashFirst.base).toNat + imageLast.data.length
    (between info.partitions first last).foldlM (putSysupgradePart flashFirst.base parts)
      (List.replicate len 0xff)

/-- `generate_sysupgrade_image` -/
def generateSysupgradeImage (info : SysupgradeInfo) (parts : List ImagePart) :
    Except Exit Bytes :=
  let s := findBounds info.firstSysupgradePartition info.lastSysupgradePartition info.partitions
  match s.first, s.last with
  | some first, some last =>
    if last ≤ first then .error .abort
    else
      match info.partitions[first]?, info.partitions[last]? with
      | some flashFirst, some flashLast =>
        sysupgradeImage info parts first last flashFirst flashLast
      | _, _ => .error .fault
  | _, _ => .error .abort

/-! ## The first partition and the last -/

/-- The last partition of that name. -/
structure LastNamed (partitions : List FlashPart) (name : CStr) (i : Nat) : Prop where
  here : ∃ f, partitions[i]? = some f ∧ f.name = name
  after : ∀ j f, i < j → partitions[j]? = some f → f.name ≠ name

section
variable {first last name : CStr} {ps : List FlashPart} {f : FlashPart} {i : Nat}

theorem LastNamed.snoc (h : LastNamed ps name i) (hne : f.name ≠ name) :
    LastNamed (ps ++ [f]) name i := by
  obtain ⟨g, hg, hname⟩ := h.here
  have hlt : i < ps.length := (List.getElem?_eq_some_iff.mp hg).1
  refine ⟨⟨g, (List.getElem?_append_left hlt).trans hg, hname⟩, fun j g' hij hj => ?_⟩
  by_cases hlen : j < ps.length
  · rw [List.getElem?_append_left hlen] at hj
    exact h.after j g' hij hj
  · obtain ⟨hjlen, hget⟩ := List.getElem?_eq_some_iff.mp hj
    rw [List.length_append, List.length_singleton] at hjlen
    rw [List.getElem_append_right (by omega), List.getElem_singleton] at hget
    exact hget ▸ hne

theorem LastNamed.self (hname : f.name = name) : LastNamed (ps ++ [f]) name ps.length := by
  refine ⟨⟨f, List.getElem?_concat_length, hname⟩, fun j g hj hget => ?_⟩
  obtain ⟨hlen, -⟩ := List.getElem?_eq_some_iff.mp hget
  rw [List.length_append, List.length_singleton] at hlen
  omega

theorem findBounds_snoc (first last : CStr) (ps : List FlashPart) (f : FlashPart) :
    findBounds first last (ps ++ [f]) =
      findRound first last (findBounds first last ps) (f, ps.length) := by
  rw [findBounds, List.zipIdx_append, List.foldl_append, List.zipIdx_singleton, Nat.zero_add]
  rfl

/-- The indices are those of the last partitions of these names. With one name for both there is
no last index. -/
theorem findBounds_spec (first last : CStr) (ps : List FlashPart) :
    (∀ i, (findBounds first last ps).first = some i → LastNamed ps first i) ∧
      ∀ i, (findBounds first last ps).last = some i → first ≠ last ∧ LastNamed ps last i := by
  induction ps using List.reverseRecOn with
  | nil => exact ⟨fun i hi => (by cases hi), fun i hi => (by cases hi)⟩
  | append_singleton ps f ih =>
    rw [findBounds_snoc, findRound]
    split
    next hfirst =>
      refine ⟨fun i hi => ?_, fun i hi => ?_⟩
      · obtain rfl := Option.some.inj hi
        exact LastNamed.self hfirst
      · obtain ⟨hne, hlast⟩ := ih.2 i hi
        exact ⟨hne, hlast.snoc (hfirst ▸ hne)⟩
    next hfirst =>
      have hkeep (i : Nat) (hi : (findBounds first last ps).first = some i) :
          LastNamed (ps ++ [f]) first i := (ih.1 i hi).snoc hfirst
      split
      next hlast =>
        refine ⟨hkeep, fun i hi => ?_⟩
        obtain rfl := Option.some.inj hi
        exact ⟨fun h => hfirst (hlast.trans h.symm), LastNamed.self hlast⟩
      next hlast =>
        refine ⟨hkeep, fun i hi => ?_⟩
        obtain ⟨hne, hold⟩ := ih.2 i hi
        exact ⟨hne, hold.snoc hlast⟩

end

/-! ## The copies -/

/-- In flash order, without overlaps. -/
def Ascending (partitions : List FlashPart) : Prop :=
  partitions.Pairwise fun a b => a.base.toNat + a.size.toNat ≤ b.base.toNat

/-- The image has the parts of the partitions `fs`, and is blank elsewhere. -/
structure Holds (firstBase : UInt32) (parts : List ImagePart) (fs : List FlashPart)
    (image : Bytes) : Prop where
  placed : ∀ f ∈ fs, ∀ p, imagePart parts f.name = some p →
    p.data.length ≤ f.size.toNat ∧
      load image (f.base.toNat - firstBase.toNat) p.data.length = p.data
  blank : ∀ k, k < image.length →
    (∀ f ∈ fs, ∀ p, imagePart parts f.name = some p →
      k < f.base.toNat - firstBase.toNat ∨
        f.base.toNat - firstBase.toNat + p.data.length ≤ k) → image[k]? = some 0xff

section
variable {firstBase : UInt32} {parts : List ImagePart} {fs : List FlashPart} {f : FlashPart}
  {image : Bytes}

theorem holds_nil (firstBase : UInt32) (parts : List ImagePart) (len : Nat) :
    Holds firstBase parts [] (List.replicate len 0xff) := by
  refine ⟨fun f hf => absurd hf List.not_mem_nil, fun k hk _ => ?_⟩
  rw [List.length_replicate] at hk
  rw [List.getElem?_replicate, if_pos hk]

/-- **A round.** It copies behind what was copied before. -/
theorem putSysupgradePart_spec (h : Holds firstBase parts fs image)
    (hbehind : ∀ g ∈ fs, firstBase ≤ g.base ∧ g.base.toNat + g.size.toNat ≤ f.base.toNat)
    (hbase : firstBase ≤ f.base)
    (hroom : ∀ p, imagePart parts f.name = some p → p.data.length ≤ f.size.toNat →
      f.base.toNat - firstBase.toNat + p.data.length ≤ image.length) :
    Safe (· ≠ .fault) (putSysupgradePart firstBase parts image f) fun image' =>
      Holds firstBase parts (fs ++ [f]) image' ∧ image'.length = image.length := by
  rw [putSysupgradePart]
  cases hp : imagePart parts f.name with
  | none =>
    refine .ok ⟨⟨fun g hg p hgp => ?_, fun k hk hout => ?_⟩, rfl⟩
    · rcases List.mem_append.mp hg with hg | hg
      · exact h.placed g hg p hgp
      · rw [List.mem_singleton.mp hg, hp] at hgp
        cases hgp
    · exact h.blank k hk fun g hg => hout g (List.mem_append_left _ hg)
  | some p =>
    dsimp only
    split
    next hbig => exact .error Exit.noConfusion
    next hfits =>
      have hput := hroom p hp (Nat.le_of_not_lt hfits)
      rw [if_neg (UInt32.not_lt.mpr hbase), store_eq hput]
      refine .ok ⟨⟨fun g hg q hgq => ?_, fun k hk hout => ?_⟩, length_poke _ _ _⟩
      · rcases List.mem_append.mp hg with hg | hg
        · obtain ⟨hsize, hload⟩ := h.placed g hg q hgq
          obtain ⟨hfirst, hend⟩ := hbehind g hg
          have hle := UInt32.le_iff_toNat_le.mp hfirst
          refine ⟨hsize, ?_⟩
          rw [load_poke_of_disjoint hput (.inl (by omega)), hload]
        · rw [List.mem_singleton.mp hg, hp] at hgq
          rw [List.mem_singleton.mp hg, ← Option.some.inj hgq]
          exact ⟨Nat.le_of_not_lt hfits, load_poke_self hput⟩
      · have hself := hout f (List.mem_append_right _ List.mem_cons_self) p hp
        rw [length_poke] at hk
        rw [getElem?_poke hput, if_neg (by omega)]
        exact h.blank k hk fun g hg => hout g (List.mem_append_left _ hg)

end

/-! ## The image -/

/-- The image from the first sysupgrade partition to the last. -/
structure SysupgradeLayout (info : SysupgradeInfo) (parts : List ImagePart) (image : Bytes)
    (first last : Nat) (flashFirst flashLast : FlashPart) (imageLast : ImagePart) : Prop where
  lt : first < last
  firstNamed : LastNamed info.partitions info.firstSysupgradePartition first
  lastNamed : LastNamed info.partitions info.lastSysupgradePartition last
  getFirst : info.partitions[first]? = some flashFirst
  getLast : info.partitions[last]? = some flashLast
  getImage : imagePart parts info.lastSysupgradePartition = some imageLast
  length : image.length = flashLast.base.toNat - flashFirst.base.toNat + imageLast.data.length
  holds : Holds flashFirst.base parts (between info.partitions first last) image

section
variable {info : SysupgradeInfo} {parts : List ImagePart} {ps : List FlashPart}
  {first last : Nat} {flashFirst flashLast : FlashPart}

theorem between_last (hlt : first < last) (hlast : ps[last]? = some flashLast) :
    between ps first last = (ps.drop first).take (last - first) ++ [flashLast] := by
  have hindex : first + (last - first) = last := by omega
  rw [between, Nat.succ_sub (Nat.le_of_lt hlt), List.take_add_one, List.getElem?_drop, hindex,
    hlast]
  rfl

theorem between_first (hlt : first < last) (hfirst : ps[first]? = some flashFirst) :
    between ps first last = flashFirst :: (ps.drop (first + 1)).take (last - first) := by
  obtain ⟨hlen, hget⟩ := List.getElem?_eq_some_iff.mp hfirst
  rw [between, List.drop_eq_getElem_cons hlen, hget, Nat.succ_sub (Nat.le_of_lt hlt),
    List.take_succ_cons]

theorem Ascending.between (h : Ascending ps) (first last : Nat) :
    Ascending (between ps first last) :=
  h.sublist ((List.take_sublist _ _).trans (List.drop_sublist _ _))

/-- Every partition in between begins behind the first base, and all but the last end before the
last base. -/
theorem Ascending.bases (h : Ascending ps) (hlt : first < last)
    (hfirst : ps[first]? = some flashFirst) (hlast : ps[last]? = some flashLast)
    {f : FlashPart} (hf : f ∈ UolaOs.Safeloader.between ps first last) :
    flashFirst.base ≤ f.base ∧
      (f = flashLast ∨ f.base.toNat + f.size.toNat ≤ flashLast.base.toNat) := by
  have hasc := h.between first last
  constructor
  · have hcons := hasc
    rw [between_first hlt hfirst] at hcons hf
    rcases List.mem_cons.mp hf with rfl | hf
    · exact UInt32.le_refl _
    · have hle := (List.pairwise_cons.mp hcons).1 f hf
      exact UInt32.le_iff_toNat_le.mpr (by omega)
  · rw [between_last hlt hlast] at hasc hf
    rcases List.mem_append.mp hf with hf | hf
    · exact .inr ((List.pairwise_append.mp hasc).2.2 f hf _ List.mem_cons_self)
    · exact .inl (List.mem_singleton.mp hf)

/-- The parts of the partitions `fs` are copied, except for those of `rest`. -/
def Copied (firstBase : UInt32) (parts : List ImagePart) (fs : List FlashPart) (len : Nat)
    (rest : List FlashPart) (image : Bytes) : Prop :=
  ∃ done, fs = done ++ rest ∧ Holds firstBase parts done image ∧ image.length = len

theorem sysupgradeImage_spec (h : Ascending info.partitions) (hlt : first < last)
    (hfirst : LastNamed info.partitions info.firstSysupgradePartition first)
    (hlast : LastNamed info.partitions info.lastSysupgradePartition last)
    (hff : info.partitions[first]? = some flashFirst)
    (hfl : info.partitions[last]? = some flashLast) :
    Safe (· ≠ .fault) (sysupgradeImage info parts first last flashFirst flashLast) fun image =>
      ∃ imageLast,
        SysupgradeLayout info parts image first last flashFirst flashLast imageLast := by
  have hmem : flashLast ∈ between info.partitions first last := by
    rw [between_last hlt hfl]
    exact List.mem_append_right _ List.mem_cons_self
  have hname : flashLast.name = info.lastSysupgradePartition := by
    obtain ⟨f, hf, hname⟩ := hlast.here
    rwa [← Option.some.inj (hfl.symm.trans hf)] at hname
  have hbase := (h.bases hlt hff hfl hmem).1
  rw [sysupgradeImage]
  cases hlp : imagePart parts info.lastSysupgradePartition with
  | none => exact .error Exit.noConfusion
  | some imageLast =>
    have hsub := UInt32.toNat_sub_of_le _ _ hbase
    have hlength : (flashLast.base - flashFirst.base).toNat + imageLast.data.length =
        flashLast.base.toNat - flashFirst.base.toNat + imageLast.data.length := by rw [hsub]
    dsimp only
    rw [hlength]
    have hstart : Copied flashFirst.base parts (between info.partitions first last) _
        (between info.partitions first last)
        (List.replicate (flashLast.base.toNat - flashFirst.base.toNat + imageLast.data.length)
          0xff) :=
      ⟨[], rfl, holds_nil _ _ _, List.length_replicate⟩
    refine (Safe.foldlM hstart ?_).mono ?_
    · rintro f rest image ⟨done, hsplit, hholds, hlen⟩
      have hin (g : FlashPart) (hg : g ∈ done ++ f :: rest) :=
        h.bases hlt hff hfl (hsplit ▸ hg)
      have hasc := h.between first last
      rw [hsplit] at hasc
      have hself := hin f (List.mem_append_right _ List.mem_cons_self)
      refine (putSysupgradePart_spec hholds (fun g hg => ⟨?_, ?_⟩) hself.1 ?_).mono ?_
      · exact (hin g (List.mem_append_left _ hg)).1
      · exact (List.pairwise_append.mp hasc).2.2 g hg f List.mem_cons_self
      · intro p hp hsize
        have hle := UInt32.le_iff_toNat_le.mp hself.1
        rcases hself.2 with rfl | hend
        · rw [hname, hlp] at hp
          rw [hlen, ← Option.some.inj hp]
        · omega
      · rintro image' ⟨hholds', hlen'⟩
        exact ⟨done ++ [f], by rw [hsplit, List.append_assoc]; rfl, hholds', hlen'.trans hlen⟩
    · rintro image ⟨done, hsplit, hholds, hlen⟩
      rw [List.append_nil] at hsplit
      exact ⟨imageLast, hlt, hfirst, hlast, hff, hfl, hlp, hlen, hsplit ▸ hholds⟩

/-- **The sysupgrade image.** With a table in flash order nothing is written outside of the image:
either the tool ends with an error, or each part is where its partition is and the rest is
blank. -/
theorem generateSysupgradeImage_spec (h : Ascending info.partitions) (parts : List ImagePart) :
    Safe (· ≠ .fault) (generateSysupgradeImage info parts) fun image =>
      ∃ first last flashFirst flashLast imageLast,
        SysupgradeLayout info parts image first last flashFirst flashLast imageLast := by
  obtain ⟨hfirsts, hlasts⟩ := findBounds_spec info.firstSysupgradePartition
    info.lastSysupgradePartition info.partitions
  rw [generateSysupgradeImage]
  split
  next first last hf hl =>
    split
    next hle => exact .error Exit.noConfusion
    next hle =>
      have hfirst := hfirsts first hf
      have hlast := (hlasts last hl).2
      obtain ⟨flashFirst, hff, -⟩ := hfirst.here
      obtain ⟨flashLast, hfl, -⟩ := hlast.here
      rw [hff, hfl]
      refine (sysupgradeImage_spec h (Nat.lt_of_not_le hle) hfirst hlast hff hfl).mono ?_
      rintro image ⟨imageLast, hlayout⟩
      exact ⟨first, last, flashFirst, flashLast, imageLast, hlayout⟩
  next => exact .error Exit.noConfusion

theorem fileSystem_nulFree : 0 ∉ ascii "file-system" := by decide

def fileSystem : CStr := ⟨ascii "file-system", fileSystem_nulFree⟩

theorem profile_nulFree : 0 ∉ ascii "profile" := by decide

/-- A board with three partitions. -/
def threePartitions : SysupgradeInfo :=
  { vendor := none
    partitions := [⟨osImage, 0x1000, 4⟩, ⟨⟨ascii "profile", profile_nulFree⟩, 0x1004, 2⟩,
      ⟨fileSystem, 0x1008, 8⟩]
    vendor_fits := twoPartitions.vendor_fits
    firstSysupgradePartition := osImage
    lastSysupgradePartition := fileSystem }

theorem threePartitions_ascending : Ascending threePartitions.partitions := by
  rw [Ascending]
  decide

theorem generateSysupgradeImage_three : ∃ image,
    generateSysupgradeImage threePartitions [⟨fileSystem, [8, 9]⟩, ⟨osImage, [1, 2, 3]⟩] =
        .ok image ∧ image = [1, 2, 3, 0xff, 0xff, 0xff, 0xff, 0xff, 8, 9] ∧
      ∃ first last flashFirst flashLast imageLast, SysupgradeLayout threePartitions
        [⟨fileSystem, [8, 9]⟩, ⟨osImage, [1, 2, 3]⟩] image first last flashFirst flashLast
          imageLast := by
  have hrun : generateSysupgradeImage threePartitions
      [⟨fileSystem, [8, 9]⟩, ⟨osImage, [1, 2, 3]⟩] =
        .ok [1, 2, 3, 0xff, 0xff, 0xff, 0xff, 0xff, 8, 9] := by
    decide
  exact ⟨_, hrun, rfl, (generateSysupgradeImage_spec threePartitions_ascending _).of_ok hrun⟩

end

end UolaOs.Safeloader
