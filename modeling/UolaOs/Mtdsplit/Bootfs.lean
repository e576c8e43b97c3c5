import UolaOs.Lib.Loop
import UolaOs.Mtdsplit.Device

/-!
# The CFE boot file system (mtdsplit_cfe_bootfs.c)

* `BootNext`: the walk over the nodes of the boot file system;
* `bootfs_iff`: when the walk ends and the root filesystem comes behind the nodes.
-/

namespace UolaOs.Mtdsplit

inductive BootName where
  | bootfs
  | rootfs
  | ubi
  deriving DecidableEq

structure BootPart where
  name : BootName
  offset : Nat
  size : Nat
  deriving DecidableEq

/-- The name of the partitions that are parsed. -/
def firmwareName : Bytes := [0x66, 0x69, 0x72, 0x6d, 0x77, 0x61, 0x72, 0x65]

section
variable (d : Device) (e : Endian)

/-- `struct jffs2_raw_dirent` at an offset has the magic of JFFS2. -/
def isBootNode (offset : Nat) : Bool :=
  match d.read offset 40 with
  | none => false
  | some node => decide (e.get (node.take 2) = 0x1985)

/-- The field `totlen` of the node at an offset. -/
def totlen (offset : Nat) : Nat := e.get (load d.flash (offset + 4) 4)

/-- The offset behind a node, in a `size_t`. -/
def behindNode (offset : Nat) : Nat :=
  d.trunc (d.trunc (offset + totlen d e offset) + 3) / 4 * 4

/-- One round of the walk, which keeps nothing but the offset. -/
def bootRound (offset : Nat) (_ : Nat) : Option (Round Nat Nat) :=
  if isBootNode d e offset then
    let offset := behindNode d e offset
    if offset < d.size then some (.next offset offset) else some (.stop offset)
  else some (.stop offset)

/-- `mtdsplit_cfe_bootfs_parse`, with at most `fuel` rounds of the walk. Where the walk ends is not
used. -/
def cfeBootfsParse (fuel : Nat) (name : Bytes) (kzalloc : Bool) :
    Option (Except Int (List BootPart)) := do
  if name ≠ firmwareName then return .error (-22)
  let _ ← loop (bootRound d e) fuel 0 0
  match d.findRootfsFrom e d.erasesize with
  | .error err => return .error err
  | .ok (rootfs_offset, type) =>
    if kzalloc = false then return .error (-12)
    return .ok [⟨.bootfs, 0, rootfs_offset⟩,
      ⟨if type = .ubi then .ubi else .rootfs, rootfs_offset, d.size - rootfs_offset⟩]

/-! ## The walk -/

/-- The walk goes on from one node to another. -/
structure BootNext (p q : Nat) : Prop where
  node : isBootNode d e p = true
  next : q = behindNode d e p
  inside : q < d.size

/-- A node of the boot file system that the walk finds. -/
structure Found (p : Nat) : Prop where
  visited : Relation.ReflTransGen (BootNext d e) 0 p
  node : isBootNode d e p = true

/-- What the splitter is for: it ends, and each node is in the partition before the root
filesystem. -/
structure Splits (name : Bytes) (kzalloc : Bool) : Prop where
  ends : ∃ fuel r, cfeBootfsParse d e fuel name kzalloc = some r
  contains : ∀ fuel bootfs rootfs,
    cfeBootfsParse d e fuel name kzalloc = some (.ok [bootfs, rootfs]) →
      ∀ p, Found d e p → p + totlen d e p ≤ rootfs.offset ∧
        bootfs.offset ≤ p ∧ p + totlen d e p ≤ bootfs.offset + bootfs.size

/-- No node of the walk leads back to itself. -/
def Forward : Prop :=
  ∀ p, Relation.ReflTransGen (BootNext d e) 0 p → ¬ Relation.TransGen (BootNext d e) p p

/-- No erase block from the second one on that begins before the end of a node has the magic of a
root filesystem. -/
def Plain : Prop :=
  ∀ p, Found d e p → ∀ b, d.erasesize ∣ b → d.erasesize ≤ b → b < d.size →
    b < p + totlen d e p → ∀ type, d.checkRootfsMagic e b ≠ .ok type

end

section
variable {d : Device} {e : Endian}

theorem follows_bootRound : Follows (bootRound d e) (BootNext d e) fun _ => True where
  safe := by
    intro p s
    rw [bootRound]
    split
    · dsimp only
      split <;> exact iff_of_true rfl trivial
    · exact iff_of_true rfl trivial
  links := by
    intro p s q t hround
    rw [bootRound] at hround
    split at hround
    · rename_i hnode
      dsimp only at hround
      split at hround
      · rename_i hin
        cases hround
        exact ⟨hnode, rfl, hin⟩
      · cases hround
    · cases hround
  stops := by
    rintro p s t hround q ⟨hnode, rfl, hin⟩
    rw [bootRound, if_pos hnode] at hround
    dsimp only at hround
    rw [if_pos hin] at hround
    cases hround
  unique := by
    rintro p q r ⟨-, rfl, -⟩ ⟨-, rfl, -⟩
    rfl

theorem isBootNode_lt {p : Nat} (h : isBootNode d e p = true) : p < d.size := by
  rw [isBootNode, Device.read] at h
  split at h
  · cases h
  · rename_i hread
    split at hread
    · rename_i hin
      exact hin.1
    · cases hread

theorem walk_ends_iff :
    (∃ fuel t, loop (bootRound d e) fuel 0 0 = some t) ↔ Forward d e := by
  have hfin : {p | ∃ q, BootNext d e p q}.Finite :=
    (Set.finite_lt_nat d.size).subset fun p ⟨q, hq⟩ => isBootNode_lt hq.node
  rw [follows_bootRound.ends_iff hfin]
  exact and_iff_left fun _ _ => trivial

/-- The search does not pass over a root filesystem. -/
theorem findRootfsFrom_first {offset r b : Nat} {type t : PartType}
    (h : d.findRootfsFrom e offset = .ok (r, type)) (hdvd : d.erasesize ∣ offset)
    (hb : d.erasesize ∣ b) (hle : offset ≤ b) (hmagic : d.checkRootfsMagic e b = .ok t) :
    r ≤ b := by
  induction hn : d.size - offset using Nat.strongRecOn generalizing offset with
  | ind n ih =>
    by_cases hlt : offset < d.size
    · cases hhere : d.checkRootfsMagic e offset with
      | error ret =>
        have hnext := lt_nextEb hlt
        have heq := nextEb_eq hlt
        rw [findRootfsFrom_next hlt hhere] at h
        have hne : offset ≠ b := by
          rintro rfl
          cases hhere.symm.trans hmagic
        refine ih _ (by omega) h ?_ ?_ rfl
        · rw [heq, ← Nat.succ_mul]
          exact Nat.dvd_mul_left _ _
        · rw [heq, Nat.div_mul_cancel hdvd]
          exact add_le_of_aligned hdvd hb (by omega)
      | ok t' =>
        rw [findRootfsFrom_found hlt hhere] at h
        cases h
        exact hle
    · rw [findRootfsFrom_end (Nat.le_of_not_lt hlt)] at h
      cases h

section
variable {fuel t : Nat} {name : Bytes} {kzalloc : Bool}

theorem parse_other (h : name ≠ firmwareName) :
    cfeBootfsParse d e fuel name kzalloc = some (.error (-22)) := by
  rw [cfeBootfsParse, if_pos h]
  rfl

theorem parse_stuck (h : loop (bootRound d e) fuel 0 0 = none) :
    cfeBootfsParse d e fuel firmwareName kzalloc = none := by
  rw [cfeBootfsParse, if_neg (not_not.mpr rfl), h]
  rfl

theorem parse_missing {err : Int} (h : loop (bootRound d e) fuel 0 0 = some t)
    (hroot : d.findRootfsFrom e d.erasesize = .error err) :
    cfeBootfsParse d e fuel firmwareName kzalloc = some (.error err) := by
  rw [cfeBootfsParse, if_neg (not_not.mpr rfl), h, hroot]
  rfl

theorem parse_rootfs {r : Nat} {type : PartType} (h : loop (bootRound d e) fuel 0 0 = some t)
    (hroot : d.findRootfsFrom e d.erasesize = .ok (r, type)) :
    cfeBootfsParse d e fuel firmwareName kzalloc = some (if kzalloc = false then .error (-12)
      else .ok [⟨.bootfs, 0, r⟩, ⟨if type = .ubi then .ubi else .rootfs, r, d.size - r⟩]) := by
  rw [cfeBootfsParse, if_neg (not_not.mpr rfl), h, hroot]
  cases kzalloc <;> rfl

theorem cfeBootfsParse_ends_iff :
    (∃ fuel r, cfeBootfsParse d e fuel firmwareName kzalloc = some r) ↔ Forward d e := by
  rw [← walk_ends_iff]
  constructor
  · rintro ⟨fuel, r, hparse⟩
    cases hloop : loop (bootRound d e) fuel 0 0 with
    | none =>
      rw [parse_stuck hloop] at hparse
      cases hparse
    | some t => exact ⟨fuel, t, hloop⟩
  · rintro ⟨fuel, t, hloop⟩
    cases hroot : d.findRootfsFrom e d.erasesize with
    | error err => exact ⟨fuel, _, parse_missing hloop hroot⟩
    | ok found => exact ⟨fuel, _, parse_rootfs hloop hroot⟩

/-- What is returned is the root filesystem that the search finds. -/
theorem parse_eq {bootfs rootfs : BootPart}
    (h : cfeBootfsParse d e fuel name kzalloc = some (.ok [bootfs, rootfs])) :
    kzalloc = true ∧ bootfs.offset = 0 ∧ bootfs.size = rootfs.offset ∧
      ∃ type, d.findRootfsFrom e d.erasesize = .ok (rootfs.offset, type) := by
  by_cases hname : name = firmwareName
  · subst hname
    cases hloop : loop (bootRound d e) fuel 0 0 with
    | none =>
      rw [parse_stuck hloop] at h
      cases h
    | some t =>
      cases hroot : d.findRootfsFrom e d.erasesize with
      | error err =>
        rw [parse_missing hloop hroot] at h
        cases h
      | ok found =>
        rw [parse_rootfs hloop hroot] at h
        split at h
        · cases h
        · rename_i hk
          cases h
          exact ⟨by simpa using hk, rfl, rfl, found.2, rfl⟩
  · rw [parse_other hname] at h
    cases h

end

/-- **The boot file system is split off** exactly when no node of its walk leads back to itself,
and no erase block that begins before the end of a node has the magic of a root filesystem. -/
theorem bootfs_iff (d : Device) (e : Endian) (name : Bytes) (kzalloc : Bool) :
    Splits d e name kzalloc ↔
      (name = firmwareName → Forward d e ∧ (kzalloc = true → Plain d e)) := by
  constructor
  · rintro h rfl
    have hforward := cfeBootfsParse_ends_iff.mp h.ends
    refine ⟨hforward, ?_⟩
    rintro rfl p hp b hdvd hle hlt hend type hmagic
    -- the search stops there at the latest
    obtain ⟨⟨r, t⟩, hroot⟩ := findRootfsFrom_iff.mpr ⟨b, type, hle, hlt, .inr hdvd, hmagic⟩
    have hrb := findRootfsFrom_first hroot (Nat.dvd_refl _) hdvd hle hmagic
    obtain ⟨fuel, s, hloop⟩ := walk_ends_iff.mpr hforward
    have hin := (h.contains fuel _ _ (parse_rootfs hloop hroot) p hp).1
    dsimp only at hin
    omega
  · intro h
    by_cases hname : name = firmwareName
    · subst hname
      obtain ⟨hforward, hplain⟩ := h rfl
      refine ⟨cfeBootfsParse_ends_iff.mpr hforward, fun fuel bootfs rootfs hparse p hp => ?_⟩
      obtain ⟨hk, hzero, hsize, type, hroot⟩ := parse_eq hparse
      obtain ⟨hle, hlt, hmagic, hat⟩ := findRootfsFrom_ok hroot
      have hdvd : d.erasesize ∣ rootfs.offset := hat.elim (fun h => h ▸ Nat.dvd_refl _) id
      have hbehind : p + totlen d e p ≤ rootfs.offset := by
        by_contra hcover
        exact hplain hk p hp _ hdvd hle hlt (Nat.lt_of_not_le hcover) type hmagic
      omega
    · refine ⟨⟨0, _, parse_other hname⟩, fun fuel bootfs rootfs hparse => ?_⟩
      rw [parse_other hname] at hparse
      cases hparse

end

/-! ## A node without a length, and one of several blocks -/

/-- A device with erase blocks of 32 bytes. -/
def smallBootfs (flash : Bytes) (h : flash.length + 32 < 2 ^ 32) : Device :=
  ⟨32, flash, 32, sizeBits_32, erasesize_pos_32, h⟩

def zeroNode : Bytes := [0x85, 0x19, 0x03, 0xe0] ++ List.replicate 36 0

/-- A node of 64 bytes, which has the magic of squashfs in its second block. -/
def longNode : Bytes :=
  [0x85, 0x19, 0x03, 0xe0, 64] ++ List.replicate 27 0 ++ [0x68, 0x73, 0x71, 0x73] ++
    List.replicate 28 0

theorem length_zeroNode : zeroNode.length + 32 < 2 ^ 32 := by decide

theorem length_longNode : longNode.length + 32 < 2 ^ 32 := by decide

theorem bootfs_not_splits :
    ¬ Splits (smallBootfs zeroNode length_zeroNode) .little firmwareName true ∧
      ¬ Splits (smallBootfs longNode length_longNode) .little firmwareName true := by
  constructor
  · intro h
    have hstay : BootNext (smallBootfs zeroNode length_zeroNode) .little 0 0 :=
      ⟨by decide, by decide, by decide⟩
    exact cfeBootfsParse_ends_iff.mp h.ends 0 .refl (.single hstay)
  · intro h
    have hloop : loop (bootRound (smallBootfs longNode length_longNode) .little) 1 0 0 = some 64 :=
      by decide
    have hroot : (smallBootfs longNode length_longNode).findRootfsFrom .little 32 =
        .ok (32, .squashfs) := findRootfsFrom_found (by decide) (by decide)
    have hin := (h.contains 1 _ _ (parse_rootfs hloop hroot) 0 ⟨.refl, by decide⟩).1
    exact absurd hin (by decide)

end UolaOs.Mtdsplit
