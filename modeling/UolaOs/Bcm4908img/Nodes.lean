import UolaOs.Bcm4908img.Rename
import UolaOs.Lib.FlashArea
import UolaOs.Lib.Loop

/-!
# Going from node to node

The loops of `bcm4908img bootfs ls` and `bcm4908img bootfs mv`, with a `size_t` of 64 bits.

* `Link`: the next node;
* `ends_iff_moves`: when the nodes come to an end;
* `walks_iff`: when the loops do.
-/

namespace UolaOs.Bcm4908img

/-- `FILENAME_MAX` -/
def filenameMax : Nat := 4096

/-- What the loops go on by. -/
def Visit.step? : Visit → Option Nat
  | .eio => none
  | .last => none
  | .other step => some step
  | .dirent _ step => some step

/-- The loops go on from a node to another one. -/
def Link (m : Bytes) (offset next : Nat) : Prop :=
  ∃ step, (visit m offset).step? = some step ∧ next = offset + step

/-- The `totlen` of a node. -/
def totlen (m : Bytes) (offset : Nat) : UInt32 := word (load m offset unknownNodeSize) 4

/-- No node that the loops go on from has a length of 0, or one that the rounding takes to 0. -/
def Moves (m : Bytes) (bootfs : Nat) : Prop :=
  ∀ offset, Relation.ReflTransGen (Link m) bootfs offset → (visit m offset).step?.isSome = true →
    totlen m offset ≠ 0 ∧ (totlen m offset).toNat ≤ 2 ^ 32 - 4

/-- Both loops end, and each name has room in the buffers, with its NUL. -/
structure Walks (m : Bytes) (info : Info) : Prop where
  ls : ∃ fuel r, printDirents m fuel info.bootfsOffset = some r
  mv : ∀ oldname, ∃ fuel r, findDirent m oldname fuel info.bootfsOffset = some r
  names : ∀ offset name step, visit m offset = .dirent name step → name.length + 1 ≤ filenameMax

/-! ## Steps -/

section
variable {m name : Bytes} {offset step : Nat}

theorem nodeStep_eq (t : UInt32) : nodeStep t = (t.toNat + 3) % 2 ^ 32 / 4 * 4 := by
  have hadd : (t + 3).toNat = (t.toNat + 3) % 2 ^ 32 := UInt32.toNat_add _ _
  have hmask : (~~~3 : UInt32).toNat = 2 ^ 32 - 2 ^ 2 := by decide
  have hlt : (t + 3).toNat < 2 ^ 32 := UInt32.toNat_lt _
  rw [nodeStep, UInt32.toNat_and, hmask, and_clearLow hlt (by decide), hadd]
  rfl

theorem nodeStep_pos_iff (t : UInt32) : 0 < nodeStep t ↔ t ≠ 0 ∧ t.toNat ≤ 2 ^ 32 - 4 := by
  have hlt := t.toNat_lt
  have hzero : t = 0 ↔ t.toNat = 0 := by
    rw [← UInt32.toNat_inj]
    rfl
  rw [nodeStep_eq, Ne, hzero]
  omega

/-- The step is that of the `totlen`. -/
theorem step?_eq (h : (visit m offset).step? = some step) : step = nodeStep (totlen m offset) := by
  simp only [visit] at h
  split_ifs at h <;> cases h
  all_goals rfl

/-- A name has the length that its byte says. -/
theorem length_name (h : visit m offset = .dirent name step) : name.length ≤ 255 := by
  simp only [visit] at h
  split_ifs at h with h₁ h₂ h₃ h₄ h₅
  cases h
  have hlt := UInt8.toNat_lt ((load m offset rawDirentSize).getD nsizeOffset 0)
  rw [not_not.mp h₅]
  omega

/-- There is a whole node where the loops go on. -/
theorem offset_le (h : (visit m offset).step? = some step) :
    offset + unknownNodeSize ≤ m.length := by
  have hlen : ¬ (load m offset unknownNodeSize).length ≠ unknownNodeSize := by
    intro hne
    rw [visit, if_pos hne] at h
    cases h
  have heq := not_not.mp hlen
  rw [load, List.length_take, List.length_drop] at heq
  have h12 : unknownNodeSize = 12 := rfl
  omega

end

/-! ## Runs -/

section
variable {m : Bytes} {offset step start : Nat}

theorem Link.unique {a b c : Nat} (hb : Link m a b) (hc : Link m a c) : b = c := by
  obtain ⟨s, hs, rfl⟩ := hb
  obtain ⟨t, ht, rfl⟩ := hc
  rw [hs] at ht
  cases ht
  rfl

/-- The nodes come to an end when each one moves on. -/
theorem ends_iff_moves : Ends (Link m) start ↔ Moves m start := by
  constructor
  · intro hends offset hreached hnode
    obtain ⟨step, hstep⟩ := Option.isSome_iff_exists.mp hnode
    rw [← nodeStep_pos_iff, ← step?_eq hstep]
    refine Nat.pos_of_ne_zero fun hzero => ?_
    subst hzero
    exact (hends.reached hreached).no_cycle (.single ⟨0, hstep, rfl⟩)
  · intro hmoves
    -- a node that is reached ends before the file does
    have hends (n offset : Nat) (hn : m.length < offset + n)
        (hreached : Relation.ReflTransGen (Link m) start offset) : Ends (Link m) offset := by
      induction n generalizing offset with
      | zero =>
        refine ⟨_, fun next hlink => ?_⟩
        obtain ⟨step, hstep, -⟩ := hlink
        have hle := offset_le hstep
        omega
      | succ n ih =>
        refine ⟨_, fun next hlink => ?_⟩
        have hnext := hreached.tail hlink
        obtain ⟨step, hstep, rfl⟩ := hlink
        have hpos := (nodeStep_pos_iff _).mpr
          (hmoves offset hreached (Option.isSome_iff_exists.mpr ⟨step, hstep⟩))
        rw [← step?_eq hstep] at hpos
        exact ih (offset + step) (by omega) hnext
    exact hends (m.length + 1) start (by omega) .refl

/-- `ls` goes through all of the nodes. -/
theorem printDirents_iff :
    (∃ fuel r, printDirents m fuel start = some r) ↔ Ends (Link m) start := by
  constructor
  · rintro ⟨fuel, r, hrun⟩
    induction fuel generalizing start r with
    | zero => cases hrun
    | succ fuel ih =>
      refine ⟨_, fun next hlink => ?_⟩
      obtain ⟨step, hstep, rfl⟩ := hlink
      rw [printDirents] at hrun
      cases hv : visit m start with
      | eio => rw [hv] at hstep; cases hstep
      | last => rw [hv] at hstep; cases hstep
      | other step' =>
        rw [hv] at hstep hrun
        cases hstep
        exact ih r hrun
      | dirent name step' =>
        rw [hv] at hstep hrun
        cases hstep
        obtain ⟨rest, hrest, -⟩ := Option.map_eq_some_iff.mp hrun
        exact ih rest hrest
  · intro hends
    induction hends with
    | intro start _ ih =>
      cases hv : visit m start with
      | eio => exact ⟨1, _, by rw [printDirents, hv]⟩
      | last => exact ⟨1, _, by rw [printDirents, hv]⟩
      | other step =>
        obtain ⟨fuel, r, hrun⟩ := ih (start + step) ⟨step, by rw [hv]; rfl, rfl⟩
        exact ⟨fuel + 1, r, by rw [printDirents, hv]; exact hrun⟩
      | dirent name step =>
        obtain ⟨fuel, r, hrun⟩ := ih (start + step) ⟨step, by rw [hv]; rfl, rfl⟩
        refine ⟨fuel + 1, (cText name :: r.1, r.2), ?_⟩
        rw [printDirents, hv]
        dsimp only
        rw [hrun]
        rfl

/-- `mv` goes through some of the nodes. -/
theorem findDirent_ends (oldname : CStr) (hends : Ends (Link m) start) :
    ∃ fuel r, findDirent m oldname fuel start = some r := by
  induction hends with
  | intro start _ ih =>
    cases hv : visit m start with
    | eio => exact ⟨1, _, by rw [findDirent, hv]⟩
    | last => exact ⟨1, _, by rw [findDirent, hv]⟩
    | other step =>
      obtain ⟨fuel, r, hrun⟩ := ih (start + step) ⟨step, by rw [hv]; rfl, rfl⟩
      exact ⟨fuel + 1, r, by rw [findDirent, hv]; exact hrun⟩
    | dirent name step =>
      by_cases hname : cText name ≠ oldname.bytes
      · obtain ⟨fuel, r, hrun⟩ := ih (start + step) ⟨step, by rw [hv]; rfl, rfl⟩
        refine ⟨fuel + 1, r, ?_⟩
        rw [findDirent, hv]
        dsimp only
        rw [if_pos hname]
        exact hrun
      · refine ⟨1, .ok (start, name.length), ?_⟩
        rw [findDirent, hv]
        dsimp only
        rw [if_neg hname]

end

/-- **The loops end** when all of the nodes in the bootfs move on. The names always fit. -/
theorem walks_iff (m : Bytes) (info : Info) : Walks m info ↔ Moves m info.bootfsOffset := by
  rw [← ends_iff_moves]
  constructor
  · intro hwalks
    exact printDirents_iff.mp hwalks.ls
  · intro hends
    refine ⟨printDirents_iff.mpr hends, fun oldname => findDirent_ends oldname hends, ?_⟩
    intro offset name step hv
    have hle := length_name hv
    rw [filenameMax]
    omega

/-! ## A node of length 0 -/

/-- A node that is no dirent, and that has no length. -/
def stuckBlock : Bytes := [0x85, 0x19] ++ List.replicate 0x1fffe 0

def stuckTail : Tail :=
  ⟨crc32 0xffffffff (stuckBlock ++ ubiRootfs), wfiVersion, 0x4908, wfiNand128Flash, 2⟩

/-- An image of this bootfs. -/
def stuckImage : Bytes := stuckBlock ++ ubiRootfs ++ (stuckTail.bytes ++ [])

theorem length_stuckBlock : stuckBlock.length = blockSize := by
  rw [stuckBlock, List.length_append, List.length_replicate]
  rfl

theorem stuckBlock_layout : Layout (stuckBlock ++ ubiRootfs) [] stuckBlock ubiRootfs :=
  block_layout length_stuckBlock rfl plainRootfs_self

theorem visit_stuckImage : visit stuckImage 0 = .other 0 := by
  have hsize : blockSize = 0x20000 := rfl
  have h40 : rawDirentSize = 40 := rfl
  rw [stuckImage, List.append_assoc, visit_append (by rw [length_stuckBlock]; omega)]
  decide

theorem tailOffset_stuckImage : tailOffset stuckImage = (stuckBlock ++ ubiRootfs).length := by
  have hno := stuckBlock_layout.no_tail
  have h20 : tailSize = 20 := rfl
  have h256 : linksysTailSize = 256 := rfl
  have hlen : stuckImage.length = (stuckBlock ++ ubiRootfs).length + tailSize := by
    rw [stuckImage, List.append_nil, List.length_append, length_tail_bytes]
  have hdata : (stuckBlock ++ ubiRootfs).length = 0x20100 := by
    rw [List.length_append, length_stuckBlock, length_ubiRootfs]
    rfl
  have hvendor : ¬ VendorTail stuckImage := by
    rw [VendorTail, hlen, stuckImage, load_data (by rw [hdata]; decide)]
    exact hno
  rw [(tailOffset_eq _).2 hvendor, hlen, Nat.add_sub_cancel]

/-- The image is accepted, and `ls` stays at its first node. -/
theorem stuckImage_loops :
    ∃ info, bcm4908imgParse stuckImage = .ok info ∧ ¬ Walks stuckImage info := by
  have h236 : 236 ≤ ubiRootfs.length + ([] : Bytes).length :=
    Nat.le_trans plainRootfs_self.long (Nat.le_add_right _ _)
  have hcrc : crc32 0xffffffff (stuckBlock ++ ubiRootfs) = stuckTail.crc32 := by rw [stuckTail]
  have hparse := parse_layout (t := stuckTail) stuckBlock_layout tailOffset_stuckImage
  rw [if_pos h236, if_pos hcrc] at hparse
  refine ⟨_, hparse, fun hwalks => ?_⟩
  have hends := printDirents_iff.mp hwalks.ls
  exact hends.no_cycle (.single ⟨0, by rw [List.length_nil, visit_stuckImage]; rfl, rfl⟩)

end UolaOs.Bcm4908img
