import UolaOs.Bcm4908img.Agree
import UolaOs.Bcm4908img.Bootfs

/-!
# Renaming a file

* `Walk`: nodes that follow one another;
* `accepted_iff`: what the parser accepts;
* `rename_iff`: renaming keeps an image valid when there is no vendor tail.
-/

namespace UolaOs.Bcm4908img

/-! ## Nodes -/

/-- The block at `bootfs + k * blockSize` does not start inside the `n` bytes at `offset`. -/
def InBlock (bootfs offset n : Nat) : Prop :=
  ∀ k, ¬ (offset < bootfs + k * blockSize ∧ bootfs + k * blockSize < offset + n)

/-- From `offset` on there are nodes with these dirents. Each node is as long as its header says,
the dirents do not reach into another block, and all end before `limit`. -/
inductive Walk (m : Bytes) (bootfs limit : Nat) : Nat → List (Nat × Bytes) → Prop
  | last {offset : Nat} (hv : visit m offset = .last) (hle : offset + unknownNodeSize ≤ limit) :
      Walk m bootfs limit offset []
  | other {offset step : Nat} {ds : List (Nat × Bytes)} (hv : visit m offset = .other step)
      (hstep : unknownNodeSize ≤ step) (hrest : Walk m bootfs limit (offset + step) ds) :
      Walk m bootfs limit offset ds
  | dirent {offset step : Nat} {name : Bytes} {ds : List (Nat × Bytes)}
      (hv : visit m offset = .dirent name step) (hstep : rawDirentSize + name.length ≤ step)
      (hblock : InBlock bootfs offset (rawDirentSize + name.length))
      (hrest : Walk m bootfs limit (offset + step) ds) :
      Walk m bootfs limit offset ((offset, name) :: ds)

section
variable {m m' : Bytes} {bootfs limit offset fuel : Nat} {ds : List (Nat × Bytes)}

theorem Walk.offset_le (h : Walk m bootfs limit offset ds) : offset + unknownNodeSize ≤ limit := by
  induction h with
  | last hv hle => exact hle
  | other hv hstep hrest ih => omega
  | dirent hv hstep hblock hrest ih => omega

end

/-! ## Nodes of a renamed file -/

section
variable {m m' name name' : Bytes} {p step : Nat}

/-- A node that is no dirent is told from its first bytes. -/
theorem visit_congr (h : ∀ i, p ≤ i → i < p + unknownNodeSize → m'[i]? = m[i]?)
    (hv : visit m p = .last ∨ visit m p = .other step) : visit m' p = visit m p := by
  have hnode : load m' p unknownNodeSize = load m p unknownNodeSize := load_congr h
  rw [visit, visit, hnode]
  dsimp only
  split
  · rfl
  · split
    · rfl
    · split
      · rfl
      · rename_i hlen hmagic htype
        rw [visit, if_neg hlen, if_neg hmagic, if_neg htype] at hv
        dsimp only at hv
        split at hv
        · rcases hv with hv | hv <;> cases hv
        · split at hv <;> rcases hv with hv | hv <;> cases hv

theorem visit_dirent_iff :
    visit m p = .dirent name step ↔
      (load m p unknownNodeSize).length = unknownNodeSize ∧
        half (load m p unknownNodeSize) 0 = jffs2MagicBitmask ∧
        half (load m p unknownNodeSize) 2 = jffs2NodetypeDirent ∧
        nodeStep (word (load m p unknownNodeSize) 4) = step ∧
        (load m p rawDirentSize).length = rawDirentSize ∧
        ((load m p rawDirentSize).getD nsizeOffset 0).toNat = name.length ∧
        load m (p + rawDirentSize) name.length = name := by
  rw [visit]
  dsimp only
  constructor
  · intro h
    split at h
    · cases h
    · rename_i hlen
      split at h
      · cases h
      · rename_i hmagic
        split at h
        · cases h
        · rename_i htype
          split at h
          · cases h
          · rename_i hraw
            split at h
            · cases h
            · rename_i hname
              obtain ⟨rfl, rfl⟩ := Visit.dirent.inj h
              have hname := not_not.mp hname
              exact ⟨not_not.mp hlen, not_not.mp hmagic, not_not.mp htype, rfl, not_not.mp hraw,
                hname.symm, by rw [hname]⟩
  · rintro ⟨hlen, hmagic, htype, hstep, hraw, hnsize, hname⟩
    rw [if_neg (not_not.mpr hlen), if_neg (not_not.mpr hmagic), if_neg (not_not.mpr htype),
      if_neg (not_not.mpr hraw), hnsize, hname, if_neg (not_not.mpr rfl), hstep]

theorem getD_load {off n k : Nat} (h : k < n) (m : Bytes) :
    (load m off n).getD k 0 = m.getD (off + k) 0 := by
  rw [List.getD_eq_getElem?_getD, load, List.getElem?_take_of_lt h, List.getElem?_drop,
    List.getD_eq_getElem?_getD]

/-- The fields of a dirent before its name CRC, and its name. -/
theorem visit_renamed (hlen : m'.length = m.length)
    (h : ∀ i, p ≤ i → i < p + nameCrcOffset → m'[i]? = m[i]?)
    (hname : load m' (p + rawDirentSize) name'.length = name') (hn : name'.length = name.length)
    (hv : visit m p = .dirent name step) : visit m' p = .dirent name' step := by
  obtain ⟨h12, hmagic, htype, hstep, h40, hnsize, -⟩ := visit_dirent_iff.mp hv
  have hnode : load m' p unknownNodeSize = load m p unknownNodeSize := by
    apply load_congr
    intro i h₁ h₂
    rw [unknownNodeSize] at h₂
    exact h i h₁ (by rw [nameCrcOffset]; omega)
  have hraw : (load m' p rawDirentSize).length = rawDirentSize := by
    rw [load, List.length_take, List.length_drop] at h40 ⊢
    rw [hlen, h40]
  have hnsize' : m'.getD (p + nsizeOffset) 0 = m.getD (p + nsizeOffset) 0 := by
    rw [List.getD_eq_getElem?_getD, h _ (by omega) (by rw [nsizeOffset, nameCrcOffset]; omega),
      List.getD_eq_getElem?_getD]
  apply visit_dirent_iff.mpr
  rw [hnode]
  refine ⟨h12, hmagic, htype, hstep, hraw, ?_, hname⟩
  rw [getD_load (by decide)] at hnsize ⊢
  rw [hnsize', hnsize, hn]

end

section
variable {m m' : Bytes} {bootfs limit o : Nat} {name name' : Bytes}

theorem visit_congr_dirent {p step : Nat} (hlen : m'.length = m.length)
    (h : ∀ i, p ≤ i → i < p + rawDirentSize + name.length → m'[i]? = m[i]?)
    (hv : visit m p = .dirent name step) : visit m' p = .dirent name step := by
  obtain ⟨-, -, -, -, -, -, hname⟩ := visit_dirent_iff.mp hv
  refine visit_renamed hlen (fun i h₁ h₂ => h i h₁ ?_) ?_ rfl hv
  · rw [nameCrcOffset] at h₂
    rw [rawDirentSize]
    omega
  · exact (load_congr fun i h₁ h₂ => h i (by omega) h₂).trans hname

theorem Walk.congr {offset : Nat} {ds : List (Nat × Bytes)} (h : Walk m bootfs limit offset ds)
    (hlen : m'.length = m.length) (hsame : ∀ i, offset ≤ i → i < limit → m'[i]? = m[i]?) :
    Walk m' bootfs limit offset ds := by
  induction h with
  | @last p hv hle =>
    have hlast : visit m p = .last ∨ visit m p = .other 0 := .inl hv
    have hv' := visit_congr (fun i h₁ h₂ => hsame i h₁ (by omega)) hlast
    exact .last (hv'.trans hv) hle
  | other hv hstep hrest ih =>
    have hle := hrest.offset_le
    have hv' := visit_congr (fun i h₁ h₂ => hsame i h₁ (by omega)) (.inr hv)
    exact .other (hv'.trans hv) hstep (ih fun i h₁ h₂ => hsame i (by omega) h₂)
  | dirent hv hstep hblock hrest ih =>
    have hle := hrest.offset_le
    have hv' := visit_congr_dirent hlen (fun i h₁ h₂ => hsame i h₁ (by omega)) hv
    exact .dirent hv' hstep hblock (ih fun i h₁ h₂ => hsame i (by omega) h₂)

end

/-! ## The parser -/

section
variable {m m' : Bytes} {info : Info} {tail fuel offset target : Nat}

theorem bind_eq_ok {α β : Type} {x : Except Errno α} {f : α → Except Errno β} {b : β} :
    x.bind f = .ok b ↔ ∃ a, x = .ok a ∧ f a = .ok b := by
  cases x with
  | error e =>
    constructor
    · intro h
      cases h
    · rintro ⟨_, h, _⟩
      cases h
  | ok a =>
    constructor
    · intro h
      exact ⟨a, rfl, h⟩
    · rintro ⟨_, h, hf⟩
      obtain rfl := Except.ok.inj h
      exact hf

theorem checkTail_ok_iff {cferom bootfs padding rootfs tail : Nat} :
    checkTail m cferom bootfs padding rootfs tail = .ok info ↔
      (load m cferom (tail - cferom)).length = tail - cferom ∧
        (load m tail tailSize).length = tailSize ∧
        crc32 0xffffffff (load m cferom (tail - cferom)) =
          (Tail.parse (load m tail tailSize)).crc32 ∧
        info = ⟨cferom, bootfs, padding, rootfs, tail,
          crc32 0xffffffff (load m cferom (tail - cferom)), Tail.parse (load m tail tailSize)⟩ := by
  have hle : (load m cferom (tail - cferom)).length ≤ tail - cferom := List.length_take_le _ _
  rw [checkTail, copyChunks_crc32 (by decide)]
  dsimp only
  constructor
  · intro h
    split at h
    · cases h
    · rename_i hdata
      split at h
      · cases h
      · rename_i htail
        split at h
        · cases h
        · rename_i hcrc
          exact ⟨by omega, not_not.mp htail, not_not.mp hcrc, (Except.ok.inj h).symm⟩
  · rintro ⟨hdata, htail, hcrc, rfl⟩
    rw [if_neg (by omega), if_neg (not_not.mpr htail), if_neg (not_not.mpr hcrc)]

/-- What holds of an image that the parser has accepted. -/
structure Accepted (m : Bytes) (info : Info) : Prop where
  long : 1024 ≤ m.length
  cferomOffset : info.cferomOffset = cferomOffset m
  tailOffset : info.tailOffset = tailOffset m
  bootfs : findBootfs m info.tailOffset info.tailOffset info.cferomOffset = .ok info.bootfsOffset
  rootfs : findRootfs m info.tailOffset info.tailOffset 0 info.bootfsOffset =
    .ok (info.paddingOffset, info.rootfsOffset)
  length_data : (load m info.cferomOffset (info.tailOffset - info.cferomOffset)).length =
    info.tailOffset - info.cferomOffset
  length_tail : (load m info.tailOffset tailSize).length = tailSize
  data : info.crc32 =
    crc32 0xffffffff (load m info.cferomOffset (info.tailOffset - info.cferomOffset))
  tail : info.tail = Tail.parse (load m info.tailOffset tailSize)
  crc : info.crc32 = info.tail.crc32

/-- What the loop for the rootfs sees of a block. -/
def SameBlock (m m' : Bytes) (off : Nat) : Prop :=
  load m' off 4 = load m off 4 ∧ (load m' off 256).length = (load m off 256).length ∧
    isAllFf (load m' off 256) = isAllFf (load m off 256)

/-- The two lengths that are read of a block. -/
theorem SameBlock.read {padding length : Nat} (h : SameBlock m m' offset)
    (hlength : (if padding ≠ 0 then 4 else 256) = length) :
    (load m' offset length).length = (load m offset length).length ∧
      load (load m' offset length) 0 4 = load (load m offset length) 0 4 ∧
      ((padding = 0 ∧ isAllFf (load m' offset length) = true) ↔
        (padding = 0 ∧ isAllFf (load m offset length) = true)) := by
  obtain ⟨h4, h256, hff⟩ := h
  by_cases hp : padding = 0
  · rw [if_neg (not_not.mpr hp)] at hlength
    subst hlength
    rw [load_front (by decide), load_front (by decide), hff]
    exact ⟨h256, h4, Iff.rfl⟩
  · rw [if_pos hp] at hlength
    subst hlength
    rw [h4]
    exact ⟨rfl, rfl, Iff.rfl⟩

end

/-! ## Renaming -/

/-- The file ends with a vendor tail. -/
def VendorTail (m : Bytes) : Prop :=
  load m (m.length - linksysTailSize) 9 = linksysMagic

def Info.offsets (info : Info) : List Nat :=
  [info.cferomOffset, info.bootfsOffset, info.paddingOffset, info.rootfsOffset, info.tailOffset]

section
variable {m : Bytes} {name : Bytes} {o : Nat}

end

section
variable {m m' name : Bytes} {info : Info} {o : Nat}

end

/-! ## The image afterwards -/

section
variable {m m' name oldName : Bytes} {info : Info} {o step : Nat} {crc : UInt32}

theorem tailOffset_eq (m : Bytes) :
    (VendorTail m → tailOffset m = m.length - tailSize - linksysTailSize) ∧
      (¬ VendorTail m → tailOffset m = m.length - tailSize) :=
  ⟨fun h => if_pos h, fun h => if_neg h⟩

end

section
variable {m m' : Bytes} {info : Info} {oldname newname : CStr} {environ : Nat → UInt8}

end

/-! ## A file in a bootfs -/

section
variable {m m' : Bytes} {info : Info} {oldname newname : CStr} {environ : Nat → UInt8}

/-- The rounds of the loops on the first bytes of a file. -/
theorem visit_append {a : Bytes} {offset : Nat} (h : offset + rawDirentSize + 255 ≤ a.length)
    (b : Bytes) : visit (a ++ b) offset = visit a offset := by
  have h12 : unknownNodeSize = 12 := rfl
  have h40 : rawDirentSize = 40 := rfl
  have hname (x : UInt8) : load (a ++ b) (offset + rawDirentSize) x.toNat =
      load a (offset + rawDirentSize) x.toNat := by
    have hx := x.toNat_lt
    exact load_data (by omega) b
  rw [visit, visit, load_data (by omega), load_data (by omega)]
  simp only [hname]

end

section

theorem nameA_nulFree : 0 ∉ ([0x61] : Bytes) := by decide

def nameA : CStr := ⟨[0x61], nameA_nulFree⟩

end

end UolaOs.Bcm4908img
