import UolaOs.Mtdsplit.Device

/-!
# uImage and jImage

The splitters mtdsplit_uimage.c and mtdsplit_jimage.c, which differ in the header only:

* `parseImage`: what both do with a header;
* `mtdsplitParseUimage`, `mtdsplitParseJimage`: the parsers;
* `Real`: partitions of a kernel whose header is accepted and whose image fits, and of a rootfs;
* `mtdsplitParse_iff`: when the parsers return only such partitions.
-/

namespace UolaOs.Mtdsplit

section
variable (d : Device) (e : Endian)

/-! ## The parsers -/

/-- An image size, which may be negative or large, in a `size_t`. -/
def sizeT (declared : Int) : Nat := (declared % 2 ^ d.sizeBits).toNat

/-- The partitions for an image, if it has a size and there is a rootfs. -/
def imageParts (image_offset image_size : Nat) : Except Int (Part × Part) :=
  if image_size = 0 then .error (-19)
  else if image_offset = 0 then
    match d.findRootfsFrom e (image_offset + image_size) with
    | .error ret => .error ret
    | .ok (rootfs_offset, type) =>
      let rootfs_size := d.size - rootfs_offset
      let image_size := rootfs_offset - image_offset
      if rootfs_size = 0 then .error (-19)
      else .ok (⟨.kernel, image_offset, image_size⟩, ⟨rootName type, rootfs_offset, rootfs_size⟩)
  else
    match d.checkRootfsMagic e 0 with
    | .error ret => .error ret
    | .ok type => .ok (⟨rootName type, 0, image_offset⟩, ⟨.kernel, image_offset, image_size⟩)

/-- What `__mtdsplit_parse_uimage` and `__mtdsplit_parse_jimage` do with a header of `len` bytes
that declares the size of the image; `none` if they look outside of their buffer. -/
def parseImage (len : Nat) (header : Bytes → Option (Option Int)) (kzalloc vmalloc : Bool) :
    Option (Except Int (Part × Part)) :=
  if kzalloc = false then some (.error (-12))
  -- there are no buffers of no bytes
  else if vmalloc = false ∨ len = 0 then some (.error (-12))
  else
    (d.scan len header (sizeT d) 0 none).map fun r => imageParts d e r.1 (r.2.elim 0 (sizeT d))

/-- What the device tree says about uImages. -/
structure UimageDt where
  extralen : Int := 0
  ihMagic : UInt32 := 0x27051956
  ihType : UInt32 := 2
  headerOffset : UInt32 := 0
  partMagic : UInt32 := 0

/-- A big-endian word of a buffer, if it is there. -/
def be32 (buf : Bytes) (off : Nat) : Option UInt32 :=
  if off + 4 ≤ buf.length then some (UInt32.ofNat (Endian.big.get (load buf off 4))) else none

/-- `uimage_verify_default` -/
def uimageVerifyDefault (header : Bytes) (ih_magic ih_type : UInt32) : Bool :=
  UInt32.ofNat (Endian.big.get (load header 0 4)) == ih_magic &&
    header.getD 28 0 == 5 && (header.getD 30 0).toUInt32 == ih_type

/-- The checks of a uImage and the size it declares. -/
def uimageHeader (dt : UimageDt) (buf : Bytes) : Option (Option Int) :=
  let verify :=
    if dt.headerOffset.toNat + 64 ≤ buf.length then
      let header := load buf dt.headerOffset.toNat 64
      some (if uimageVerifyDefault header dt.ihMagic dt.ihType then
          some (64 + (Endian.big.get (load header 12 4) : Int) + dt.headerOffset.toNat + dt.extralen)
        else none)
    else none
  if dt.headerOffset ≠ 0 ∧ dt.partMagic ≠ 0 then
    (be32 buf 0).bind fun magic => if magic ≠ dt.partMagic then some none else verify
  else verify

/-- `__mtdsplit_parse_uimage` -/
def mtdsplitParseUimage (dt : UimageDt) (kzalloc vmalloc : Bool) :
    Option (Except Int (Part × Part)) :=
  parseImage d e (d.trunc (64 + dt.headerOffset.toNat)) (uimageHeader dt) kzalloc vmalloc

/-- `jimage_verify_default` -/
def jimageVerifyDefault (header : Bytes) : Bool :=
  e.get (load header 2 2) == 0x2b24 && e.get (load header 16 2) == 0x2124 &&
    header.getD 0 0 == header.getD 1 0 && header.getD 1 0 == 4 && header.getD 19 0 == 2

/-- The checks of a jImage and the size it declares. -/
def jimageHeader (buf : Bytes) : Option (Option Int) :=
  some (if jimageVerifyDefault e buf then some (56 + (e.get (load buf 24 4) : Int)) else none)

/-- `mtdsplit_jimage_parse_generic` -/
def mtdsplitParseJimage (kzalloc vmalloc : Bool) : Option (Except Int (Part × Part)) :=
  parseImage d e 56 (jimageHeader e) kzalloc vmalloc

/-! ## Real partitions -/

variable (len : Nat) (header : Bytes → Option (Option Int))

/-- A kernel whose header is accepted and whose image fits the device, and a rootfs. -/
structure Real (kernel rootfs : Part) : Prop where
  kernel_name : kernel.name = .kernel
  rootfs_name : rootfs.name ≠ .kernel
  header : ∃ declared : Int, Accepted d len header kernel.offset declared ∧
    kernel.offset + declared ≤ d.size
  kernel_pos : 0 < kernel.size
  rootfs_pos : 0 < rootfs.size
  kernel_inside : kernel.offset + kernel.size ≤ d.size
  rootfs_inside : rootfs.offset + rootfs.size ≤ d.size
  disjoint : kernel.offset + kernel.size ≤ rootfs.offset ∨
    rootfs.offset + rootfs.size ≤ kernel.offset

/-- The parser looks at its buffer only, and two partitions are such ones, in either order. -/
def ReturnsReal (result : Option (Except Int (Part × Part))) : Prop :=
  ∃ r, result = some r ∧ ∀ p q, r = .ok (p, q) → Real d len header p q ∨ Real d len header q p

/-- There is a rootfs where the parser looks for it. -/
def HasRootfs (offset size : Nat) : Prop :=
  if offset = 0 then
    ∃ r type, size ≤ r ∧ r < d.size ∧ (r = size ∨ d.erasesize ∣ r) ∧
      d.checkRootfsMagic e r = .ok type
  else ∃ type, d.checkRootfsMagic e 0 = .ok type

/-- No header on the way makes the parser look outside of its buffer; the first one that it takes
declares an image that fits, without an overflow; and if it takes none, the last erase block has
none that is accepted, or the device does not begin with a rootfs. -/
structure ImageFits : Prop where
  inside : ∀ o, o < d.size → d.erasesize ∣ o → NoneTaken d len header (sizeT d) 0 o →
    ¬ Outside d len header o
  taken : ∀ (o : Nat) (declared : Int), Taken d len header (sizeT d) 0 o declared →
    sizeT d declared ≠ 0 → HasRootfs d e o (sizeT d declared) →
    o + declared ≤ d.size ∧ o + sizeT d declared ≤ d.size
  rejected : ∀ (o : Nat) (declared : Int), NoneTaken d len header (sizeT d) 0 d.size →
    LastBlock d 0 o → Accepted d len header o declared → sizeT d declared ≠ 0 →
    ¬ ∃ type, d.checkRootfsMagic e 0 = .ok type

end

/-! ## When they are real -/

section
variable {d : Device} {e : Endian} {len : Nat} {header : Bytes → Option (Option Int)}
  {o size : Nat} {declared : Int}

theorem rootName_ne_kernel (type : PartType) : rootName type ≠ .kernel := by
  cases type <;> decide

theorem not_returnsReal_none : ¬ ReturnsReal d len header none := fun h => by
  obtain ⟨r, hr, -⟩ := h
  cases hr

theorem returnsReal_error (ret : Int) : ReturnsReal d len header (some (.error ret)) :=
  ⟨_, rfl, fun p q h => by cases h⟩

theorem returnsReal_ok {p q : Part} :
    ReturnsReal d len header (some (.ok (p, q))) ↔ Real d len header p q ∨ Real d len header q p := by
  constructor
  · rintro ⟨r, hr, h⟩
    cases hr
    exact h p q rfl
  · intro h
    refine ⟨_, rfl, fun p' q' heq => ?_⟩
    cases heq
    exact h

theorem imageParts_zero : imageParts d e o 0 = .error (-19) := if_pos rfl

/-- Without a rootfs there are no partitions. -/
theorem imageParts_error (h : ¬ HasRootfs d e o size) : ∃ ret, imageParts d e o size = .error ret := by
  rw [imageParts]
  rw [HasRootfs] at h
  split
  · exact ⟨_, rfl⟩
  split
  · rename_i ho
    rw [if_pos ho, ← findRootfsFrom_iff] at h
    rw [ho, Nat.zero_add]
    cases hfind : d.findRootfsFrom e size with
    | error ret => exact ⟨ret, rfl⟩
    | ok x => exact absurd ⟨x, hfind⟩ h
  · rename_i ho
    rw [if_neg ho] at h
    cases hmagic : d.checkRootfsMagic e 0 with
    | error ret => exact ⟨ret, rfl⟩
    | ok type => exact absurd ⟨type, hmagic⟩ h

theorem imageParts_front (hsize : size ≠ 0) (h : HasRootfs d e 0 size) :
    ∃ r type, size ≤ r ∧ r < d.size ∧
      imageParts d e 0 size = .ok (⟨.kernel, 0, r⟩, ⟨rootName type, r, d.size - r⟩) := by
  rw [HasRootfs, if_pos rfl, ← findRootfsFrom_iff] at h
  obtain ⟨⟨r, type⟩, hfind⟩ := h
  obtain ⟨hle, hlt, -⟩ := findRootfsFrom_ok hfind
  refine ⟨r, type, hle, hlt, ?_⟩
  rw [imageParts, if_neg hsize, if_pos rfl, Nat.zero_add, hfind]
  exact if_neg (by omega)

theorem imageParts_behind (hsize : size ≠ 0) (ho : o ≠ 0) (h : HasRootfs d e o size) :
    ∃ type, imageParts d e o size = .ok (⟨rootName type, 0, o⟩, ⟨.kernel, o, size⟩) := by
  rw [HasRootfs, if_neg ho] at h
  obtain ⟨type, htype⟩ := h
  refine ⟨type, ?_⟩
  rw [imageParts, if_neg hsize, if_neg ho, htype]

/-- The partitions for an accepted header are real when the image fits, and so does what is left of
its size in a `size_t`. -/
theorem returnsReal_iff (haccepted : Accepted d len header o declared)
    (hsize : sizeT d declared ≠ 0) :
    ReturnsReal d len header (some (imageParts d e o (sizeT d declared))) ↔
      (HasRootfs d e o (sizeT d declared) →
        o + declared ≤ d.size ∧ o + sizeT d declared ≤ d.size) := by
  by_cases hroot : HasRootfs d e o (sizeT d declared)
  · rw [imp_iff_right hroot]
    by_cases ho : o = 0
    · subst ho
      obtain ⟨r, type, hle, hlt, heq⟩ := imageParts_front hsize hroot
      rw [heq, returnsReal_ok]
      constructor
      · rintro (h | h)
        · obtain ⟨x, hx, hfits⟩ := h.header
          obtain rfl := haccepted.unique hx
          exact ⟨hfits, by omega⟩
        · exact absurd rfl h.rootfs_name
      · rintro ⟨hfits, -⟩
        exact .inl ⟨rfl, rootName_ne_kernel type, ⟨declared, haccepted, hfits⟩, by dsimp only; omega,
          by dsimp only; omega, by dsimp only; omega, by dsimp only; omega, .inl (by dsimp only; omega)⟩
    · obtain ⟨type, heq⟩ := imageParts_behind hsize ho hroot
      rw [heq, returnsReal_ok]
      constructor
      · rintro (h | h)
        · exact absurd rfl h.rootfs_name
        · obtain ⟨x, hx, hfits⟩ := h.header
          obtain rfl := haccepted.unique hx
          exact ⟨hfits, h.kernel_inside⟩
      · rintro ⟨hfits, hinside⟩
        exact .inr ⟨rfl, rootName_ne_kernel type, ⟨declared, haccepted, hfits⟩,
          Nat.pos_of_ne_zero hsize, Nat.pos_of_ne_zero ho, hinside, by dsimp only; omega,
          .inr (by dsimp only; omega)⟩
  · obtain ⟨ret, heq⟩ := imageParts_error hroot
    rw [heq]
    exact iff_of_true (returnsReal_error ret) fun h => absurd h hroot

/-- When the search takes a header. -/
theorem imageFits_taken (h : Taken d len header (sizeT d) 0 o declared)
    (hall : ∀ p, 0 ≤ p → p ≤ o → d.erasesize ∣ p → ¬ Outside d len header p) :
    ImageFits d e len header ↔ (sizeT d declared ≠ 0 → HasRootfs d e o (sizeT d declared) →
      o + declared ≤ d.size ∧ o + sizeT d declared ≤ d.size) := by
  constructor
  · exact fun hfits => hfits.taken o declared h
  · intro hfits
    refine ⟨fun p hp haligned hnone hout => ?_, fun p x hx => ?_, fun p x hnone => ?_⟩
    · by_cases hpo : p ≤ o
      · exact hall p (Nat.zero_le _) hpo haligned hout
      · have := hnone o h.le (Nat.lt_of_not_le hpo) h.aligned _ h.accepted
        exact absurd this (Nat.not_lt.mpr h.fits)
    · obtain ⟨rfl, rfl⟩ := h.unique hx
      exact hfits
    · have := hnone o h.le h.lt h.aligned _ h.accepted
      exact absurd this (Nat.not_lt.mpr h.fits)

/-- When it takes none. -/
theorem imageFits_exhausted (hnone : NoneTaken d len header (sizeT d) 0 d.size)
    (hall : ∀ p, 0 ≤ p → p < d.size → d.erasesize ∣ p → ¬ Outside d len header p) :
    ImageFits d e len header ↔ ∀ o declared, LastBlock d 0 o → Accepted d len header o declared →
      sizeT d declared ≠ 0 → ¬ ∃ type, d.checkRootfsMagic e 0 = .ok type := by
  constructor
  · exact fun hfits o declared => hfits.rejected o declared hnone
  · intro hfits
    refine ⟨fun p hp haligned _ => hall p (Nat.zero_le _) hp haligned, fun p x hx => ?_,
      fun p x _ => hfits p x⟩
    exact absurd (hnone p hx.le hx.lt hx.aligned x hx.accepted) (Nat.not_lt.mpr hx.fits)

/-- Partitions behind the end of the device are not real. -/
theorem returnsReal_exhausted (ho : d.size ≤ o) (hpos : 0 < d.size) (hsize : size ≠ 0) :
    ReturnsReal d len header (some (imageParts d e o size)) ↔
      ¬ ∃ type, d.checkRootfsMagic e 0 = .ok type := by
  have hroot : HasRootfs d e o size ↔ ∃ type, d.checkRootfsMagic e 0 = .ok type := by
    rw [HasRootfs, if_neg (by omega)]
  rw [← hroot]
  by_cases h : HasRootfs d e o size
  · obtain ⟨type, heq⟩ := imageParts_behind hsize (by omega) h
    rw [heq, returnsReal_ok]
    refine iff_of_false (fun hreal => ?_) fun hno => hno h
    rcases hreal with hreal | hreal
    · exact hreal.rootfs_name rfl
    · have := hreal.kernel_inside
      dsimp only at this
      omega
  · obtain ⟨ret, heq⟩ := imageParts_error h
    rw [heq]
    exact iff_of_true (returnsReal_error ret) h

theorem parseImage_iff (kzalloc vmalloc : Bool) :
    ReturnsReal d len header (parseImage d e len header kzalloc vmalloc) ↔
      (kzalloc = true → vmalloc = true → len ≠ 0 → ImageFits d e len header) := by
  rw [parseImage]
  split
  · rename_i hno
    exact iff_of_true (returnsReal_error _) fun hyes => by cases hno.symm.trans hyes
  rename_i hk
  split
  · rename_i hno
    refine iff_of_true (returnsReal_error _) fun _ hyes hlen => ?_
    rcases hno with hno | hno
    · cases hno.symm.trans hyes
    · exact absurd hno hlen
  rename_i hv
  rw [not_or] at hv
  rw [imp_iff_right (by simpa using hk), imp_iff_right (by simpa using hv.1), imp_iff_right hv.2]
  have hend := @scan_end _ d len header (sizeT d) 0 none (Nat.dvd_zero _)
  generalize d.scan len header (sizeT d) 0 none = r at hend ⊢
  cases hend with
  | @outside o _ ho haligned hout hnone =>
    exact iff_of_false not_returnsReal_none fun h => h.inside o ho haligned hnone hout
  | @taken o x htaken hall =>
    rw [imageFits_taken htaken hall, Option.map_some]
    by_cases hsize : sizeT d x = 0
    · rw [Option.elim_some, hsize, imageParts_zero]
      exact iff_of_true (returnsReal_error _) fun h => absurd rfl h
    · rw [imp_iff_right hsize]
      exact returnsReal_iff htaken.accepted hsize
  | @exhausted o y ho hnone hall hempty hlast =>
    rw [imageFits_exhausted hnone hall, Option.map_some]
    cases y with
    | none =>
      rw [Option.elim_none, imageParts_zero]
      refine iff_of_true (returnsReal_error _) fun p x hp hx => ?_
      cases ((hlast p hp).2 x).mpr hx
    | some x =>
      have hpos : 0 < d.size := by
        by_contra hzero
        cases (hempty (Nat.le_of_not_lt hzero)).2
      obtain ⟨b, hb⟩ := exists_lastBlock hpos
      have hx := ((hlast b hb).2 x).mp rfl
      rw [Option.elim_some]
      by_cases hsize : sizeT d x = 0
      · rw [hsize, imageParts_zero]
        refine iff_of_true (returnsReal_error _) fun p z hp hz hne => ?_
        cases ((hlast p hp).2 z).mpr hz
        exact absurd hsize hne
      · rw [returnsReal_exhausted ho hpos hsize]
        constructor
        · intro hno p z _ _ _
          exact hno
        · exact fun h => h b x hb hx hsize

/-- **uImages and jImages.** The parsers return only real partitions exactly when their headers
declare images that fit. -/
theorem mtdsplitParse_iff (d : Device) (e : Endian) (kzalloc vmalloc : Bool) :
    (∀ dt, ReturnsReal d (d.trunc (64 + dt.headerOffset.toNat)) (uimageHeader dt)
        (mtdsplitParseUimage d e dt kzalloc vmalloc) ↔
      (kzalloc = true → vmalloc = true → d.trunc (64 + dt.headerOffset.toNat) ≠ 0 →
        ImageFits d e (d.trunc (64 + dt.headerOffset.toNat)) (uimageHeader dt))) ∧
    (ReturnsReal d 56 (jimageHeader e) (mtdsplitParseJimage d e kzalloc vmalloc) ↔
      (kzalloc = true → vmalloc = true → ImageFits d e 56 (jimageHeader e))) := by
  constructor
  · exact fun dt => parseImage_iff kzalloc vmalloc
  · rw [mtdsplitParseJimage, parseImage_iff]
    exact ⟨fun h hk hv => h hk hv (by decide), fun h hk hv _ => h hk hv⟩

/-- A uImage that is longer than the device, in the last of two erase blocks behind a SquashFS. -/
def longImage : Bytes :=
  [0x68, 0x73, 0x71, 0x73] ++ List.replicate 60 0xff ++
    [0x27, 0x05, 0x19, 0x56] ++ List.replicate 8 0 ++ [0x00, 0x00, 0x10, 0x00] ++
    List.replicate 12 0 ++ [0x05, 0x05, 0x02, 0x03] ++ List.replicate 32 0

theorem longImage_room : longImage.length + 64 < 2 ^ 32 := by decide +kernel

def tooLong : Device where
  sizeBits := 32
  flash := longImage
  erasesize := 64
  wide := sizeBits_32
  erasesize_pos := erasesize_pos_64
  room := longImage_room

/-- Its kernel partition is behind the end of the device. -/
theorem mtdsplitParseUimage_tooLong :
    mtdsplitParseUimage tooLong .little {} true true =
        some (.ok (⟨.rootfs, 0, 128⟩, ⟨.kernel, 128, 4160⟩)) ∧ tooLong.size = 128 ∧
      ¬ ReturnsReal tooLong 64 (uimageHeader {})
        (mtdsplitParseUimage tooLong .little {} true true) := by
  have heq : mtdsplitParseUimage tooLong .little {} true true =
      some (.ok (⟨.rootfs, 0, 128⟩, ⟨.kernel, 128, 4160⟩)) := by
    decide +kernel
  refine ⟨heq, by decide +kernel, ?_⟩
  rw [heq, returnsReal_ok]
  rintro (h | h)
  · exact h.rootfs_name rfl
  · exact absurd h.kernel_inside (by decide +kernel)

end

end UolaOs.Mtdsplit
