import UolaOs.Mtdsplit.Device

/-!
# FIT images

The splitter mtdsplit_fit.c:

* `fitScan`: the search for the magic, which leaves the last header that was read;
* `FitFits`: the image was found, its end does not wrap, and no rootfs begins right there;
* `mtdsplitFitParse_iff`: when the partitions are as they should be.
-/

namespace UolaOs.Mtdsplit

section
variable (d : Device) (e : Endian)

/-- `sizeof(struct fdt_header)` -/
def fdtHeaderSize : Nat := 40

/-- `OF_DT_HEADER` -/
def ofDtHeader : Nat := 0xd00dfeed

/-- `be32_to_cpu(hdr.magic)` -/
def fdtMagic (hdr : Bytes) : Nat := Endian.big.get (load hdr 0 4)

/-- `be32_to_cpu(hdr.totalsize)` -/
def fdtTotalsize (hdr : Bytes) : Nat := Endian.big.get (load hdr 4 4)

/-- The search for a FIT image: where it ends, and what `hdr` holds then. -/
def fitScan (offset : Nat) (hdr : Bytes) : Except Int (Nat × Bytes) :=
  if offset + fdtHeaderSize ≤ d.size then
    match d.read offset fdtHeaderSize with
    | none => .error (-22)
    | some hdr =>
      if fdtMagic hdr ≠ ofDtHeader then fitScan (offset + d.erasesize) hdr
      else .ok (offset, hdr)
  else .ok (offset, hdr)
termination_by d.size - offset
decreasing_by
  rename_i h _
  have := d.erasesize_pos
  have : 0 < fdtHeaderSize := Nat.succ_pos 39
  omega

/-- What `mtdsplit_fit_parse` does behind the search. -/
def fitParts (fit_offset : Nat) (hdr : Bytes) (kzalloc : Bool) : Except Int (Part × Part) :=
  let fit_size := fdtTotalsize hdr
  if fit_size = 0 then .error (-19)
  else
    match d.findRootfsFrom e (d.trunc (fit_offset + fit_size)) with
    | .error ret => .error ret
    | .ok (rootfs_offset, _) =>
      if kzalloc = false then .error (-12)
      else .ok (⟨.kernel, fit_offset, fit_size / d.erasesize * d.erasesize + d.erasesize⟩,
        ⟨.rootfs, rootfs_offset, d.size - rootfs_offset⟩)

/-- `mtdsplit_fit_parse`; `stack` is what `hdr` holds before anything is read. -/
def mtdsplitFitParse (stack : Bytes) (kzalloc : Bool) : Except Int (Part × Part) :=
  match fitScan d 0 stack with
  | .error ret => .error ret
  | .ok (fit_offset, hdr) => fitParts d e fit_offset hdr kzalloc

/-- A FIT image begins here. -/
def FitAt (o : Nat) : Prop :=
  o + fdtHeaderSize ≤ d.size ∧ fdtMagic (load d.flash o fdtHeaderSize) = ofDtHeader

/-- The first erase block with a FIT image. -/
structure FirstFit (o : Nat) : Prop where
  aligned : d.erasesize ∣ o
  here : FitAt d o
  first : ∀ p, p < o → d.erasesize ∣ p → ¬ FitAt d p

/-- The kernel is a whole FIT image, and apart from the rootfs. -/
structure FitParts (kernel rootfs : Part) : Prop where
  magic : FitAt d kernel.offset
  covers : fdtTotalsize (load d.flash kernel.offset fdtHeaderSize) ≤ kernel.size
  kernel_inside : kernel.offset + kernel.size ≤ d.size
  rootfs_inside : rootfs.offset + rootfs.size ≤ d.size
  disjoint : kernel.offset + kernel.size ≤ rootfs.offset ∨
    rootfs.offset + rootfs.size ≤ kernel.offset

/-- A rootfs begins at an offset or at an erase block boundary behind it. -/
def RootfsFrom (offset : Nat) : Prop :=
  ∃ r type, offset ≤ r ∧ r < d.size ∧ (r = offset ∨ d.erasesize ∣ r) ∧
    d.checkRootfsMagic e r = .ok type

/-- Where a search that begins at `a` ends without a FIT image, and what `hdr` holds then. -/
def LastHeader (a : Nat) (stack : Bytes) (o : Nat) (hdr : Bytes) : Prop :=
  (d.size < a + fdtHeaderSize ∧ o = a ∧ hdr = stack) ∨
    ∃ p, a ≤ p ∧ d.erasesize ∣ p ∧ p + fdtHeaderSize ≤ d.size ∧
      d.size < p + d.erasesize + fdtHeaderSize ∧ o = p + d.erasesize ∧
      hdr = load d.flash p fdtHeaderSize

/-- Behind the first FIT image there is a rootfs only if the end of the image does not wrap and no
rootfs begins right there; without a FIT image, there is none where what `hdr` holds points to. -/
structure FitFits (stack : Bytes) : Prop where
  found : ∀ o size, FirstFit d o → size = fdtTotalsize (load d.flash o fdtHeaderSize) →
    size ≠ 0 → RootfsFrom d e (d.trunc (o + size)) →
    o + size < 2 ^ d.sizeBits ∧ ∀ type, d.checkRootfsMagic e (o + size) ≠ .ok type
  missing : ∀ o hdr, (∀ p, d.erasesize ∣ p → ¬ FitAt d p) → LastHeader d 0 stack o hdr →
    fdtTotalsize hdr ≠ 0 → ¬ RootfsFrom d e (d.trunc (o + fdtTotalsize hdr))

end

section
variable {d : Device} {e : Endian} {stack hdr : Bytes} {a o : Nat}

theorem read_header (h : a + fdtHeaderSize ≤ d.size) :
    d.read a fdtHeaderSize = some (load d.flash a fdtHeaderSize) := by
  have : 0 < fdtHeaderSize := Nat.succ_pos 39
  exact if_pos ⟨by omega, h⟩

theorem FirstFit.unique {o' : Nat} (h : FirstFit d o) (h' : FirstFit d o') : o = o' := by
  rcases Nat.lt_trichotomy o o' with hlt | heq | hlt
  · exact absurd h.here (h'.first o hlt h.aligned)
  · exact heq
  · exact absurd h'.here (h.first o' hlt h'.aligned)

/-- How the search ends. -/
theorem fitScan_cases (hdr : Bytes) (hdvd : d.erasesize ∣ a)
    (hbefore : ∀ p, p < a → d.erasesize ∣ p → ¬ FitAt d p) :
    (∃ o, FirstFit d o ∧ fitScan d a hdr = .ok (o, load d.flash o fdtHeaderSize)) ∨
      ((∀ p, d.erasesize ∣ p → ¬ FitAt d p) ∧ ∃ o last, fitScan d a hdr = .ok (o, last) ∧
        LastHeader d a hdr o last) := by
  induction hn : d.size - a using Nat.strongRecOn generalizing a hdr with
  | ind n ih =>
    rw [fitScan]
    by_cases hle : a + fdtHeaderSize ≤ d.size
    · rw [if_pos hle, read_header hle]
      dsimp only
      by_cases hmagic : fdtMagic (load d.flash a fdtHeaderSize) = ofDtHeader
      · rw [if_neg (not_not.mpr hmagic)]
        exact .inl ⟨a, ⟨hdvd, ⟨hle, hmagic⟩, hbefore⟩, rfl⟩
      · rw [if_pos hmagic]
        have hpos := d.erasesize_pos
        have hlt : 0 < fdtHeaderSize := Nat.succ_pos 39
        have hnext : ∀ p, p < a + d.erasesize → d.erasesize ∣ p → ¬ FitAt d p := by
          intro p hp haligned hfit
          rcases Nat.lt_trichotomy p a with hpa | rfl | hpa
          · exact hbefore p hpa haligned hfit
          · exact hmagic hfit.2
          · have := add_le_of_aligned hdvd haligned hpa
            omega
        rcases ih _ (by omega) (load d.flash a fdtHeaderSize)
          (Nat.dvd_add hdvd (Nat.dvd_refl _)) hnext rfl with hfound | ⟨hnone, o, last, heq, hlast⟩
        · exact .inl hfound
        · refine .inr ⟨hnone, o, last, heq, .inr ?_⟩
          rcases hlast with ⟨hend, rfl, rfl⟩ | ⟨p, hp, haligned, hin, hend, rfl, rfl⟩
          · exact ⟨a, Nat.le_refl _, hdvd, hle, hend, rfl, rfl⟩
          · exact ⟨p, by omega, haligned, hin, hend, rfl, rfl⟩
    · rw [if_neg hle]
      refine .inr ⟨fun p haligned hfit => ?_, a, hdr, rfl, .inl ⟨Nat.lt_of_not_le hle, rfl, rfl⟩⟩
      have := hfit.1
      exact hbefore p (by omega) haligned hfit

/-- The partitions of a result, if there are any, are as they should be. -/
def FitSound (d : Device) (result : Except Int (Part × Part)) : Prop :=
  ∀ kernel rootfs, result = .ok (kernel, rootfs) → FitParts d kernel rootfs

theorem fitSound_error (ret : Int) : FitSound d (.error ret) := fun _ _ h => by cases h

theorem fitSound_ok {p q : Part} : FitSound d (.ok (p, q)) ↔ FitParts d p q := by
  constructor
  · exact fun h => h p q rfl
  · intro h p' q' heq
    cases heq
    exact h

/-- There are partitions for a header with a size when a rootfs is found behind it. -/
theorem fitParts_cases (o : Nat) (hdr : Bytes) :
    (∃ ret, fitParts d e o hdr true = .error ret) ∧
        (fdtTotalsize hdr ≠ 0 → ¬ RootfsFrom d e (d.trunc (o + fdtTotalsize hdr))) ∨
      ∃ r type, fdtTotalsize hdr ≠ 0 ∧
        d.findRootfsFrom e (d.trunc (o + fdtTotalsize hdr)) = .ok (r, type) ∧
        fitParts d e o hdr true =
          .ok (⟨.kernel, o, fdtTotalsize hdr / d.erasesize * d.erasesize + d.erasesize⟩,
            ⟨.rootfs, r, d.size - r⟩) := by
  by_cases hsize : fdtTotalsize hdr = 0
  · exact .inl ⟨⟨_, if_pos hsize⟩, fun hne => absurd hsize hne⟩
  · have hiff := @findRootfsFrom_iff d e (d.trunc (o + fdtTotalsize hdr))
    cases hfind : d.findRootfsFrom e (d.trunc (o + fdtTotalsize hdr)) with
    | error ret =>
      rw [hfind] at hiff
      refine .inl ⟨⟨ret, ?_⟩, fun _ hroot => ?_⟩
      · rw [fitParts, if_neg hsize, hfind]
      · obtain ⟨x, hx⟩ := hiff.mpr hroot
        cases hx
    | ok x =>
      refine .inr ⟨x.1, x.2, hsize, rfl, ?_⟩
      rw [fitParts, if_neg hsize, hfind]
      rfl

/-- The partitions for a FIT image that was found. -/
theorem fitParts_found (h : FirstFit d o) {size r : Nat} {type : PartType}
    (hsize : size = fdtTotalsize (load d.flash o fdtHeaderSize))
    (hfind : d.findRootfsFrom e (d.trunc (o + size)) = .ok (r, type)) :
    FitParts d ⟨.kernel, o, size / d.erasesize * d.erasesize + d.erasesize⟩
        ⟨.rootfs, r, d.size - r⟩ ↔
      o + size < 2 ^ d.sizeBits ∧ ∀ type, d.checkRootfsMagic e (o + size) ≠ .ok type := by
  obtain ⟨hle, hlt, htype, hdvd⟩ := findRootfsFrom_ok hfind
  have hcover : size < size / d.erasesize * d.erasesize + d.erasesize :=
    Nat.lt_div_mul_add d.erasesize_pos
  have ho := h.here.1
  have hhdr : 0 < fdtHeaderSize := Nat.succ_pos 39
  have hroom := d.room
  constructor
  · intro hparts
    have hinside := hparts.kernel_inside
    have hsmall : o + size < 2 ^ d.sizeBits := by
      dsimp only at hinside
      rw [Device.size] at hinside
      omega
    refine ⟨hsmall, fun t ht => ?_⟩
    rw [Device.trunc, Nat.mod_eq_of_lt hsmall] at hfind hle
    rw [findRootfsFrom_found (by omega) ht] at hfind
    obtain ⟨rfl, rfl⟩ : o + size = r ∧ t = type := by
      cases hfind
      exact ⟨rfl, rfl⟩
    have hdisjoint := hparts.disjoint
    dsimp only at hdisjoint
    omega
  · rintro ⟨hsmall, hno⟩
    rw [Device.trunc, Nat.mod_eq_of_lt hsmall] at hle hdvd
    have hne : r ≠ o + size := by
      rintro rfl
      exact hno type htype
    -- so the rootfs begins at a boundary behind the one that the kernel ends at
    have hend : o + (size / d.erasesize * d.erasesize + d.erasesize) ≤ r := by
      obtain ⟨k, hk⟩ := Nat.dvd_sub (hdvd.resolve_left hne) h.aligned
      have hblocks : size / d.erasesize < k :=
        (Nat.div_lt_iff_lt_mul d.erasesize_pos).mpr (by rw [Nat.mul_comm]; omega)
      have hmul := Nat.mul_le_mul_left d.erasesize hblocks
      rw [← hk, Nat.mul_succ, Nat.mul_comm] at hmul
      omega
    exact ⟨h.here, by dsimp only; omega, by dsimp only; omega, by dsimp only; omega,
      .inl (by dsimp only; omega)⟩

theorem fitParts_noMem (o : Nat) (hdr : Bytes) : ∃ ret, fitParts d e o hdr false = .error ret := by
  rw [fitParts]
  split
  · exact ⟨_, rfl⟩
  · cases d.findRootfsFrom e (d.trunc (o + fdtTotalsize hdr)) with
    | error ret => exact ⟨ret, rfl⟩
    | ok x => exact ⟨_, rfl⟩

theorem LastHeader.unique {o' : Nat} {hdr' : Bytes} (h : LastHeader d a stack o hdr)
    (h' : LastHeader d a stack o' hdr') : o = o' ∧ hdr = hdr' := by
  rcases h with ⟨hend, rfl, rfl⟩ | ⟨p, hp, haligned, hin, hend, rfl, rfl⟩
  · rcases h' with ⟨-, rfl, rfl⟩ | ⟨p, hp, -, hin, -⟩
    · exact ⟨rfl, rfl⟩
    · omega
  · rcases h' with ⟨hend', -⟩ | ⟨q, hq, haligned', hin', hend', rfl, rfl⟩
    · omega
    · rcases Nat.lt_trichotomy p q with hlt | rfl | hlt
      · have := add_le_of_aligned haligned haligned' hlt
        omega
      · exact ⟨rfl, rfl⟩
      · have := add_le_of_aligned haligned' haligned hlt
        omega

theorem LastHeader.aligned (hdvd : d.erasesize ∣ a) (h : LastHeader d a stack o hdr) :
    d.erasesize ∣ o := by
  rcases h with ⟨-, rfl, -⟩ | ⟨p, -, haligned, -, -, rfl, -⟩
  · exact hdvd
  · exact Nat.dvd_add haligned (Nat.dvd_refl _)

theorem fitFits_found (h : FirstFit d o) :
    FitFits d e stack ↔ ∀ size, size = fdtTotalsize (load d.flash o fdtHeaderSize) → size ≠ 0 →
      RootfsFrom d e (d.trunc (o + size)) →
      o + size < 2 ^ d.sizeBits ∧ ∀ type, d.checkRootfsMagic e (o + size) ≠ .ok type := by
  constructor
  · exact fun hfits size => hfits.found o size h
  · intro hfits
    refine ⟨fun o' size h' => ?_, fun o' hdr hnone => absurd h.here (hnone o h.aligned)⟩
    rw [← h.unique h']
    exact hfits size

theorem fitFits_missing (hnone : ∀ p, d.erasesize ∣ p → ¬ FitAt d p)
    (h : LastHeader d 0 stack o hdr) :
    FitFits d e stack ↔
      (fdtTotalsize hdr ≠ 0 → ¬ RootfsFrom d e (d.trunc (o + fdtTotalsize hdr))) := by
  constructor
  · exact fun hfits => hfits.missing o hdr hnone h
  · intro hfits
    refine ⟨fun o' size h' => absurd h'.here (hnone o' h'.aligned), fun o' hdr' _ h' => ?_⟩
    obtain ⟨rfl, rfl⟩ := h.unique h'
    exact hfits

/-- **FIT images.** The partitions are as they should be exactly when the image was found, its end
does not wrap and no rootfs begins right there, or there is no rootfs. -/
theorem mtdsplitFitParse_iff (d : Device) (e : Endian) (stack : Bytes) (kzalloc : Bool) :
    FitSound d (mtdsplitFitParse d e stack kzalloc) ↔ (kzalloc = true → FitFits d e stack) := by
  have hscan := @fitScan_cases d 0 stack (Nat.dvd_zero _) fun p hp => by omega
  rw [mtdsplitFitParse]
  cases kzalloc with
  | false =>
    refine iff_of_true ?_ fun h => by cases h
    rcases hscan with ⟨o, -, heq⟩ | ⟨-, o, last, heq, -⟩
    · obtain ⟨ret, hret⟩ := fitParts_noMem (d := d) (e := e) o (load d.flash o fdtHeaderSize)
      rw [heq]
      dsimp only
      rw [hret]
      exact fitSound_error ret
    · obtain ⟨ret, hret⟩ := fitParts_noMem (d := d) (e := e) o last
      rw [heq]
      dsimp only
      rw [hret]
      exact fitSound_error ret
  | true =>
    rw [imp_iff_right rfl]
    rcases hscan with ⟨o, hfirst, heq⟩ | ⟨hnone, o, last, heq, hlast⟩
    · rw [heq, fitFits_found hfirst]
      dsimp only
      rcases fitParts_cases (d := d) (e := e) o (load d.flash o fdtHeaderSize) with
        ⟨⟨ret, hret⟩, hno⟩ | ⟨r, type, hne, hfind, hparts⟩
      · rw [hret]
        refine iff_of_true (fitSound_error ret) fun size hsize hne hroot => ?_
        subst hsize
        exact absurd hroot (hno hne)
      · rw [hparts, fitSound_ok, fitParts_found hfirst rfl hfind]
        have hroot : RootfsFrom d e
            (d.trunc (o + fdtTotalsize (load d.flash o fdtHeaderSize))) :=
          findRootfsFrom_iff.mp ⟨_, hfind⟩
        constructor
        · rintro hend size rfl - -
          exact hend
        · exact fun hfits => hfits _ rfl hne hroot
    · rw [heq, fitFits_missing hnone hlast]
      dsimp only
      rcases fitParts_cases (d := d) (e := e) o last with
        ⟨⟨ret, hret⟩, hno⟩ | ⟨r, type, hne, hfind, hparts⟩
      · rw [hret]
        exact iff_of_true (fitSound_error ret) hno
      · rw [hparts, fitSound_ok]
        refine iff_of_false (fun hfit => ?_) fun hno => ?_
        · exact hnone o (hlast.aligned (Nat.dvd_zero _)) hfit.magic
        · exact hno hne (findRootfsFrom_iff.mp ⟨_, hfind⟩)

/-- A FIT image of one erase block with a SquashFS in the next. -/
def wholeBlock : Bytes :=
  [0xd0, 0x0d, 0xfe, 0xed, 0x00, 0x00, 0x00, 0x40] ++ List.replicate 56 0 ++
    [0x68, 0x73, 0x71, 0x73] ++ List.replicate 60 0

theorem wholeBlock_room : wholeBlock.length + 64 < 2 ^ 32 := by decide +kernel

def adjacent : Device where
  sizeBits := 32
  flash := wholeBlock
  erasesize := 64
  wide := sizeBits_32
  erasesize_pos := erasesize_pos_64
  room := wholeBlock_room

/-- The kernel partition has the whole rootfs in it. -/
theorem mtdsplitFitParse_adjacent :
    mtdsplitFitParse adjacent .little [] true = .ok (⟨.kernel, 0, 128⟩, ⟨.rootfs, 64, 64⟩) ∧
      ¬ FitSound adjacent (mtdsplitFitParse adjacent .little [] true) := by
  have heq : mtdsplitFitParse adjacent .little [] true =
      .ok (⟨.kernel, 0, 128⟩, ⟨.rootfs, 64, 64⟩) := by
    decide +kernel
  refine ⟨heq, ?_⟩
  rw [heq, fitSound_ok]
  intro h
  exact absurd h.disjoint (by decide)

end

end UolaOs.Mtdsplit
