import UolaOs.Mtdsplit.Device
import UolaOs.Otrx.Agree

/-!
# TRX images

The splitter mtdsplit_trx.c, and what it makes of the images of `otrx create`:

* `trxParts`: the partitions that the offsets of a header describe, whatever they are;
* `TrxFits`: the offsets are in order and inside the device, and no header of the last erase block
  was refused;
* `PointsTo`: the offsets of an image, as the CPU reads them, lead to the bytes of its parts;
* `mtdsplitParseTrx_iff`: when the partitions are as they should be.
-/

namespace UolaOs.Mtdsplit

section
variable (d : Device) (e : Endian)

/-- What the parser uses of `struct trx_header`. -/
structure TrxHdr where
  len : Nat
  offset0 : Nat
  offset1 : Nat
  deriving DecidableEq

/-- `sizeof(struct trx_header)` -/
def trxHeaderSize : Nat := 32

/-- A header with the magic. The offsets are read as they are. -/
def trxHeader (buf : Bytes) : Option (Option TrxHdr) :=
  some (if Endian.little.get (load buf 0 4) ≠ 0x30524448 then none
    else some ⟨Endian.little.get (load buf 4 4), e.get (load buf 16 4), e.get (load buf 20 4)⟩)

/-- The difference of two values of a `size_t`. -/
def diff (a b : Nat) : Nat := d.trunc (a + 2 ^ d.sizeBits - b)

/-- What `mtdsplit_parse_trx` does with the header at an offset. -/
def trxParts (offset : Nat) (hdr : TrxHdr) : Except Int (Part × Part) :=
  let trx_offset := d.trunc (offset + hdr.offset0)
  let rootfs_offset := d.trunc (offset + hdr.offset1)
  let rootfs_size := diff d d.size rootfs_offset
  let trx_size := diff d rootfs_offset trx_offset
  if rootfs_size = 0 then .error (-19)
  else .ok (⟨.kernel, trx_offset, trx_size⟩, ⟨.rootfs, rootfs_offset, rootfs_size⟩)

/-- The search for a TRX header, with what `trx_size` and `hdr` are from. -/
def trxScan : Option (Nat × Option TrxHdr) :=
  d.scan trxHeaderSize (trxHeader e) TrxHdr.len 0 none

/-- `mtdsplit_parse_trx` -/
def mtdsplitParseTrx (kzalloc : Bool) : Option (Except Int (Part × Part)) :=
  if kzalloc = false then some (.error (-12))
  else
    (trxScan d e).map fun r =>
      match r.2 with
      | none => .error (-19)
      | some hdr => if hdr.len = 0 then .error (-19) else trxParts d r.1 hdr

/-! ## Any flash content -/

/-- The header that was found is at an erase block boundary and its image fits, and the partitions
are not empty, apart and inside the device. -/
structure TrxReal (kernel rootfs : Part) : Prop where
  header : ∃ o hdr, trxScan d e = some (o, some hdr) ∧ d.erasesize ∣ o ∧
    Accepted d trxHeaderSize (trxHeader e) o hdr ∧ o + hdr.len ≤ d.size
  kernel_pos : 0 < kernel.size
  rootfs_pos : 0 < rootfs.size
  kernel_inside : kernel.offset + kernel.size ≤ d.size
  rootfs_inside : rootfs.offset + rootfs.size ≤ d.size
  disjoint : kernel.offset + kernel.size ≤ rootfs.offset ∨
    rootfs.offset + rootfs.size ≤ kernel.offset

def TrxSound (result : Option (Except Int (Part × Part))) : Prop :=
  ∀ kernel rootfs, result = some (.ok (kernel, rootfs)) → TrxReal d e kernel rootfs

/-- The header that is taken has a length that does not wrap, and offsets in order and inside the
device unless the second one is its end; and if none is taken, the last erase block has no header
with a length, or one whose second offset gives the end of the device. -/
structure TrxFits : Prop where
  taken : ∀ o hdr, Taken d trxHeaderSize (trxHeader e) TrxHdr.len 0 o hdr → hdr.len ≠ 0 →
    d.trunc (o + hdr.offset1) ≠ d.size →
    o + hdr.len ≤ d.size ∧ d.trunc (o + hdr.offset0) < d.trunc (o + hdr.offset1) ∧
      d.trunc (o + hdr.offset1) < d.size
  rejected : ∀ o hdr, NoneTaken d trxHeaderSize (trxHeader e) TrxHdr.len 0 d.size →
    LastBlock d 0 o → Accepted d trxHeaderSize (trxHeader e) o hdr → hdr.len ≠ 0 →
    d.trunc (o + d.erasesize + hdr.offset1) = d.size

end

section
variable {d : Device} {e : Endian} {o : Nat} {hdr : TrxHdr}

theorem trunc_lt (n : Nat) : d.trunc n < 2 ^ d.sizeBits := Nat.mod_lt _ (Nat.two_pow_pos _)

theorem size_lt : d.size < 2 ^ d.sizeBits := Nat.lt_of_le_of_lt (Nat.le_add_right _ _) d.room

theorem diff_of_le {a b : Nat} (ha : a < 2 ^ d.sizeBits) (h : b ≤ a) : diff d a b = a - b := by
  rw [diff, Nat.sub_add_comm h, Device.trunc, Nat.add_mod_right, Nat.mod_eq_of_lt (by omega)]

theorem diff_of_lt {a b : Nat} (hb : b < 2 ^ d.sizeBits) (h : a < b) :
    diff d a b = a + 2 ^ d.sizeBits - b := Nat.mod_eq_of_lt (by omega)

theorem diff_eq_zero_iff {a b : Nat} (ha : a < 2 ^ d.sizeBits) (hb : b < 2 ^ d.sizeBits) :
    diff d a b = 0 ↔ b = a := by
  rcases Nat.lt_or_ge a b with h | h
  · rw [diff_of_lt hb h]
    omega
  · rw [diff_of_le ha h]
    omega

theorem trxParts_end (h : d.trunc (o + hdr.offset1) = d.size) :
    trxParts d o hdr = .error (-19) := if_pos ((diff_eq_zero_iff size_lt (trunc_lt _)).mpr h)

theorem trxParts_ok (h : d.trunc (o + hdr.offset1) ≠ d.size) :
    trxParts d o hdr = .ok
      (⟨.kernel, d.trunc (o + hdr.offset0),
          diff d (d.trunc (o + hdr.offset1)) (d.trunc (o + hdr.offset0))⟩,
        ⟨.rootfs, d.trunc (o + hdr.offset1), diff d d.size (d.trunc (o + hdr.offset1))⟩) :=
  if_neg fun hzero => h ((diff_eq_zero_iff size_lt (trunc_lt _)).mp hzero)

theorem not_outside_trx (p : Nat) : ¬ Outside d trxHeaderSize (trxHeader e) p := by
  rintro ⟨buf, -, hout⟩
  cases hout

/-- The partitions of offsets are as they should be when these are in order. -/
theorem geometry_iff {k r : Nat} (hk : k < 2 ^ d.sizeBits) (hr : r < 2 ^ d.sizeBits) :
    (0 < diff d r k ∧ 0 < diff d d.size r ∧ k + diff d r k ≤ d.size ∧ r + diff d d.size r ≤ d.size ∧
        (k + diff d r k ≤ r ∨ r + diff d d.size r ≤ k)) ↔ k < r ∧ r < d.size := by
  have hsize := size_lt (d := d)
  rcases Nat.lt_or_ge d.size r with h | h
  · rw [diff_of_lt hr h]
    omega
  · rw [diff_of_le hsize h]
    rcases Nat.lt_or_ge r k with h' | h'
    · rw [diff_of_lt hk h']
      omega
    · rw [diff_of_le hr h']
      omega

theorem trxSound_error (ret : Int) : TrxSound d e (some (.error ret)) := fun _ _ h => by cases h

theorem trxSound_ok {p q : Part} : TrxSound d e (some (.ok (p, q))) ↔ TrxReal d e p q := by
  constructor
  · exact fun h => h p q rfl
  · intro h p' q' heq
    cases heq
    exact h

/-- The partitions of the header that the search ended with. -/
theorem trxParts_sound (hscan : trxScan d e = some (o, some hdr)) :
    TrxSound d e (some (trxParts d o hdr)) ↔
      (d.trunc (o + hdr.offset1) ≠ d.size →
        (d.erasesize ∣ o ∧ Accepted d trxHeaderSize (trxHeader e) o hdr ∧ o + hdr.len ≤ d.size) ∧
          d.trunc (o + hdr.offset0) < d.trunc (o + hdr.offset1) ∧
          d.trunc (o + hdr.offset1) < d.size) := by
  by_cases hend : d.trunc (o + hdr.offset1) = d.size
  · rw [trxParts_end hend]
    exact iff_of_true (trxSound_error _) fun h => absurd hend h
  · rw [trxParts_ok hend, trxSound_ok, imp_iff_right hend]
    have hgeometry := geometry_iff (d :=
        d) (trunc_lt (o + hdr.offset0)) (trunc_lt (o + hdr.offset1))
    constructor
    · intro h
      obtain ⟨o', hdr', hscan', hheader⟩ := h.header
      obtain ⟨rfl, rfl⟩ : o = o' ∧ hdr = hdr' := by
        cases hscan.symm.trans hscan'
        exact ⟨rfl, rfl⟩
      exact ⟨hheader, hgeometry.mp
        ⟨h.kernel_pos, h.rootfs_pos, h.kernel_inside, h.rootfs_inside, h.disjoint⟩⟩
    · rintro ⟨hheader, horder⟩
      obtain ⟨hk, hr, hki, hri, hdisjoint⟩ := hgeometry.mpr horder
      exact ⟨⟨o, hdr, hscan, hheader⟩, hk, hr, hki, hri, hdisjoint⟩

theorem trxFits_taken (h : Taken d trxHeaderSize (trxHeader e) TrxHdr.len 0 o hdr) :
    TrxFits d e ↔ (hdr.len ≠ 0 → d.trunc (o + hdr.offset1) ≠ d.size →
      o + hdr.len ≤ d.size ∧ d.trunc (o + hdr.offset0) < d.trunc (o + hdr.offset1) ∧
        d.trunc (o + hdr.offset1) < d.size) := by
  constructor
  · exact fun hfits => hfits.taken o hdr h
  · intro hfits
    refine ⟨fun o' hdr' h' => ?_, fun _ _ hnone => absurd hnone (h.not_noneTaken h.lt)⟩
    obtain ⟨rfl, rfl⟩ := h.unique h'
    exact hfits

theorem trxFits_exhausted {b : Nat} (hnone : NoneTaken d trxHeaderSize (trxHeader e) TrxHdr.len 0
      d.size) (hb : LastBlock d 0 b) :
    TrxFits d e ↔ ∀ hdr, Accepted d trxHeaderSize (trxHeader e) b hdr → hdr.len ≠ 0 →
      d.trunc (b + d.erasesize + hdr.offset1) = d.size := by
  constructor
  · exact fun hfits hdr => hfits.rejected b hdr hnone hb
  · intro hfits
    refine ⟨fun o hdr h => absurd hnone (h.not_noneTaken h.lt), fun o hdr _ ho => ?_⟩
    rw [hb.unique ho] at hfits
    exact hfits hdr

/-- For any flash content. -/
theorem trxSound_iff (kzalloc : Bool) :
    TrxSound d e (mtdsplitParseTrx d e kzalloc) ↔ (kzalloc = true → TrxFits d e) := by
  rw [mtdsplitParseTrx]
  split
  · rename_i hno
    exact iff_of_true (trxSound_error _) fun hyes => by cases hno.symm.trans hyes
  rename_i hyes
  rw [imp_iff_right (by simpa using hyes)]
  have hend := @scan_end _ d trxHeaderSize (trxHeader e) TrxHdr.len 0 none (Nat.dvd_zero _)
  rw [← trxScan] at hend
  generalize hscan : trxScan d e = r at hend ⊢
  cases hend with
  | @outside o _ _ _ hout _ => exact absurd hout (not_outside_trx o)
  | @taken o hdr htaken _ =>
    rw [trxFits_taken htaken, Option.map_some]
    by_cases hlen : hdr.len = 0
    · dsimp only
      rw [if_pos hlen]
      exact iff_of_true (trxSound_error _) fun h => absurd hlen h
    · dsimp only
      rw [if_neg hlen, imp_iff_right hlen, trxParts_sound hscan]
      apply imp_congr_right
      intro _
      rw [and_iff_right htaken.aligned, and_iff_right htaken.accepted]
  | @exhausted o y ho hnone _ hempty hlast =>
    rw [Option.map_some]
    cases y with
    | none =>
      refine iff_of_true (trxSound_error _) ⟨fun o hdr h => ?_, fun b hdr _ hb hx => ?_⟩
      · exact absurd hnone (h.not_noneTaken h.lt)
      · cases ((hlast b hb).2 hdr).mpr hx
    | some hdr =>
      have hpos : 0 < d.size := by
        by_contra hzero
        cases (hempty (Nat.le_of_not_lt hzero)).2
      obtain ⟨b, hb⟩ := exists_lastBlock hpos
      obtain ⟨rfl, hacc⟩ := hlast b hb
      rw [trxFits_exhausted hnone hb]
      have hone : (∀ x, Accepted d trxHeaderSize (trxHeader e) b x → x.len ≠ 0 →
          d.trunc (b + d.erasesize + x.offset1) = d.size) ↔
            (hdr.len ≠ 0 → d.trunc (b + d.erasesize + hdr.offset1) = d.size) := by
        refine ⟨fun h => h hdr ((hacc hdr).mp rfl), fun h x hx => ?_⟩
        cases (hacc x).mpr hx
        exact h
      rw [hone]
      dsimp only
      by_cases hlen : hdr.len = 0
      · rw [if_pos hlen]
        exact iff_of_true (trxSound_error _) fun h => absurd hlen h
      · rw [if_neg hlen, imp_iff_right hlen, trxParts_sound hscan]
        constructor
        · intro h
          by_contra hne
          obtain ⟨⟨-, ⟨buf, hbuf, -⟩, -⟩, -⟩ := h hne
          rw [Device.read, if_neg (by omega)] at hbuf
          cases hbuf
        · exact fun h hne => absurd h hne

end

/-! ## Images of the tool -/

/-- The image is flashed at an erase block boundary, behind no header. -/
structure Flashed (d : Device) (e : Endian) (pre file post : Bytes) : Prop where
  flash : d.flash = pre ++ (file ++ post)
  aligned : d.erasesize ∣ pre.length
  clear : ∀ p hdr, p < pre.length → d.erasesize ∣ p →
    ¬ Accepted d trxHeaderSize (trxHeader e) p hdr

/-- A partition begins with some bytes. -/
def Begins (d : Device) (part : Part) (bs : Bytes) : Prop :=
  bs.length ≤ part.size ∧ load d.flash part.offset bs.length = bs

/-- There are a kernel partition that begins with the first bytes and a rootfs partition that
begins with the second ones. -/
def StartsRight (d : Device) (result : Option (Except Int (Part × Part))) (b₁ b₂ : Bytes) : Prop :=
  ∃ kernel rootfs, result = some (.ok (kernel, rootfs)) ∧ kernel.name = .kernel ∧
    rootfs.name = .rootfs ∧ Begins d kernel b₁ ∧ Begins d rootfs b₂

/-- The header of an image, as the CPU reads it. -/
def imageHdr (e : Endian) (file : Bytes) : TrxHdr :=
  ⟨Endian.little.get (load file 4 4), e.get (load file 16 4), e.get (load file 20 4)⟩

/-- The image has a length, and the offsets, as they are read, lead to the bytes of the parts. -/
structure PointsTo (d : Device) (o : Nat) (hdr : TrxHdr) (b₁ b₂ : Bytes) : Prop where
  len : hdr.len ≠ 0
  inside : d.trunc (o + hdr.offset1) ≠ d.size
  first : load d.flash (d.trunc (o + hdr.offset0)) b₁.length = b₁
  second : load d.flash (d.trunc (o + hdr.offset1)) b₂.length = b₂
  room₁ : b₁.length ≤ diff d (d.trunc (o + hdr.offset1)) (d.trunc (o + hdr.offset0))
  room₂ : b₂.length ≤ diff d d.size (d.trunc (o + hdr.offset1))

/-- What the tool makes of options whose first two files are these. -/
structure TwoParts (file b₁ b₂ : Bytes) : Prop where
  long : trxHeaderSize ≤ file.length
  magic : Endian.little.get (load file 0 4) = 0x30524448
  length : Endian.little.get (load file 4 4) = file.length % 2 ^ 32
  /-- The bytes of the parts, with the words that tell where they start. -/
  parts : ∃ lead tail₁ tail₂, file = lead ++ (b₁ ++ tail₁ ++ (b₂ ++ tail₂)) ∧ b₂ ++ tail₂ ≠ [] ∧
    Endian.little.get (load file 16 4) = lead.length % 2 ^ 32 ∧
    Endian.little.get (load file 20 4) = (lead.length + (b₁ ++ tail₁).length) % 2 ^ 32

section
variable {d : Device} {e : Endian} {pre file post b₁ b₂ : Bytes} {hdr : TrxHdr} {o : Nat}

theorem get_load_four (m : Bytes) (p : Nat) :
    Endian.little.get (load m p 4) = (word m p).toNat := by
  have hlt : Endian.little.get (load m p 4) < 2 ^ 32 := by
    refine Nat.lt_of_lt_of_le (leNat_lt (load m p 4)) (Nat.pow_le_pow_right (Nat.succ_pos 255) ?_ :
      256 ^ _ ≤ 256 ^ 4)
    exact List.length_take_le _ _
  rw [word, UInt32.toNat_ofNat_of_lt' hlt]

/-- Without bytes there are only empty files. -/
theorem files_empty {files : List Bytes} {ps : List Otrx.Part}
    (h : List.Forall₂ (fun b p => b <+: p.bytes) files ps)
    (hnil : ps.flatMap Otrx.Part.bytes = []) : files.countP (· ≠ []) = 0 := by
  induction h with
  | nil => rfl
  | cons hb _ ih =>
    rw [List.flatMap_cons, List.append_eq_nil_iff] at hnil
    rw [hnil.1, List.prefix_nil] at hb
    rw [List.countP_cons_of_neg (by simpa using hb), ih hnil.2]

theorem header_words {hdr : Otrx.TrxHeader} (hmax : hdr.offset.length = Otrx.trxMaxParts)
    (body : Bytes) :
    Endian.little.get (load (hdr.bytes ++ body) 0 4) = hdr.magic.toNat ∧
      Endian.little.get (load (hdr.bytes ++ body) 4 4) = hdr.length.toNat ∧
      Endian.little.get (load (hdr.bytes ++ body) 16 4) = (hdr.offset.getD 0 0).toNat ∧
      Endian.little.get (load (hdr.bytes ++ body) 20 4) = (hdr.offset.getD 1 0).toNat := by
  have hparse := Otrx.parse_bytes hmax body
  simp only [get_load_four]
  exact ⟨congrArg (fun h => h.magic.toNat) hparse, congrArg (fun h => h.length.toNat) hparse,
    congrArg (fun h => (h.offset.getD 0 0).toNat) hparse,
    congrArg (fun h => (h.offset.getD 1 0).toNat) hparse⟩

theorem twoParts_create {os : List Otrx.Opt} {rest : List Bytes}
    (hcreate : Otrx.otrxCreate os = .ok file)
    (hfiles : os.filterMap Otrx.Opt.part = b₁ :: b₂ :: rest)
    (hne : 2 ≤ (os.filterMap Otrx.Opt.part).countP (· ≠ [])) : TwoParts file b₁ b₂ := by
  obtain ⟨hdr, rfl, hmagic, hlength, hslots, hmax, -⟩ := Otrx.otrxCreate_ok hcreate
  obtain ⟨h0, h4, h16, h20⟩ := header_words hmax (Otrx.content os)
  have hhdr := Otrx.length_bytes hmax
  have hlen : (hdr.bytes ++ Otrx.content os).length =
      Otrx.headerSize + (Otrx.content os).length := by
    rw [List.length_append, hhdr]
  -- the parts of the content begin with the files, one behind the other
  have hprefix := Otrx.layout_files Otrx.headerSize os
  have hcons := Otrx.layout_consecutive Otrx.headerSize os
  rw [hfiles] at hprefix hne
  rw [hslots, Otrx.getD_slots, List.getElem?_map, Otrx.parts] at h16 h20
  generalize hlayout : Otrx.layout Otrx.headerSize os = r at hprefix hcons h16 h20
  obtain ⟨lead, ps⟩ := r
  have hcontent : Otrx.content os = lead ++ ps.flatMap Otrx.Part.bytes := by
    rw [Otrx.content, hlayout]
  cases hprefix with
  | @cons _ p₁ _ _ hb₁ hprefix =>
  cases hprefix with
  | @cons _ p₂ _ ps hb₂ hprefix =>
  obtain ⟨tail₁, h₁⟩ := hb₁
  obtain ⟨tail₂, h₂⟩ := hb₂
  obtain ⟨hoff₁, hoff₂, -⟩ := hcons
  have hlead : (hdr.bytes ++ lead).length = p₁.offset := by
    rw [List.length_append, hhdr]
    exact hoff₁.symm
  refine ⟨?_, by rw [h0, hmagic]; rfl, ?_, hdr.bytes ++ lead, tail₁,
    tail₂ ++ ps.flatMap Otrx.Part.bytes, ?_, ?_, ?_, ?_⟩
  · have hpages := Otrx.pages_layout Otrx.headerSize os
    rw [← Otrx.content] at hpages
    have := Nat.le_of_dvd (Nat.add_pos_left (by decide) _) hpages
    rw [hlen, trxHeaderSize]
    omega
  · rw [h4, hlength, hlen]
    exact UInt32.toNat_ofNat
  · rw [hcontent, List.flatMap_cons, List.flatMap_cons, h₁, ← h₂]
    simp only [List.append_assoc]
  · intro hnil
    rw [← List.append_assoc, List.append_eq_nil_iff, List.append_eq_nil_iff] at hnil
    obtain ⟨⟨hb, -⟩, hps⟩ := hnil
    rw [List.countP_cons, List.countP_cons_of_neg (by simpa using hb),
      files_empty hprefix hps] at hne
    split at hne <;> omega
  · rw [h16, hlead]
    exact UInt32.toNat_ofNat
  · rw [h20, hlead, h₁, hoff₁, ← hoff₂]
    exact UInt32.toNat_ofNat

theorem load_flashed (h : Flashed d e pre file post) {i n : Nat} (hin : i + n ≤ file.length) :
    load d.flash (pre.length + i) n = load file i n := by
  rw [h.flash, load, ← List.drop_drop, List.drop_left,
    List.drop_append_of_le_length (Nat.le_of_add_right_le hin), List.take_append_of_le_length]
  · rfl
  · rw [List.length_drop]
    omega

theorem size_flashed (h : Flashed d e pre file post) :
    pre.length + file.length ≤ d.size := by
  rw [Device.size, h.flash, List.length_append, List.length_append]
  omega

theorem trunc_of_le {n : Nat} (h : n ≤ d.size) : d.trunc n = n :=
  Nat.mod_eq_of_lt (Nat.lt_of_le_of_lt h size_lt)

/-- The search takes the header of the image. -/
theorem taken_flashed (h : Flashed d e pre file post) (htwo : TwoParts file b₁ b₂) :
    Taken d trxHeaderSize (trxHeader e) TrxHdr.len 0 pre.length (imageHdr e file) := by
  have hsize := size_flashed h
  have hlong := htwo.long
  have hpart (i : Nat) (hi : i + 4 ≤ trxHeaderSize) :
      load (load d.flash pre.length trxHeaderSize) i 4 = load file i 4 := by
    rw [load_load hi, load_flashed h (by omega)]
  refine ⟨Nat.zero_le _, ?_, h.aligned, ⟨load d.flash pre.length trxHeaderSize, ?_, ?_⟩, ?_, ?_⟩
  · have : 0 < trxHeaderSize := by decide
    omega
  · have : 0 < trxHeaderSize := by decide
    rw [Device.read, if_pos (by omega)]
  · rw [trxHeader, hpart 0 (by decide), hpart 4 (by decide), hpart 16 (by decide),
      hpart 20 (by decide), if_neg (not_not.mpr htwo.magic), imageHdr]
  · have hle : (imageHdr e file).len ≤ file.length := htwo.length.trans_le (Nat.mod_le _ _)
    rw [trunc_of_le (by omega)]
    omega
  · intro p _ hp hdvd x hx
    exact absurd hx (h.clear p x hp hdvd)

theorem trxScan_taken (h : Taken d trxHeaderSize (trxHeader e) TrxHdr.len 0 o hdr) :
    trxScan d e = some (o, some hdr) := by
  have hend := @scan_end _ d trxHeaderSize (trxHeader e) TrxHdr.len 0 none (Nat.dvd_zero _)
  rw [← trxScan] at hend
  generalize trxScan d e = r at hend ⊢
  cases hend with
  | @outside o _ _ _ hout _ => exact absurd hout (not_outside_trx o)
  | taken h' _ =>
    obtain ⟨rfl, rfl⟩ := h.unique h'
    rfl
  | exhausted _ hnone _ _ _ => exact absurd hnone (h.not_noneTaken h.lt)

theorem not_startsRight_error (ret : Int) : ¬ StartsRight d (some (.error ret)) b₁ b₂ := by
  rintro ⟨kernel, rootfs, heq, -⟩
  cases heq

theorem startsRight_iff (h : Taken d trxHeaderSize (trxHeader e) TrxHdr.len 0 o hdr) :
    StartsRight d (mtdsplitParseTrx d e true) b₁ b₂ ↔ PointsTo d o hdr b₁ b₂ := by
  rw [mtdsplitParseTrx, if_neg (by decide), trxScan_taken h, Option.map_some]
  dsimp only
  split
  · rename_i hzero
    exact iff_of_false (not_startsRight_error _) fun hto => hto.len hzero
  rename_i hlen
  by_cases hend : d.trunc (o + hdr.offset1) = d.size
  · rw [trxParts_end hend]
    exact iff_of_false (not_startsRight_error _) fun hto => hto.inside hend
  · rw [trxParts_ok hend]
    constructor
    · rintro ⟨kernel, rootfs, heq, -, -, hfirst, hsecond⟩
      cases heq
      exact ⟨hlen, hend, hfirst.2, hsecond.2, hfirst.1, hsecond.1⟩
    · intro hto
      exact ⟨_, _, rfl, rfl, rfl, ⟨hto.room₁, hto.first⟩, ⟨hto.room₂, hto.second⟩⟩

/-- On a little-endian CPU the offsets of an image below 4 GiB are read as they were written. -/
theorem pointsTo_little (h : Flashed d .little pre file post) (htwo : TwoParts file b₁ b₂)
    (hlt : file.length < 2 ^ 32) : PointsTo d pre.length (imageHdr .little file) b₁ b₂ := by
  have hsize := size_flashed h
  have hlong := htwo.long
  have hpos : 0 < trxHeaderSize := by decide
  obtain ⟨lead, tail₁, tail₂, hfile, hne, h16, h20⟩ := htwo.parts
  have hlength := congrArg List.length hfile
  have htail := List.length_pos_iff.mpr hne
  simp only [List.length_append] at hlength htail h20
  rw [Nat.mod_eq_of_lt (by omega)] at h16 h20
  have hfirst : load file lead.length b₁.length = b₁ := by
    rw [hfile, load_append_right rfl, List.append_assoc, List.take_left]
  have hsecond : load file (lead.length + (b₁.length + tail₁.length)) b₂.length = b₂ := by
    rw [hfile, ← List.append_assoc, load_append_right (by simp only [List.length_append]),
      List.take_left]
  have hlen : (imageHdr .little file).len = file.length :=
    htwo.length.trans (Nat.mod_eq_of_lt hlt)
  have hoff₁ : (imageHdr .little file).offset0 = lead.length := h16
  have hoff₂ : (imageHdr .little file).offset1 =
      lead.length + (b₁.length + tail₁.length) := h20
  have h₁ : d.trunc (pre.length + (imageHdr .little file).offset0) = pre.length + lead.length := by
    rw [hoff₁, trunc_of_le (by omega)]
  have h₂ : d.trunc (pre.length + (imageHdr .little file).offset1) =
      pre.length + (lead.length + (b₁.length + tail₁.length)) := by
    rw [hoff₂, trunc_of_le (by omega)]
  have hbound : pre.length + (lead.length + (b₁.length + tail₁.length)) < 2 ^ d.sizeBits :=
    Nat.lt_of_le_of_lt (by omega) size_lt
  refine ⟨?_, ?_, ?_, ?_, ?_, ?_⟩
  · rw [hlen]
    omega
  · rw [h₂]
    omega
  · rw [h₁, load_flashed h (by omega), hfirst]
  · rw [h₂, load_flashed h (by omega), hsecond]
  · rw [h₁, h₂, diff_of_le hbound (by omega)]
    omega
  · rw [h₂, diff_of_le size_lt (by omega)]
    omega

/-- **TRX images.** The partitions are as they should be exactly when the offsets of the headers
are in order and no header of the last erase block was refused; and those of an image of the tool
begin with its parts when its offsets are read as they were written. -/
theorem mtdsplitParseTrx_iff (d : Device) (e : Endian) (kzalloc : Bool) :
    (TrxSound d e (mtdsplitParseTrx d e kzalloc) ↔ (kzalloc = true → TrxFits d e)) ∧
      ∀ os file pre post b₁ b₂ rest, Otrx.otrxCreate os = .ok file →
        os.filterMap Otrx.Opt.part = b₁ :: b₂ :: rest →
        2 ≤ (os.filterMap Otrx.Opt.part).countP (· ≠ []) → Flashed d e pre file post →
        (StartsRight d (mtdsplitParseTrx d e true) b₁ b₂ ↔
          PointsTo d pre.length (imageHdr e file) b₁ b₂) ∧
        (e = .little → file.length < 2 ^ 32 → PointsTo d pre.length (imageHdr e file) b₁ b₂) := by
  refine ⟨trxSound_iff kzalloc, ?_⟩
  intro os file pre post b₁ b₂ rest hcreate hfiles hne hflashed
  have htwo := twoParts_create hcreate hfiles hne
  refine ⟨startsRight_iff (taken_flashed hflashed htwo), ?_⟩
  rintro rfl hlt
  exact pointsTo_little hflashed htwo hlt

/-- An image of two parts. -/
def trxImage : Bytes := (Otrx.otrxCreate Otrx.twoParts).toOption.getD []

theorem trxImage_create : Otrx.otrxCreate Otrx.twoParts = .ok trxImage := by
  obtain ⟨hdr, hcreate, -⟩ := @Otrx.otrxCreate_eq Otrx.twoParts (by decide) (by decide +kernel)
  rw [trxImage, hcreate]
  rfl

theorem trxImage_room : trxImage.length + 4096 < 2 ^ 32 := by decide +kernel

def imageDevice : Device where
  sizeBits := 32
  flash := trxImage
  erasesize := 4096
  wide := sizeBits_32
  erasesize_pos := erasesize_pos_4096
  room := trxImage_room

theorem flashed_imageDevice (e : Endian) : Flashed imageDevice e [] trxImage [] where
  flash := (List.append_nil _).symm
  aligned := Nat.dvd_zero _
  clear := fun _ _ hp => absurd hp (Nat.not_lt_zero _)

theorem mtdsplitParseTrx_imageDevice :
    StartsRight imageDevice (mtdsplitParseTrx imageDevice .little true) [1, 2, 3, 4, 5] [7] := by
  obtain ⟨hiff, hlittle⟩ := (mtdsplitParseTrx_iff imageDevice .little true).2 Otrx.twoParts trxImage
    [] [] [1, 2, 3, 4, 5] [7] [] trxImage_create rfl (by decide) (flashed_imageDevice .little)
  exact hiff.mpr (hlittle rfl (Nat.lt_of_le_of_lt (Nat.le_add_right _ _) trxImage_room))

/-- A header that declares more than there is, in the only erase block. -/
def longTrx : Bytes :=
  [0x48, 0x44, 0x52, 0x30, 0x00, 0x10] ++ List.replicate 10 0 ++
    [28, 0, 0, 0, 64, 0, 0, 0] ++ List.replicate 8 0

theorem longTrx_room : longTrx.length + 32 < 2 ^ 32 := by decide

def longTrxDevice : Device where
  sizeBits := 32
  flash := longTrx
  erasesize := 32
  wide := sizeBits_32
  erasesize_pos := erasesize_pos_32
  room := longTrx_room

/-- Its partitions are behind the end of the device; and on a big-endian CPU so are those of an image
of the tool. -/
theorem mtdsplitParseTrx_longTrx :
    mtdsplitParseTrx longTrxDevice .little true =
        some (.ok (⟨.kernel, 60, 36⟩, ⟨.rootfs, 96, 2 ^ 32 - 64⟩)) ∧
      longTrxDevice.size = 32 ∧
      ¬ TrxSound longTrxDevice .little (mtdsplitParseTrx longTrxDevice .little true) ∧
      mtdsplitParseTrx imageDevice .big true =
        some (.ok (⟨.kernel, 0x1c000000, 0x18000000⟩, ⟨.rootfs, 0x34000000, 0xcc001000⟩)) ∧
      ¬ StartsRight imageDevice (mtdsplitParseTrx imageDevice .big true) [1, 2, 3, 4, 5] [7] := by
  have hlong : mtdsplitParseTrx longTrxDevice .little true =
      some (.ok (⟨.kernel, 60, 36⟩, ⟨.rootfs, 96, 2 ^ 32 - 64⟩)) := by
    decide +kernel
  have himage : mtdsplitParseTrx imageDevice .big true =
      some (.ok (⟨.kernel, 0x1c000000, 0x18000000⟩, ⟨.rootfs, 0x34000000, 0xcc001000⟩)) := by
    decide +kernel
  refine ⟨hlong, rfl, ?_, himage, ?_⟩
  · rw [hlong, trxSound_ok]
    exact fun hreal => absurd hreal.kernel_inside (by decide)
  · rw [himage]
    rintro ⟨kernel, rootfs, heq, -, -, hfirst, -⟩
    cases heq
    exact absurd hfirst.2 (by decide +kernel)

end

end UolaOs.Mtdsplit
