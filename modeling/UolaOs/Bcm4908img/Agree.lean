import UolaOs.Bcm4908img.Img

/-!
# What is created and what is accepted

* `bcm4908imgCreate_eq`: the file has all the data, and a CRC that leaves the padding out;
* `bcm4908imgParse_eq`: the parser on data that is laid out as an image;
* `agrees_iff`: when the two agree.
-/

namespace UolaOs.Bcm4908img

/-! ## What the options describe -/

/-- The bytes that an option appends at the offset `c`. -/
def Opt.bytes (c : Nat) : Opt → Bytes
  | .f file => file.getD []
  | .a alignment => List.replicate (alignLength c alignment) 0
  | .A offset => List.replicate (offset - c).toNat 0

/-- All the data behind the offset `c`. -/
def appended (c : Nat) : List Opt → Bytes
  | [] => []
  | o :: os => o.bytes c ++ appended (c + (o.bytes c).length) os

theorem appended_append (c : Nat) (os os' : List Opt) :
    appended c (os ++ os') = appended c os ++ appended (c + (appended c os).length) os' := by
  induction os generalizing c with
  | nil => rfl
  | cons o os ih =>
    rw [List.cons_append, appended, ih, appended, List.append_assoc, List.length_append,
      Nat.add_assoc]

/-- The files in the order of their options. -/
def listed : List Opt → List (Option Bytes)
  | [] => []
  | .f file :: os => file :: listed os
  | _ :: os => listed os

/-- The data without the padding. -/
def fileData (os : List Opt) : Bytes := (listed os).flatMap fun file => file.getD []

/-- The tail that is written. -/
def createdTail (os : List Opt) : Tail :=
  ⟨crc32 0xffffffff (fileData os), wfiVersion, 0x4908, wfiNand128Flash, wfiFlagSupportsBtrm⟩

section
variable {s : Builder} {data files : Bytes}

structure AtEnd (s : Builder) (data files : Bytes) : Prop where
  fp : s.fp.Behind 0 data
  crc32 : s.crc32 = crc32 0xffffffff files
  curOffset : s.curOffset = data.length

theorem AtEnd.start : AtEnd Builder.start [] [] := ⟨.inr ⟨rfl, rfl⟩, rfl, rfl⟩

theorem AtEnd.appendFile (h : AtEnd s data files) (file : Option Bytes) :
    AtEnd (s.appendFile file) (data ++ file.getD []) (files ++ file.getD []) := by
  cases file with
  | none =>
    simp only [Option.getD_none, List.append_nil]
    exact h
  | some bs =>
    -- each chunk is written and goes into the CRC
    have hstep (s : Builder) (a b : Bytes) (hs : AtEnd s (data ++ a) (files ++ a)) :
        AtEnd (s.appendChunk b) (data ++ (a ++ b)) (files ++ (a ++ b)) := by
      rw [← List.append_assoc, ← List.append_assoc]
      refine ⟨hs.fp.write b, ?_, ?_⟩
      · rw [crc32_append, ← hs.crc32]
        rfl
      · rw [List.length_append, ← hs.curOffset]
        rfl
    have h0 : AtEnd s (data ++ []) (files ++ []) := by rwa [List.append_nil, List.append_nil]
    exact copyChunks_append (P := fun s a => AtEnd s (data ++ a) (files ++ a)) (by decide) hstep h0
      bs

theorem AtEnd.appendZeros (h : AtEnd s data files) (length : Nat) :
    AtEnd (s.appendZeros length) (data ++ List.replicate length 0) files := by
  refine ⟨h.fp.write _, h.crc32, ?_⟩
  rw [List.length_append, List.length_replicate, ← h.curOffset]
  rfl

theorem foldl_spec (h : AtEnd s data files) (os : List Opt) :
    AtEnd (os.foldl Builder.opt s) (data ++ appended data.length os) (files ++ fileData os) := by
  induction os generalizing s data files with
  | nil =>
    rw [appended, fileData, listed, List.flatMap_nil, List.append_nil, List.append_nil]
    exact h
  | cons o os ih =>
    rw [List.foldl_cons]
    cases o with
    | f file =>
      have hrest := ih (h.appendFile file)
      rw [List.length_append, List.append_assoc, List.append_assoc] at hrest
      exact hrest
    | a alignment =>
      have hrest := ih (h.appendZeros (alignLength data.length alignment))
      rw [List.length_append, List.append_assoc] at hrest
      rw [Builder.opt, h.curOffset]
      exact hrest
    | A offset =>
      by_cases hneg : offset - (s.curOffset : Int) < 0
      · have hnone : (offset - (data.length : Int)).toNat = 0 := by
          rw [← h.curOffset]
          omega
        have hrest := ih h
        rw [Builder.opt, if_pos hneg, appended, Opt.bytes, hnone, List.replicate_zero]
        exact hrest
      · have hrest := ih (h.appendZeros (offset - (data.length : Int)).toNat)
        rw [List.length_append, List.append_assoc] at hrest
        rw [Builder.opt, if_neg hneg, h.curOffset]
        exact hrest

theorem bcm4908imgCreate_eq (os : List Opt) :
    bcm4908imgCreate os = appended 0 os ++ (createdTail os).bytes := by
  have hend := foldl_spec AtEnd.start os
  rw [List.nil_append, List.nil_append, List.length_nil] at hend
  unfold bcm4908imgCreate
  dsimp only
  rw [hend.crc32, ← createdTail]
  rcases hend.fp.write (createdTail os).bytes with hfp | ⟨hnil, -⟩
  · rw [hfp]
    exact List.nil_append _
  · have hlen := congrArg List.length hnil
    simp only [Tail.bytes, List.length_append, Endian.length_put, List.length_nil] at hlen
    omega

end

/-! ## Files in order -/

/-- The pieces are in `m`, one behind the other. -/
def InOrder : List Bytes → Bytes → Prop
  | [], _ => True
  | c :: cs, m => ∃ gap rest, m = gap ++ (c ++ rest) ∧ InOrder cs rest

theorem InOrder.prepend {cs : List Bytes} {m : Bytes} (h : InOrder cs m) (a : Bytes) :
    InOrder cs (a ++ m) := by
  cases cs with
  | nil => trivial
  | cons c cs =>
    obtain ⟨gap, rest, rfl, hrest⟩ := h
    exact ⟨a ++ gap, rest, by rw [List.append_assoc], hrest⟩

theorem InOrder.append {cs : List Bytes} {m : Bytes} (h : InOrder cs m) (b : Bytes) :
    InOrder cs (m ++ b) := by
  induction cs generalizing m with
  | nil => trivial
  | cons c cs ih =>
    obtain ⟨gap, rest, rfl, hrest⟩ := h
    exact ⟨gap, rest ++ b, by simp only [List.append_assoc], ih hrest⟩

theorem inOrder_appended {os : List Opt} {contents : List Bytes}
    (h : listed os = contents.map some) (c : Nat) : InOrder contents (appended c os) := by
  induction os generalizing contents c with
  | nil =>
    have hnil : contents = [] := List.map_eq_nil_iff.mp h.symm
    rw [hnil]
    trivial
  | cons o os ih =>
    cases o with
    | f file =>
      cases contents with
      | nil => cases h
      | cons content contents =>
        obtain ⟨rfl, hrest⟩ := List.cons_eq_cons.mp h
        exact ⟨[], _, rfl, ih hrest _⟩
    | a alignment => exact (ih h _).prepend _
    | A offset => exact (ih h _).prepend _

/-! ## Parsing -/

/-- The first bytes of a bootfs: the JFFS2 magic. -/
def bootfsMagic : Bytes := [0x85, 0x19]

/-- The first bytes of a rootfs: the UBI magic. -/
def rootfsMagic : Bytes := [0x55, 0x42, 0x49, 0x23]

/-- Data with the parts of an image, and with nothing that could be taken for one of them before
it. -/
structure Layout (data cferom bootfs rootfs : Bytes) : Prop where
  data_eq : data = cferom ++ (bootfs ++ rootfs)
  cferom_dvd : blockSize ∣ cferom.length
  bootfs_dvd : blockSize ∣ (cferom ++ bootfs).length
  bootfs_magic : bootfs.take 2 = bootfsMagic
  rootfs_magic : rootfs.take 4 = rootfsMagic
  before_bootfs : ∀ off < cferom.length, blockSize ∣ off → load data off 2 ≠ bootfsMagic
  before_rootfs : ∀ off < (cferom ++ bootfs).length, cferom.length ≤ off → blockSize ∣ off →
    load data off 4 ≠ rootfsMagic ∧ isAllFf (load data off 256) = false
  no_header : load data 0 4 ≠ Endian.big.put 4 chkMagic
  no_tail : load data (data.length + tailSize - linksysTailSize) 9 ≠ linksysMagic

section
variable {m : Bytes} {tail target : Nat}

theorem blocks_le {offset : Nat} (hoff : blockSize ∣ offset) (ht : blockSize ∣ target)
    (hlt : offset < target) : offset + blockSize ≤ target := by
  obtain ⟨i, rfl⟩ := hoff
  obtain ⟨j, rfl⟩ := ht
  have hij : i + 1 ≤ j := Nat.lt_of_mul_lt_mul_left hlt
  rw [← Nat.mul_add_one]
  exact Nat.mul_le_mul_left _ hij

theorem findBootfs_eq (htail : target < tail) (hm : target + 2 ≤ m.length)
    (ht : blockSize ∣ target) (hfound : load m target 2 = bootfsMagic) {fuel offset : Nat}
    (hbefore : ∀ off < target, offset ≤ off → blockSize ∣ off → load m off 2 ≠ bootfsMagic)
    (hoff : blockSize ∣ offset) (hle : offset ≤ target) (hfuel : target - offset < fuel) :
    findBootfs m tail fuel offset = .ok target := by
  have hmagic {off : Nat} (h : off + 2 ≤ m.length) :
      Endian.big.get (load m off 2) = 0x8519 ↔ load m off 2 = bootfsMagic :=
    Endian.big.get_eq_iff (length_load h) (by decide)
  induction fuel generalizing offset with
  | zero => omega
  | succ fuel ih =>
    rw [findBootfs, if_neg (by omega)]
    dsimp only
    rw [if_neg (not_not.mpr (length_load (by omega)))]
    rcases Nat.eq_or_lt_of_le hle with rfl | hlt
    · rw [if_pos ((hmagic hm).mpr hfound)]
    · have hnext := blocks_le hoff ht hlt
      rw [if_neg fun h => hbefore offset hlt (Nat.le_refl _) hoff ((hmagic (by omega)).mp h)]
      have hpos : 0 < blockSize := by decide
      exact ih (fun off h₁ h₂ => hbefore off h₁ (by omega)) (Nat.dvd_add hoff (Nat.dvd_refl _))
        hnext (by omega)

theorem isAllFf_rootfs {buf : Bytes} (h : load buf 0 4 = rootfsMagic) : isAllFf buf = false := by
  apply Bool.eq_false_iff.mpr
  intro hall
  have hmem : 0x55 ∈ load buf 0 4 := by
    rw [h]
    decide
  have hff := List.all_eq_true.mp hall 0x55 (List.mem_of_mem_drop (List.mem_of_mem_take hmem))
  exact absurd hff (by decide)

/-- The last block must have 256 bytes as well. -/
theorem findRootfs_eq (htail : target < tail) (hm : target + 4 ≤ m.length)
    (ht : blockSize ∣ target) (hfound : load m target 4 = rootfsMagic) {fuel offset : Nat}
    (hbefore : ∀ off < target, offset ≤ off → blockSize ∣ off →
      load m off 4 ≠ rootfsMagic ∧ isAllFf (load m off 256) = false)
    (hoff : blockSize ∣ offset) (hle : offset ≤ target) (hfuel : target - offset < fuel) :
    findRootfs m tail fuel 0 offset =
      if target + 256 ≤ m.length then .ok (0, target) else .error .eio := by
  have hmagic {off : Nat} (h : off + 4 ≤ m.length) :
      Endian.big.get (load m off 4) = ubiEcHdrMagic ↔ load m off 4 = rootfsMagic :=
    Endian.big.get_eq_iff (length_load h) (by decide)
  have hnone : ¬ ((0 : Nat) = 0 ∧ false = true) := by decide
  induction fuel generalizing offset with
  | zero => omega
  | succ fuel ih =>
    rw [findRootfs, if_neg (by omega)]
    dsimp only
    rw [if_neg (not_not.mpr rfl), load_front (by decide)]
    rcases Nat.eq_or_lt_of_le hle with rfl | hlt
    · by_cases h256 : offset + 256 ≤ m.length
      · have hff : isAllFf (load m offset 256) = false :=
          isAllFf_rootfs ((load_front (by decide)).trans hfound)
        rw [if_neg (not_not.mpr (length_load h256)), if_pos ((hmagic hm).mpr hfound), hff,
          if_neg hnone, if_pos h256]
      · rw [if_pos, if_neg h256]
        rw [load, List.length_take, List.length_drop]
        omega
    · have hnext := blocks_le hoff ht hlt
      have hblock : 256 ≤ blockSize := by decide
      obtain ⟨hno, hff⟩ := hbefore offset hlt (Nat.le_refl _) hoff
      rw [if_neg (not_not.mpr (length_load (by omega))), hff, if_neg hnone,
        if_neg fun h => hno ((hmagic (by omega)).mp h)]
      exact ih (fun off h₁ h₂ => hbefore off h₁ (by omega)) (Nat.dvd_add hoff (Nat.dvd_refl _))
        hnext (by omega)

end

theorem length_tail_bytes (t : Tail) : t.bytes.length = tailSize := by
  simp only [Tail.bytes, List.length_append, Endian.length_put]
  rfl

theorem parse_tail (t : Tail) : Tail.parse t.bytes = t := by
  generalize hm : t.bytes = m
  rw [Tail.bytes] at hm
  obtain ⟨h0, hm⟩ := word_next (p := 0) hm.symm
  obtain ⟨h4, hm⟩ := word_next hm
  obtain ⟨h8, hm⟩ := word_next hm
  obtain ⟨h12, hm⟩ := word_next hm
  obtain ⟨h16, -⟩ := word_next (hm.trans (List.append_nil _).symm)
  rw [Tail.parse, h0, h4, h8, h12, h16]

section
variable {data cferom bootfs rootfs : Bytes} {t : Tail}

theorem load_data {off n : Nat} (h : off + n ≤ data.length) (b : Bytes) :
    load (data ++ b) off n = load data off n :=
  load_eq_of_take (List.take_append_of_le_length h)

/-- The offsets of an image. -/
theorem Layout.lengths (h : Layout data cferom bootfs rootfs) :
    data.length = (cferom ++ bootfs).length + rootfs.length ∧ 4 ≤ rootfs.length ∧
      cferom.length + blockSize ≤ (cferom ++ bootfs).length ∧ 2 ≤ bootfs.length := by
  have hr : min 4 rootfs.length = 4 := by
    rw [← List.length_take, h.rootfs_magic]
    rfl
  have hb : min 2 bootfs.length = 2 := by
    rw [← List.length_take, h.bootfs_magic]
    rfl
  refine ⟨?_, by omega, blocks_le h.cferom_dvd h.bootfs_dvd ?_, by omega⟩
  · rw [h.data_eq, ← List.append_assoc, List.length_append]
  · rw [List.length_append]
    omega

/-- The parser on an image, with a vendor tail or nothing behind it. -/
theorem parse_layout (h : Layout data cferom bootfs rootfs) {v : Bytes}
    (htail : tailOffset (data ++ (t.bytes ++ v)) = data.length) :
    bcm4908imgParse (data ++ (t.bytes ++ v)) =
      if 236 ≤ rootfs.length + v.length then
        if crc32 0xffffffff data = t.crc32 then
          .ok ⟨0, cferom.length, 0, (cferom ++ bootfs).length, data.length, t.crc32, t⟩
        else .error .eproto
      else .error .eio := by
  obtain ⟨hdata, hroot, hblock, hboot⟩ := h.lengths
  have hsize : blockSize = 0x20000 := rfl
  have hlen : (data ++ (t.bytes ++ v)).length = data.length + (tailSize + v.length) := by
    rw [List.length_append, List.length_append, length_tail_bytes]
  have h20 : tailSize = 20 := rfl
  have hcferom : cferomOffset (data ++ (t.bytes ++ v)) = 0 := by
    rw [cferomOffset, load_data (by omega), if_neg]
    rw [Endian.big.get_eq_iff (length_load (by omega)) (by decide)]
    exact h.no_header
  have hload_boot : load (data ++ (t.bytes ++ v)) cferom.length 2 = bootfsMagic := by
    rw [load_data (by omega), h.data_eq, load_append_right rfl,
      List.take_append_of_le_length hboot, h.bootfs_magic]
  have hload_root : load (data ++ (t.bytes ++ v)) (cferom ++ bootfs).length 4 = rootfsMagic := by
    rw [load_data (by omega), h.data_eq, ← List.append_assoc, load_append_right rfl,
      h.rootfs_magic]
  have hboot_found : findBootfs (data ++ (t.bytes ++ v)) data.length data.length 0 =
      .ok cferom.length := by
    refine findBootfs_eq (by omega) (by omega) h.cferom_dvd hload_boot ?_ (Nat.dvd_zero _)
      (Nat.zero_le _) (by omega)
    intro off hlt _ hdvd
    rw [load_data (by omega)]
    exact h.before_bootfs off hlt hdvd
  have hroot_found :
      findRootfs (data ++ (t.bytes ++ v)) data.length data.length 0 cferom.length =
        if 236 ≤ rootfs.length + v.length then .ok (0, (cferom ++ bootfs).length)
        else .error .eio := by
    have hroom : (cferom ++ bootfs).length + 256 ≤ (data ++ (t.bytes ++ v)).length ↔
        236 ≤ rootfs.length + v.length := by omega
    rw [findRootfs_eq (by omega) (by omega) h.bootfs_dvd hload_root ?_ h.cferom_dvd (by omega)
      (by omega)]
    · simp only [hroom]
    · intro off hlt hle hdvd
      have hnext := blocks_le hdvd h.bootfs_dvd hlt
      rw [load_data (by omega), load_data (by omega)]
      exact h.before_rootfs off hlt hle hdvd
  rw [bcm4908imgParse, if_neg (by omega), hcferom, htail, hboot_found]
  show (findRootfs _ _ _ _ _).bind _ = _
  rw [hroot_found]
  by_cases h236 : 236 ≤ rootfs.length + v.length
  · rw [if_pos h236, if_pos h236]
    have hall : load (data ++ (t.bytes ++ v)) 0 data.length = data := load_zero _ _
    have hlast : load (data ++ (t.bytes ++ v)) data.length tailSize = t.bytes := by
      rw [load_append_right rfl, ← length_tail_bytes t, List.take_left]
    show checkTail _ _ _ _ _ _ = _
    rw [checkTail, Nat.sub_zero, hall, hlast]
    dsimp only
    rw [Nat.sub_self, if_neg (not_not.mpr rfl), if_neg (not_not.mpr (length_tail_bytes t)),
      copyChunks_crc32 (by decide), parse_tail]
    by_cases hcrc : crc32 0xffffffff data = t.crc32
    · rw [if_pos hcrc, if_neg (not_not.mpr hcrc), hcrc]
    · rw [if_neg hcrc, if_pos hcrc]
  · rw [if_neg h236, if_neg h236]
    rfl

/-- The parser on an image without a vendor tail. -/
theorem bcm4908imgParse_eq (h : Layout data cferom bootfs rootfs) :
    bcm4908imgParse (data ++ t.bytes) =
      if 236 ≤ rootfs.length then
        if crc32 0xffffffff data = t.crc32 then
          .ok ⟨0, cferom.length, 0, (cferom ++ bootfs).length, data.length, t.crc32, t⟩
        else .error .eproto
      else .error .eio := by
  obtain ⟨hdata, hroot, hblock, hboot⟩ := h.lengths
  have htail : tailOffset (data ++ (t.bytes ++ [])) = data.length := by
    have hsize : blockSize = 0x20000 := rfl
    have h20 : tailSize = 20 := rfl
    have h256 : linksysTailSize = 256 := rfl
    have hlen : (data ++ t.bytes).length = data.length + tailSize := by
      rw [List.length_append, length_tail_bytes]
    rw [List.append_nil, tailOffset, hlen, load_data (by omega), if_neg h.no_tail,
      Nat.add_sub_cancel]
  have hparse := parse_layout h htail
  rwa [List.append_nil, List.length_nil, Nat.add_zero] at hparse

theorem copyOut_eq {m : Bytes} {info : Info} {part : Part} {pre bs rest : Bytes}
    (hm : m = pre ++ (bs ++ rest)) (hrange : info.range part = (pre.length, bs.length))
    (hne : bs ≠ []) : copyOut m info (some part) = .ok bs := by
  have hload : load m pre.length bs.length = bs := by
    rw [hm, load_append_right rfl, List.take_left]
  have hpos := List.length_pos_of_ne_nil hne
  rw [copyOut, hrange]
  dsimp only
  rw [hload, if_neg (by omega), Nat.sub_self, if_neg (not_not.mpr rfl),
    copyChunks_eq (by decide) List.append_nil List.append_assoc, List.nil_append]

end

/-! ## Agreement -/

section
variable {os : List Opt} {cferom bootfs rootfs : Bytes}

/-- What is asked of the image that is made from the options. Without a cferom there is nothing
to extract. -/
structure Agrees (os : List Opt) (cferom bootfs rootfs : Bytes) : Prop where
  files : ∃ contents, listed os = contents.map some ∧ InOrder contents (bcm4908imgCreate os)
  accepted : ∃ info, bcm4908imgParse (bcm4908imgCreate os) = .ok info
  extract_rootfs : bcm4908imgExtract (bcm4908imgCreate os) (some .rootfs) = .ok rootfs
  extract_firmware :
    bcm4908imgExtract (bcm4908imgCreate os) (some .firmware) = .ok (bootfs ++ rootfs)
  extract_cferom : bcm4908imgExtract (bcm4908imgCreate os) (some .cferom) =
    if cferom = [] then .error .enoent else .ok cferom

/-- All files are there, the zeros leave the CRC as it is, and the last block can be looked at. -/
structure Sound (os : List Opt) (rootfs : Bytes) : Prop where
  opened : ∀ file ∈ listed os, file.isSome = true
  crc : crc32 0xffffffff (fileData os) = crc32 0xffffffff (appended 0 os)
  long : 236 ≤ rootfs.length

theorem exists_contents {files : List (Option Bytes)} :
    (∃ contents : List Bytes, files = contents.map some) ↔
      ∀ file ∈ files, file.isSome = true := by
  constructor
  · rintro ⟨contents, rfl⟩ file hfile
    obtain ⟨content, -, rfl⟩ := List.mem_map.mp hfile
    rfl
  · intro h
    refine ⟨files.map fun file => file.getD [], ?_⟩
    rw [List.map_map]
    refine (List.map_congr_left fun file hfile => ?_).trans (List.map_id' files) |>.symm
    obtain ⟨content, rfl⟩ := Option.isSome_iff_exists.mp (h file hfile)
    rfl

/-- **Agreement.** An image is accepted and taken apart again when all files could be opened, the
padding does not change the CRC, and the rootfs has 236 bytes; and only then. -/
theorem agrees_iff (h : Layout (appended 0 os) cferom bootfs rootfs) :
    Agrees os cferom bootfs rootfs ↔ Sound os rootfs := by
  obtain ⟨hdata, hroot, hblock, hboot⟩ := h.lengths
  have hparse := bcm4908imgParse_eq (t := createdTail os) h
  rw [← bcm4908imgCreate_eq] at hparse
  constructor
  · intro ha
    obtain ⟨info, hinfo⟩ := ha.accepted
    obtain ⟨contents, hcontents, -⟩ := ha.files
    rw [hparse] at hinfo
    split at hinfo
    · rename_i h236
      split at hinfo
      · rename_i hcrc
        exact ⟨exists_contents.mp ⟨contents, hcontents⟩, hcrc.symm, h236⟩
      · cases hinfo
    · cases hinfo
  · intro hs
    have hcrc : crc32 0xffffffff (appended 0 os) = (createdTail os).crc32 := hs.crc.symm
    rw [if_pos hs.long, if_pos hcrc] at hparse
    have hextract (part : Part) :
        bcm4908imgExtract (bcm4908imgCreate os) (some part) = copyOut (bcm4908imgCreate os)
          ⟨0, cferom.length, 0, (cferom ++ bootfs).length, (appended 0 os).length,
            (createdTail os).crc32, createdTail os⟩ (some part) := by
      rw [bcm4908imgExtract, hparse]
      rfl
    have hsplit : bcm4908imgCreate os =
        cferom ++ (bootfs ++ (rootfs ++ (createdTail os).bytes)) := by
      rw [bcm4908imgCreate_eq, h.data_eq]
      simp only [List.append_assoc]
    have hle : cferom.length ≤ (cferom ++ bootfs).length := by omega
    have hbootfs : (cferom ++ bootfs).length = cferom.length + bootfs.length :=
      List.length_append
    refine ⟨?_, ⟨_, hparse⟩, ?_, ?_, ?_⟩
    · obtain ⟨contents, hcontents⟩ := exists_contents.mpr hs.opened
      refine ⟨contents, hcontents, ?_⟩
      rw [bcm4908imgCreate_eq]
      exact (inOrder_appended hcontents 0).append _
    · rw [hextract]
      refine copyOut_eq (hsplit.trans (List.append_assoc _ _ _).symm) ?_
        (List.ne_nil_of_length_pos (by omega))
      rw [Info.range, hdata, Nat.add_sub_cancel_left]
    · rw [hextract]
      have hfirmware : (bootfs ++ rootfs).length = bootfs.length + rootfs.length :=
        List.length_append
      refine copyOut_eq (hsplit.trans (congrArg (cferom ++ ·) (List.append_assoc _ _ _).symm)) ?_
        (List.ne_nil_of_length_pos (by omega))
      rw [Info.range, hdata, hbootfs, hfirmware, Nat.add_assoc, Nat.add_sub_cancel_left]
    · rw [hextract]
      by_cases hnil : cferom = []
      · rw [if_pos hnil, hnil]
        rfl
      · rw [if_neg hnil]
        exact copyOut_eq (hsplit.trans (List.nil_append _).symm) rfl hnil

end

/-! ## Two images -/

section

/-- A bootfs that leaves the register of the CRC at 0, so that zeros do not change it. -/
def zeroBootfs : Bytes := [0x85, 0x19, 0xce, 0x29, 0xb9, 0x9c]

def ubiRootfs : Bytes := rootfsMagic ++ List.replicate 252 0xff

def image : List Opt := [.f (some zeroBootfs), .a 0x20000, .f (some ubiRootfs)]

/-- Zeros behind the rootfs. -/
def paddedImage : List Opt := image ++ [.a 512]

theorem crc32_zeros (n : Nat) : crc32 0 (List.replicate n 0) = 0 := by
  induction n with
  | zero => rfl
  | succ n ih =>
    rw [List.replicate_succ, crc32, List.foldl_cons]
    exact ih

/-- The bootfs, up to the next block. -/
def zeroBlock : Bytes := zeroBootfs ++ List.replicate 0x1fffa 0

theorem length_zeroBlock : zeroBlock.length = blockSize := by
  rw [zeroBlock, List.length_append, List.length_replicate]
  rfl

/-- A rootfs that does not look like a vendor tail. -/
structure PlainRootfs (rootfs : Bytes) : Prop where
  magic : rootfs.take 4 = rootfsMagic
  long : 236 ≤ rootfs.length
  no_tail : load rootfs (rootfs.length - 236) 9 ≠ linksysMagic

/-- What begins with the magic of a bootfs begins with nothing else. -/
theorem load_of_bootfs {block bs : Bytes} (hboot : block.take 2 = bootfsMagic) {n : Nat}
    (hn : 2 ≤ n) (hbs : bs.take 2 ≠ bootfsMagic) : load block 0 n ≠ bs := by
  rintro rfl
  rw [load, List.drop_zero, List.take_take, Nat.min_eq_left hn] at hbs
  exact hbs hboot

theorem isAllFf_of_bootfs {block : Bytes} (hboot : block.take 2 = bootfsMagic) :
    isAllFf (load block 0 256) = false := by
  by_contra hff
  have hall := Bool.of_not_eq_false hff
  refine @load_of_bootfs block (load block 0 256) hboot 256 (by decide) ?_ rfl
  intro htake
  rw [isAllFf, List.all_eq_true] at hall
  have hmem : (0x85 : UInt8) ∈ load block 0 256 :=
    List.mem_of_mem_take (i := 2) (by rw [htake]; decide)
  exact absurd (hall _ hmem) (by decide)

/-- A block of bootfs, and a rootfs. -/
theorem block_layout {block rootfs : Bytes} (hblock : block.length = blockSize)
    (hboot : block.take 2 = bootfsMagic) (hroot : PlainRootfs rootfs) :
    Layout (block ++ rootfs) [] block rootfs where
  data_eq := rfl
  cferom_dvd := Nat.dvd_zero _
  bootfs_dvd := by
    rw [List.nil_append, hblock]
  bootfs_magic := hboot
  rootfs_magic := hroot.magic
  before_bootfs := fun off hlt _ => absurd hlt (Nat.not_lt_zero off)
  before_rootfs := by
    intro off hlt _ hdvd
    rw [List.nil_append, hblock] at hlt
    obtain rfl := Nat.eq_zero_of_dvd_of_lt hdvd hlt
    have h256 : 256 ≤ blockSize := by decide
    rw [load_data (by omega), load_data (by omega)]
    exact ⟨load_of_bootfs hboot (by decide) (by decide), isAllFf_of_bootfs hboot⟩
  no_header := by
    have h256 : 256 ≤ blockSize := by decide
    rw [load_data (by omega)]
    exact load_of_bootfs hboot (by decide) (by decide)
  no_tail := by
    have hlen := hroot.long
    have hoff : (block ++ rootfs).length + tailSize - linksysTailSize =
        block.length + (rootfs.length - 236) := by
      rw [List.length_append, tailSize, linksysTailSize]
      omega
    rw [hoff, load, ← List.drop_drop, List.drop_left]
    exact hroot.no_tail

theorem length_ubiRootfs : ubiRootfs.length = 256 := by
  rw [ubiRootfs, List.length_append, List.length_replicate]
  rfl

/-- Whatever is behind the rootfs, up to a length. -/
theorem plainRootfs_ubi {rest : Bytes} (hrest : rest.length ≤ 256)
    (hzero : ∀ b ∈ rest, b ≠ 0x2e) : PlainRootfs (ubiRootfs ++ rest) where
  magic := rfl
  long := by
    rw [List.length_append, length_ubiRootfs]
    omega
  no_tail := by
    have hmem : ∀ b ∈ List.replicate 252 0xff ++ rest, b ≠ (0x2e : UInt8) := by
      intro b hb
      rcases List.mem_append.mp hb with hb | hb
      · rw [List.eq_of_mem_replicate hb]
        decide
      · exact hzero b hb
    have hlen : (ubiRootfs ++ rest).length - 236 = 4 + (16 + rest.length) := by
      rw [List.length_append, length_ubiRootfs]
      omega
    intro htail
    have hdot : (0x2e : UInt8) ∈ load (ubiRootfs ++ rest) ((ubiRootfs ++ rest).length - 236) 9 := by
      rw [htail]
      decide
    have hmagic : rootfsMagic.length = 4 := rfl
    rw [hlen, load, ← List.drop_drop, ubiRootfs, List.append_assoc, List.drop_left' hmagic] at hdot
    exact hmem _ (List.mem_of_mem_drop (List.mem_of_mem_take hdot)) rfl

theorem plainRootfs_self : PlainRootfs ubiRootfs := by
  have h := plainRootfs_ubi (Nat.zero_le _) (fun b hb => absurd hb List.not_mem_nil)
  rwa [List.append_nil] at h

theorem zeroBlock_layout {rootfs : Bytes} (hroot : PlainRootfs rootfs) :
    Layout (zeroBlock ++ rootfs) [] zeroBlock rootfs := block_layout length_zeroBlock rfl hroot

theorem appended_image : appended 0 image = zeroBlock ++ ubiRootfs := by
  have halign : alignLength 6 0x20000 = 0x1fffa := by decide
  show zeroBootfs ++ (List.replicate (alignLength 6 0x20000) 0 ++ (ubiRootfs ++ [])) = _
  rw [halign, List.append_nil, zeroBlock, List.append_assoc]

theorem crc32_zeroBootfs : crc32 0xffffffff zeroBootfs = 0 := by decide

theorem crc32_zeroBlock (bs : Bytes) : crc32 0xffffffff (zeroBlock ++ bs) = crc32 0 bs := by
  rw [zeroBlock, crc32_append, crc32_append, crc32_zeroBootfs, crc32_zeros]

theorem fileData_image : crc32 0xffffffff (fileData image) = crc32 0 ubiRootfs := by
  simp only [fileData, image, listed, List.flatMap_cons, List.flatMap_nil, Option.getD_some,
    List.append_nil]
  rw [crc32_append, crc32_zeroBootfs]

theorem agrees_image : Agrees image [] zeroBlock ubiRootfs := by
  refine (agrees_iff ?_).mpr ⟨by decide, ?_, plainRootfs_self.long⟩
  · rw [appended_image]
    exact zeroBlock_layout plainRootfs_self
  · rw [appended_image, crc32_zeroBlock, fileData_image]

theorem appended_paddedImage :
    appended 0 paddedImage = zeroBlock ++ (ubiRootfs ++ List.replicate 256 0) := by
  have hlen : (zeroBlock ++ ubiRootfs).length = 0x20100 := by
    rw [List.length_append, length_zeroBlock, length_ubiRootfs]
    rfl
  have halign : alignLength 0x20100 512 = 256 := by decide
  rw [paddedImage, appended_append, appended_image, hlen, Nat.zero_add, appended, appended,
    List.append_nil, Opt.bytes, halign, List.append_assoc]

/-- The zeros behind the rootfs are not in the CRC that is stored. -/
theorem parse_paddedImage :
    Layout (appended 0 paddedImage) [] zeroBlock (ubiRootfs ++ List.replicate 256 0) ∧
      bcm4908imgParse (bcm4908imgCreate paddedImage) = .error .eproto := by
  have hlayout : Layout (appended 0 paddedImage) [] zeroBlock
      (ubiRootfs ++ List.replicate 256 0) := by
    rw [appended_paddedImage]
    refine zeroBlock_layout (plainRootfs_ubi (by rw [List.length_replicate]) fun b hb => ?_)
    rw [List.eq_of_mem_replicate hb]
    decide
  refine ⟨hlayout, ?_⟩
  have hfiles : fileData paddedImage = fileData image := by
    simp only [fileData, paddedImage, image, listed, List.cons_append, List.nil_append]
  have htail : (createdTail paddedImage).crc32 = crc32 0 ubiRootfs := by
    simp only [createdTail, hfiles, fileData_image]
  have hcrc : crc32 0 (ubiRootfs ++ List.replicate 256 0) ≠ crc32 0 ubiRootfs := by
    decide +kernel
  have h236 : 236 ≤ (ubiRootfs ++ List.replicate 256 0).length := by
    rw [List.length_append]
    exact Nat.le_trans plainRootfs_self.long (Nat.le_add_right _ _)
  rw [bcm4908imgCreate_eq, bcm4908imgParse_eq hlayout, if_pos h236, if_neg]
  rw [appended_paddedImage, crc32_zeroBlock, htail]
  exact hcrc

end

end UolaOs.Bcm4908img
