import UolaOs.Seama.Oseama

/-!
# What the tool writes and extracts

* `metaData` and `imageData`: what the options put into an entity;
* `oseamaEntity_eq`: the file is a header in front of them;
* `entities_iff`: header and extraction are right when the lengths fit the fields of the header.
-/

namespace UolaOs.Seama

/-! ## The parts of an entity -/

def padText (text : CStr) : Bytes :=
  text.stored ++ List.replicate (roundUp text.stored.length 4 - text.stored.length) 0

def metaData : List Opt → Bytes
  | [] => []
  | .m text :: os => padText text ++ metaData os
  | .f _ :: os => metaData os
  | .b _ :: os => metaData os

/-- The image behind `offset` bytes of the entity. -/
def imageFrom (offset : Nat) : List Opt → Bytes
  | [] => []
  | .m _ :: os => imageFrom offset os
  | .f none :: os => imageFrom offset os
  | .f (some file) :: os => file ++ imageFrom (offset + file.length) os
  | .b target :: os =>
    let zeros := (target - offset).toNat
    List.replicate zeros 0 ++ imageFrom (offset + zeros) os

def imageData (os : List Opt) : Bytes := imageFrom (entityHeaderSize + (metaData os).length) os

/-- The lengths fit the fields of the header. -/
def Fits (os : List Opt) : Prop := (metaData os).length < 2 ^ 16 ∧ (imageData os).length < 2 ^ 32

instance (os : List Opt) : Decidable (Fits os) := inferInstanceAs (Decidable (_ ∧ _))

section
variable {s : Builder} {os : List Opt}

theorem four_dvd_padText (text : CStr) : 4 ∣ (padText text).length := by
  have hle := le_roundUp text.stored.length (y := 4) (by decide)
  rw [padText, List.length_append, List.length_replicate, Nat.add_sub_cancel' hle]
  exact dvd_roundUp _ 4

theorem roundUp_add {n k : Nat} (h : 4 ∣ n) : roundUp (n + k) 4 = n + roundUp k 4 := by
  obtain ⟨j, rfl⟩ := h
  simp only [roundUp]
  omega

/-! ## Writing -/

structure AtEnd (s : Builder) (body : Bytes) : Prop where
  seama : s.seama.Behind entityHeaderSize body
  offset : s.currOffset = entityHeaderSize + body.length

theorem AtEnd.start : AtEnd Builder.start [] := ⟨File.Behind.start _, rfl⟩

theorem AtEnd.appendMeta {body : Bytes} (h : AtEnd s body) (bs : Bytes) :
    AtEnd (s.appendMeta bs) (body ++ bs) where
  seama := h.seama.write bs
  offset := by
    rw [List.length_append, ← Nat.add_assoc, ← h.offset]
    rfl

theorem AtEnd.appendZeros {body : Bytes} (h : AtEnd s body) (length : Nat) :
    AtEnd (s.appendZeros length) (body ++ List.replicate length 0) where
  seama := h.seama.write _
  offset := by
    rw [List.length_append, List.length_replicate, ← Nat.add_assoc, ← h.offset]
    rfl

theorem AtEnd.appendFile {body : Bytes} (h : AtEnd s body) (bs : Bytes) :
    AtEnd (s.appendFile bs) (body ++ bs) where
  seama := copyChunks_append (by decide) (fun _ _ b h => h.write b) h.seama bs
  offset := by
    rw [List.length_append, ← Nat.add_assoc, ← h.offset]
    rfl

theorem foldl_metaOpt {body : Bytes} (h : AtEnd s body) (h4 : 4 ∣ body.length) (os : List Opt) :
    AtEnd (os.foldl Builder.metaOpt s) (body ++ metaData os) ∧
      (os.foldl Builder.metaOpt s).metasize = s.metasize + (metaData os).length ∧
      (os.foldl Builder.metaOpt s).imagesize = s.imagesize := by
  induction os generalizing s body with
  | nil => exact ⟨by rwa [metaData, List.append_nil], rfl, rfl⟩
  | cons o os ih =>
    rw [List.foldl_cons]
    cases o with
    | m text =>
      have hpad : alignLength (s.appendMeta text.stored).currOffset 4 =
          roundUp text.stored.length 4 - text.stored.length := by
        refine (alignLength_two_pow _ 2).trans ?_
        show roundUp (s.currOffset + text.stored.length) 4 - (s.currOffset + text.stored.length) = _
        rw [h.offset, roundUp_add ((Nat.dvd_add_right (by decide)).mpr h4)]
        omega
      have hnext : s.metaOpt (.m text) = (s.appendMeta text.stored).appendMeta
          (List.replicate (roundUp text.stored.length 4 - text.stored.length) 0) := by
        rw [Builder.metaOpt, hpad]
      have hend := (h.appendMeta text.stored).appendMeta
        (List.replicate (roundUp text.stored.length 4 - text.stored.length) 0)
      rw [List.append_assoc, ← padText, ← hnext] at hend
      have h4' : 4 ∣ (body ++ padText text).length := by
        rw [List.length_append]
        exact Nat.dvd_add h4 (four_dvd_padText text)
      obtain ⟨hat, hmeta, himage⟩ := ih hend h4'
      refine ⟨by rwa [List.append_assoc] at hat, ?_, ?_⟩
      · rw [hmeta, hnext]
        simp only [Builder.appendMeta, metaData, padText, List.length_append]
        omega
      · rw [himage, hnext]
        rfl
    | f file => exact ih h h4
    | b offset => exact ih h h4

theorem foldl_imageOpt {body : Bytes} (h : AtEnd s body) (os : List Opt) :
    AtEnd (os.foldl Builder.imageOpt s) (body ++ imageFrom (entityHeaderSize + body.length) os) ∧
      (os.foldl Builder.imageOpt s).metasize = s.metasize ∧
      (os.foldl Builder.imageOpt s).imagesize =
        s.imagesize + (imageFrom (entityHeaderSize + body.length) os).length := by
  induction os generalizing s body with
  | nil => exact ⟨by rwa [imageFrom, List.append_nil], rfl, rfl⟩
  | cons o os ih =>
    rw [List.foldl_cons]
    cases o with
    | m text => exact ih h
    | f file =>
      cases file with
      | none => exact ih h
      | some file =>
        obtain ⟨hat, hmeta, himage⟩ := ih (h.appendFile file)
        rw [List.length_append, ← Nat.add_assoc] at hat himage
        refine ⟨by rwa [List.append_assoc] at hat, hmeta, himage.trans ?_⟩
        rw [imageFrom, List.length_append]
        exact Nat.add_assoc _ _ _
    | b target =>
      rw [imageFrom, ← h.offset]
      by_cases hneg : target - (s.currOffset : Int) < 0
      · have hstep : s.imageOpt (.b target) = s := if_pos hneg
        rw [hstep, Int.toNat_of_nonpos (by omega)]
        rw [h.offset]
        exact ih h
      · have hstep : s.imageOpt (.b target) =
            s.appendZeros (target - (s.currOffset : Int)).toNat := if_neg hneg
        obtain ⟨hat, hmeta, himage⟩ := ih (h.appendZeros (target - (s.currOffset : Int)).toNat)
        rw [List.length_append, List.length_replicate, ← Nat.add_assoc, ← h.offset] at hat himage
        rw [hstep]
        refine ⟨by rwa [List.append_assoc] at hat, hmeta, himage.trans ?_⟩
        rw [List.length_append, List.length_replicate]
        exact Nat.add_assoc _ _ _

/-! ## The header -/

theorem length_entityHeader (metasize imagesize : Nat) (message : Bytes) :
    (entityHeader metasize imagesize (Md5.digest message)).length = entityHeaderSize := by
  simp only [entityHeader, List.length_append, Endian.length_put, Md5.length_digest]
  rfl

theorem digest_chunks (bs : Bytes) :
    Openwall.final (copyChunks 128 Openwall.update Openwall.init bs) = Md5.digest bs := by
  have hrep : Openwall.Rep (copyChunks 128 Openwall.update Openwall.init bs) ([] ++ bs) :=
    copyChunks_induction (by decide) (fun _ _ b h _ _ => h.update b) Openwall.rep_init
  exact hrep.final

/-- The file that is written: the header, the meta data and the image. -/
theorem oseamaEntity_eq (os : List Opt) :
    oseamaEntity os =
      entityHeader (metaData os).length (imageData os).length (Md5.digest (imageData os)) ++
        (metaData os ++ imageData os) := by
  obtain ⟨hmeta, hmsize, hisize⟩ := foldl_metaOpt AtEnd.start (Nat.dvd_zero 4) os
  rw [List.nil_append] at hmeta
  obtain ⟨himage, hmsize', hisize'⟩ := foldl_imageOpt hmeta os
  have hm : ((os.foldl Builder.imageOpt (os.foldl Builder.metaOpt Builder.start))).metasize =
      (metaData os).length := by
    rw [hmsize', hmsize]
    exact Nat.zero_add _
  have hi : ((os.foldl Builder.imageOpt (os.foldl Builder.metaOpt Builder.start))).imagesize =
      (imageData os).length := by
    rw [hisize', hisize]
    exact Nat.zero_add _
  unfold oseamaEntity
  dsimp only
  rw [hm, hi]
  rcases himage.seama with hs | ⟨hnil, hs⟩
  · have hload : load (List.replicate entityHeaderSize 0 ++ (metaData os ++ imageData os))
        (entityHeaderSize + (metaData os).length) (imageData os).length = imageData os := by
      rw [← List.append_assoc, load_append_right (by simp), List.take_length]
    rw [hs]
    simp only [writeHdr, File.seek, File.read]
    rw [← imageData, hload, digest_chunks, File.write_front]
    rw [List.length_replicate, length_entityHeader]
  · obtain ⟨hm0, hi0⟩ := List.append_eq_nil_iff.mp hnil
    have hi0 : imageData os = [] := hi0
    rw [hs, hm0, hi0]
    simp only [writeHdr, File.seek, File.read, load, List.drop_nil, List.take_nil]
    rw [digest_chunks, List.append_nil, List.append_nil]
    exact congrArg File.data (File.write_end [] _)

section
variable {m n : Nat} {digest rest : Bytes}

theorem magic_entityHeader : magic (entityHeader m n digest ++ rest) = seamaMagic := by
  rw [magic, entityHeader, List.append_assoc, load, List.drop_zero,
    List.take_left' (Endian.length_put _ _ _)]
  exact Endian.get_put_of_lt _ (by decide)

theorem metasize_entityHeader :
    metasize (entityHeader m n digest ++ rest) = m % 2 ^ 16 := by
  have hsplit : entityHeader m n digest ++ rest =
      (Endian.big.put 4 seamaMagic ++ Endian.big.put 2 0) ++ (Endian.big.put 2 m ++
        (Endian.big.put 4 n ++ digest ++ rest)) := by
    simp only [entityHeader, List.append_assoc]
  rw [metasize, hsplit, load_append_right (by simp only [List.length_append, Endian.length_put]),
    List.take_left' (Endian.length_put _ _ _), Endian.get_put]
  rfl

theorem imagesize_entityHeader :
    imagesize (entityHeader m n digest ++ rest) = n % 2 ^ 32 := by
  have hsplit : entityHeader m n digest ++ rest =
      (Endian.big.put 4 seamaMagic ++ Endian.big.put 2 0 ++ Endian.big.put 2 m) ++
        (Endian.big.put 4 n ++ (digest ++ rest)) := by
    simp only [entityHeader, List.append_assoc]
  rw [imagesize, hsplit, load_append_right (by simp only [List.length_append, Endian.length_put]),
    List.take_left' (Endian.length_put _ _ _), Endian.get_put]
  rfl

theorem md5_entityHeader (h : digest.length = 16) :
    md5 (entityHeader m n digest ++ rest) = digest := by
  have hsplit : entityHeader m n digest ++ rest =
      (Endian.big.put 4 seamaMagic ++ Endian.big.put 2 0 ++ Endian.big.put 2 m ++
        Endian.big.put 4 n) ++ (digest ++ rest) := by
    simp only [entityHeader, List.append_assoc]
  rw [md5, hsplit, load_append_right (by simp only [List.length_append, Endian.length_put]),
    List.take_left' h]

end

/-- The header gives the lengths of the parts that follow it, and the digest of the image. -/
structure Right (os : List Opt) : Prop where
  magic : magic (oseamaEntity os) = seamaMagic
  body : (oseamaEntity os).drop entityHeaderSize = metaData os ++ imageData os
  metasize : metasize (oseamaEntity os) = (metaData os).length
  imagesize : imagesize (oseamaEntity os) = (imageData os).length
  md5 : md5 (oseamaEntity os) = Md5.digest (imageData os)

theorem right_iff (os : List Opt) : Right os ↔ Fits os := by
  constructor
  · intro h
    have hm := h.metasize
    have hi := h.imagesize
    rw [oseamaEntity_eq, metasize_entityHeader] at hm
    rw [oseamaEntity_eq, imagesize_entityHeader] at hi
    exact ⟨by omega, by omega⟩
  · intro h
    refine ⟨?_, ?_, ?_, ?_, ?_⟩ <;> rw [oseamaEntity_eq]
    · exact magic_entityHeader
    · exact List.drop_left' (length_entityHeader _ _ _)
    · rw [metasize_entityHeader, Nat.mod_eq_of_lt h.1]
    · rw [imagesize_entityHeader, Nat.mod_eq_of_lt h.2]
    · exact md5_entityHeader (Md5.length_digest _)

/-! ## Extraction -/

/-- A seal header and its meta data. -/
structure Seal where
  magic : Nat
  reserved : Nat
  imagesize : Nat
  metaBytes : Bytes
  metaBytes_lt : metaBytes.length < 2 ^ 16

def Seal.bytes (s : Seal) : Bytes :=
  Endian.big.put 4 s.magic ++ (Endian.big.put 2 s.reserved ++
    (Endian.big.put 2 s.metaBytes.length ++ (Endian.big.put 4 s.imagesize ++ s.metaBytes)))

theorem oseamaExtract_seal (s : Seal) (idx : Nat) (m : Bytes) :
    oseamaExtract idx (s.bytes ++ m) = oseamaExtractEntity idx m := by
  have hsize : metasize (s.bytes ++ m) = s.metaBytes.length := by
    have hsplit : s.bytes ++ m = (Endian.big.put 4 s.magic ++ Endian.big.put 2 s.reserved) ++
        (Endian.big.put 2 s.metaBytes.length ++
          (Endian.big.put 4 s.imagesize ++ s.metaBytes ++ m)) := by
      simp only [Seal.bytes, List.append_assoc]
    rw [metasize, hsplit, load_append_right (by simp only [List.length_append, Endian.length_put]),
      List.take_left' (Endian.length_put _ _ _), Endian.get_put_of_lt _ s.metaBytes_lt]
  have hlen : s.bytes.length = sealHeaderSize + s.metaBytes.length := by
    simp only [Seal.bytes, List.length_append, Endian.length_put, sealHeaderSize]
    omega
  rw [oseamaExtract, if_neg (by rw [List.length_append]; omega), hsize, List.drop_left' hlen]

/-- The length that an entity has by its header. -/
def headerLength (os : List Opt) : Nat :=
  entityHeaderSize + (metaData os).length % 2 ^ 16 + (imageData os).length % 2 ^ 32

theorem length_oseamaEntity (os : List Opt) : (oseamaEntity os).length =
    entityHeaderSize + (metaData os).length + (imageData os).length := by
  rw [oseamaEntity_eq, List.length_append, length_entityHeader, List.length_append, Nat.add_assoc]

theorem fits_iff_length (os : List Opt) :
    Fits os ↔ (oseamaEntity os).length ≤ headerLength os := by
  rw [length_oseamaEntity, headerLength, Fits]
  omega

theorem extract_zero (os : List Opt) (rest : Bytes) :
    oseamaExtractEntity 0 (oseamaEntity os ++ rest) =
      (oseamaEntity os ++ rest).take (headerLength os) := by
  have hlen := length_oseamaEntity os
  rw [oseamaExtractEntity, if_neg]
  · dsimp only
    rw [copyChunks_eq (by decide) List.append_nil List.append_assoc, List.nil_append,
      oseamaEntity_eq, List.append_assoc, metasize_entityHeader, imagesize_entityHeader]
    rfl
  · rw [oseamaEntity_eq, List.append_assoc, magic_entityHeader, ← List.append_assoc,
      ← oseamaEntity_eq, List.length_append]
    rintro (h | h)
    · omega
    · exact h rfl

theorem extract_succ (os : List Opt) (idx : Nat) (rest : Bytes) :
    oseamaExtractEntity (idx + 1) (oseamaEntity os ++ rest) =
      oseamaExtractEntity idx ((oseamaEntity os ++ rest).drop (headerLength os)) := by
  have hlen := length_oseamaEntity os
  rw [oseamaExtractEntity, if_neg]
  · dsimp only
    rw [oseamaEntity_eq, List.append_assoc, metasize_entityHeader, imagesize_entityHeader]
    rfl
  · rw [oseamaEntity_eq, List.append_assoc, magic_entityHeader, ← List.append_assoc,
      ← oseamaEntity_eq, List.length_append]
    rintro (h | h)
    · omega
    · exact h rfl

/-- Each entity is extracted when they all fit. The first that does not comes out short. -/
theorem extract_iff (oss : List (List Opt)) :
    (∀ i os, oss[i]? = some os →
      oseamaExtractEntity i (oss.map oseamaEntity).flatten = oseamaEntity os) ↔
      ∀ os ∈ oss, Fits os := by
  induction oss with
  | nil => simp
  | cons os oss ih =>
    rw [List.map_cons, List.flatten_cons]
    have hzero : oseamaExtractEntity 0 (oseamaEntity os ++ (oss.map oseamaEntity).flatten) =
        oseamaEntity os ↔ Fits os := by
      rw [extract_zero, fits_iff_length]
      constructor
      · intro h
        have hlen := congrArg List.length h
        rw [List.length_take] at hlen
        omega
      · intro h
        have heq : headerLength os = (oseamaEntity os).length := by
          have := Nat.mod_le (metaData os).length (2 ^ 16)
          have := Nat.mod_le (imageData os).length (2 ^ 32)
          rw [length_oseamaEntity] at h ⊢
          rw [headerLength] at h ⊢
          omega
        rw [heq, List.take_left]
    have hsucc (hfits : Fits os) (i : Nat) :
        oseamaExtractEntity (i + 1) (oseamaEntity os ++ (oss.map oseamaEntity).flatten) =
          oseamaExtractEntity i (oss.map oseamaEntity).flatten := by
      have heq : headerLength os = (oseamaEntity os).length := by
        rw [headerLength, length_oseamaEntity, Nat.mod_eq_of_lt hfits.1, Nat.mod_eq_of_lt hfits.2]
      rw [extract_succ, heq, List.drop_left]
    constructor
    · intro h
      have hfits : Fits os := hzero.mp (h 0 os rfl)
      have hrest := ih.mp fun i os' hi => (hsucc hfits i).symm.trans (h (i + 1) os' hi)
      exact List.forall_mem_cons.mpr ⟨hfits, hrest⟩
    · intro h i os' hi
      obtain ⟨hfits, hrest⟩ := List.forall_mem_cons.mp h
      cases i with
      | zero =>
        obtain rfl := Option.some.inj hi
        exact hzero.mpr hfits
      | succ i => exact (hsucc hfits i).trans (ih.mpr hrest i os' hi)

/-- **Entities.** The header of an entity is right, and all the entities of a file are extracted,
when the lengths of their parts fit the fields of the header, and only then. -/
theorem entities_iff (os : List Opt) (s : Seal) (oss : List (List Opt)) :
    (Right os ↔ Fits os) ∧
      ((∀ i os, oss[i]? = some os →
        oseamaExtract i (s.bytes ++ (oss.map oseamaEntity).flatten) = oseamaEntity os) ↔
        ∀ os ∈ oss, Fits os) := by
  refine ⟨right_iff os, ?_⟩
  rw [← extract_iff oss]
  simp only [oseamaExtract_seal]

end

section

theorem longMeta_nulFree : (0 : UInt8) ∉ List.replicate 65535 (0x61 : UInt8) := by
  intro h
  exact absurd (List.eq_of_mem_replicate h) (by decide)

/-- One meta string that takes 65536 bytes, and the image `b`. -/
def longMeta : List Opt := [.m ⟨List.replicate 65535 0x61, longMeta_nulFree⟩, .f (some [0x62])]

theorem length_metaData_longMeta : (metaData longMeta).length = 65536 := by
  have hstored (h : (0 : UInt8) ∉ List.replicate 65535 (0x61 : UInt8)) :
      (CStr.mk (List.replicate 65535 0x61) h).stored.length = 65536 := by
    rw [CStr.length_stored, CStr.length, List.length_replicate]
  rw [longMeta, metaData, metaData, metaData, List.append_nil, padText, List.length_append,
    List.length_replicate, hstored]
  rfl

theorem longMeta_not_fits : ¬ Fits longMeta := by
  rw [Fits, length_metaData_longMeta]
  omega

theorem bareSeal_lt : ([] : Bytes).length < 2 ^ 16 := by decide

def bareSeal : Seal := ⟨seamaMagic, 0, 0, [], bareSeal_lt⟩

theorem entities_longMeta :
    ¬ Right longMeta ∧
      oseamaExtract 0 (bareSeal.bytes ++ oseamaEntity longMeta) ≠ oseamaEntity longMeta := by
  refine ⟨fun h => longMeta_not_fits ((right_iff _).mp h), fun h => ?_⟩
  rw [oseamaExtract_seal, ← List.append_nil (oseamaEntity longMeta), extract_zero,
    List.append_nil] at h
  have hlen := congrArg List.length h
  rw [List.length_take] at hlen
  exact longMeta_not_fits ((fits_iff_length _).mpr (by omega))

end

end UolaOs.Seama
