import UolaOs.Seama.Entity

/-!
# Fixing the header on the device

`mtd_fixseama` of package/system/mtd with the offset 0, as it is always called.

* `fixed_entity_iff`: what it makes of an entity that the tool wrote;
* `fix_fix`: what it makes of any partition, the first time and the second;
* `fixseama_iff`: both together.
-/

namespace UolaOs.Seama

/-! ## The device -/

structure Mtd where
  erasesize : Nat
  /-- The width of `size_t`. -/
  sizeBits : Nat
  /-- Whether MEMERASE succeeds. -/
  erases : Bool
  header_le : entityHeaderSize ≤ erasesize
  sizeBits_le : 32 ≤ sizeBits

/-- A partition of whole erase blocks, with a size that `int mtdsize` holds. -/
structure Mtd.Holds (d : Mtd) (m : Bytes) : Prop where
  blocks : d.erasesize ∣ m.length
  lt : m.length < 2 ^ 31

inductive FlashOp where
  | erase (offset : Nat)
  | write (offset : Nat) (bs : Bytes)
  deriving DecidableEq

/-- Erasing sets all bits of a block, and writing clears bits. -/
def FlashOp.apply (d : Mtd) (m : Bytes) : FlashOp → Bytes
  | .erase offset => poke m offset (List.replicate d.erasesize 0xff)
  | .write offset bs => poke m offset (List.zipWith (· &&& ·) (load m offset bs.length) bs)

/-! ## `mtd_fixseama` -/

inductive Outcome where
  | exit
  | fixedAlready
  | ioError
  | rewritten
  deriving DecidableEq

/-- `seama_fix_md5`: the block with the new header, or why there is none. -/
def seamaFixMd5 (m shdr : Bytes) (data_offset data_size : Nat) : Except Outcome Bytes :=
  let buf := load m data_offset data_size
  if buf.length ≠ data_size then .error .ioError
  else
    let digest := Rsa.final (Rsa.update Rsa.init buf)
    if digest = md5 shdr then .error .fixedAlready
    else .ok (poke (poke shdr 8 (Endian.big.put 4 data_size)) 12 digest)

/-- The amount of data that is digested. -/
def dataSize (d : Mtd) (shdr : Bytes) (mtdsize data_size : Nat) : Nat :=
  let data_offset := entityHeaderSize + metasize shdr
  let data_size :=
    if data_size = 0 then (mtdsize + 2 ^ d.sizeBits - data_offset) % 2 ^ d.sizeBits else data_size
  if imagesize shdr < data_size then imagesize shdr else data_size

/-- The end of `mtd_fixseama`. -/
def rewriteBlock (d : Mtd) : Except Outcome Bytes → Outcome × List FlashOp
  | .error outcome => (outcome, [])
  | .ok first_block =>
    if d.erases then (.rewritten, [.erase 0, .write 0 first_block]) else (.exit, [])

/-- `mtd_fixseama`: how it ends and what it does to the flash. -/
def mtdFixseama (d : Mtd) (m : Bytes) (data_size : Nat) : Outcome × List FlashOp :=
  if m.length < d.erasesize then (.exit, [])
  else
    let first_block := m.take d.erasesize
    if magic first_block ≠ seamaMagic then (.exit, [])
    else if imagesize first_block = 0 then (.exit, [])
    else
      rewriteBlock d (seamaFixMd5 m first_block (entityHeaderSize + metasize first_block)
        (dataSize d first_block m.length data_size))

/-- The partition after a run. -/
def afterFix (d : Mtd) (m : Bytes) (data_size : Nat) : Bytes :=
  (mtdFixseama d m data_size).2.foldl (FlashOp.apply d) m

section
variable {d : Mtd} {m : Bytes} {n : Nat}

/-! ## What a run does -/

theorem load_take {e off n : Nat} (h : off + n ≤ e) (m : Bytes) :
    load (m.take e) off n = load m off n :=
  load_eq_of_take (by rw [List.take_take, Nat.min_eq_left h])

/-- The header is read from the first block. -/
theorem header_take {e : Nat} (h : entityHeaderSize ≤ e) (m : Bytes) :
    magic (m.take e) = magic m ∧ metasize (m.take e) = metasize m ∧
      imagesize (m.take e) = imagesize m ∧ md5 (m.take e) = md5 m := by
  rw [entityHeaderSize] at h
  refine ⟨?_, ?_, ?_, ?_⟩
  · rw [magic, load_take (by omega), magic]
  · rw [metasize, load_take (by omega), metasize]
  · rw [imagesize, load_take (by omega), imagesize]
  · rw [md5, load_take (by omega), md5]

theorem dataSize_congr {a b : Bytes} (hm : metasize a = metasize b)
    (hi : imagesize a = imagesize b) (size : Nat) : dataSize d a size n = dataSize d b size n := by
  rw [dataSize, dataSize, hm, hi]

theorem seamaFixMd5_eq {shdr : Bytes} {off : Nat} (hfit : off + n ≤ m.length)
    (hlt : m.length < 2 ^ 31) :
    seamaFixMd5 m shdr off n =
      if Md5.digest (load m off n) = md5 shdr then .error .fixedAlready
      else .ok (poke (poke shdr 8 (Endian.big.put 4 n)) 12 (Md5.digest (load m off n))) := by
  have hlen : (load m off n).length = n := by
    rw [load, List.length_take, List.length_drop]
    omega
  have hdigest : Rsa.final (Rsa.update Rsa.init (load m off n)) = Md5.digest (load m off n) := by
    have hrep : Rsa.Rep (Rsa.update Rsa.init (load m off n)) ([] ++ load m off n) :=
      Rsa.rep_init.update (by omega)
    exact hrep.final
  rw [seamaFixMd5, if_neg (not_not.mpr hlen), hdigest]

/-- The run on a header that has an image. -/
theorem mtdFixseama_eq (hes : d.erasesize ≤ m.length) (hm : magic m = seamaMagic)
    (hi : imagesize m ≠ 0) :
    mtdFixseama d m n = rewriteBlock d (seamaFixMd5 m (m.take d.erasesize)
      (entityHeaderSize + metasize m) (dataSize d m m.length n)) := by
  obtain ⟨hmagic, hmeta, himage, -⟩ := header_take d.header_le m
  rw [mtdFixseama, if_neg (Nat.not_lt.mpr hes)]
  dsimp only
  rw [hmagic, himage, hmeta, if_neg (not_not.mpr hm), if_neg hi, dataSize_congr hmeta himage]

theorem Mtd.Holds.erasesize_le (h : d.Holds m) (hpos : 0 < m.length) : d.erasesize ≤ m.length :=
  Nat.le_of_dvd hpos h.blocks

/-- The image is declared to lie in the partition, and so does what is digested. -/
theorem dataSize_spec (hlt : m.length < 2 ^ 31) (hi : imagesize m ≠ 0)
    (hfit : entityHeaderSize + metasize m + imagesize m ≤ m.length) :
    dataSize d m m.length n ≠ 0 ∧
      dataSize d m m.length n = min (imagesize m)
        (if n = 0 then m.length - (entityHeaderSize + metasize m) else n) := by
  have hbits : 2 ^ 32 ≤ 2 ^ d.sizeBits := Nat.pow_le_pow_right (by decide) d.sizeBits_le
  have hwrap : (m.length + 2 ^ d.sizeBits - (entityHeaderSize + metasize m)) % 2 ^ d.sizeBits =
      m.length - (entityHeaderSize + metasize m) := by
    have hsub : m.length + 2 ^ d.sizeBits - (entityHeaderSize + metasize m) =
        m.length - (entityHeaderSize + metasize m) + 2 ^ d.sizeBits := by omega
    rw [hsub, Nat.add_mod_right, Nat.mod_eq_of_lt (by omega)]
  rw [dataSize, hwrap]
  split <;> split <;> omega

/-! ## Entities from the tool -/

/-- The bytes that the fixer takes for the image of an entity. -/
def seenImage (os : List Opt) (after : Bytes) : Bytes :=
  load (oseamaEntity os ++ after) (entityHeaderSize + (metaData os).length % 2 ^ 16)
    (imageData os).length

theorem seenImage_of_lt {os : List Opt} (h : (metaData os).length < 2 ^ 16) (after : Bytes) :
    seenImage os after = imageData os := by
  rw [seenImage, Nat.mod_eq_of_lt h, oseamaEntity_eq]
  simp only [List.append_assoc]
  rw [← List.append_assoc, load_append_right, List.take_left]
  rw [List.length_append, length_entityHeader]

theorem fixed_entity_iff {os : List Opt} {after : Bytes} (h : d.Holds (oseamaEntity os ++ after))
    (hi : imageData os ≠ []) :
    mtdFixseama d (oseamaEntity os ++ after) 0 = (.fixedAlready, []) ↔
      Md5.digest (seenImage os after) = Md5.digest (imageData os) := by
  have hpos := List.length_pos_of_ne_nil hi
  have hlen := length_oseamaEntity os
  have hlt := h.lt
  have hmod := Nat.mod_le (metaData os).length (2 ^ 16)
  have hmagic : magic (oseamaEntity os ++ after) = seamaMagic := by
    rw [oseamaEntity_eq, List.append_assoc]
    exact magic_entityHeader
  have hmeta : metasize (oseamaEntity os ++ after) = (metaData os).length % 2 ^ 16 := by
    rw [oseamaEntity_eq, List.append_assoc]
    exact metasize_entityHeader
  have hmd5 : md5 (oseamaEntity os ++ after) = Md5.digest (imageData os) := by
    rw [oseamaEntity_eq, List.append_assoc]
    exact md5_entityHeader (Md5.length_digest _)
  rw [List.length_append] at hlt
  have himage : imagesize (oseamaEntity os ++ after) = (imageData os).length := by
    rw [oseamaEntity_eq, List.append_assoc, imagesize_entityHeader, Nat.mod_eq_of_lt (by omega)]
  have hroom : entityHeaderSize + (metaData os).length % 2 ^ 16 + (imageData os).length ≤
      (oseamaEntity os ++ after).length := by
    rw [List.length_append]
    omega
  have hsize : dataSize d (oseamaEntity os ++ after) (oseamaEntity os ++ after).length 0 =
      (imageData os).length := by
    rw [(dataSize_spec h.lt (by omega) (by omega)).2, if_pos rfl, himage, hmeta]
    omega
  rw [mtdFixseama_eq (h.erasesize_le (by rw [List.length_append]; omega)) hmagic (by omega), hsize,
    hmeta, seamaFixMd5_eq hroom h.lt, (header_take d.header_le _).2.2.2, hmd5, ← seenImage]
  constructor
  · intro heq
    by_contra hne
    rw [if_neg hne, rewriteBlock] at heq
    split at heq <;> cases heq
  · intro heq
    rw [if_pos heq, rewriteBlock]

/-! ## Running again -/

/-- The partition with a new size and a new digest in its header. -/
def withHeader (m : Bytes) (size : Nat) (digest : Bytes) : Bytes :=
  m.take 8 ++ (Endian.big.put 4 size ++ (digest ++ m.drop entityHeaderSize))

section
variable {size : Nat} {digest : Bytes}

theorem length_withHeader (hm : entityHeaderSize ≤ m.length) (hd : digest.length = 16) :
    (withHeader m size digest).length = m.length := by
  rw [entityHeaderSize] at hm
  simp only [withHeader, List.length_append, List.length_take, List.length_drop,
    Endian.length_put, hd, entityHeaderSize]
  omega

theorem take_withHeader (hm : entityHeaderSize ≤ m.length) :
    (withHeader m size digest).take 8 = m.take 8 := by
  rw [entityHeaderSize] at hm
  exact List.take_left' (List.length_take_of_le (by omega))

theorem drop_withHeader (hm : entityHeaderSize ≤ m.length) (hd : digest.length = 16) :
    (withHeader m size digest).drop entityHeaderSize = m.drop entityHeaderSize := by
  rw [entityHeaderSize] at hm
  have hsplit : withHeader m size digest =
      (m.take 8 ++ Endian.big.put 4 size ++ digest) ++ m.drop entityHeaderSize := by
    simp only [withHeader, List.append_assoc]
  rw [hsplit]
  apply List.drop_left'
  simp only [List.length_append, List.length_take, Endian.length_put, hd, entityHeaderSize]
  omega

theorem magic_withHeader (hm : entityHeaderSize ≤ m.length) :
    magic (withHeader m size digest) = magic m := by
  have h4 : ((withHeader m size digest).take 8).take 4 = (m.take 8).take 4 :=
    congrArg (List.take 4) (take_withHeader hm)
  rw [magic, magic, load_eq_of_take]
  rwa [List.take_take, List.take_take] at h4

theorem metasize_withHeader (hm : entityHeaderSize ≤ m.length) :
    metasize (withHeader m size digest) = metasize m := by
  rw [metasize, metasize, load_eq_of_take (take_withHeader hm)]

theorem imagesize_withHeader (hm : entityHeaderSize ≤ m.length) (hsize : size < 2 ^ 32) :
    imagesize (withHeader m size digest) = size := by
  rw [entityHeaderSize] at hm
  rw [imagesize, withHeader, load_append_right (List.length_take_of_le (by omega)),
    List.take_left' (Endian.length_put _ _ _), Endian.get_put_of_lt _ hsize]

theorem md5_withHeader (hm : entityHeaderSize ≤ m.length) (hd : digest.length = 16) :
    md5 (withHeader m size digest) = digest := by
  rw [entityHeaderSize] at hm
  have hsplit : withHeader m size digest =
      (m.take 8 ++ Endian.big.put 4 size) ++ (digest ++ m.drop entityHeaderSize) := by
    simp only [withHeader, List.append_assoc]
  rw [md5, hsplit, load_append_right, List.take_left' hd]
  simp only [List.length_append, List.length_take, Endian.length_put]
  omega

theorem load_withHeader (hm : entityHeaderSize ≤ m.length) (hd : digest.length = 16) (k : Nat) :
    load (withHeader m size digest) (entityHeaderSize + k) n = load m (entityHeaderSize + k) n := by
  rw [load, load, ← List.drop_drop, drop_withHeader hm hd, List.drop_drop]

theorem poke_header {block : Bytes} (hm : entityHeaderSize ≤ block.length)
    (hd : digest.length = 16) :
    poke (poke block 8 (Endian.big.put 4 size)) 12 digest = withHeader block size digest := by
  rw [entityHeaderSize] at hm
  have hp : (block.take 8).length = 8 := List.length_take_of_le (by omega)
  have hsize : poke block 8 (Endian.big.put 4 size) =
      (block.take 8 ++ Endian.big.put 4 size) ++ block.drop 12 := by
    have h := poke_append (d := block.drop 8) hp (show (Endian.big.put 4 size).length ≤ _ by
      rw [Endian.length_put, List.length_drop]; omega)
    rwa [List.take_append_drop, Endian.length_put, List.drop_drop, ← List.append_assoc] at h
  rw [hsize, poke_append (by rw [List.length_append, hp, Endian.length_put])
    (by rw [hd, List.length_drop]; omega), hd, List.drop_drop, List.append_assoc, withHeader]
  rfl

theorem and_ones (x : UInt8) : 0xff &&& x = x := by
  apply UInt8.toNat_inj.mp
  rw [UInt8.toNat_and]
  exact (Nat.and_comm _ _).trans (Nat.and_two_pow_sub_one_of_lt_two_pow x.toNat_lt)

theorem write_erased (bs : Bytes) :
    List.zipWith (· &&& ·) (List.replicate bs.length 0xff) bs = bs := by
  induction bs with
  | nil => rfl
  | cons b bs ih =>
    rw [List.length_cons, List.replicate_succ, List.zipWith_cons_cons, ih, and_ones]

/-- Erasing and writing the first block stores the new header and nothing else. -/
theorem foldl_rewrite (hes : d.erasesize ≤ m.length) (hd : digest.length = 16) :
    [FlashOp.erase 0, FlashOp.write 0
      (poke (poke (m.take d.erasesize) 8 (Endian.big.put 4 size)) 12 digest)].foldl
        (FlashOp.apply d) m = withHeader m size digest := by
  have hle := d.header_le
  have htake : (m.take d.erasesize).length = d.erasesize := List.length_take_of_le hes
  have hblock : (withHeader (m.take d.erasesize) size digest).length = d.erasesize :=
    (length_withHeader (by omega) hd).trans htake
  rw [poke_header (by omega) hd]
  have herase : FlashOp.apply d m (.erase 0) =
      List.replicate d.erasesize 0xff ++ m.drop d.erasesize := by
    have hlen : (List.replicate d.erasesize (0xff : UInt8)).length =
        (m.take d.erasesize).length := by rw [List.length_replicate, htake]
    have h := poke_zero (b := m.drop d.erasesize) hlen
    rwa [List.take_append_drop] at h
  rw [List.foldl_cons, List.foldl_cons, List.foldl_nil, herase, FlashOp.apply, hblock]
  have hload := load_zero (List.replicate d.erasesize 0xff) (m.drop d.erasesize)
  have hwrite := write_erased (withHeader (m.take d.erasesize) size digest)
  rw [List.length_replicate] at hload
  rw [hblock] at hwrite
  rw [hload, hwrite, poke_zero (by rw [hblock, List.length_replicate])]
  have h8 : entityHeaderSize = 28 := rfl
  simp only [withHeader, List.append_assoc, List.take_take]
  rw [Nat.min_eq_left (by omega), List.drop_take, List.append_cancel_left_eq,
    List.append_cancel_left_eq, List.append_cancel_left_eq]
  have hsplit : d.erasesize = entityHeaderSize + (d.erasesize - entityHeaderSize) := by omega
  nth_rewrite 2 [hsplit]
  rw [← List.drop_drop, List.take_append_drop]

end

/-- The header that a run has written is right for the next run. -/
theorem fix_withHeader (hes : d.erasesize ≤ m.length) (hlt : m.length < 2 ^ 31)
    (hm : magic m = seamaMagic) {size : Nat} (hne : size ≠ 0)
    (hroom : entityHeaderSize + metasize m + size ≤ m.length)
    (hsize : size ≤ if n = 0 then m.length - (entityHeaderSize + metasize m) else n) :
    mtdFixseama d (withHeader m size
      (Md5.digest (load m (entityHeaderSize + metasize m) size))) n = (.fixedAlready, []) := by
  have hd := Md5.length_digest (load m (entityHeaderSize + metasize m) size)
  have hle : entityHeaderSize ≤ m.length := by omega
  generalize hdigest : Md5.digest (load m (entityHeaderSize + metasize m) size) = digest at hd
  have hlen : (withHeader m size digest).length = m.length := length_withHeader hle hd
  have hmeta : metasize (withHeader m size digest) = metasize m := metasize_withHeader hle
  have himage : imagesize (withHeader m size digest) = size := imagesize_withHeader hle (by omega)
  have hds : dataSize d (withHeader m size digest) (withHeader m size digest).length n = size := by
    rw [(dataSize_spec (by omega) (by omega) (by omega)).2, hlen, hmeta, himage]
    omega
  rw [mtdFixseama_eq (by omega) ((magic_withHeader hle).trans hm) (by omega), hds, hmeta,
    seamaFixMd5_eq (by omega) (by omega), (header_take d.header_le _).2.2.2,
    md5_withHeader hle hd, load_withHeader hle hd, if_pos hdigest, rewriteBlock]

/-- What a run leaves, and what the next one does. -/
theorem fix_fix (h : d.Holds m) (hm : magic m = seamaMagic)
    (hfit : entityHeaderSize + metasize m + imagesize m ≤ m.length) (n : Nat) :
    (mtdFixseama d (afterFix d m n) n).2 = [] ∧ (afterFix d m n).length = m.length ∧
      (afterFix d m n).take 8 = m.take 8 ∧
      (afterFix d m n).drop entityHeaderSize = m.drop entityHeaderSize := by
  have hpos : 0 < m.length := by
    rw [entityHeaderSize] at hfit
    omega
  have hes := h.erasesize_le hpos
  have hle := d.header_le
  have hlt := h.lt
  -- a run that does nothing leaves a partition on which the next does nothing
  have hidle (hops : (mtdFixseama d m n).2 = []) :
      (mtdFixseama d (afterFix d m n) n).2 = [] ∧ (afterFix d m n).length = m.length ∧
        (afterFix d m n).take 8 = m.take 8 ∧
        (afterFix d m n).drop entityHeaderSize = m.drop entityHeaderSize := by
    have hsame : afterFix d m n = m := by rw [afterFix, hops, List.foldl_nil]
    rw [hsame]
    exact ⟨hops, rfl, rfl, rfl⟩
  by_cases hi : imagesize m = 0
  · apply hidle
    rw [mtdFixseama, if_neg (by omega)]
    dsimp only
    rw [(header_take hle m).1, (header_take hle m).2.2.1, if_neg (not_not.mpr hm), if_pos hi]
  obtain ⟨hne, hsize⟩ := dataSize_spec (d := d) (n := n) hlt hi hfit
  generalize hds : dataSize d m m.length n = size at hne hsize
  have hle' : size ≤ imagesize m := hsize ▸ Nat.min_le_left _ _
  have hrun := mtdFixseama_eq (n := n) hes hm hi
  rw [hds, seamaFixMd5_eq (by omega) hlt, (header_take hle m).2.2.2] at hrun
  by_cases hdigest : Md5.digest (load m (entityHeaderSize + metasize m) size) = md5 m
  · apply hidle
    rw [hrun, if_pos hdigest, rewriteBlock]
  rw [if_neg hdigest, rewriteBlock] at hrun
  by_cases herases : d.erases = true
  · rw [if_pos herases] at hrun
    have hd := Md5.length_digest (load m (entityHeaderSize + metasize m) size)
    have hafter : afterFix d m n =
        withHeader m size (Md5.digest (load m (entityHeaderSize + metasize m) size)) := by
      rw [afterFix, hrun]
      exact foldl_rewrite hes hd
    rw [hafter, fix_withHeader hes hlt hm hne (by omega) (hsize ▸ Nat.min_le_right _ _)]
    exact ⟨rfl, length_withHeader (by omega) hd, take_withHeader (by omega),
      drop_withHeader (by omega) hd⟩
  · apply hidle
    rw [hrun, if_neg herases]

end

/-- **The fixer.** It takes an entity of the tool for fixed when the length of the meta data fits
the field of the header; otherwise it digests other bytes. A second run on a partition changes
nothing, and what the first changes is the size and the digest. -/
theorem fixseama_iff (d : Mtd) :
    (∀ (os : List Opt) (after : Bytes), d.Holds (oseamaEntity os ++ after) → imageData os ≠ [] →
      (mtdFixseama d (oseamaEntity os ++ after) 0 = (.fixedAlready, []) ↔
        (metaData os).length < 2 ^ 16 ∨
          Md5.digest (seenImage os after) = Md5.digest (imageData os))) ∧
    ∀ (m : Bytes) (n : Nat), d.Holds m → magic m = seamaMagic →
      entityHeaderSize + metasize m + imagesize m ≤ m.length →
      (mtdFixseama d (afterFix d m n) n).2 = [] ∧ (afterFix d m n).length = m.length ∧
        (afterFix d m n).take 8 = m.take 8 ∧
        (afterFix d m n).drop entityHeaderSize = m.drop entityHeaderSize := by
  constructor
  · intro os after h hi
    rw [fixed_entity_iff h hi]
    constructor
    · exact .inr
    · rintro (hlt | heq)
      · rw [seenImage_of_lt hlt]
      · exact heq
  · intro m n h hm hfit
    exact fix_fix h hm hfit n

section

theorem header_le_32 : entityHeaderSize ≤ 32 := by decide

theorem sizeBits_le_32 : 32 ≤ 32 := Nat.le_refl 32

def smallMtd : Mtd := ⟨32, 32, true, header_le_32, sizeBits_le_32⟩

/-- An entity whose digest is not the image's. -/
def unfixed : Bytes := entityHeader 0 1 (List.replicate 16 0) ++ [0x62, 0xff, 0xff, 0xff]

theorem fixseama_iff_small :
    mtdFixseama smallMtd (oseamaEntity [.f (some [0x62])] ++ [0xff, 0xff, 0xff]) 0 =
        (.fixedAlready, []) ∧
      (mtdFixseama smallMtd (afterFix smallMtd unfixed 0) 0).2 = [] := by
  constructor
  · refine ((fixseama_iff smallMtd).1 _ _ ?_ (by decide)).mpr (.inl (by decide))
    constructor <;> rw [List.length_append, length_oseamaEntity] <;> decide
  · exact ((fixseama_iff smallMtd).2 unfixed 0 ⟨by decide, by decide⟩ (by decide) (by decide)).1

theorem header_le_65536 : entityHeaderSize ≤ 65536 := by decide

def largeMtd : Mtd := ⟨65536, 32, true, header_le_65536, sizeBits_le_32⟩

theorem head_metaData_longMeta : (metaData longMeta).head? = some 0x61 := by
  rw [longMeta, metaData, metaData, metaData, List.append_nil, padText, List.head?_append,
    CStr.stored, List.head?_append, List.head?_replicate]
  rfl

theorem fixseama_longMeta :
    mtdFixseama largeMtd (oseamaEntity longMeta ++ List.replicate 65507 0xff) 0 ≠
      (.fixedAlready, []) := by
  have himage : imageData longMeta = [0x62] := rfl
  have hlen := length_oseamaEntity longMeta
  rw [length_metaData_longMeta, himage] at hlen
  have hholds : largeMtd.Holds (oseamaEntity longMeta ++ List.replicate 65507 0xff) := by
    constructor <;> rw [List.length_append, hlen, List.length_replicate] <;> decide
  have hseen : seenImage longMeta (List.replicate 65507 0xff) = [0x61] := by
    have hmeta : metaData longMeta = 0x61 :: (metaData longMeta).tail :=
      List.eq_cons_of_mem_head? head_metaData_longMeta
    rw [seenImage, length_metaData_longMeta, oseamaEntity_eq, himage, hmeta, List.append_assoc,
      List.append_assoc]
    exact load_append_right (length_entityHeader _ _ _)
  rw [ne_eq, fixed_entity_iff hholds (by rw [himage]; decide), hseen, himage]
  decide +kernel

end

end UolaOs.Seama
