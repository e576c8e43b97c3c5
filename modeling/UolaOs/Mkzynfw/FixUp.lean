import UolaOs.Mkzynfw.Offsets

/-!
# The two bytes at the end

The word that `write_out_image` of mkzynfw.c puts behind the data of an image.

* `length_imageData_mod`: the data are whole words;
* `onesSum_imageEnd`: the sum over all of it, and the case in which it is the other zero.
-/

namespace UolaOs.Mkzynfw

/-- The `ocsum` that the header of an image holds. -/
def storedCsum (image : Bytes) : UInt16 := UInt16.ofNat (Endian.big.get (load image 20 2))

section
variable {board : Board} {block : Block} {raws : List Block}

theorem board_aligned : ∀ board ∈ boards, board.romioOffs.toNat % 4 = 0 := by decide

theorem length_imageData_mod (hboard : board ∈ boards) (block : Block) (raws : List Block) :
    (imageData board block raws).length % 2 = 0 := by
  have hend := rawsData_end (ofNat_bootextData board block) raws
  have haligned := board_aligned board hboard
  have hhdr : hdrSize = 48 := rfl
  rw [imageData, List.length_append]
  omega

/-- There is a text in the memory map. -/
theorem mmapBuf_text (board : Board) (addr : UInt32) : (86 : UInt8) ∈ mmapBuf board addr := by
  obtain ⟨rest, htext⟩ : ∃ rest, mmapText board = 86 :: rest := ⟨_, rfl⟩
  have hzeros : (List.replicate mmapDataSize (0 : UInt8)).length = mmapDataSize :=
    List.length_replicate
  have hlt : mmtHdrSize < mmapDataSize := by decide
  have hbuf : (poke (List.replicate mmapDataSize 0) mmtHdrSize (mmapText board))[mmtHdrSize]? =
      some 86 := by
    rw [poke, hzeros, List.getElem?_take_of_lt hlt, htext, List.append_assoc,
      List.getElem?_append_right (by rw [List.length_take]; omega), List.length_take, hzeros,
      Nat.min_eq_left (Nat.le_of_lt hlt), Nat.sub_self]
    rfl
  have hmap : (mmapBuf board addr)[mmtHdrSize]? = some 86 := by
    rw [mmapBuf, getElem?_poke (by simp; decide), if_neg (by simp; decide)]
    exact hbuf
  exact List.mem_of_getElem? hmap

theorem onesSum_imageData_ne (board : Board) (block : Block) (raws : List Block) :
    onesSum (imageData board block raws) ≠ 0 := by
  intro hzero
  have hmem := mmapBuf_text board (board.flashBase + mmapStart board block)
  have hall := onesSum_eq_zero.mp hzero 86 (by
    rw [imageData, bootextData]
    exact List.mem_append_left _ (List.mem_append_left _ (List.mem_append_right _ hmem)))
  exact absurd hall (by decide)

theorem toNat_csumFix (csum ocsum : UInt16) :
    (csumFix csum ocsum).toNat = onesFix 0xffff csum.toNat ocsum.toNat := by
  have hcsum := csum.toNat_lt
  have hocsum := ocsum.toNat_lt
  have hone : (1 : UInt16).toNat = 1 := rfl
  rw [csumFix, onesFix]
  by_cases hle : csum ≤ ocsum
  · have hnat := UInt16.le_iff_toNat_le.mp hle
    rw [if_pos hle, if_pos hnat, UInt16.toNat_sub]
    omega
  · have hnat : ¬ csum.toNat ≤ ocsum.toNat := fun h => hle (UInt16.le_iff_toNat_le.mpr h)
    rw [if_neg hle, if_neg hnat, UInt16.toNat_sub, UInt16.toNat_sub, hone]
    omega

/-- The sum over the data and the word behind them. -/
theorem onesSum_imageEnd (hboard : board ∈ boards) (block : Block) (raws : List Block) :
    onesSum (imageData board block raws ++ Endian.big.put 2 (imageFix board block raws).toNat) =
      if readMagic block.file = 0 then 0xffff else (readMagic block.file).toNat := by
  have hword (n : Nat) (hn : n < 65536) : ∃ a b : UInt8, Endian.big.put 2 n = [a, b] ∧
      256 * a.toNat + b.toNat = n := by
    refine ⟨UInt8.ofNat (n / 256), UInt8.ofNat n, rfl, ?_⟩
    rw [UInt8.toNat_ofNat', UInt8.toNat_ofNat']
    omega
  have hsum := onesSum_le (imageData board block raws)
  have hcsum : (UInt16.ofNat (onesSum (imageData board block raws))).toNat =
      onesSum (imageData board block raws) := by
    rw [UInt16.toNat_ofNat']
    exact Nat.mod_eq_of_lt (Nat.lt_succ_of_le hsum)
  have hmagic : (readMagic block.file).toNat = 0 ↔ readMagic block.file = 0 := @UInt16.toNat_inj _ 0
  obtain ⟨a, b, hput, hvalue⟩ := hword _ (imageFix board block raws).toNat_lt
  rw [hput, onesSum_word (length_imageData_mod hboard block raws), hvalue, imageFix, toNat_csumFix,
    hcsum, onesAdd_onesFix hsum (Nat.le_of_lt_succ (UInt16.toNat_lt _))]
  simp only [hmagic, onesSum_imageData_ne, ne_eq, not_false_eq_true, and_true]

end

/-! ## Every image -/

section
variable {args : Args} {image : Bytes}

theorem findBoard_mem {name : Bytes} {board : Board} (h : findBoard name = some board) :
    board ∈ boards := List.mem_of_find?_eq_some h

/-- The header and the data of a written image. -/
theorem mkzynfw_image (h : mkzynfw args = some image) : ∃ board ∈ boards,
    findBoard args.board = some board ∧
    image = hdrBytes (imageHdr board ⟨0, args.bootext⟩) ++
      imageData board ⟨0, args.bootext⟩ (args.raws.map Raw.block) ++
      Endian.big.put 2 (imageFix board ⟨0, args.bootext⟩ (args.raws.map Raw.block)).toNat := by
  obtain ⟨board, hboard, -, -, himage⟩ := mkzynfw_eq_some h
  rw [writeOutImage_eq] at himage
  split_ifs at himage
  exact ⟨board, findBoard_mem hboard, hboard, (Option.some.inj himage).symm⟩

theorem csumGet_image {chunks : List Bytes} (h : mkzynfw args = some image)
    (hchunks : chunks.flatten = image.drop hdrSize) :
    (csumGet (chunks.foldl (fun css p => csumUpdate p css) csumInit)).toNat =
      if readMagic args.bootext = 0 then 0xffff else (readMagic args.bootext).toNat := by
  obtain ⟨board, hmem, -, rfl⟩ := mkzynfw_image h
  rw [csumGet_chunks, hchunks, List.append_assoc, List.drop_left' (length_hdrBytes _),
    onesSum_imageEnd hmem]

theorem storedCsum_image (h : mkzynfw args = some image) :
    storedCsum image = readMagic args.bootext := by
  obtain ⟨board, -, -, rfl⟩ := mkzynfw_image h
  have hfield (hdr : Hdr) (rest : Bytes) :
      load (hdrBytes hdr ++ rest) 20 2 = Endian.big.put 2 hdr.ocsum.toNat := by
    obtain ⟨front, back, hsplit, hfront⟩ : ∃ front back,
        hdrBytes hdr = front ++ Endian.big.put 2 hdr.ocsum.toNat ++ back ∧ front.length = 20 :=
      ⟨Endian.big.put 4 hdr.addr.toNat ++ [0, 0] ++ ascii "SIG" ++ [hdr.type] ++
        Endian.big.put 4 hdr.osize.toNat ++ [0, 0, 0, 0] ++ [hdr.flags, 0],
        [0, 0] ++ List.replicate 15 0 ++ Endian.big.put 4 hdr.mmapAddr.toNat ++ List.replicate 5 0,
        by simp only [hdrBytes, List.append_assoc], by simp [Endian.length_put, ascii]⟩
    rw [hsplit, load, List.append_assoc, List.append_assoc, List.drop_left' hfront,
      List.take_left' (Endian.length_put _ _ _)]
  rw [storedCsum, List.append_assoc, hfield, Endian.get_put_of_lt _ (UInt16.toNat_lt _),
    UInt16.ofNat_toNat]
  rfl

/-- **The checksum** of an image is the word that its boot extension begins with, where a byte that
is missing counts as zero: any cut of the data behind the header, with the two last bytes, sums up
to it, or to the other zero. -/
theorem image_csum {chunks : List Bytes} (h : mkzynfw args = some image)
    (hchunks : chunks.flatten = image.drop hdrSize) :
    storedCsum image = readMagic args.bootext ∧
      csumGet (chunks.foldl (fun css p => csumUpdate p css) csumInit) =
        if storedCsum image = 0 then 0xffff else storedCsum image := by
  refine ⟨storedCsum_image h, ?_⟩
  have hsum := csumGet_image h hchunks
  rw [storedCsum_image h]
  apply UInt16.toNat_inj.mp
  rw [hsum]
  split_ifs <;> rfl

end

/-- A boot extension that begins with two zeros. -/
def zeroArgs : Args := ⟨ascii "ES-2024A", [0, 0], []⟩

theorem zeroArgs_succeeds : ∃ image, mkzynfw zeroArgs = some image :=
  @mkzynfw_succeeds zeroArgs (admBoard2 "ES-2024A" 221 4) rfl (by decide) rfl (by decide)

theorem image_csum_zeroArgs : ∃ image, mkzynfw zeroArgs = some image ∧
    storedCsum image = 0 ∧
    csumGet ([image.drop hdrSize].foldl (fun css p => csumUpdate p css) csumInit) = 0xffff := by
  obtain ⟨image, himage⟩ := zeroArgs_succeeds
  obtain ⟨hstored, hsum⟩ := @image_csum _ _ [image.drop hdrSize] himage (List.append_nil _)
  have hzero : storedCsum image = 0 := hstored.trans rfl
  exact ⟨image, himage, hzero, by rw [hsum, if_pos hzero]⟩

theorem not_csum_eq : ¬ ∀ (image : Bytes) (chunks : List Bytes), mkzynfw zeroArgs = some image →
    chunks.flatten = image.drop hdrSize →
    csumGet (chunks.foldl (fun css p => csumUpdate p css) csumInit) = storedCsum image := by
  intro hall
  obtain ⟨image, himage⟩ := zeroArgs_succeeds
  have hflatten : [image.drop hdrSize].flatten = image.drop hdrSize := List.append_nil _
  have hsum := csumGet_image himage hflatten
  rw [hall image [image.drop hdrSize] himage hflatten, storedCsum_image himage] at hsum
  exact absurd hsum (by decide)

end UolaOs.Mkzynfw
