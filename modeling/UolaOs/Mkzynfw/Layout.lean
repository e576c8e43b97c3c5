import UolaOs.Mkzynfw.Offsets

/-!
# The layout of a ZyNOS image

Where the parts of an image of mkzynfw.c are, and where they were to be.

* `rawsData_wraps`: a block without an alignment takes the offset around the whole address space;
* `rawsData_eq`: the raw blocks as long as everything is inside of the flash;
* `laidOut_iff`: the images that are laid out.
-/

namespace UolaOs.Mkzynfw

/-! ## The intended layout -/

/-- The alignment of a block: no argument means none. -/
def Raw.alignment (r : Raw) : Nat := r.align.getD 1

/-- The raw files from an offset of the flash on, with padding up to whole words. -/
def layoutRaws : Nat → List Raw → Bytes
  | off, [] => List.replicate (roundUp off 4 - off) 0xff
  | off, r :: raws =>
    List.replicate (roundUp off r.alignment - off) 0xff ++ r.file ++
      layoutRaws (roundUp off r.alignment + r.file.length) raws

/-- The offset behind them. -/
def layoutEnd : Nat → List Raw → Nat
  | off, [] => roundUp off 4
  | off, r :: raws => layoutEnd (roundUp off r.alignment + r.file.length) raws

/-- `MMAP_ALIGN` -/
def mmapAlign : Nat := 16

section
variable (board : Board) (args : Args)

/-- The offset of the memory map. -/
def layoutMmap : Nat := roundUp (board.romioOffs.toNat + hdrSize + args.bootext.length) mmapAlign

def layoutHdr : Hdr :=
  ⟨board.codeStart, 0x03, 2, 0x40, readMagic args.bootext,
    board.flashBase + UInt32.ofNat (layoutMmap board args)⟩

/-- The header, the boot extension and the memory map. -/
def layoutFront : Bytes :=
  hdrBytes (layoutHdr board args) ++ args.bootext ++
    List.replicate (layoutMmap board args -
      (board.romioOffs.toNat + hdrSize + args.bootext.length)) 0xff ++
    mmapBuf board (board.flashBase + UInt32.ofNat (layoutMmap board args))

/-- The offset of the first raw file, less its padding. -/
def layoutStart : Nat := board.romioOffs.toNat + board.bootextSize.toNat

/-- What the image was to be, up to its last two bytes. -/
def layout : Bytes :=
  layoutFront board args ++
    List.replicate (board.bootextSize.toNat - (layoutFront board args).length) 0xff ++
    layoutRaws (layoutStart board) args.raws

/-- The image is laid out, with the memory map inside of the area of the boot extension, and ends
inside of the flash. -/
structure LaidOut (image : Bytes) : Prop where
  parts : ∃ fix : Bytes, fix.length = 2 ∧ image = layout board args ++ fix
  mmap : layoutMmap board args + mmapDataSize ≤ layoutStart board
  flash : board.romioOffs.toNat + image.length ≤ board.flashSize.toNat

/-- Sizes and options for which an image can be laid out. -/
structure Fits : Prop where
  bootext : hdrSize + args.bootext.length + mmapDataSize ≤ board.bootextSize.toNat
  aligned : ∀ r ∈ args.raws, r.align ≠ none
  flash : layoutEnd (layoutStart board) args.raws + 2 ≤ board.flashSize.toNat

end

/-- The alignments of the options are powers of two. -/
def PowersOfTwo (raws : List Raw) : Prop := ∀ r ∈ raws, ∀ a ∈ r.align, ∃ k, a = 2 ^ k

/-! ## Raw blocks -/

section
variable {n : Nat} {off : UInt32} {r : Raw} {raws : List Raw}

theorem Raw.alignment_pos (hpow : PowersOfTwo raws) (hr : r ∈ raws) : 0 < r.alignment := by
  rw [Raw.alignment]
  cases halign : r.align with
  | none => exact Nat.one_pos
  | some a =>
    obtain ⟨k, rfl⟩ := hpow r hr a halign
    exact Nat.two_pow_pos k

theorem length_layoutRaws (hpow : PowersOfTwo raws) (n : Nat) :
    n + (layoutRaws n raws).length = layoutEnd n raws := by
  induction raws generalizing n with
  | nil =>
    have hle := le_roundUp n (by decide : 0 < 4)
    rw [layoutRaws, layoutEnd, List.length_replicate]
    omega
  | cons r raws ih =>
    have hle := le_roundUp n (Raw.alignment_pos hpow List.mem_cons_self)
    have hnext := ih (fun r' hr' => hpow r' (List.mem_cons_of_mem _ hr'))
      (roundUp n r.alignment + r.file.length)
    rw [layoutRaws, layoutEnd, List.length_append, List.length_append, List.length_replicate]
    omega

theorem le_layoutEnd (hpow : PowersOfTwo raws) (n : Nat) : n ≤ layoutEnd n raws := by
  rw [← length_layoutRaws hpow]
  exact Nat.le_add_right _ _

/-- A block without an alignment takes the offset to the start of the flash, past the end of the
address space. -/
theorem rawsData_wraps (hpos : 0 < n) (hoff : UInt32.ofNat n = off)
    (hr : r ∈ raws) (hnone : r.align = none) :
    2 ^ 32 ≤ n + (rawsData off (raws.map Raw.block)).length := by
  induction raws generalizing n off with
  | nil => cases hr
  | cons r' raws ih =>
    have hpad := ofNat_padBytes hoff r'.block.align
    have hnext := ofNat_block hpad r'.block
    rw [List.map_cons, rawsData, List.length_append, List.length_append, ← Nat.add_assoc,
      ← Nat.add_assoc]
    rcases List.mem_cons.mp hr with rfl | hr
    · have halign : r.block.align = 0 := by
        rw [Raw.block, hnone]
        rfl
      rw [halign, align_zero] at hpad
      have hzero := congrArg UInt32.toNat hpad
      rw [UInt32.toNat_ofNat', show (0 : UInt32).toNat = 0 from rfl, ← halign] at hzero
      omega
    · exact ih (by omega) hnext hr

/-- Padding, without a carry. -/
theorem padBytes_eq {y : UInt32} {k : Nat} (hy : y.toNat = 2 ^ k)
    (hoff : off.toNat + 2 ^ k ≤ 2 ^ 32) :
    padBytes off y = List.replicate (roundUp off.toNat (2 ^ k) - off.toNat) 0xff := by
  have halign := toNat_align hy hoff
  have hle := le_roundUp off.toNat (Nat.two_pow_pos k)
  rw [padBytes, UInt32.toNat_sub_of_le, halign]
  exact UInt32.le_iff_toNat_le.mpr (by rw [halign]; exact hle)

theorem Block.bytes_of_lt {block : Block} (h : block.file.length < 2 ^ 32) :
    block.bytes = block.file ∧ block.fileSize.toNat = block.file.length := by
  have hsize : block.fileSize.toNat = block.file.length := by
    rw [Block.fileSize, UInt32.toNat_ofNat']
    exact Nat.mod_eq_of_lt h
  rw [Block.bytes, hsize, List.take_length]
  exact ⟨rfl, rfl⟩

/-- The raw blocks are where they are to be, as long as they end in the lower half of the address
space. -/
theorem rawsData_eq (hpow : PowersOfTwo raws) (haligned : ∀ r ∈ raws, r.align ≠ none)
    (hpos : 0 < off.toNat) (hend : layoutEnd off.toNat raws < 2 ^ 31) :
    rawsData off (raws.map Raw.block) = layoutRaws off.toNat raws := by
  induction raws generalizing off with
  | nil =>
    have hfour : (4 : UInt32).toNat = 2 ^ 2 := rfl
    have hle := le_layoutEnd hpow off.toNat
    rw [List.map_nil, rawsData, padBytes_eq hfour (by omega), layoutRaws]
    rfl
  | cons r raws ih =>
    have hpow' : PowersOfTwo raws := fun r' hr' => hpow r' (List.mem_cons_of_mem _ hr')
    obtain ⟨a, ha⟩ := Option.ne_none_iff_exists'.mp (haligned r List.mem_cons_self)
    obtain ⟨k, rfl⟩ := hpow r List.mem_cons_self a ha
    have halignment : r.alignment = 2 ^ k := by rw [Raw.alignment, ha]; rfl
    rw [layoutEnd, halignment] at hend
    have hnext := le_layoutEnd hpow' (roundUp off.toNat (2 ^ k) + r.file.length)
    have hle := le_roundUp off.toNat (Nat.two_pow_pos k)
    -- the next multiple is not zero
    have hpower : 2 ^ k ≤ roundUp off.toNat (2 ^ k) :=
      Nat.le_of_dvd (by omega) (dvd_roundUp _ _)
    have hy : r.block.align.toNat = 2 ^ k := by
      rw [Raw.block, ha]
      show (UInt32.ofNat (2 ^ k)).toNat = _
      rw [UInt32.toNat_ofNat', Nat.mod_eq_of_lt (by omega)]
    have hroom : off.toNat + 2 ^ k ≤ 2 ^ 32 := by omega
    have hfile : r.block.file.length < 2 ^ 32 := by
      show r.file.length < _
      omega
    obtain ⟨hbytes, hsize⟩ := Block.bytes_of_lt hfile
    have hoff : (align off r.block.align + r.block.fileSize).toNat =
        roundUp off.toNat (2 ^ k) + r.file.length := by
      rw [UInt32.toNat_add, toNat_align hy hroom, hsize]
      show (_ + r.file.length) % _ = _
      omega
    rw [List.map_cons, rawsData, padBytes_eq hy hroom, hbytes,
      ih hpow' (fun r' hr' => haligned r' (List.mem_cons_of_mem _ hr')) (by omega) (hoff ▸ hend),
      layoutRaws, halignment, hoff]
    rfl

end

/-! ## The boot extension -/

/-- The sizes and offsets of the boards. -/
structure Board.Sound (board : Board) : Prop where
  romio : 0 < board.romioOffs.toNat ∧ board.romioOffs.toNat % 16 = 0
  bootext : board.bootextSize.toNat % 16 = 0
  small : board.bootextSize.toNat ≤ 2 ^ 23 ∧ board.flashSize.toNat ≤ 2 ^ 23 ∧
    board.romioOffs.toNat ≤ 2 ^ 23

theorem boards_sound : ∀ board ∈ boards, board.Sound := by
  have hall : ∀ board ∈ boards, (0 < board.romioOffs.toNat ∧ board.romioOffs.toNat % 16 = 0) ∧
      board.bootextSize.toNat % 16 = 0 ∧ board.bootextSize.toNat ≤ 2 ^ 23 ∧
      board.flashSize.toNat ≤ 2 ^ 23 ∧ board.romioOffs.toNat ≤ 2 ^ 23 := by decide
  intro board hboard
  obtain ⟨hromio, hbootext, hsmall⟩ := hall board hboard
  exact ⟨hromio, hbootext, hsmall⟩

section
variable {board : Board} {args : Args}

theorem length_layoutFront (board : Board) (args : Args) :
    board.romioOffs.toNat + (layoutFront board args).length =
      layoutMmap board args + mmapDataSize := by
  have hle := le_roundUp (board.romioOffs.toNat + hdrSize + args.bootext.length)
    (by decide : 0 < mmapAlign)
  rw [layoutFront, List.length_append, List.length_append, List.length_append, length_hdrBytes,
    List.length_replicate, length_mmapBuf, layoutMmap]
  omega

/-- The memory map is inside when the boot extension leaves room for it. -/
theorem layoutMmap_le (hsound : board.Sound)
    (hbootext : hdrSize + args.bootext.length + mmapDataSize ≤ board.bootextSize.toNat) :
    layoutMmap board args + mmapDataSize ≤ layoutStart board := by
  have hromio := hsound.romio.2
  have hsize := hsound.bootext
  have hdata : mmapDataSize = 1024 := rfl
  have hstart : layoutStart board = board.romioOffs.toNat + board.bootextSize.toNat := rfl
  have hdvd : mmapAlign ∣ layoutStart board - mmapDataSize :=
    Nat.dvd_of_mod_eq_zero (by rw [show mmapAlign = 16 from rfl]; omega)
  have hle : layoutMmap board args ≤ layoutStart board - mmapDataSize :=
    (roundUp_le_iff (by decide) hdvd).mpr (by omega)
  omega

/-- The offsets of the boot extension have no carry. -/
theorem toNat_bootext (hsound : board.Sound)
    (hbootext : hdrSize + args.bootext.length + mmapDataSize ≤ board.bootextSize.toNat) :
    (bootextStop board ⟨0, args.bootext⟩).toNat =
        board.romioOffs.toNat + hdrSize + args.bootext.length ∧
      (mmapStart board ⟨0, args.bootext⟩).toNat = layoutMmap board args ∧
      (mmapStop board ⟨0, args.bootext⟩).toNat = layoutMmap board args + mmapDataSize := by
  obtain ⟨hsmall, -, hromio⟩ := hsound.small
  have hhdr : hdrSize = 48 := rfl
  have hdata : mmapDataSize = 1024 := rfl
  have hsize := (@Block.bytes_of_lt ⟨0, args.bootext⟩
    (show args.bootext.length < 2 ^ 32 by omega)).2
  have hstop : (bootextStop board ⟨0, args.bootext⟩).toNat =
      board.romioOffs.toNat + hdrSize + args.bootext.length := by
    rw [bootextStop, UInt32.toNat_add, UInt32.toNat_add, hsize, UInt32.toNat_ofNat']
    dsimp only
    omega
  have hsixteen : (16 : UInt32).toNat = 2 ^ 4 := rfl
  have hstart : (mmapStart board ⟨0, args.bootext⟩).toNat = layoutMmap board args := by
    rw [mmapStart, toNat_align hsixteen (by omega), hstop]
    rfl
  have hle : layoutMmap board args + mmapDataSize ≤ layoutStart board :=
    layoutMmap_le hsound hbootext
  rw [layoutStart] at hle
  refine ⟨hstop, hstart, ?_⟩
  rw [mmapStop, UInt32.toNat_add, hstart, UInt32.toNat_ofNat']
  omega

/-- The boot extension and the memory map are where they are to be. -/
theorem bootextData_eq (hsound : board.Sound)
    (hbootext : hdrSize + args.bootext.length + mmapDataSize ≤ board.bootextSize.toNat) :
    hdrBytes (imageHdr board ⟨0, args.bootext⟩) ++ bootextData board ⟨0, args.bootext⟩ =
        layoutFront board args ++
          List.replicate (board.bootextSize.toNat - (layoutFront board args).length) 0xff ∧
      (rawsStart board ⟨0, args.bootext⟩).toNat = layoutStart board := by
  obtain ⟨hstop, hstart, hmapStop⟩ := toNat_bootext hsound hbootext
  obtain ⟨hsmall, -, hromio⟩ := hsound.small
  have hmap : mmapStart board ⟨0, args.bootext⟩ = UInt32.ofNat (layoutMmap board args) := by
    rw [← hstart, UInt32.ofNat_toNat]
  have hbytes := (@Block.bytes_of_lt ⟨0, args.bootext⟩
    (show args.bootext.length < 2 ^ 32 by omega)).1
  have hsixteen : (16 : UInt32).toNat = 2 ^ 4 := rfl
  have hle : layoutMmap board args + mmapDataSize ≤ layoutStart board :=
    layoutMmap_le hsound hbootext
  have hlayout : layoutStart board = board.romioOffs.toNat + board.bootextSize.toNat := rfl
  have hbehind : board.romioOffs ≤ mmapStop board ⟨0, args.bootext⟩ := by
    have := le_roundUp (board.romioOffs.toNat + hdrSize + args.bootext.length)
      (by decide : 0 < mmapAlign)
    rw [UInt32.le_iff_toNat_le, hmapStop, layoutMmap]
    omega
  have hroomy : Roomy board ⟨0, args.bootext⟩ ↔
      layoutMmap board args + mmapDataSize < layoutStart board := by
    rw [Roomy, UInt32.lt_iff_toNat_lt, UInt32.toNat_sub_of_le _ _ hbehind, hmapStop]
    have := UInt32.le_iff_toNat_le.mp hbehind
    omega
  have hraws : (rawsStart board ⟨0, args.bootext⟩).toNat = layoutStart board := by
    rw [rawsStart]
    split_ifs with hroom
    · rw [UInt32.toNat_add]
      omega
    · have := mt hroomy.mpr hroom
      omega
  have hlength := length_layoutFront board args
  have hrest : (rawsStart board ⟨0, args.bootext⟩ - mmapStop board ⟨0, args.bootext⟩).toNat =
      board.bootextSize.toNat - (layoutFront board args).length := by
    rw [UInt32.toNat_sub_of_le _ _ (UInt32.le_iff_toNat_le.mpr (by omega)), hraws, hmapStop]
    omega
  refine ⟨?_, hraws⟩
  rw [bootextData, hbytes, padBytes_eq hsixteen (by omega), hstop, hrest, imageHdr, hmap,
    layoutFront]
  simp only [List.append_assoc]
  rfl

end

/-! ## Every image -/

section
variable {board : Board} {args : Args} {image : Bytes}

/-- The image of a run for a board. -/
theorem mkzynfw_board (hboard : findBoard args.board = some board)
    (himage : mkzynfw args = some image) : board.Sound ∧ ∃ fix : Bytes, fix.length = 2 ∧
      image = hdrBytes (imageHdr board ⟨0, args.bootext⟩) ++
        imageData board ⟨0, args.bootext⟩ (args.raws.map Raw.block) ++ fix := by
  obtain ⟨board', hboard', -, -, hwrite⟩ := mkzynfw_eq_some himage
  obtain rfl := Option.some.inj (hboard.symm.trans hboard')
  rw [writeOutImage_eq] at hwrite
  split_ifs at hwrite
  exact ⟨boards_sound _ (List.mem_of_find?_eq_some hboard), _, Endian.length_put _ _ _,
    (Option.some.inj hwrite).symm⟩

theorem length_layout (hpow : PowersOfTwo args.raws)
    (hmap : layoutMmap board args + mmapDataSize ≤ layoutStart board) :
    board.romioOffs.toNat + (layout board args).length =
      layoutEnd (layoutStart board) args.raws := by
  have hfront := length_layoutFront board args
  have hlayout : layoutStart board = board.romioOffs.toNat + board.bootextSize.toNat := rfl
  have hraws := length_layoutRaws hpow (layoutStart board)
  rw [layout, List.length_append, List.length_append, List.length_replicate]
  omega

theorem fits_of_laidOut (hboard : findBoard args.board = some board)
    (hpow : PowersOfTwo args.raws) (himage : mkzynfw args = some image)
    (hlaid : LaidOut board args image) : Fits board args := by
  obtain ⟨hsound, fix, hfix, hcode⟩ := mkzynfw_board hboard himage
  obtain ⟨fix', hfix', hparts⟩ := hlaid.parts
  have hmap := hlaid.mmap
  have hflash := hlaid.flash
  have hlayout : layoutStart board = board.romioOffs.toNat + board.bootextSize.toNat := rfl
  refine ⟨?_, ?_, ?_⟩
  · have hle := le_roundUp (board.romioOffs.toNat + hdrSize + args.bootext.length)
      (by decide : 0 < mmapAlign)
    rw [layoutMmap] at hmap
    omega
  · intro r hr hnone
    have hwraps := rawsData_wraps (by have := hsound.romio.1; omega)
      (ofNat_bootextData board ⟨0, args.bootext⟩) hr hnone
    have hlength := congrArg List.length hcode
    rw [List.length_append, List.length_append, length_hdrBytes, imageData, List.length_append]
      at hlength
    have hsmall := hsound.small.2.1
    omega
  · have hlength := congrArg List.length hparts
    rw [List.length_append] at hlength
    have hend := length_layout hpow hmap
    omega

theorem laidOut_of_fits (hboard : findBoard args.board = some board)
    (hpow : PowersOfTwo args.raws) (himage : mkzynfw args = some image)
    (hfits : Fits board args) : LaidOut board args image := by
  obtain ⟨hsound, fix, hfix, hcode⟩ := mkzynfw_board hboard himage
  obtain ⟨hfront, hstart⟩ := bootextData_eq hsound hfits.bootext
  have hmap := layoutMmap_le hsound hfits.bootext
  have hsmall := hsound.small.2.1
  have hflash := hfits.flash
  have hpos : 0 < (rawsStart board ⟨0, args.bootext⟩).toNat := by
    have := hsound.romio.1
    rw [hstart, layoutStart]
    omega
  have hraws := rawsData_eq hpow hfits.aligned hpos (by rw [hstart]; omega)
  have himage : image = layout board args ++ fix := by
    rw [hcode, imageData, hraws, hstart, ← List.append_assoc, hfront, layout]
  refine ⟨⟨fix, hfix, himage⟩, hmap, ?_⟩
  have hend := @length_layout board args hpow hmap
  rw [himage, List.length_append]
  omega

/-- **The layout.** An image is laid out when the boot extension leaves room for the memory map,
each block has an alignment, and the blocks with their padding end inside of the flash. -/
theorem laidOut_iff (hboard : findBoard args.board = some board)
    (hpow : PowersOfTwo args.raws) (himage : mkzynfw args = some image) :
    LaidOut board args image ↔ Fits board args :=
  ⟨fits_of_laidOut hboard hpow himage, laidOut_of_fits hboard hpow himage⟩

end

/-- A file at a multiple of 4 KiB. -/
def alignedArgs : Args := ⟨ascii "ES-2024A", [0x12, 0x34], [⟨[1, 2, 3], some 4096⟩]⟩

theorem alignedArgs_succeeds : ∃ image, mkzynfw alignedArgs = some image :=
  @mkzynfw_succeeds alignedArgs (admBoard2 "ES-2024A" 221 4) rfl (by decide) (by decide)
    (by decide)

theorem laidOut_alignedArgs : ∃ image, mkzynfw alignedArgs = some image ∧
    LaidOut (admBoard2 "ES-2024A" 221 4) alignedArgs image := by
  obtain ⟨image, himage⟩ := alignedArgs_succeeds
  have hpow : PowersOfTwo alignedArgs.raws := by
    intro r hr a ha
    obtain rfl := List.mem_singleton.mp hr
    exact ⟨12, (Option.some.inj ha).symm⟩
  refine ⟨image, himage, (laidOut_iff rfl hpow himage).mpr ⟨by decide, ?_, by decide⟩⟩
  intro r hr
  obtain rfl := List.mem_singleton.mp hr
  exact Option.some_ne_none _

/-- A file without an alignment. -/
def plainArgs : Args := ⟨ascii "ES-2024A", [0x12, 0x34], [⟨[1, 2, 3], none⟩]⟩

theorem plainArgs_succeeds : ∃ image, mkzynfw plainArgs = some image :=
  @mkzynfw_succeeds plainArgs (admBoard2 "ES-2024A" 221 4) rfl (by decide) (by decide)
    (by decide)

theorem not_laidOut_plainArgs : ∃ image, mkzynfw plainArgs = some image ∧
    ¬ LaidOut (admBoard2 "ES-2024A" 221 4) plainArgs image := by
  obtain ⟨image, himage⟩ := plainArgs_succeeds
  refine ⟨image, himage, fun hlaid => ?_⟩
  have hpow : PowersOfTwo plainArgs.raws := by
    intro r hr a ha
    obtain rfl := List.mem_singleton.mp hr
    cases ha
  exact (fits_of_laidOut rfl hpow himage hlaid).aligned _ (List.mem_singleton.mpr rfl) rfl

end UolaOs.Mkzynfw
