import UolaOs.Lib.CString
import UolaOs.Mkzynfw.Csum

/-!
# The writer of a ZyNOS image

`process_blocks` and `write_out_image` of mkzynfw.c, with the boards. The files are given by what
is in them.

* `Wrote`: what was written behind a file, with the checksum taken along;
* `writeOutImage_eq`: the image of a run in terms of the 32-bit offsets.
-/

namespace UolaOs.Mkzynfw

/-! ## Boards -/

/-- `struct board_info`, less the description. -/
structure Board where
  name : Bytes
  vendor : UInt16
  model : UInt16
  flashBase : UInt32
  flashSize : UInt32
  codeStart : UInt32
  romioOffs : UInt32
  bootextSize : UInt32

/-- `MID` -/
def mid (x : UInt16) : UInt16 := ((x &&& 0xff) <<< 8) ||| ((x &&& 0xff00) >>> 8)

def bootextDefSize : UInt32 := 0x18000

/-- `ADMBOARD1`, `ADMBOARD2` and `ATHEROSBOARD1`, which are `BOARD` of the vendor ZyXEL. -/
def zyxelBoard (name : String) (model : UInt16) (fb fs cs fo : UInt32) : Board :=
  ⟨ascii name, 0, mid model, fb, fs <<< 20, cs, fo, bootextDefSize⟩

def admBoard1 (name : String) (model : UInt16) (fs : UInt32) : Board :=
  zyxelBoard name model 0xbfc00000 fs 0x80008000 0x8000

def admBoard2 (name : String) (model : UInt16) (fs : UInt32) : Board :=
  zyxelBoard name model 0xbfc00000 fs 0x80008000 0x10000

def atherosBoard1 (name : String) (model : UInt16) (fs : UInt32) : Board :=
  zyxelBoard name model 0xbfc00000 fs 0x80e00000 0x30000

def ar71xxBoard1 (name : String) (model : UInt16) (fs : UInt32) : Board :=
  ⟨ascii name, 0, mid model, 0xbfc00000, fs <<< 20, 0x81e00000, 0x40000, 0x30000⟩

def boards : List Board :=
  [admBoard2 "ES-2024A" 221 4, admBoard2 "ES-2024PWR" 4097 4, admBoard2 "ES-2108" 61952 4,
    admBoard2 "ES-2108-F" 44801 4, admBoard2 "ES-2108-G" 62208 4, admBoard2 "ES-2108-LC" 64512 4,
    admBoard2 "ES-2108PWR" 62464 4, admBoard1 "HS-100" 61855 2, admBoard1 "HS-100W" 61855 2,
    admBoard1 "P-334" 62879 2, admBoard1 "P-334U" 56735 4, admBoard1 "P-334W" 62367 2,
    admBoard1 "P-334WH" 57344 4, admBoard1 "P-334WHD" 57600 4, admBoard1 "P-334WT" 61343 4,
    admBoard1 "P-335" 60831 4, admBoard1 "P-335Plus" 9472 4, admBoard1 "P-335U" 56479 4,
    admBoard1 "P-335WT" 60831 4,
    ⟨ascii "P-2602HW-D1A", 0, mid 6301, 0xb0000000, 4 * 1024 * 1024, 0x94008000, 0x20000,
      bootextDefSize⟩,
    ⟨ascii "O2SURF", 10, mid 30464, 0xb0000000, 8 * 1024 * 1024, 0x94014000, 0x40000,
      bootextDefSize⟩,
    atherosBoard1 "NBG-318S" 59392 4, ar71xxBoard1 "NBG-460N" 61441 4]

def toLower (c : UInt8) : UInt8 := if 0x41 ≤ c ∧ c ≤ 0x5a then c + 0x20 else c

/-- `find_board`, with `strcasecmp`. -/
def findBoard (name : Bytes) : Option Board :=
  boards.find? fun board => name.map toLower == board.name.map toLower

/-! ## Writing -/

/-- The output file and the checksum of what is behind its header. -/
structure Out where
  file : Bytes
  css : CsumState

def writeOutData (data : Bytes) (out : Out) : Out := ⟨out.file ++ data, csumUpdate data out.css⟩

def writeOutPadding (len : Nat) (padc : UInt8) (out : Out) : Out :=
  if 0 < len then
    let buflen := min len 512
    writeOutPadding (len - buflen) padc (writeOutData (List.replicate buflen padc) out)
  else out
  termination_by len

/-- `FILE_BUF_LEN` -/
def fileBufLen : Nat := 16 * 1024

def writeOutFile (f : Bytes) (len : Nat) (out : Out) : Out :=
  if 0 < len then
    let buflen := min len fileBufLen
    writeOutFile (f.drop buflen) (len - buflen) (writeOutData (f.take buflen) out)
  else out
  termination_by len
  decreasing_by
    have hsize : fileBufLen = 16384 := rfl
    omega

/-- `struct fw_block`, with what is in its file. -/
structure Block where
  align : UInt32
  file : Bytes

/-- `block_stat_file` -/
def Block.fileSize (block : Block) : UInt32 := UInt32.ofNat block.file.length

def writeOutBlock (block : Block) (out : Out) : Out :=
  if block.fileSize = 0 then out else writeOutFile block.file block.fileSize.toNat out

/-- `struct zyn_rombin_hdr`, less the fields that stay zero. -/
structure Hdr where
  addr : UInt32
  type : UInt8
  osize : UInt32
  flags : UInt8
  ocsum : UInt16
  mmapAddr : UInt32

def hdrBytes (hdr : Hdr) : Bytes :=
  Endian.big.put 4 hdr.addr.toNat ++ [0, 0] ++ ascii "SIG" ++ [hdr.type] ++
    Endian.big.put 4 hdr.osize.toNat ++ [0, 0, 0, 0] ++ [hdr.flags, 0] ++
    Endian.big.put 2 hdr.ocsum.toNat ++ [0, 0] ++ List.replicate 15 0 ++
    Endian.big.put 4 hdr.mmapAddr.toNat ++ List.replicate 5 0

def hdrSize : Nat := 48

/-- `write_out_header`, which goes back to the start of the file. -/
def writeOutHeader (hdr : Hdr) (out : Out) : Out :=
  { out with file := hdrBytes hdr ++ out.file.drop hdrSize }

/-! ## The memory map -/

def mmapDataSize : Nat := 1024

/-- `sizeof(struct zyn_mmt_hdr)` -/
def mmtHdrSize : Nat := 24

def decimal (n : Nat) : Bytes := (Nat.toDigits 10 n).map fun c => UInt8.ofNat c.toNat

/-- The user data, with `mid` for the swap of `BE16_TO_HOST`. -/
def mmapText (board : Board) : Bytes :=
  ascii "Vendor 1 " ++ decimal board.vendor.toNat ++ [0] ++
    ascii "Model 1 " ++ decimal (mid board.model).toNat ++ [0] ++ ascii "HwVerRange 2 0 0" ++ [0]

/-- The buffer of `write_out_mmap`. -/
def mmapBuf (board : Board) (addr : UInt32) : Bytes :=
  let buf := poke (List.replicate mmapDataSize 0) mmtHdrSize (mmapText board)
  let userSize := mmtHdrSize + (mmapText board).length
  let start := addr + UInt32.ofNat mmtHdrSize
  let stop := addr + UInt32.ofNat userSize
  let csum := csumBuf (load buf mmtHdrSize userSize)
  poke buf 0 ([0, 0] ++ Endian.big.put 4 start.toNat ++ Endian.big.put 4 stop.toNat ++
    Endian.big.put 2 csum.toNat ++ List.replicate 12 0)

/-! ## The image -/

/-- `ALIGN` -/
def align (x y : UInt32) : UInt32 := (x + (y - 1)) &&& ~~~(y - 1)

/-- Padding up to an alignment, and the offset behind it. -/
def padTo (y : UInt32) (s : UInt32 × Out) : UInt32 × Out :=
  let padlen := align s.1 y - s.1
  (s.1 + padlen, writeOutPadding padlen.toNat 0xff s.2)

/-- The boot extension and the memory map: where this is, and the offset behind its area. -/
def writeBootext (board : Board) (block : Block) (out : Out) : Option (UInt32 × UInt32 × Out) :=
  let offset := board.romioOffs + UInt32.ofNat hdrSize
  let out := writeOutBlock block out
  let offset := offset + block.fileSize
  if board.romioOffs + board.bootextSize < offset then none
  else
    let (offset, out) := padTo 16 (offset, out)
    let mmap := offset
    let out := writeOutData (mmapBuf board (board.flashBase + mmap)) out
    let offset := offset + UInt32.ofNat mmapDataSize
    if offset - board.romioOffs < board.bootextSize then
      let padlen := board.romioOffs + board.bootextSize - offset
      some (mmap, offset + padlen, writeOutPadding padlen.toNat 0xff out)
    else some (mmap, offset, out)

/-- A round of the loop over the raw blocks. -/
def writeRaw (s : UInt32 × Out) (block : Block) : UInt32 × Out :=
  let (offset, out) := padTo block.align s
  (offset + block.fileSize, writeOutBlock block out)

/-- `read_magic`: the bytes that a shorter file lacks stay zero. -/
def readMagic (bootext : Bytes) : UInt16 :=
  UInt16.ofNat (Endian.big.get ((bootext ++ [0, 0]).take 2))

/-- The word that is put behind the data. -/
def csumFix (csum ocsum : UInt16) : UInt16 :=
  if csum ≤ ocsum then ocsum - csum else ocsum - csum - 1

def writeOutImage (board : Board) (bootext : Block) (raws : List Block) : Option Bytes :=
  let hdr : Hdr := ⟨board.codeStart, 0x03, 0, 0x40, 0, 0⟩
  let out := writeOutHeader hdr ⟨[], csumInit⟩
  match writeBootext board bootext out with
  | none => none
  | some (mmap, offset, out) =>
    let (_, out) := padTo 4 (raws.foldl writeRaw (offset, out))
    let csum := csumGet out.css
    let hdr := { hdr with mmapAddr := board.flashBase + mmap, osize := 2 }
    let hdr := { hdr with ocsum := readMagic bootext.file }
    let t := csumFix csum hdr.ocsum
    let out := { out with file := out.file ++ Endian.big.put 2 t.toNat }
    some (writeOutHeader hdr out).file

/-! ## The program -/

/-- A `-r` option: the file, and the number behind the colon if there is one. -/
structure Raw where
  file : Bytes
  align : Option Nat

/-- The block of `parse_opt_block`, with the number cut to 32 bits. -/
def Raw.block (r : Raw) : Block := ⟨UInt32.ofNat (r.align.getD 0), r.file⟩

/-- `calc_block_offsets` -/
def calcBlockOffsets (flashSize : UInt32) : UInt32 → List Block → Bool
  | _, [] => true
  | offset, block :: blocks =>
    let nextOffs := align offset block.align
    let avail := flashSize - nextOffs
    if avail < block.fileSize then false
    else calcBlockOffsets flashSize (offset + block.fileSize) blocks

/-- The options `-B`, `-b` and `-r`. -/
structure Args where
  board : Bytes
  bootext : Bytes
  raws : List Raw

def maxNumBlocks : Nat := 8

/-- The image, when the program exits successfully. -/
def mkzynfw (args : Args) : Option Bytes :=
  match findBoard args.board with
  | none => none
  | some board =>
    let bootext : Block := ⟨0, args.bootext⟩
    let raws := args.raws.map Raw.block
    if maxNumBlocks < raws.length + 1 then none
    else if calcBlockOffsets board.flashSize (board.romioOffs + bootext.fileSize) raws then
      writeOutImage board bootext raws
    else none

/-! ## What is written -/

/-- `xs` was written behind what was there, and is in the checksum. -/
structure Wrote (xs : Bytes) (a b : Out) : Prop where
  file : b.file = a.file ++ xs
  css : ∀ s, Follows a.css s → Follows b.css (xs.foldl onesByte s)

section
variable {xs ys : Bytes} {a b c : Out}

theorem Wrote.nil (a : Out) : Wrote [] a a := ⟨(List.append_nil _).symm, fun _ h => h⟩

theorem Wrote.append (hxs : Wrote xs a b) (hys : Wrote ys b c) : Wrote (xs ++ ys) a c where
  file := by rw [hys.file, hxs.file, List.append_assoc]
  css := fun s h => by
    rw [List.foldl_append]
    exact hys.css _ (hxs.css s h)

theorem wrote_data (data : Bytes) (out : Out) : Wrote data out (writeOutData data out) :=
  ⟨rfl, fun _ h => csumUpdate_follows data h⟩

theorem wrote_padding (len : Nat) (padc : UInt8) (out : Out) :
    Wrote (List.replicate len padc) out (writeOutPadding len padc out) := by
  induction len, out using writeOutPadding.induct padc with
  | case1 len out hpos buflen ih =>
    have hle : buflen ≤ len := Nat.min_le_left _ _
    have hsplit : List.replicate len padc =
        List.replicate buflen padc ++ List.replicate (len - buflen) padc := by
      rw [← List.replicate_add, Nat.add_sub_cancel' hle]
    rw [writeOutPadding, if_pos hpos, hsplit]
    exact (wrote_data _ out).append ih
  | case2 len out hpos =>
    rw [writeOutPadding, if_neg hpos, Nat.eq_zero_of_not_pos hpos]
    exact Wrote.nil out

theorem wrote_file (f : Bytes) (len : Nat) (out : Out) :
    Wrote (f.take len) out (writeOutFile f len out) := by
  induction f, len, out using writeOutFile.induct with
  | case1 f len out hpos buflen ih =>
    have hle : buflen ≤ len := Nat.min_le_left _ _
    have hsplit : f.take len = f.take buflen ++ (f.drop buflen).take (len - buflen) := by
      rw [← List.take_add, Nat.add_sub_cancel' hle]
    rw [writeOutFile, if_pos hpos, hsplit]
    exact (wrote_data _ out).append ih
  | case2 f len out hpos =>
    rw [writeOutFile, if_neg hpos, Nat.eq_zero_of_not_pos hpos]
    exact Wrote.nil out

/-- The part of a file that is written. -/
def Block.bytes (block : Block) : Bytes := block.file.take block.fileSize.toNat

theorem wrote_block (block : Block) (out : Out) :
    Wrote block.bytes out (writeOutBlock block out) := by
  rw [writeOutBlock, Block.bytes]
  split_ifs with hzero
  · rw [hzero]
    exact Wrote.nil out
  · exact wrote_file _ _ out

def padBytes (off y : UInt32) : Bytes := List.replicate (align off y - off).toNat 0xff

theorem add_sub_self (x y : UInt32) : x + (y - x) = y := by
  rw [UInt32.add_comm, UInt32.sub_add_cancel]

theorem padTo_fst (y : UInt32) (s : UInt32 × Out) : (padTo y s).1 = align s.1 y :=
  add_sub_self _ _

theorem wrote_padTo (y : UInt32) (s : UInt32 × Out) : Wrote (padBytes s.1 y) s.2 (padTo y s).2 :=
  wrote_padding _ _ _

/-- The raw blocks from an offset on, with the padding behind the last one. -/
def rawsData : UInt32 → List Block → Bytes
  | off, [] => padBytes off 4
  | off, block :: blocks =>
    padBytes off block.align ++ block.bytes ++ rawsData (align off block.align + block.fileSize) blocks

theorem wrote_raws (raws : List Block) (s : UInt32 × Out) :
    Wrote (rawsData s.1 raws) s.2 (padTo 4 (raws.foldl writeRaw s)).2 := by
  induction raws generalizing s with
  | nil => exact wrote_padTo 4 s
  | cons block raws ih =>
    have hraw : Wrote (padBytes s.1 block.align ++ block.bytes) s.2 (writeRaw s block).2 :=
      (wrote_padTo block.align s).append (wrote_block block _)
    have hnext : (writeRaw s block).1 = align s.1 block.align + block.fileSize :=
      congrArg (· + block.fileSize) (padTo_fst block.align s)
    rw [List.foldl_cons, rawsData, ← hnext]
    exact hraw.append (ih _)

/-- The offset behind the boot extension. -/
def bootextStop (board : Board) (block : Block) : UInt32 :=
  board.romioOffs + UInt32.ofNat hdrSize + block.fileSize

/-- Where the memory map is. -/
def mmapStart (board : Board) (block : Block) : UInt32 := align (bootextStop board block) 16

def mmapStop (board : Board) (block : Block) : UInt32 :=
  mmapStart board block + UInt32.ofNat mmapDataSize

/-- There is room behind the memory map. -/
def Roomy (board : Board) (block : Block) : Prop :=
  mmapStop board block - board.romioOffs < board.bootextSize

instance (board : Board) (block : Block) : Decidable (Roomy board block) :=
  inferInstanceAs (Decidable (_ < _))

/-- The offset of the first raw block, less its padding. -/
def rawsStart (board : Board) (block : Block) : UInt32 :=
  if Roomy board block then board.romioOffs + board.bootextSize else mmapStop board block

def bootextData (board : Board) (block : Block) : Bytes :=
  block.bytes ++ padBytes (bootextStop board block) 16 ++
    mmapBuf board (board.flashBase + mmapStart board block) ++
    List.replicate (rawsStart board block - mmapStop board block).toNat 0xff

/-- The boot extension is not refused. -/
theorem writeBootext_eq {board : Board} {block : Block} (out : Out)
    (hfits : ¬ board.romioOffs + board.bootextSize < bootextStop board block) :
    ∃ out', writeBootext board block out =
        some (mmapStart board block, rawsStart board block, out') ∧
      Wrote (bootextData board block) out out' := by
  have hpad := wrote_padTo 16 (bootextStop board block, writeOutBlock block out)
  have hmap := ((wrote_block block out).append hpad).append
    (wrote_data (mmapBuf board (board.flashBase + mmapStart board block)) _)
  have hoff : board.romioOffs + UInt32.ofNat hdrSize + block.fileSize = bootextStop board block :=
    rfl
  have hstart : (padTo 16 (bootextStop board block, writeOutBlock block out)).1 =
    mmapStart board block := padTo_fst 16 _
  rw [writeBootext]
  dsimp only
  rw [hoff, if_neg hfits, hstart, bootextData, rawsStart]
  by_cases hroomy : Roomy board block
  · rw [if_pos hroomy, Roomy, mmapStop] at *
    rw [if_pos hroomy]
    exact ⟨_, by rw [add_sub_self], hmap.append (wrote_padding _ _ _)⟩
  · rw [if_neg hroomy, UInt32.sub_self]
    rw [Roomy, mmapStop] at hroomy
    rw [if_neg hroomy]
    exact ⟨_, rfl, hmap.append (Wrote.nil _)⟩

/-- The header of the image. -/
def imageHdr (board : Board) (block : Block) : Hdr :=
  ⟨board.codeStart, 0x03, 2, 0x40, readMagic block.file, board.flashBase + mmapStart board block⟩

/-- What is between the header and the last two bytes. -/
def imageData (board : Board) (block : Block) (raws : List Block) : Bytes :=
  bootextData board block ++ rawsData (rawsStart board block) raws

def imageFix (board : Board) (block : Block) (raws : List Block) : UInt16 :=
  csumFix (UInt16.ofNat (onesSum (imageData board block raws))) (readMagic block.file)

theorem length_hdrBytes (hdr : Hdr) : (hdrBytes hdr).length = hdrSize := by
  simp only [hdrBytes, List.length_append, Endian.length_put, List.length_replicate,
    List.length_cons, List.length_nil]
  rfl

/-- **The image** of a run, in terms of the 32-bit offsets. -/
theorem writeOutImage_eq (board : Board) (block : Block) (raws : List Block) :
    writeOutImage board block raws =
      if board.romioOffs + board.bootextSize < bootextStop board block then none
      else some (hdrBytes (imageHdr board block) ++ imageData board block raws ++
        Endian.big.put 2 (imageFix board block raws).toNat) := by
  rw [writeOutImage]
  dsimp only
  split_ifs with hlarge
  · have hrefused (out : Out) : writeBootext board block out = none := if_pos hlarge
    rw [hrefused]
  · obtain ⟨out, hout, hwrote⟩ := writeBootext_eq
      (writeOutHeader ⟨board.codeStart, 0x03, 0, 0x40, 0, 0⟩ ⟨[], csumInit⟩) hlarge
    have hdata : Wrote (imageData board block raws) _ _ :=
      hwrote.append (wrote_raws raws (rawsStart board block, out))
    have hcsum := (hdata.css _ follows_init).csumGet
    have hsum : csumGet (padTo 4 (raws.foldl writeRaw (rawsStart board block, out))).2.css =
        UInt16.ofNat (onesSum (imageData board block raws)) := by
      apply UInt16.toNat_inj.mp
      rw [hcsum, UInt16.toNat_ofNat']
      exact (Nat.mod_eq_of_lt (Nat.lt_succ_of_le (onesSum_le _))).symm
    rw [hout]
    dsimp only
    rw [hsum, writeOutHeader, hdata.file, writeOutHeader]
    dsimp only
    rw [List.drop_nil, List.append_nil, List.append_assoc,
      List.drop_left' (length_hdrBytes _), List.append_assoc]
    rfl

/-- What a successful run went through. -/
theorem mkzynfw_eq_some {args : Args} {image : Bytes} (h : mkzynfw args = some image) :
    ∃ board, findBoard args.board = some board ∧
      args.raws.length < maxNumBlocks ∧
      calcBlockOffsets board.flashSize (board.romioOffs + Block.fileSize ⟨0, args.bootext⟩)
        (args.raws.map Raw.block) = true ∧
      writeOutImage board ⟨0, args.bootext⟩ (args.raws.map Raw.block) = some image := by
  rw [mkzynfw] at h
  cases hboard : findBoard args.board with
  | none => simp [hboard] at h
  | some board =>
    rw [hboard] at h
    dsimp only at h
    rw [List.length_map] at h
    split_ifs at h with hcount hcalc
    exact ⟨board, rfl, by omega, hcalc, h⟩

/-- What it takes to succeed. -/
theorem mkzynfw_succeeds {args : Args} {board : Board} (hboard : findBoard args.board = some board)
    (hcount : args.raws.length < maxNumBlocks)
    (hcalc : calcBlockOffsets board.flashSize
      (board.romioOffs + Block.fileSize ⟨0, args.bootext⟩) (args.raws.map Raw.block) = true)
    (hbootext : ¬ board.romioOffs + board.bootextSize < bootextStop board ⟨0, args.bootext⟩) :
    ∃ image, mkzynfw args = some image := by
  have hmany : ¬ maxNumBlocks < (args.raws.map Raw.block).length + 1 := by
    rw [List.length_map]
    omega
  rw [mkzynfw, hboard]
  dsimp only
  rw [if_neg hmany, if_pos hcalc, writeOutImage_eq, if_neg hbootext]
  exact ⟨_, rfl⟩

end

end UolaOs.Mkzynfw
