import UolaOs.Lib.Crc32
import UolaOs.Lib.File

/-!
# BCM4908 images

`bcm4908img create`, the parser, and `bcm4908img extract` of bcm4908img.c.
-/

namespace UolaOs.Bcm4908img

inductive Errno where
  | einval
  | enoent
  | eio
  | eproto
  deriving DecidableEq

/-- `struct bcm4908img_tail` -/
structure Tail where
  crc32 : UInt32
  version : UInt32
  chipId : UInt32
  flashType : UInt32
  flags : UInt32
  deriving DecidableEq

/-- `sizeof(struct bcm4908img_tail)` -/
def tailSize : Nat := 20

/-- `WFI_VERSION` -/
def wfiVersion : UInt32 := 0x5732

/-- `WFI_NAND128_FLASH` -/
def wfiNand128Flash : UInt32 := 3

/-- `WFI_FLAG_SUPPORTS_BTRM` -/
def wfiFlagSupportsBtrm : UInt32 := 2

def Tail.bytes (t : Tail) : Bytes :=
  Endian.little.put 4 t.crc32.toNat ++ (Endian.little.put 4 t.version.toNat ++
    (Endian.little.put 4 t.chipId.toNat ++ (Endian.little.put 4 t.flashType.toNat ++
      Endian.little.put 4 t.flags.toNat)))

def Tail.parse (m : Bytes) : Tail := ⟨word m 0, word m 4, word m 8, word m 12, word m 16⟩

/-! ## `bcm4908img create` -/

inductive Opt where
  /-- A file that can be read, or none. -/
  | f (file : Option Bytes)
  /-- A positive alignment. -/
  | a (alignment : Nat)
  | A (offset : Int)
  deriving DecidableEq

/-- The file and the variables of `bcm4908img_create`. -/
structure Builder where
  fp : File
  crc32 : UInt32
  curOffset : Nat

namespace Builder

def start : Builder := ⟨File.create, 0xffffffff, 0⟩

/-- One round of `bcm4908img_create_append_file`. -/
def appendChunk (s : Builder) (buf : Bytes) : Builder :=
  { s with
    fp := s.fp.write buf
    crc32 := UolaOs.crc32 s.crc32 buf
    curOffset := s.curOffset + buf.length }

/-- `bcm4908img_create_append_file` -/
def appendFile (s : Builder) : Option Bytes → Builder
  | none => s
  | some bs => copyChunks 1024 appendChunk s bs

/-- `bcm4908img_create_append_zeros` -/
def appendZeros (s : Builder) (length : Nat) : Builder :=
  { s with
    fp := s.fp.write (List.replicate length 0)
    curOffset := s.curOffset + length }

/-- One round of the option loop. -/
def opt (s : Builder) : Opt → Builder
  | .f file => s.appendFile file
  | .a alignment => s.appendZeros (alignLength s.curOffset alignment)
  | .A offset =>
    let bytes := offset - s.curOffset
    if bytes < 0 then s else s.appendZeros bytes.toNat

end Builder

/-- `bcm4908img_create`: the file it writes. It returns 0 also when a file cannot be opened. -/
def bcm4908imgCreate (os : List Opt) : Bytes :=
  let s := os.foldl Builder.opt Builder.start
  let tail : Tail := ⟨s.crc32, wfiVersion, 0x4908, wfiNand128Flash, wfiFlagSupportsBtrm⟩
  (s.fp.write tail.bytes).data

/-! ## `bcm4908img_parse` -/

structure Info where
  cferomOffset : Nat
  bootfsOffset : Nat
  paddingOffset : Nat
  rootfsOffset : Nat
  tailOffset : Nat
  crc32 : UInt32
  tail : Tail
  deriving DecidableEq

/-- The distance of the offsets that are looked at. -/
def blockSize : Nat := 0x20000

/-- `UBI_EC_HDR_MAGIC` -/
def ubiEcHdrMagic : Nat := 0x55424923

/-- The magic of a `chk_header`. -/
def chkMagic : Nat := 0x2a23245e

/-- `".LINKSYS."` -/
def linksysMagic : Bytes := [0x2e, 0x4c, 0x49, 0x4e, 0x4b, 0x53, 0x59, 0x53, 0x2e]

/-- `sizeof(struct linksys_tail)` -/
def linksysTailSize : Nat := 256

def isAllFf (buf : Bytes) : Bool := buf.all fun b => b = 0xff

/-- The loop for the bootfs. It ends before `fuel` does when that is at least `tailOffset`. -/
def findBootfs (m : Bytes) (tailOffset : Nat) : Nat → Nat → Except Errno Nat
  | 0, _ => .error .eproto
  | fuel + 1, bootfsOffset =>
    if tailOffset ≤ bootfsOffset then .error .eproto
    else
      let tmp16 := load m bootfsOffset 2
      if tmp16.length ≠ 2 then .error .eio
      else if Endian.big.get tmp16 = 0x8519 then .ok bootfsOffset
      else findBootfs m tailOffset fuel (bootfsOffset + blockSize)

/-- The loop for the rootfs: `padding_offset` and `rootfs_offset`. -/
def findRootfs (m : Bytes) (tailOffset : Nat) : Nat → Nat → Nat → Except Errno (Nat × Nat)
  | 0, _, _ => .error .eproto
  | fuel + 1, paddingOffset, rootfsOffset =>
    if tailOffset ≤ rootfsOffset then .error .eproto
    else
      let length := if paddingOffset ≠ 0 then 4 else 256
      let buf := load m rootfsOffset length
      if buf.length ≠ length then .error .eio
      else
        let paddingOffset :=
          if paddingOffset = 0 ∧ isAllFf buf = true then rootfsOffset else paddingOffset
        if Endian.big.get (load buf 0 4) = ubiEcHdrMagic then .ok (paddingOffset, rootfsOffset)
        else findRootfs m tailOffset fuel paddingOffset (rootfsOffset + blockSize)

/-- Where the image starts, behind a vendor header. -/
def cferomOffset (m : Bytes) : Nat :=
  if Endian.big.get (load m 0 4) = chkMagic then Endian.big.get (load m 4 4) else 0

/-- Where the tail starts, before a vendor tail. -/
def tailOffset (m : Bytes) : Nat :=
  if load m (m.length - linksysTailSize) 9 = linksysMagic then
    m.length - tailSize - linksysTailSize
  else m.length - tailSize

/-- The end of `bcm4908img_parse`: the CRC and the tail. -/
def checkTail (m : Bytes) (cferomOffset bootfsOffset paddingOffset rootfsOffset tailOffset : Nat) :
    Except Errno Info :=
  let length := tailOffset - cferomOffset
  let data := load m cferomOffset length
  if length - data.length ≠ 0 then .error .eio
  else
    let crc := copyChunks 1024 UolaOs.crc32 0xffffffff data
    let bytes := load m tailOffset tailSize
    if bytes.length ≠ tailSize then .error .eio
    else
      let tail := Tail.parse bytes
      if crc ≠ tail.crc32 then .error .eproto
      else
        .ok ⟨cferomOffset, bootfsOffset, paddingOffset, rootfsOffset, tailOffset, crc, tail⟩

/-- `bcm4908img_parse` -/
def bcm4908imgParse (m : Bytes) : Except Errno Info :=
  -- the first and the last 1024 bytes are read
  if m.length < 1024 then .error .eio
  else do
    let bootfsOffset ← findBootfs m (tailOffset m) (tailOffset m) (cferomOffset m)
    let (paddingOffset, rootfsOffset) ←
      findRootfs m (tailOffset m) (tailOffset m) 0 bootfsOffset
    checkTail m (cferomOffset m) bootfsOffset paddingOffset rootfsOffset (tailOffset m)

/-! ## `bcm4908img extract` -/

inductive Part where
  | cferom
  | bootfs
  | rootfs
  | firmware
  deriving DecidableEq

/-- Offset and length of a part. -/
def Info.range (info : Info) : Part → Nat × Nat
  | .cferom => (info.cferomOffset, info.bootfsOffset - info.cferomOffset)
  | .bootfs =>
    (info.bootfsOffset, (if info.paddingOffset ≠ 0 then info.paddingOffset else info.rootfsOffset) -
      info.bootfsOffset)
  | .rootfs => (info.rootfsOffset, info.tailOffset - info.rootfsOffset)
  | .firmware => (info.bootfsOffset, info.tailOffset - info.bootfsOffset)

/-- The end of `bcm4908img_extract`: what it writes. The type is none when `-t` is missing or
unknown. -/
def copyOut (m : Bytes) (info : Info) : Option Part → Except Errno Bytes
  | none => .error .einval
  | some part =>
    let offset := (info.range part).1
    let length := (info.range part).2
    if length = 0 then .error (if part = .cferom then .enoent else .einval)
    else
      let data := load m offset length
      if length - data.length ≠ 0 then .error .eio
      else .ok (copyChunks 1024 (fun out buf => out ++ buf) [] data)

/-- `bcm4908img_extract` -/
def bcm4908imgExtract (m : Bytes) (type : Option Part) : Except Errno Bytes := do
  let info ← bcm4908imgParse m
  copyOut m info type

end UolaOs.Bcm4908img
