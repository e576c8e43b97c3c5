import UolaOs.Lib.Crc32
import UolaOs.Lib.File

/-!
# The TRX tool

`otrx create`, `otrx check` and `otrx extract` of otrx.c, on a little-endian host. There the words
of the header are stored as they are computed.
-/

namespace UolaOs.Otrx

/-! ## The header -/

/-- `TRX_MAGIC` -/
def trxMagic : UInt32 := 0x30524448

/-- `TRX_FLAGS_OFFSET` -/
def trxFlagsOffset : Nat := 12

/-- `TRX_MAX_PARTS` -/
def trxMaxParts : Nat := 3

/-- `sizeof(struct trx_header)` -/
def headerSize : Nat := 28

structure TrxHeader where
  magic : UInt32
  length : UInt32
  crc32 : UInt32
  flags : UInt16
  version : UInt16
  /-- `trxMaxParts` of them. -/
  offset : List UInt32
  deriving DecidableEq

/-- `struct trx_header hdr = {}` -/
def TrxHeader.zero : TrxHeader := ⟨0, 0, 0, 0, 0, List.replicate trxMaxParts 0⟩

def TrxHeader.bytes (h : TrxHeader) : Bytes :=
  Endian.little.put 4 h.magic.toNat ++ (Endian.little.put 4 h.length.toNat ++
    (Endian.little.put 4 h.crc32.toNat ++ (Endian.little.put 2 h.flags.toNat ++
      (Endian.little.put 2 h.version.toNat ++
        h.offset.flatMap fun o => Endian.little.put 4 o.toNat))))

/-- The header at the front of `m`. -/
def TrxHeader.parse (m : Bytes) : TrxHeader where
  magic := word m 0
  length := word m 4
  crc32 := word m 8
  flags := half m 12
  version := half m 14
  offset := [word m 16, word m 20, word m 24]

/-! ## `otrx check` -/

inductive Errno where
  | einval
  | eio
  | enospc
  deriving DecidableEq

/-- `otrx_check` with `-o trxOffset` -/
def otrxCheck (trxOffset : Nat) (m : Bytes) : Except Errno Unit :=
  let bytes := load m trxOffset headerSize
  if bytes.length ≠ headerSize then .error .eio
  else
    let hdr := TrxHeader.parse bytes
    if hdr.magic ≠ trxMagic then .error .einval
    else if hdr.length.toNat < headerSize then .error .einval
    else
      let length := hdr.length.toNat - trxFlagsOffset
      let data := load m (trxOffset + trxFlagsOffset) length
      let crc := copyChunks 1024 UolaOs.crc32 0xffffffff data
      if length - data.length ≠ 0 then .error .eio
      else if crc ≠ hdr.crc32 then .error .einval
      else .ok ()

/-! ## `otrx create` -/

inductive Opt where
  /-- A file that can be read, or none. -/
  | f (file : Option Bytes)
  | A (file : Option Bytes)
  /-- A positive alignment. -/
  | a (alignment : Nat)
  | b (offset : Int)
  deriving DecidableEq

/-- The file and the variables of `otrx_create`. -/
structure Builder where
  trx : File
  hdr : TrxHeader
  currIdx : Nat
  currOffset : Nat

namespace Builder

def start : Builder := ⟨File.create.seek headerSize, TrxHeader.zero, 0, headerSize⟩

/-- `otrx_create_append_file` -/
def appendFile (s : Builder) : Option Bytes → Builder
  | none => s
  | some bs =>
    { s with
      trx := copyChunks 1024 File.write s.trx bs
      currOffset := s.currOffset + bs.length }

/-- `otrx_create_append_zeros` -/
def appendZeros (s : Builder) (length : Nat) : Builder :=
  { s with
    trx := s.trx.write (List.replicate length 0)
    currOffset := s.currOffset + length }

/-- `otrx_create_align` -/
def align (s : Builder) (alignment : Nat) : Builder :=
  s.appendZeros (alignLength s.currOffset alignment)

/-- The next partition starts here. -/
def startPart (s : Builder) : Builder :=
  { s with
    hdr := { s.hdr with offset := s.hdr.offset.set s.currIdx (UInt32.ofNat s.currOffset) }
    currIdx := s.currIdx + 1 }

/-- One round of the option loop. -/
def opt (s : Builder) : Opt → Except Errno Builder
  | .f file =>
    if trxMaxParts ≤ s.currIdx then .error .enospc
    else
      let s := if file.isSome then s.startPart else s
      .ok ((s.appendFile file).align 4)
  | .A file => .ok ((s.appendFile file).align 4)
  | .a alignment => .ok (s.align alignment)
  | .b offset =>
    let sbytes := offset - s.currOffset
    if sbytes < 0 then .ok s else .ok (s.appendZeros sbytes.toNat)

end Builder

/-- `otrx_create_write_hdr`: the header is written, and again with the CRC of what is then in the
file. -/
def writeHdr (trx : File) (hdr : TrxHeader) : File :=
  let hdr := { hdr with magic := trxMagic, version := 1 }
  let trx := (trx.seek 0).write hdr.bytes
  let r := (trx.seek trxFlagsOffset).read (hdr.length.toNat - trxFlagsOffset)
  let hdr := { hdr with crc32 := copyChunks 1024 UolaOs.crc32 0xffffffff r.1 }
  (r.2.seek 0).write hdr.bytes

/-- `otrx_create`: the file it writes. -/
def otrxCreate (os : List Opt) : Except Errno Bytes := do
  let s ← os.foldlM Builder.opt Builder.start
  let s := s.align 0x1000
  return (writeHdr s.trx { s.hdr with length := UInt32.ofNat s.currOffset }).data

/-! ## `otrx extract` -/

/-- `otrx_extract_copy`: the file that it makes. -/
def otrxExtractCopy (m : Bytes) (offset length : Nat) : Bytes :=
  let buf := load m offset length
  if buf.length ≠ length then [] else buf

/-- `otrx_extract` with `-o trxOffset` and a file for partition `i`, the first of which is 0: the
file, if one is made. -/
def otrxExtract (trxOffset : Nat) (m : Bytes) (i : Nat) : Option Bytes :=
  let bytes := load m trxOffset headerSize
  if bytes.length ≠ headerSize then none
  else
    let hdr := TrxHeader.parse bytes
    if hdr.magic ≠ trxMagic then none
    else
      let offset (i : Nat) := hdr.offset.getD i 0
      if trxMaxParts ≤ i ∨ offset i = 0 then none
      else
        let length :=
          if i + 1 ≥ trxMaxParts ∨ offset (i + 1) = 0 then hdr.length - offset i
          else offset (i + 1) - offset i
        some (otrxExtractCopy m (trxOffset + (offset i).toNat) length.toNat)

end UolaOs.Otrx
