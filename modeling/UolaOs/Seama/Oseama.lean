import UolaOs.Lib.CString
import UolaOs.Lib.File
import UolaOs.Seama.Md5

/-!
# The Seama tool

`oseama entity` and `oseama extract` of oseama.c. An entity has a header, meta data and an image;
the options are gone through twice, first for the meta data and then for the image.
-/

namespace UolaOs.Seama

/-! ## Headers -/

/-- `SEAMA_MAGIC` -/
def seamaMagic : Nat := 0x5ea3a417

/-- `sizeof(struct seama_entity_header)` -/
def entityHeaderSize : Nat := 28

/-- `sizeof(struct seama_seal_header)` -/
def sealHeaderSize : Nat := 12

/-- The fields of a header at the front of `m`. A seal and an entity have the first four. -/
def magic (m : Bytes) : Nat := Endian.big.get (load m 0 4)
def metasize (m : Bytes) : Nat := Endian.big.get (load m 6 2)
def imagesize (m : Bytes) : Nat := Endian.big.get (load m 8 4)
def md5 (m : Bytes) : Bytes := load m 12 16

/-! ## `oseama entity` -/

inductive Opt where
  | m (text : CStr)
  /-- A file that can be read, or none. -/
  | f (file : Option Bytes)
  | b (offset : Int)

/-- The file and the variables of `oseama_entity`. -/
structure Builder where
  seama : File
  currOffset : Nat
  metasize : Nat
  imagesize : Nat

namespace Builder

def start : Builder := ⟨File.create.seek entityHeaderSize, entityHeaderSize, 0, 0⟩

def appendMeta (s : Builder) (bs : Bytes) : Builder :=
  { s with
    seama := s.seama.write bs
    currOffset := s.currOffset + bs.length
    metasize := s.metasize + bs.length }

def appendZeros (s : Builder) (length : Nat) : Builder :=
  { s with
    seama := s.seama.write (List.replicate length 0)
    currOffset := s.currOffset + length
    imagesize := s.imagesize + length }

/-- `oseama_entity_append_file` -/
def appendFile (s : Builder) (bs : Bytes) : Builder :=
  { s with
    seama := copyChunks 128 File.write s.seama bs
    currOffset := s.currOffset + bs.length
    imagesize := s.imagesize + bs.length }

/-- An option in the first pass. -/
def metaOpt (s : Builder) : Opt → Builder
  | .m text =>
    let s := s.appendMeta text.stored
    s.appendMeta (List.replicate (alignLength s.currOffset 4) 0)
  | _ => s

/-- An option in the second pass. -/
def imageOpt (s : Builder) : Opt → Builder
  | .m _ => s
  | .f none => s
  | .f (some file) => s.appendFile file
  | .b offset =>
    let sbytes := offset - s.currOffset
    if sbytes < 0 then s else s.appendZeros sbytes.toNat

end Builder

/-- `struct seama_entity_header` -/
def entityHeader (metasize imagesize : Nat) (md5 : Bytes) : Bytes :=
  Endian.big.put 4 seamaMagic ++ (Endian.big.put 2 0 ++ (Endian.big.put 2 metasize ++
    (Endian.big.put 4 imagesize ++ md5)))

/-- `oseama_entity_write_hdr` -/
def writeHdr (seama : File) (metasize imagesize : Nat) : File :=
  let r := (seama.seek (entityHeaderSize + metasize)).read imagesize
  let ctx := copyChunks 128 Openwall.update Openwall.init r.1
  (r.2.seek 0).write (entityHeader metasize imagesize (Openwall.final ctx))

/-- `oseama_entity`: the file it writes. -/
def oseamaEntity (os : List Opt) : Bytes :=
  let s := os.foldl Builder.metaOpt Builder.start
  let s := os.foldl Builder.imageOpt s
  (writeHdr s.seama s.metasize s.imagesize).data

/-! ## `oseama extract` -/

/-- The loop of `oseama_extract_entity`: what it copies out of the bytes from the position on, with
`idx` more entities to skip. -/
def oseamaExtractEntity : Nat → Bytes → Bytes
  | idx, m =>
    if m.length < entityHeaderSize ∨ magic m ≠ seamaMagic then []
    else
      let length := entityHeaderSize + metasize m + imagesize m
      match idx with
      | 0 => copyChunks 1024 (fun out buf => out ++ buf) [] (m.take length)
      | idx + 1 => oseamaExtractEntity idx (m.drop length)

/-- `oseama_extract` with `-e idx` -/
def oseamaExtract (idx : Nat) (m : Bytes) : Bytes :=
  if m.length < sealHeaderSize then []
  else oseamaExtractEntity idx (m.drop (sealHeaderSize + metasize m))

end UolaOs.Seama
