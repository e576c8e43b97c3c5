import UolaOs.Bcm4908img.Img
import UolaOs.Lib.CString

/-!
# Files in the bootfs

`bcm4908img bootfs ls` and `bcm4908img bootfs mv` of bcm4908img.c, on a little-endian host. Both go
from one JFFS2 node to the next; `visit` is a round of their loops.
-/

namespace UolaOs.Bcm4908img

/-- `JFFS2_MAGIC_BITMASK` -/
def jffs2MagicBitmask : UInt16 := 0x1985

/-- `JFFS2_NODETYPE_DIRENT` -/
def jffs2NodetypeDirent : UInt16 := 0xe001

/-- `sizeof(struct jffs2_unknown_node)` -/
def unknownNodeSize : Nat := 12

/-- `sizeof(struct jffs2_raw_dirent)`, where the name starts -/
def rawDirentSize : Nat := 40

/-- `offsetof(struct jffs2_raw_dirent, nsize)` -/
def nsizeOffset : Nat := 28

/-- `offsetof(struct jffs2_raw_dirent, name_crc)` -/
def nameCrcOffset : Nat := 36

/-- What a round of the loops finds. -/
inductive Visit where
  | eio
  /-- There is no node. -/
  | last
  /-- A node of another type. -/
  | other (step : Nat)
  /-- A name has at most 255 bytes, so the check for long ones never fires. -/
  | dirent (name : Bytes) (step : Nat)
  deriving DecidableEq

/-- `(je32_to_cpu(node.totlen) + 0x03) & ~0x03` -/
def nodeStep (totlen : UInt32) : Nat := ((totlen + 3) &&& ~~~3).toNat

def visit (m : Bytes) (offset : Nat) : Visit :=
  let node := load m offset unknownNodeSize
  if node.length ≠ unknownNodeSize then .eio
  else if half node 0 ≠ jffs2MagicBitmask then .last
  else
    let step := nodeStep (word node 4)
    if half node 2 ≠ jffs2NodetypeDirent then .other step
    else
      let dirent := load m offset rawDirentSize
      if dirent.length ≠ rawDirentSize then .eio
      else
        let nsize := (dirent.getD nsizeOffset 0).toNat
        let name := load m (offset + rawDirentSize) nsize
        if name.length ≠ nsize then .eio else .dirent name step

/-- A buffer as a C string. -/
def cText (buf : Bytes) : Bytes := buf.takeWhile fun b => b ≠ 0

/-- The loop of `bcm4908img_bootfs_ls`: what is printed, and the error. -/
def printDirents (m : Bytes) : Nat → Nat → Option (List Bytes × Option Errno)
  | 0, _ => none
  | fuel + 1, offset =>
    match visit m offset with
    | .eio => some ([], some .eio)
    | .last => some ([], none)
    | .other step => printDirents m fuel (offset + step)
    | .dirent name step =>
      (printDirents m fuel (offset + step)).map fun r => (cText name :: r.1, r.2)

/-- The loop of `bcm4908img_bootfs_mv`: the offset and the `nsize` of the node that it stops at. -/
def findDirent (m : Bytes) (oldname : CStr) : Nat → Nat → Option (Except Errno (Nat × Nat))
  | 0, _ => none
  | fuel + 1, offset =>
    match visit m offset with
    | .eio => some (.error .eio)
    | .last => some (.error .enoent)
    | .other step => findDirent m oldname fuel (offset + step)
    | .dirent name step =>
      if cText name ≠ oldname.bytes then findDirent m oldname fuel (offset + step)
      else some (.ok (offset, name.length))

end UolaOs.Bcm4908img
