import UolaOs.Mtd.Jffs2

/-!
# The FIS directory

`fisValidate` and `fisRemap` are the functions `fis_validate` and `fis_remap` of
package/system/mtd on a mapped directory block:

* an entry takes 256 bytes; the table ends at a free entry or with the block;
* pointers are offsets into the block, and a store that leaves the block has no result.
-/

namespace UolaOs.Mtd

/-- `struct fis_part`, as far as it is read. -/
structure FisPart where
  name : Bytes
  loadaddr : UInt32
  size : UInt32
  length : UInt32
  crc : UInt32
  name16 : name.length = 16

section
variable (e : Endian) (es : Nat) (block : Bytes)

/-- The first byte of the name ends the table. -/
def fisFree (desc : Nat) : Bool :=
  (block.drop desc).headD 0 == 0 || (block.drop desc).headD 0 == 0xff

def hdrName (desc : Nat) : Bytes := load block desc 16

/-- `desc->hdr.flash_base` -/
def flashBase (desc : Nat) : UInt32 := word32 e block (desc + 16)

/-- `desc->hdr.name` is the name of one of the parts. -/
def isPart (old : List FisPart) (desc : Nat) : Bool :=
  old.any fun part => strncmpEq (hdrName block desc) part.name 16

/-- The loop over the entries of the table. -/
def fisWalk {σ : Type} (body : Nat → σ → σ) : Nat → Nat → σ → σ
  | 0, _, s => s
  | fuel + 1, desc, s =>
    if desc < es ∧ ¬ fisFree block desc then fisWalk body fuel (desc + 256) (body desc s) else s

/-- `fis_validate` -/
def fisValidate (old new : List FisPart) : Int :=
  if new.dropLast.any (·.size == 0) then -1
  else
    let found := fisWalk es block
      (fun desc found => if isPart block old desc then found + 1 else found) es 0 0
    if found = old.length then 1 else -1

/-! ## Stores -/

/-- A pointer difference as a `size_t`. -/
def sizeT (a b : Nat) : Nat := (((a : Int) - b) % 2 ^ 32).toNat

def fisMemmove (dst src n : Nat) : Option Bytes :=
  if dst + n ≤ es ∧ src + n ≤ es then some (poke block dst (load block src n)) else none

def fisMemset (dst : Nat) (b : UInt8) (n : Nat) : Option Bytes :=
  if dst + n ≤ es then some (poke block dst (List.replicate n b)) else none

/-- Move what follows the old entries to where it follows the new ones. -/
def fisMove (desc last : Nat) : Option Bytes :=
  if desc ≠ last then
    let tmp := if desc > last then desc else last
    match fisMemmove es block desc last (sizeT es tmp) with
    | none => none
    | some block =>
      if desc < last then
        let tmp := es - (last - desc)
        fisMemset es block tmp 0xff (sizeT tmp es)
      else some block
  else some block

/-- `struct fis_image_desc` of a new entry. -/
def fisImageDesc (part : FisPart) (offset size : UInt32) : Bytes :=
  let length := if part.length > 0 then part.length else size
  part.name ++
    (e.putAll [(4, offset.toNat), (4, part.loadaddr.toNat), (4, size.toNat),
      (4, part.loadaddr.toNat), (4, length.toNat)] ++
      (List.replicate 212 0 ++ e.putAll [(4, 0), (4, part.crc.toNat)]))

/-- The loop that writes the new entries. -/
def fisWrite : List FisPart → Nat → UInt32 → UInt32 → Bytes → Option Bytes
  | [], _, _, _, block => some block
  | part :: parts, desc, offset, size, block =>
    let partSize := if part.size > 0 then part.size else size
    if desc + 256 ≤ es then
      fisWrite parts (desc + 256) (offset + partSize) (size - partSize)
        (poke block desc (fisImageDesc e part offset partSize))
    else none

/-! ## Remapping -/

/-- The largest flash base, and the first and the last of the old entries. -/
structure FisScan where
  offset : UInt32
  first : Option Nat
  last : Option Nat

def fisScan (old : List FisPart) (desc : Nat) (s : FisScan) : FisScan :=
  let offset := if s.offset < flashBase e block desc then flashBase e block desc else s.offset
  if isPart block old desc then
    { offset := offset, first := if s.first.isNone then some desc else s.first, last := some desc }
  else { s with offset := offset }

/-- `fis_remap`; `none` when it follows a null pointer or stores outside the block. -/
def fisRemap (old new : List FisPart) : Option Bytes :=
  let s := fisWalk es block (fisScan e block old) es 0 ⟨0, none, none⟩
  match s.first, s.last with
  | some first, some last =>
    let swap := flashBase e block first > flashBase e block last
    let first_fb := if swap then last else first
    let last_fb := if swap then first else last
    -- determine size of available space
    let offset := fisWalk es block
      (fun desc offset =>
        if flashBase e block desc > flashBase e block last_fb ∧ flashBase e block desc < offset then
          flashBase e block desc
        else offset) es 0 s.offset
    let size := offset - flashBase e block first_fb
    match fisMove es block (first + new.length * 256) (last + 256) with
    | none => none
    | some moved => fisWrite e es new first (flashBase e block first_fb) size moved
  | _, _ => none

end

end UolaOs.Mtd
