import UolaOs.Lib.Buffer
import UolaOs.Lib.CString
import UolaOs.Lib.Numeral
import UolaOs.Seama.Md5

/-!
# The SafeLoader builder

The tables and the factory image of tplink-safeloader.c. What is allocated has arbitrary contents,
and there is enough memory.
-/

namespace UolaOs.Safeloader

/-- How the program ends early. -/
inductive Exit where
  /-- `error(1, …)` -/
  | failure
  /-- A failed `assert`. -/
  | abort
  /-- An access outside of an allocated block. -/
  | fault
  deriving DecidableEq

/-- `struct image_partition_entry` -/
structure ImagePart where
  name : CStr
  data : Bytes
  deriving DecidableEq

/-- `struct flash_partition_entry` -/
@[ext] structure FlashPart where
  name : CStr
  base : UInt32
  size : UInt32
  deriving DecidableEq

/-- What the builder takes of `struct device_info`. The vendor information block has room for 4092
bytes. -/
structure DeviceInfo where
  vendor : Option CStr
  partitions : List FlashPart
  vendor_fits : ∀ v ∈ vendor, v.length ≤ 4092

/-! ## Lines of a table -/

/-- The words around the entries of a table, and what ends a line besides the newline. -/
structure Format where
  hdr : Bytes
  eol : Bytes

/-- The image partition table: `fwup-ptn %s base 0x%05x size 0x%05x\t\r\n` -/
def fwup : Format := ⟨ascii "fwup-ptn", [9, 13]⟩

/-- The flash partition table: `partition %s base 0x%05x size 0x%05x\n` -/
def flash : Format := ⟨ascii "partition", []⟩

def Format.line (fmt : Format) (name : CStr) (base size : Nat) : Bytes :=
  fmt.hdr ++ 0x20 :: (name.bytes ++ 0x20 :: (ascii "base" ++ 0x20 :: (ascii "0x" ++
    (hexPadded false 5 base ++ 0x20 :: (ascii "size" ++ 0x20 :: (ascii "0x" ++
      (hexPadded false 5 size ++ (fmt.eol ++ [10]))))))))

/-- `snprintf` of a line at `pos` of a block of 2 KiB that begins at `off`, which must not be cut
off. -/
def putLine (m : Bytes) (off pos : Nat) (line : Bytes) : Except Exit Bytes := do
  let m ← store .fault m (off + pos) (line.take (0x800 - pos - 1) ++ [0])
  if 0x800 - pos - 1 < line.length then throw .failure
  return m

/-! ## The partition table -/

/-- A value of a `uint32_t`. -/
def u32 (n : Nat) : Nat := n % 2 ^ 32

theorem partitionTable_nulFree : 0 ∉ ascii "partition-table" := by decide

def partitionTable : CStr := ⟨ascii "partition-table", partitionTable_nulFree⟩

/-- The loop of `make_partition_table`: the block and the offset in it. -/
def putFlashPart (s : Bytes × Nat) (p : FlashPart) : Except Exit (Bytes × Nat) := do
  let line := flash.line p.name p.base.toNat p.size.toNat
  let m ← putLine s.1 0 s.2 line
  return (m, s.2 + line.length)

/-- `make_partition_table`, with what its allocation finds in memory. -/
def makePartitionTable (mem : Nat → UInt8) (p : List FlashPart) : Except Exit ImagePart := do
  let m ← store .fault ((List.range 0x800).map mem) 0 [0, 4, 0, 0]
  let s ← p.foldlM putFlashPart (m, 4)
  -- the zero behind the last line stays
  let m ← store .fault s.1 (s.2 + 1) (List.replicate (0x800 - (s.2 + 1)) 0xff)
  return ⟨partitionTable, m⟩

/-! ## The factory image -/

/-- The variables of `put_partitions`. -/
structure Placed where
  image : Bytes
  /-- The offset of `image_pt` in the table. -/
  pos : Nat
  base : Nat

/-- A round of `put_partitions`. Its buffer begins at 0x1014 of the image. -/
def putPart (parts : List FlashPart) (s : Placed) (p : ImagePart) : Except Exit Placed :=
  match parts.find? fun f => f.name = p.name with
  | none => .error .abort
  | some f =>
    if f.size.toNat < p.data.length then .error .failure
    else do
      let image ← store .fault s.image (0x1014 + s.base) p.data
      let line := fwup.line p.name (u32 s.base) (u32 p.data.length)
      let image ← putLine image 0x1014 s.pos line
      return ⟨image, s.pos + line.length, s.base + p.data.length⟩

def putPartitions (image : Bytes) (flashParts : List FlashPart) (parts : List ImagePart) :
    Except Exit Bytes := do
  let s ← parts.foldlM (putPart flashParts) ⟨image, 0, 0x800⟩
  return s.image

/-- `md5_salt` -/
def md5Salt : Bytes :=
  [0x7a, 0x2b, 0x15, 0xed, 0x9b, 0x98, 0x59, 0x6d, 0xe5, 0x04, 0xab, 0x44, 0xac, 0x2a, 0x9f, 0x4e]

/-- `put_md5` at the offset 4. Its length is an `unsigned int`. -/
def putMd5 (image : Bytes) (off len : Nat) : Except Exit Bytes := do
  let data ← fetch .fault image off (u32 len)
  let ctx := Seama.Openwall.update Seama.Openwall.init md5Salt
  let ctx := Seama.Openwall.update ctx data
  store .fault image 4 (Seama.Openwall.final ctx)

/-- The vendor information of `generate_factory_image`. -/
def putVendor (image : Bytes) : Option CStr → Except Exit Bytes
  | none => .ok image
  | some vendor => do
    let image ← store .fault image 0x14 (Endian.big.put 4 (u32 vendor.length))
    store .fault image 0x18 vendor.bytes

/-- `generate_factory_image` -/
def generateFactoryImage (info : DeviceInfo) (parts : List ImagePart) : Except Exit Bytes := do
  let len := 0x1814 + (parts.map fun p => p.data.length).sum
  let image ← store .fault (List.replicate len 0xff) 0 (Endian.big.put 4 (u32 len))
  let image ← putVendor image info.vendor
  let image ← putPartitions image info.partitions parts
  putMd5 image 0x14 (len - 0x14)

end UolaOs.Safeloader
