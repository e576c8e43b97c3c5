import UolaOs.Lib.Buffer
import UolaOs.Lib.Crc32

/-!
# The TRX builder

trx.c on a little-endian host. The buffer is as long as `maxlen`; what is allocated has arbitrary
contents, and there is enough memory. An access outside of the buffer is a fault.
-/

namespace UolaOs.Trx

/-- How the program ends early. -/
inductive Exit where
  | usage
  | failure
  /-- An access outside of the buffer. -/
  | fault
  deriving DecidableEq

/-- `TRX_MAGIC` -/
def trxMagic : UInt32 := 0x30524448

/-- `TRX_MAX_LEN` -/
def trxMaxLen : Nat := 0x720000

/-- `offsetof(struct trx_header, offsets)` -/
def offsetsOffset : Nat := 16

/-- `sizeof(struct trx_header) - 4` -/
def headerV1 : Nat := 28

/-- `sizeof(binheader)` -/
def binheaderSize : Nat := 32

/-- The options. A number is missing when its text is not one. -/
inductive Opt where
  | two
  /-- A file that can be read, or none. -/
  | f (file : Option Bytes)
  | F (file : Option Bytes)
  | A (file : Option Bytes)
  /-- The output can be opened. -/
  | o (opened : Bool)
  | m (maxlen : Option UInt64)
  | a (align : Option UInt64)
  | b (offset : Option UInt64)
  | x (offset : Option Int)
  | M (magic : Option UInt64)
  deriving DecidableEq

/-- The variables of `main`. -/
structure State where
  buf : Bytes
  curLen : Nat
  fsmark : Nat
  i : Nat
  version : Nat
  /-- `in` is not `NULL`. -/
  opened : Bool
  /-- How often memory was allocated. -/
  allocs : Nat

/-- A value of a `uint32_t`. -/
def u32 (n : Nat) : Nat := n % 2 ^ 32

def le32 (n : Nat) : Bytes := Endian.little.put 4 n

def zeros (n : Nat) : Bytes := List.replicate n 0

/-- What the `k`-th allocation finds in memory. -/
abbrev Heap := Nat → Nat → UInt8

section
variable (heap : Heap)

/-- `realloc` to `n` bytes. -/
def realloc (k : Nat) (buf : Bytes) (n : Nat) : Bytes :=
  buf.take n ++ (List.range' buf.length (n - buf.length)).map (heap k)

/-- `malloc` and the magic. -/
def start : Except Exit State := do
  let buf ← store .fault (realloc heap 0 [] trxMaxLen) 0 (le32 trxMagic.toNat)
  return ⟨buf, headerV1, 0, 0, 1, false, 1⟩

/-- `memset` to zero at the end of the data, `cur_len` goes to `curLen + n`. -/
def fill (s : State) (n : Nat) : Except Exit State := do
  let buf ← store .fault s.buf s.curLen (zeros n)
  return { s with buf := buf, curLen := u32 (s.curLen + n) }

/-- `p->offsets[i++] = STORE32_LE(cur_len)` -/
def startPart (s : State) : Except Exit State := do
  let buf ← store .fault s.buf (offsetsOffset + 4 * s.i) (le32 s.curLen)
  return { s with buf := buf, i := s.i + 1 }

/-- `fopen`, `fread` of up to `maxlen - cur_len` bytes, and the zeros behind them. -/
def appendFile (s : State) : Option Bytes → Except Exit State
  | none => .error .usage
  | some file => do
    -- the difference is a size_t
    let room :=
      if s.curLen ≤ s.buf.length then s.buf.length - s.curLen
      else 2 ^ 64 + s.buf.length - s.curLen
    let buf ← store .fault s.buf s.curLen (file.take room)
    if room ≤ file.length then throw .failure
    let n := file.length
    let pad := if n % 4 ≠ 0 then 4 - n % 4 else 0
    let buf ← store .fault buf (s.curLen + n) (zeros pad)
    return { s with buf := buf, curLen := u32 (s.curLen + (n + pad)), opened := true }

/-- A round of the option loop. -/
def opt (s : State) : Opt → Except Exit State
  | .two => if s.curLen ≠ headerV1 then .ok s else .ok { s with version := 2, curLen := s.curLen + 4 }
  | .f file => do
    let s ← startPart s
    appendFile s file
  | .F file => appendFile { s with fsmark := s.curLen } file
  | .A file => appendFile s file
  | .o opened => if opened = true then .ok s else .error .usage
  | .m none => .error .usage
  | .m (some n) =>
    let maxlen := (n.toNat + (if n.toNat % 0x1000 ≠ 0 then 0x1000 - n.toNat % 0x1000 else 0)) % 2 ^ 64
    if maxlen < 0x1000 then .error .usage
    else .ok { s with buf := realloc heap s.allocs s.buf maxlen, allocs := s.allocs + 1 }
  | .a none => .error .usage
  | .a (some n) =>
    let low := UInt64.ofNat s.curLen &&& (n - 1)
    if low ≠ 0 then fill s (n - low).toNat else .ok s
  | .b none => .error .usage
  | .b (some n) => if n.toNat < s.curLen then .ok s else fill s (n.toNat - s.curLen)
  | .x none => .error .usage
  | .x (some n) =>
    if n < 0 then .ok { s with curLen := s.curLen - n.natAbs } else fill s n.toNat
  | .M none => .error .usage
  | .M (some magic) => do
    let buf ← store .fault s.buf 0 (le32 (u32 magic.toNat))
    return { s with buf := buf }

/-- The CRC. For a v2 header eight bytes of the bin-header are 0xff meanwhile; it is saved and
written back. -/
def writeCrc (s : State) : Except Exit Bytes := do
  let len := if s.fsmark ≠ 0 then s.fsmark else s.curLen
  let off := (word s.buf 28).toNat
  if s.version = 2 ∧ u32 (s.curLen + 2 ^ 32 - off) < binheaderSize then throw .failure
  let binheader ← if s.version = 2 then fetch .fault s.buf off binheaderSize else .ok []
  let buf ←
    if s.version = 2 then store .fault s.buf (off + 22) (List.replicate 8 0xff) else .ok s.buf
  -- the length of the data is a size_t
  let data ← fetch .fault buf 12 (if 12 ≤ len then len - 12 else 2 ^ 64 + len - 12)
  let buf ← store .fault buf 8 (le32 (crc32 0xffffffff data).toNat)
  let buf ← store .fault buf 4 (le32 len)
  store .fault buf (word buf 28).toNat binheader

/-- What comes after the option loop. -/
def finish (s : State) : Except Exit Bytes := do
  let buf ← store .fault s.buf 12 (le32 (s.version * 2 ^ 16))
  if s.opened = false then throw .usage
  let n := s.curLen % 0x1000
  let s ← if n ≠ 0 then fill { s with buf := buf } (0x1000 - n) else .ok { s with buf := buf }
  let buf ← writeCrc s
  -- fwrite does not write an object of size 0
  if s.curLen = 0 then throw .failure
  fetch .fault buf 0 s.curLen

/-- The file that `trx` writes. -/
def trx (os : List Opt) : Except Exit Bytes := do
  let s ← start heap
  let s ← os.foldlM (opt heap) s
  finish s

end

end UolaOs.Trx
