import UolaOs.Mtd.Flash

/-!
# Writing an image to flash

`mtdWrite` is the function `mtd_write` of package/system/mtd without a jffs2 file and with
erasing enabled: blocks marked bad are skipped, and a failed erase goes on with the next
device of the list.
-/

namespace UolaOs.Mtd

/-- The open device and the counters. `buf` holds the `buflen` bytes of the buffer, `image` what
has not been read yet. `touched` records the ranges erased and written, `overread` whether a
write took bytes from behind the buffer. The counters are exact: the devices of one run are
smaller than 2 GiB together. -/
structure St where
  flash : Flash
  pos : Nat
  w : Nat
  e : Nat
  skip_bad_blocks : Nat
  offset : Nat
  buf : Bytes
  image : Bytes
  touched : List (Nat × Nat)
  overread : Bool

/-- How the erase loop ends. -/
inductive Erased where
  | ready (st : St)
  | failed (st : St)
  | exit

/-- How the work on one device ends. -/
inductive Loop where
  | done (st : St)
  | resume (st : St)
  | exit

section
variable (d : Device) (es part_offset : Nat)

/-- `mtd_block_is_bad`; `none` when it exits. -/
def mtdBlockIsBad (offset : Nat) : Option Bool :=
  if d.nand then d.getBadBlock es offset else some false

/-- `mtd_erase_block` -/
def mtdEraseBlock (offset : Nat) (flash : Flash) : Option Flash := d.erase es offset flash

/-- Read until the buffer is full or the image ends. -/
def fillBuffer (st : St) : St :=
  { st with
    buf := st.buf ++ st.image.take (es - st.buf.length)
    image := st.image.drop (es - st.buf.length) }

/-- Pad block to eraseblock size. -/
def padBuffer (st : St) : St :=
  { st with buf := st.buf ++ List.replicate (es - st.buf.length) 0xff }

/-- The `n` bytes at `buf + offset`; the buffer has `es` bytes and `beyond` follows it. -/
def sourceBytes (beyond : Nat → UInt8) (st : St) (n : Nat) : Bytes :=
  (List.range n).map fun j =>
    if st.offset + j < es then st.buf.getD (st.offset + j) 0 else beyond (st.offset + j - es)

/-- `write(fd, buf + offset, n)`: at the end of the device the count is cut or, with nothing
left, the call fails. -/
def writeFd (beyond : Nat → UInt8) (n : Nat) (st : St) : St × Option Nat :=
  if d.blocks * es ≤ st.pos then (st, none)
  else
    let count := min n (d.blocks * es - st.pos)
    ({ st with
       flash := program st.flash st.pos (sourceBytes es beyond st count)
       pos := st.pos + count
       touched := (st.pos, count) :: st.touched
       overread := st.overread || decide (es < st.offset + count) }, some count)

/-- Erase the next block before writing data to it. -/
def eraseLoop : Nat → St → Erased
  | 0, _ => .exit
  | fuel + 1, st =>
    if st.w + st.buf.length + st.skip_bad_blocks > st.e then
      match mtdBlockIsBad d es st.e with
      | none => .exit
      | some true =>
        -- Move the file pointer along over the bad block.
        eraseLoop fuel
          { st with
            skip_bad_blocks := st.skip_bad_blocks + es
            e := st.e + es
            pos := d.seekCur es st.pos es }
      | some false =>
        match mtdEraseBlock d es (st.e + part_offset) st.flash with
        | none => .failed st
        | some flash =>
          eraseLoop fuel
            { st with
              flash := flash
              e := st.e + es
              touched := (st.e + part_offset, es) :: st.touched }
    else .ready st

/-- What is done about a failed erase before the next device is opened. -/
def flushBuffer (beyond : Nat → UInt8) (st : St) : St :=
  if st.w < st.e then
    { (writeFd d es beyond (st.e - st.w) st).1 with offset := st.e - st.w }
  else st

/-- The main loop on one device. `next` says whether another device follows. -/
def writeLoop (beyond : Nat → UInt8) (next : Bool) : Nat → St → Loop
  | 0, _ => .exit
  | fuel + 1, st =>
    let st := fillBuffer es st
    if st.buf.length = 0 then .done st
    else
      match eraseLoop d es part_offset (d.blocks + 1) (padBuffer es st) with
      | .exit => .exit
      | .failed st => if next then .resume (flushBuffer d es beyond st) else .exit
      | .ready st =>
        match writeFd d es beyond st.buf.length st with
        | (_, none) => .exit
        | (st', some count) =>
          if count < st.buf.length then .exit
          else
            writeLoop beyond next fuel
              { st' with w := st'.w + st.buf.length, buf := [], offset := 0 }

end

/-- A device of the list and its contents. -/
structure Opened where
  device : Device
  flash : Flash

/-- What is left of a run that returns 0: each device's contents and the ranges touched on it,
and whether bytes behind the buffer were written anywhere. -/
structure Outcome where
  devices : List (Flash × List (Nat × Nat))
  overread : Bool

/-- The next device is opened: the counters of skipped blocks and of the buffer stay. -/
def openDevice (es part_offset : Nat) (o : Opened) (st : St) : St :=
  { st with
    flash := o.flash, pos := o.device.seekSet es part_offset, w := 0, e := 0, touched := [] }

/-- One device after the other; `none` when the program exits. -/
def writeDevices (es part_offset : Nat) (beyond : Nat → UInt8) : List Opened → St → Option Outcome
  | [], _ => none
  | o :: os, st =>
    match writeLoop o.device es part_offset beyond (!os.isEmpty)
        (st.buf.length + st.image.length + 1) (openDevice es part_offset o st) with
    | .exit => none
    | .done st => some ⟨(st.flash, st.touched) :: os.map (fun o => (o.flash, [])), st.overread⟩
    | .resume st' => (writeDevices es part_offset beyond os st').map fun out =>
        ⟨(st'.flash, st'.touched) :: out.devices, out.overread⟩

/-- `mtd_write` with `buffered` bytes in the buffer, as the image check leaves them, and `image`
not yet read. -/
def mtdWrite (es part_offset : Nat) (beyond : Nat → UInt8) (os : List Opened)
    (buffered image : Bytes) : Option Outcome :=
  writeDevices es part_offset beyond os
    { flash := fun _ => 0, pos := 0, w := 0, e := 0, skip_bad_blocks := 0, offset := 0
      buf := buffered, image := image, touched := [], overread := false }

end UolaOs.Mtd
