import UolaOs.Lib.Crc32
import UolaOs.Lib.CString
import UolaOs.Lib.Records

/-!
# Appending a file to a jffs2 partition

`mtdWriteJffs2` is the function `mtd_write_jffs2` of package/system/mtd:

* `mtdParseJffs2data` and `scan` read the file system up to its end;
* `addDir` and `addFile` lay out nodes in one buffer of an erase block, which `pad` writes out
  when it is full;
* the last block starts with the end-of-filesystem marker.
-/

namespace UolaOs.Mtd

/-! ## On-disk structures -/

def jffs2MagicBitmask : Nat := 0x1985
def ksamtibCigam2sffj : Nat := 0x8519
def jffs2NodetypeDirent : Nat := 0xe001
def jffs2NodetypeInode : Nat := 0xe002

def jffs2Eof : Bytes := [0xde, 0xad, 0xc0, 0xde]

def cleanmarker : Endian → Bytes
  | .big => [0x19, 0x85, 0x20, 0x03, 0x00, 0x00, 0x00, 0x0c, 0xf0, 0x60, 0xdc, 0x98]
  | .little => [0x85, 0x19, 0x03, 0x20, 0x0c, 0x00, 0x00, 0x00, 0xb1, 0xb0, 0x1e, 0xe4]

/-- `IFTODT(S_IFDIR)` -/
def dtDir : Nat := 4
/-- `IFTODT(S_IFREG)` -/
def dtReg : Nat := 8

/-- The part of `jffs2_unknown_node` under `hdr_crc`. -/
def headerFields (nodetype totlen : Nat) : List (Nat × Nat) :=
  [(2, jffs2MagicBitmask), (2, nodetype), (4, totlen)]

section
variable (e : Endian)

/-- `hdr_crc` -/
def hdrCrc (nodetype totlen : Nat) : UInt32 := crc32 0 (e.putAll (headerFields nodetype totlen))

/-- `jffs2_raw_dirent` up to `node_crc`. -/
def direntFields (nameLen type : Nat) (pino version ino : UInt32) : List (Nat × Nat) :=
  headerFields jffs2NodetypeDirent (40 + nameLen) ++
    [(4, (hdrCrc e jffs2NodetypeDirent (40 + nameLen)).toNat), (4, pino.toNat),
      (4, version.toNat), (4, ino.toNat), (4, 0), (1, nameLen), (1, type), (2, 0)]

/-- `jffs2_raw_dirent` with its name; the name's length is kept in one byte. -/
def rawDirent (name : Bytes) (type : Nat) (pino version ino : UInt32) : Bytes :=
  let fields := direntFields e name.length type pino version ino
  e.putAll (fields ++ [(4, (crc32 0 (e.putAll fields)).toNat), (4, (crc32 0 name).toNat)]) ++
    name.take (name.length % 256)

/-- The members of `jffs2_raw_inode` that are not always zero. -/
structure RawInode where
  totlen : UInt32
  ino : UInt32
  version : UInt32
  mode : UInt32
  isize : UInt32
  atime : UInt32
  mtime : UInt32
  ctime : UInt32
  offset : UInt32
  csize : UInt32
  dsize : UInt32

/-- `jffs2_raw_inode` up to `data_crc`. -/
def inodeFields (ri : RawInode) : List (Nat × Nat) :=
  headerFields jffs2NodetypeInode ri.totlen.toNat ++
    [(4, (hdrCrc e jffs2NodetypeInode ri.totlen.toNat).toNat), (4, ri.ino.toNat),
      (4, ri.version.toNat), (4, ri.mode.toNat), (2, 0), (2, 0), (4, ri.isize.toNat),
      (4, ri.atime.toNat), (4, ri.mtime.toNat), (4, ri.ctime.toNat), (4, ri.offset.toNat),
      (4, ri.csize.toNat), (4, ri.dsize.toNat), (1, 0), (1, 0), (2, 0)]

/-- `jffs2_raw_inode` -/
def rawInode (ri : RawInode) (dataCrc : UInt32) : Bytes :=
  let fields := inodeFields e ri
  e.putAll (fields ++ [(4, dataCrc.toNat), (4, (crc32 0 (e.putAll fields)).toNat)])

end

/-! ## The buffer -/

/-- The device: `bad` is what `mtd_block_is_bad` answers for an offset. -/
structure Chip where
  erasesize : Nat
  mtdsize : Nat
  bad : Nat → Bool

/-- The globals of jffs2.c. `buf` holds the bytes before `ofs`, `written` the blocks written so
far and where, and `overrun` tells whether a byte was stored behind the buffer. -/
structure Writer where
  written : List (Nat × Bytes)
  mtdofs : Nat
  buf : Bytes
  last_ino : UInt32
  last_version : UInt32
  overrun : Bool

def Writer.ofs (w : Writer) : Nat := w.buf.length

section
variable (e : Endian) (c : Chip)

/-- Store `bs` at `buf + ofs` and move `ofs` behind it. -/
def store (bs : Bytes) (w : Writer) : Writer :=
  { w with
    buf := w.buf ++ bs
    overrun := w.overrun || decide (c.erasesize < w.ofs + bs.length) }

/-- Skip bad blocks, with `mtdsize` rounds at most. -/
def skipBad : Nat → Nat → Nat
  | 0, mtdofs => mtdofs
  | fuel + 1, mtdofs =>
    if c.bad mtdofs ∧ mtdofs < c.mtdsize then skipBad fuel (mtdofs + c.erasesize) else mtdofs

/-- Write the buffer to the next good block. -/
def flushBlock (w : Writer) : Writer :=
  let mtdofs := skipBad c c.mtdsize w.mtdofs
  { w with
    written := w.written ++ [(mtdofs, w.buf.take c.erasesize)]
    mtdofs := mtdofs + c.erasesize
    buf := [] }

def pad (size : Nat) (w : Writer) : Writer :=
  if w.ofs % size = 0 ∧ w.ofs < c.erasesize then w
  else
    let w :=
      if w.ofs < c.erasesize then store c (List.replicate (size - w.ofs % size) 0xff) w else w
    if w.ofs % c.erasesize = 0 then flushBlock c w
    else { w with buf := w.buf.take (w.ofs % c.erasesize) }

def rbytes (w : Writer) : Nat := c.erasesize - w.ofs % c.erasesize

/-- At offset 0 `add_data` has nothing to pad. -/
def prepEraseblock (w : Writer) : Writer :=
  if 0 < w.ofs then w else store c (cleanmarker e) w

def addData (bs : Bytes) (w : Writer) : Writer :=
  let w := if w.ofs + bs.length > c.erasesize then prepEraseblock e c (pad c c.erasesize w) else w
  store c bs w

/-! ## Nodes -/

/-- The new entry and its inode number. The comparison is unsigned: below the end of the block
the difference is huge. -/
def addDirent (name : Bytes) (type : Nat) (parent : UInt32) (w : Writer) : Writer × UInt32 :=
  let w :=
    if c.erasesize ≤ w.ofs ∧ w.ofs - c.erasesize < 40 + name.length then pad c c.erasesize w
    else w
  let w := prepEraseblock e c w
  let ino := w.last_ino + 1
  let w := store c (rawDirent e name type parent w.last_version ino) w
  let w := { w with last_ino := ino + 1, last_version := w.last_version + 1 }
  (pad c 4 w, ino)

def addDir (name : Bytes) (parent : UInt32) (w : Writer) : Writer × UInt32 :=
  let (w, inode) := addDirent e c name dtDir parent w
  let w := if rbytes c w < 68 then pad c c.erasesize w else w
  let w := prepEraseblock e c w
  let ri : RawInode :=
    { totlen := 68, ino := inode, version := 1, mode := 0o40755, isize := 0, atime := 0,
      mtime := 0, ctime := 0, offset := 0, csize := 0, dsize := 0 }
  (pad c 4 (addData e c (rawInode e ri 0) w), inode)

/-- What `stat` says about the file, apart from its size. -/
structure Stat where
  st_mode : UInt32
  st_atime : UInt32
  st_mtime : UInt32
  st_ctime : UInt32

/-- Room for the header and more than 128 bytes, and how many. A fresh block has it or no block
does. -/
def makeRoom : Nat → Writer → Option (Nat × Writer)
  | 0, _ => none
  | fuel + 1, w =>
    if 128 + 68 < rbytes c w then some (rbytes c w - 68, w)
    else makeRoom fuel (prepEraseblock e c (pad c c.erasesize w))

/-- The header of a data node. -/
def dataInode (st : Stat) (inode isize version f_offset : UInt32) (len : Nat) : RawInode :=
  { totlen := UInt32.ofNat (68 + len), ino := inode, version := version, mode := st.st_mode,
    isize := isize, atime := st.st_atime, mtime := st.st_mtime, ctime := st.st_ctime,
    offset := f_offset, csize := UInt32.ofNat len, dsize := UInt32.ofNat len }

/-- The loop of `add_file` over what has not been read of the file. -/
def addFileLoop (st : Stat) (inode isize : UInt32) :
    Nat → UInt32 → Bytes → Writer → Option Writer
  | 0, _, _, _ => none
  | fuel + 1, f_offset, file, w =>
    match makeRoom e c 2 w with
    | none => none
    | some (room, w) =>
      let wbuf := file.take (min room 4096)
      if wbuf = [] then some w
      else
        let version := w.last_version + 1
        let ri := dataInode st inode isize version f_offset wbuf.length
        let w := { w with last_version := version }
        let w := addData e c wbuf (addData e c (rawInode e ri (crc32 0 wbuf)) w)
        addFileLoop st inode isize fuel (f_offset + UInt32.ofNat wbuf.length)
          (file.drop (min room 4096)) (prepEraseblock e c (pad c 4 w))

/-- The name behind the last slash. -/
def fname (name : Bytes) : Bytes := (name.reverse.takeWhile (· ≠ 0x2f)).reverse

def addFile (name : Bytes) (st : Stat) (file : Bytes) (parent : UInt32) (w : Writer) :
    Option Writer :=
  let (w, inode) := addDirent e c (fname name) dtReg parent w
  addFileLoop e c st inode (UInt32.ofNat file.length) (file.length + 1) 0 file w

/-! ## Reading the file system -/

/-- What is used of a `jffs2_raw_dirent`. -/
structure Dirent where
  pino : UInt32
  version : UInt32
  ino : UInt32
  name : Bytes

/-- The globals the scan sets. -/
structure Scan where
  last_ino : UInt32
  last_version : UInt32
  target_ino : UInt32

def word16 (buf : Bytes) (off : Nat) : Nat := e.get (load buf off 2)

def word32 (buf : Bytes) (off : Nat) : UInt32 := UInt32.ofNat (e.get (load buf off 4))

/-- The entry at `ofs`; `none` when it does not lie in the buffer. -/
def readDirent (buf : Bytes) (ofs : Nat) : Option Dirent :=
  let nsize := ((buf.drop (ofs + 28)).headD 0).toNat
  if ofs + 40 + nsize ≤ buf.length then
    some
      { pino := word32 e buf (ofs + 12), version := word32 e buf (ofs + 16),
        ino := word32 e buf (ofs + 20), name := load buf (ofs + 40) nsize }
  else none

/-- `strncmp(a, b, n) == 0` -/
def strncmpEq (a b : Bytes) (n : Nat) : Bool :=
  (a.take n).takeWhile (· ≠ 0) == (b.take n).takeWhile (· ≠ 0)

theorem strncmpEq_cons (a b : UInt8) (l m : Bytes) (n : Nat) :
    strncmpEq (a :: l) (b :: m) (n + 1) =
      if a ≠ b then false else if a = 0 then true else strncmpEq l m n := by
  rw [strncmpEq, List.take_succ_cons, List.take_succ_cons, List.takeWhile_cons, List.takeWhile_cons]
  by_cases hab : a = b
  · subst hab
    by_cases ha : a = 0
    · simp [ha]
    · simp [ha, strncmpEq]
  · rw [if_pos hab]
    by_cases ha : a = 0
    · have hb : b ≠ 0 := fun hb => hab (ha.trans hb.symm)
      simp [ha, hb]
    · by_cases hb : b = 0
      · simp [ha, hb]
      · simp [ha, hb, hab]

def noteDirent (dir : CStr) (s : Scan) (de : Dirent) : Scan :=
  { target_ino :=
      if dir.bytes ≠ [] ∧ de.pino = 1 ∧ strncmpEq de.name dir.stored de.name.length then de.ino
      else s.target_ino
    last_ino := if s.last_ino < de.ino then de.ino else s.last_ino
    last_version := if s.last_version < de.version then de.version else s.last_version }

/-- `PAD(x)` of a `uint32_t`. -/
def padWord (x : UInt32) : Nat := (x + 3).toNat / 4 * 4

/-- `none` when the loop does not end or reads past the buffer. A loop that ends meets every
offset at most once. -/
def mtdParseJffs2data (dir : CStr) (buf : Bytes) : Nat → Nat → Scan → Option Scan
  | 0, _, _ => none
  | fuel + 1, ofs, s =>
    if c.erasesize ≤ ofs ∨ word16 e buf ofs ≠ jffs2MagicBitmask then some s
    else if buf.length < ofs + 8 then none
    else
      let next := (ofs + padWord (word32 e buf (ofs + 4))) % 2 ^ 32
      if word16 e buf (ofs + 2) = jffs2NodetypeDirent then
        match readDirent e buf ofs with
        | none => none
        | some de => mtdParseJffs2data dir buf fuel next (noteDirent dir s de)
      else mtdParseJffs2data dir buf fuel next s

/-- Why nothing is appended. -/
inductive Failure where
  | noRoom
  | wrongEndianness
  | stuck

/-- Find the end of the file system; `mtdofs` is the offset of the next block. -/
def scan (dir : CStr) : List Bytes → Nat → Scan → Except Failure (Nat × Scan)
  | [], _, _ => .error .noRoom
  | buf :: rest, mtdofs, s =>
    if buf.length ≠ c.erasesize then .error .noRoom
    else if word16 e buf 0 = ksamtibCigam2sffj then .error .wrongEndianness
    else if word16 e buf 0 ≠ jffs2MagicBitmask then .ok (mtdofs, s)
    else
      match mtdParseJffs2data e c dir buf (c.erasesize + 1) 0 s with
      | none => .error .stuck
      | some s => scan dir rest (mtdofs + c.erasesize) s

/-- The state the scan starts from. -/
def startScan (dir : CStr) : Scan :=
  { last_ino := 0, last_version := 0, target_ino := if dir.bytes = [] then 1 else 0 }

/-- What is appended after a scan that found the end at `mtdofs`. -/
def appendFile (filename : CStr) (st : Stat) (file : Bytes) (dir : CStr) (mtdofs : Nat)
    (s : Scan) : Option Writer :=
  let w : Writer :=
    { written := [], mtdofs := mtdofs, buf := [],
      last_ino := if s.last_ino = 0 then 1 else s.last_ino,
      last_version := s.last_version, overrun := false }
  let (w, target_ino) :=
    if s.target_ino = 0 then addDir e c dir.bytes 1 w else (w, s.target_ino)
  (addFile e c filename.bytes st file target_ino w).map fun w =>
    -- add eof marker, pad to eraseblock size and write the data
    pad c c.erasesize (addData e c jffs2Eof (pad c c.erasesize w))

/-- `flash` is what reading the device block by block returns. -/
def mtdWriteJffs2 (flash : List Bytes) (filename : CStr) (st : Stat) (file : Bytes)
    (dir : CStr) : Except Failure Writer :=
  match scan e c dir flash 0 (startScan dir) with
  | .error failure => .error failure
  | .ok (mtdofs, s) =>
    match appendFile e c filename st file dir mtdofs s with
    | none => .error .stuck
    | some w => .ok w

end

end UolaOs.Mtd
