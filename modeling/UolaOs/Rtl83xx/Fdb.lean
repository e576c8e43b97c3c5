import Mathlib.Logic.Function.Basic

/-!
# Forwarding database of the RTL838x

`rtl83xx_port_fdb_add`, `rtl83xx_port_fdb_del` and `rtl83xx_port_fdb_dump` of dsa.c on the RTL8380
family, with the table accesses of rtl838x.c. The hardware is its tables and data registers;
`exec` is what a table command does.
-/

namespace UolaOs.Rtl83xx

/-- The data registers, or a row of a table. -/
structure Words where
  r0 : UInt32
  r1 : UInt32
  r2 : UInt32
  deriving DecidableEq

def Words.zero : Words := ⟨0, 0, 0⟩

structure Hw where
  /-- The hash table. -/
  l2 : Nat → Words
  cam : Nat → Words
  /-- `RTL838X_TBL_ACCESS_L2_DATA` -/
  data : Words
  /-- `RTL838X_L2_CTRL_0` -/
  l2Ctrl0 : UInt32

/-! ## Table access -/

/-- Execute a command. -/
def bit16 : UInt32 := 0x10000

/-- A read. -/
def bit15 : UInt32 := 0x8000

/-- Table type 0b01, the CAM. -/
def bit13 : UInt32 := 0x2000

/-- A command that is written to `RTL838X_TBL_ACCESS_L2_CTRL`, and the wait for its end. -/
def exec (cmd : UInt32) (hw : Hw) : Hw :=
  let row := (cmd &&& 0x1fff).toNat
  if cmd &&& bit16 = 0 then hw
  else if (cmd >>> 13) &&& 3 = 0 then
    if cmd &&& bit15 ≠ 0 then { hw with data := hw.l2 row }
    else { hw with l2 := Function.update hw.l2 row hw.data }
  else if (cmd >>> 13) &&& 3 = 1 then
    if cmd &&& bit15 ≠ 0 then { hw with data := hw.cam row }
    else { hw with cam := Function.update hw.cam row hw.data }
  else hw

/-- A MAC address, `unsigned char addr[6]`. -/
structure Mac where
  b0 : UInt8
  b1 : UInt8
  b2 : UInt8
  b3 : UInt8
  b4 : UInt8
  b5 : UInt8
  deriving DecidableEq

/-- `ether_addr_to_u64` -/
def Mac.toU64 (m : Mac) : UInt64 :=
  [m.b0, m.b1, m.b2, m.b3, m.b4, m.b5].foldl (fun u b => u <<< 8 ||| b.toUInt64) 0

/-- `is_unicast_ether_addr`, and not zero. -/
def Mac.Unicast (m : Mac) : Prop := m.b0 &&& 1 = 0 ∧ m.toU64 ≠ 0

instance (m : Mac) : Decidable m.Unicast := inferInstanceAs (Decidable (_ ∧ _))

/-- The fields of `struct rtl838x_l2_entry` that are read. -/
structure L2Entry where
  mac : Mac
  vid : UInt16
  rvid : UInt16
  port : UInt8
  valid : Bool
  isStatic : Bool
  deriving DecidableEq

/-- The entry in the data registers. -/
def decodeEntry (r : Words) : L2Entry where
  mac := ⟨(r.r1 >>> 20).toUInt8, (r.r1 >>> 12).toUInt8, (r.r1 >>> 4).toUInt8,
    ((r.r1 &&& 0xf) <<< 4 ||| r.r2 >>> 28).toUInt8, (r.r2 >>> 20).toUInt8, (r.r2 >>> 12).toUInt8⟩
  vid := (r.r0 &&& 0xfff).toUInt16
  rvid := (r.r2 &&& 0xfff).toUInt16
  port := ((r.r0 >>> 12) &&& 0x1f).toUInt8
  valid := decide (r.r0 >>> 17 ≠ 0)
  isStatic := decide ((r.r0 >>> 19) &&& 1 ≠ 0)

/-- The word that searches compare. -/
def entryWord (r : Words) : UInt64 :=
  r.r1.toUInt64 <<< 32 ||| (r.r2 &&& 0xfffff000).toUInt64 ||| (r.r0 &&& 0xfff).toUInt64

/-- `rtl838x_read_l2_entry_using_hash` -/
def readL2EntryUsingHash (hash position : UInt32) (hw : Hw) : (UInt64 × L2Entry) × Hw :=
  let idx := hash <<< 2 ||| position
  let hw := exec (bit16 ||| bit15 ||| (idx &&& 0x1fff)) hw
  ((entryWord hw.data, decodeEntry hw.data), hw)

/-- `rtl838x_read_cam` -/
def readCam (idx : UInt32) (hw : Hw) : (UInt64 × L2Entry) × Hw :=
  let hw := exec (bit16 ||| bit15 ||| bit13 ||| (idx &&& 0x3f)) hw
  ((entryWord hw.data, decodeEntry hw.data), hw)

/-- `rtl83xx_write_hash`: it stores zeros. -/
def writeHash (idx : UInt32) (_r : Words) (hw : Hw) : Hw :=
  exec (bit16 ||| (idx &&& 0x1fff)) { hw with data := Words.zero }

/-- `rtl83xx_write_cam`: its command has the read bit. -/
def writeCam (idx : UInt32) (r : Words) (hw : Hw) : Hw :=
  exec (bit16 ||| bit15 ||| bit13 ||| (idx &&& 0x3f)) { hw with data := r }

/-- `(seed >> shift) & mask` -/
def seedPart (seed shift mask : UInt64) : UInt32 := ((seed >>> shift) &&& mask).toUInt32

/-- `rtl838x_hash` -/
def rtl838xHash (l2Ctrl0 : UInt32) (seed : UInt64) : UInt32 :=
  if l2Ctrl0 &&& 1 ≠ 0 then
    let h1 := seedPart seed 11 0x7ff
    let h1 := ((h1 &&& 0x1f) <<< 6) ||| ((h1 >>> 5) &&& 0x3f)
    let h2 := seedPart seed 33 0x7ff
    let h2 := ((h2 &&& 0x3f) <<< 5) ||| ((h2 >>> 6) &&& 0x1f)
    let h3 := seedPart seed 44 0x7ff
    let h3 := ((h3 &&& 0x7f) <<< 4) ||| ((h3 >>> 7) &&& 0xf)
    let h := h1 ^^^ h2 ^^^ h3 ^^^ seedPart seed 55 0x1ff
    h ^^^ (seedPart seed 22 0x7ff ^^^ seedPart seed 0 0x7ff)
  else
    seedPart seed 55 0x1ff ^^^ seedPart seed 44 0x7ff ^^^ seedPart seed 33 0x7ff ^^^
      seedPart seed 22 0x7ff ^^^ seedPart seed 11 0x7ff ^^^ seedPart seed 0 0x7ff

/-! ## The calls of DSA -/

/-- What entries are compared with. -/
def target (addr : Mac) (vid : UInt16) : UInt64 := addr.toU64 <<< 12 ||| vid.toUInt64

/-- `rtl83xx_hash_key` for `RTL8380_FAMILY_ID` -/
def hashKey (hw : Hw) (addr : Mac) (vid : UInt16) : UInt32 :=
  rtl838xHash hw.l2Ctrl0 (target addr vid)

/-- `(entry & 0x0fffffffffffffffULL) == ((mac << 12) | vid)` -/
def isTarget (addr : Mac) (vid : UInt16) (entry : UInt64) : Bool :=
  decide (entry &&& 0x0fffffffffffffff = target addr vid)

/-- A loop over places, up to the first that is hit. -/
def search (read : UInt32 → Hw → (UInt64 × L2Entry) × Hw) (hit : UInt64 → L2Entry → Bool) :
    List UInt32 → Hw → Option UInt32 × Hw
  | [], hw => (none, hw)
  | i :: is, hw =>
    let r := read i hw
    if hit r.1.1 r.1.2 = true then (some i, r.2) else search read hit is r.2

/-- The four places of a bucket. -/
def bucket : List UInt32 := [0, 1, 2, 3]

def camPlaces : List UInt32 := (List.range 64).map UInt32.ofNat

/-- `-ENOENT` -/
def enoent : Int := -2

/-- `-ENOTSUPP` -/
def enotsupp : Int := -524

/-- The words of an entry. -/
def encodeEntry (port : UInt32) (addr : Mac) (vid : UInt16) : Words :=
  ⟨(3 : UInt32) <<< 17 ||| port <<< 12 ||| vid.toUInt32, (addr.toU64 >>> 16).toUInt32,
    ((addr.toU64 &&& 0xffff) <<< 12).toUInt32⟩

/-- `rtl83xx_port_fdb_add` -/
def fdbAdd (port : UInt32) (addr : Mac) (vid : UInt16) (hw : Hw) : Int × Hw :=
  let key := hashKey hw addr vid
  let hit (entry : UInt64) (e : L2Entry) := !e.valid || isTarget addr vid entry
  match search (readL2EntryUsingHash key) hit bucket hw with
  | (some i, hw) => (0, writeHash (key <<< 2 ||| i) (encodeEntry port addr vid) hw)
  | (none, hw) =>
    match search readCam hit camPlaces hw with
    | (some i, hw) => (0, writeCam i (encodeEntry port addr vid) hw)
    | (none, hw) => (enotsupp, hw)

/-- `rtl83xx_port_fdb_del` -/
def fdbDel (_port : UInt32) (addr : Mac) (vid : UInt16) (hw : Hw) : Int × Hw :=
  let key := hashKey hw addr vid
  let hit (entry : UInt64) (e : L2Entry) := e.valid && isTarget addr vid entry
  match search (readL2EntryUsingHash key) hit bucket hw with
  | (some i, hw) => (0, writeHash (key <<< 2 ||| i) Words.zero hw)
  | (none, hw) =>
    -- invalid entries are looked at, too
    match search readCam (fun entry _ => isTarget addr vid entry) camPlaces hw with
    | (some i, hw) => (0, writeCam i Words.zero hw)
    | (none, hw) => (enoent, hw)

/-- What `dsa_fdb_dump_cb_t` is called with. -/
structure Reported where
  mac : Mac
  vid : UInt16
  isStatic : Bool
  deriving DecidableEq

/-- The loops of `rtl83xx_port_fdb_dump`. -/
def dumpPlaces (port : UInt32) (read : UInt32 → Hw → (UInt64 × L2Entry) × Hw) :
    List UInt32 → Hw → List Reported × Hw
  | [], hw => ([], hw)
  | i :: is, hw =>
    let r := read i hw
    let e := r.1.2
    let rest := dumpPlaces port read is r.2
    if e.valid = true ∧ e.port.toUInt32 = port then
      (⟨e.mac, e.vid, e.isStatic⟩ :: rest.1, rest.2)
    else rest

/-- `priv->fib_entries` -/
def fibEntries : Nat := 8192

/-- `rtl83xx_port_fdb_dump` -/
def fdbDump (port : UInt32) (hw : Hw) : List Reported × Hw :=
  let places := (List.range fibEntries).map UInt32.ofNat
  let hash := dumpPlaces port (fun i => readL2EntryUsingHash (i >>> 2) (i &&& 3)) places hw
  let cam := dumpPlaces port readCam camPlaces hash.2
  (hash.1 ++ cam.1, cam.2)

/-- A dump of one port after the other. -/
def dumpAll : List UInt32 → Hw → List (UInt32 × Reported)
  | [], _ => []
  | port :: ports, hw =>
    let r := fdbDump port hw
    r.1.map (fun x => (port, x)) ++ dumpAll ports r.2

end UolaOs.Rtl83xx
