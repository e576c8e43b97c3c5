import UolaOs.Lib.Buffer
import Mathlib.Algebra.Ring.Nat

/-!
# A ring of frames

iwcap.c: the options for the size of the ring, the ring itself, and the loop that stores frames and
dumps them.

* `Fault`: an access outside of the memory, or a division by zero;
* `Inv`: what is in the slots, in terms of the frames that were stored;
* `captured`: what is dumped in every run, when the ring fits.
-/

namespace UolaOs.Iwcap

inductive Fault where
  | outside
  | divideByZero
  deriving DecidableEq

/-- The byte order and the bits of a `size_t`. -/
structure Host where
  endian : Endian
  bits : Nat
  two : bits = 32 ∨ bits = 64

/-- What is in a block is left open. -/
structure Malloc where
  alloc : Nat → Option Bytes
  length : ∀ n block, alloc n = some block → block.length = n

/-! ## Options -/

/-- `-r` and `-c`, with what `atoi` makes of their arguments. -/
inductive Opt where
  | ring (arg : Int)
  | cap (arg : Int)

structure Opts where
  ringsz : Nat
  pktcap : Nat

/-- One option, or the exit status when it is refused. -/
def parseOpt (o : Opts) : Opt → Except Nat Opts
  | .ring arg =>
    let ringsz := (arg % 2 ^ 32).toNat
    if ringsz < 3 * o.pktcap then .error 3 else .ok { o with ringsz }
  | .cap arg =>
    let pktcap := (arg % 2 ^ 16).toNat
    if pktcap ≤ 8 + 32 then .error 4 else .ok { o with pktcap }

/-- The options, from a ring of 1 MiB and frames of 256 bytes on. -/
def parseOpts (opts : List Opt) : Except Nat Opts := opts.foldlM parseOpt ⟨1024 * 1024, 256⟩

/-! ## The ring -/

/-- `struct ringbuf` -/
structure Ring where
  len : Nat
  fill : Nat
  slen : Nat
  buf : Bytes

/-- The offset of a slot, as a product of 32 bits. -/
def Ring.slot (r : Ring) (j : Nat) : Nat := j * r.slen % 2 ^ 32

/-- A frame of the socket, and the time when it comes. -/
structure Packet where
  sec : Nat
  usec : Nat
  bytes : Bytes
  bound : bytes.length ≤ 0xFFFF

section
variable (h : Host) (mem : Malloc)

/-- `ringbuf_init`, which is not `none` when there is no memory. -/
def ringbufInit (numItem lenItem : Nat) : Except Fault (Option Ring) :=
  if lenItem = 0 then .ok none
  else
    match mem.alloc (numItem * (lenItem + 16) % 2 ^ h.bits) with
    | none => .ok none
    | some block =>
      (store .outside block 0 (List.replicate (numItem * lenItem % 2 ^ 32) 0)).map fun buf =>
        some ⟨numItem, 0, lenItem + 16, buf⟩

/-- `ringbuf_add`: the offset of the entry, and the ring. -/
def ringbufAdd (r : Ring) (p : Packet) : Except Fault (Nat × Ring) := do
  let e := r.slot r.fill
  if r.len = 0 then .error .divideByZero
  else
    let buf ← store .outside r.buf e (List.replicate r.slen 0)
    let buf ← store .outside buf (e + 8) (h.endian.put 4 p.sec)
    let buf ← store .outside buf (e + 12) (h.endian.put 4 p.usec)
    return (e, { r with fill := (r.fill + 1) % 2 ^ 32 % r.len, buf })

/-- `ringbuf_get` -/
def ringbufGet (r : Ring) (i : Nat) : Except Fault (Option Nat) := do
  if r.len = 0 then .error .divideByZero
  else
    let e := r.slot ((r.fill + i) % 2 ^ 32 % r.len)
    let len ← fetch .outside r.buf e 4
    return if 0 < h.endian.get len then some e else none

/-! ## The dump -/

def pcapHeader : Bytes :=
  h.endian.put 4 0xa1b2c3d4 ++ h.endian.put 2 2 ++ h.endian.put 2 4 ++ h.endian.put 4 0 ++
    h.endian.put 4 0 ++ h.endian.put 4 0xFFFF ++ h.endian.put 4 127

/-- `write_pcap_frame`, whose lengths have 16 bits. -/
def pcapFrame (sec usec len olen : Nat) : Bytes :=
  h.endian.put 4 sec ++ h.endian.put 4 usec ++ h.endian.put 4 (len % 2 ^ 16) ++
    h.endian.put 4 (olen % 2 ^ 16)

/-- One round of the dump. -/
def dumpSlot (r : Ring) (i : Nat) : Except Fault Bytes := do
  match ← ringbufGet h r i with
  | none => return []
  | some e =>
    let len ← fetch .outside r.buf e 4
    let olen ← fetch .outside r.buf (e + 4) 4
    let sec ← fetch .outside r.buf (e + 8) 4
    let usec ← fetch .outside r.buf (e + 12) 4
    let data ← fetch .outside r.buf (e + 16) (h.endian.get len)
    return pcapFrame h (h.endian.get sec) (h.endian.get usec) (h.endian.get len)
      (h.endian.get olen) ++ data

/-- The file that is written. -/
def dump (r : Ring) : Except Fault Bytes := do
  let frames ← (List.range r.len).mapM (dumpSlot h r)
  return pcapHeader h ++ frames.flatten

/-! ## The loop -/

/-- `-D` and `-B` -/
structure Filters where
  data : Bool
  beacon : Bool

/-- A frame is stored: it is longer than its radiotap header, and it is not filtered. -/
def keeps (fl : Filters) (p : Packet) : Bool :=
  let itLen := leNat (load p.bytes 2 2)
  let frametype := (p.bytes.getD itLen 0).toNat &&& 0xFC
  8 < p.bytes.length && itLen < p.bytes.length && !(fl.data && frametype == 0x08) &&
    !(fl.beacon && frametype == 0x80)

/-- What the loop does with a frame that it keeps. -/
def addFrame (pktcap : Nat) (r : Ring) (p : Packet) : Except Fault Ring := do
  let (e, r) ← ringbufAdd h r p
  let len := if pktcap < p.bytes.length then pktcap else p.bytes.length
  let buf ← store .outside r.buf (e + 4) (h.endian.put 4 p.bytes.length)
  let buf ← store .outside buf e (h.endian.put 4 len)
  let buf ← store .outside buf (e + 16) (p.bytes.take len)
  return { r with buf }

/-- What comes in front of a round of the loop, or in it. -/
inductive Event where
  /-- `SIGUSR1` -/
  | dump
  | frame (p : Packet)
  /-- `recvfrom` fails. -/
  | error

/-- One event, with the files so far. -/
def step (fl : Filters) (pktcap : Nat) (s : Ring × List Bytes) :
    Event → Except Fault (Ring × List Bytes)
  | .dump => (dump h s.1).map fun file => (s.1, s.2 ++ [file])
  | .frame p =>
    if keeps fl p = true then (addFrame h pktcap s.1 p).map fun r => (r, s.2) else .ok s
  | .error => .ok s

def run (fl : Filters) (pktcap : Nat) (r : Ring) (es : List Event) :
    Except Fault (Ring × List Bytes) :=
  es.foldlM (step h fl pktcap) (r, [])

/-! ## What is to be dumped -/

/-- The last elements of a list. -/
def lastOf {α : Type} (n : Nat) (l : List α) : List α := l.drop (l.length - n)

/-- A frame in a file: its first bytes, and its length. -/
def record (pktcap : Nat) (p : Packet) : Bytes :=
  h.endian.put 4 p.sec ++ h.endian.put 4 p.usec ++ h.endian.put 4 (min p.bytes.length pktcap) ++
    h.endian.put 4 p.bytes.length ++ p.bytes.take pktcap

def pcapFile (pktcap slots : Nat) (stored : List Packet) : Bytes :=
  pcapHeader h ++ (lastOf slots stored).flatMap (record h pktcap)

/-- One file for each dump, of the frames that were stored until then. -/
def files (fl : Filters) (pktcap slots : Nat) : List Packet → List Event → List Bytes
  | _, [] => []
  | stored, .dump :: es => pcapFile h pktcap slots stored :: files fl pktcap slots stored es
  | stored, .frame p :: es =>
    files fl pktcap slots (if keeps fl p = true then stored ++ [p] else stored) es
  | stored, .error :: es => files fl pktcap slots stored es

/-- There are slots, all accesses are inside, and the dumps are those of the last frames. -/
structure Captures (o : Opts) : Prop where
  slots : 1 ≤ o.ringsz / o.pktcap
  init : ∃ r, ringbufInit h mem (o.ringsz / o.pktcap) o.pktcap = .ok r
  dumps : ∀ r, ringbufInit h mem (o.ringsz / o.pktcap) o.pktcap = .ok (some r) →
    ∀ fl es, ∃ r', run h fl o.pktcap r es =
      .ok (r', files h fl o.pktcap (o.ringsz / o.pktcap) [] es)

/-- The ring is large enough, the products do not overflow, and the headers of the slots are zero
where `ringbuf_init` does not clear them. -/
structure Fits (o : Opts) : Prop where
  slots : o.pktcap ≤ o.ringsz
  size : o.ringsz / o.pktcap * (o.pktcap + 16) < 2 ^ h.bits
  offsets : (o.ringsz / o.pktcap - 1) * (o.pktcap + 16) < 2 ^ 32
  zero : ∀ block, mem.alloc (o.ringsz / o.pktcap * (o.pktcap + 16)) = some block →
    ∀ j < o.ringsz / o.pktcap, ∀ i, j * (o.pktcap + 16) ≤ i → i < j * (o.pktcap + 16) + 4 →
      o.ringsz / o.pktcap * o.pktcap ≤ i → block[i]? = some 0

end

/-! ## Options that are accepted -/

theorem parseOpt_bounds {o o' : Opts} {opt : Opt} (ho : o.ringsz < 2 ^ 32 ∧ 40 < o.pktcap ∧
    o.pktcap < 2 ^ 16) (h : parseOpt o opt = .ok o') :
    o'.ringsz < 2 ^ 32 ∧ 40 < o'.pktcap ∧ o'.pktcap < 2 ^ 16 := by
  cases opt with
  | ring arg =>
    rw [parseOpt] at h
    split_ifs at h
    cases h
    exact ⟨by dsimp only; omega, ho.2⟩
  | cap arg =>
    rw [parseOpt] at h
    split_ifs at h
    cases h
    exact ⟨ho.1, by dsimp only; omega, by dsimp only; omega⟩

theorem parseOpts_bounds {opts : List Opt} {o : Opts} (h : parseOpts opts = .ok o) :
    o.ringsz < 2 ^ 32 ∧ 40 < o.pktcap ∧ o.pktcap < 2 ^ 16 := by
  have hfold (start : Opts) (hstart : start.ringsz < 2 ^ 32 ∧ 40 < start.pktcap ∧
      start.pktcap < 2 ^ 16) (hrun : opts.foldlM parseOpt start = .ok o) :
      o.ringsz < 2 ^ 32 ∧ 40 < o.pktcap ∧ o.pktcap < 2 ^ 16 := by
    clear h
    induction opts generalizing start with
    | nil =>
      cases hrun
      exact hstart
    | cons opt opts ih =>
      rw [List.foldlM_cons] at hrun
      cases hopt : parseOpt start opt with
      | error e =>
        rw [hopt] at hrun
        cases hrun
      | ok next =>
        rw [hopt] at hrun
        exact ih next (parseOpt_bounds hstart hopt) hrun
  exact hfold _ (by decide) h

/-! ## Entries -/

section
variable {h : Host} {pktcap : Nat} {p : Packet} {buf : Bytes} {e : Nat}

/-- A frame is in a slot. -/
structure Holds (h : Host) (pktcap : Nat) (buf : Bytes) (e : Nat) (p : Packet) : Prop where
  len : load buf e 4 = h.endian.put 4 (min p.bytes.length pktcap)
  olen : load buf (e + 4) 4 = h.endian.put 4 p.bytes.length
  sec : load buf (e + 8) 4 = h.endian.put 4 p.sec
  usec : load buf (e + 12) 4 = h.endian.put 4 p.usec
  data : load buf (e + 16) (min p.bytes.length pktcap) = p.bytes.take pktcap

/-- A slot without a frame. -/
def Vacant (h : Host) (buf : Bytes) (e : Nat) : Prop := load buf e 4 = h.endian.put 4 0

theorem Holds.congr {buf' : Bytes} (hp : Holds h pktcap buf e p)
    (heq : ∀ off n, e ≤ off → off + n ≤ e + (pktcap + 16) → load buf' off n = load buf off n) :
    Holds h pktcap buf' e p where
  len := (heq _ _ (by omega) (by omega)).trans hp.len
  olen := (heq _ _ (by omega) (by omega)).trans hp.olen
  sec := (heq _ _ (by omega) (by omega)).trans hp.sec
  usec := (heq _ _ (by omega) (by omega)).trans hp.usec
  data := (heq _ _ (by omega) (by omega)).trans hp.data

theorem stored_take (p : Packet) (pktcap : Nat) :
    p.bytes.take (min p.bytes.length pktcap) = p.bytes.take pktcap := by
  rw [Nat.min_comm, ← List.take_take, List.take_length]

/-- The memory behind the stores of a frame. -/
def written (h : Host) (pktcap : Nat) (buf : Bytes) (e : Nat) (p : Packet) : Bytes :=
  poke (poke (poke (poke (poke (poke buf e (List.replicate (pktcap + 16) 0)) (e + 8)
    (h.endian.put 4 p.sec)) (e + 12) (h.endian.put 4 p.usec)) (e + 4)
    (h.endian.put 4 p.bytes.length)) e (h.endian.put 4 (min p.bytes.length pktcap))) (e + 16)
    (p.bytes.take pktcap)

theorem length_written : (written h pktcap buf e p).length = buf.length := by
  simp only [written, length_poke]

theorem length_data (p : Packet) (pktcap : Nat) :
    (p.bytes.take pktcap).length = min p.bytes.length pktcap := by
  rw [List.length_take, Nat.min_comm]

theorem load_put {m : Bytes} {off : Nat} (en : Endian) (n : Nat) (hm : off + 4 ≤ m.length) :
    load (poke m off (en.put 4 n)) off 4 = en.put 4 n := by
  have hput : (en.put 4 n).length = 4 := Endian.length_put _ _ _
  have hself : load (poke m off (en.put 4 n)) off (en.put 4 n).length = en.put 4 n :=
    load_poke_self (by omega)
  rwa [hput] at hself

theorem load_put_ne {m : Bytes} {off off' k : Nat} (en : Endian) (n : Nat)
    (hm : off + 4 ≤ m.length) (hne : off' + k ≤ off ∨ off + 4 ≤ off') :
    load (poke m off (en.put 4 n)) off' k = load m off' k := by
  have hput : (en.put 4 n).length = 4 := Endian.length_put _ _ _
  exact load_poke_of_disjoint (by omega) (by omega)

/-- The frame is where it was written. -/
theorem holds_written (hfits : e + (pktcap + 16) ≤ buf.length) :
    Holds h pktcap (written h pktcap buf e p) e p := by
  have hdata := length_data p pktcap
  have hmin : min p.bytes.length pktcap ≤ pktcap := Nat.min_le_right _ _
  have hlast {off k : Nat} (m : Bytes) (hm : m.length = buf.length) (hoff : off + k ≤ e + 16) :
      load (poke m (e + 16) (p.bytes.take pktcap)) off k = load m off k :=
    load_poke_of_disjoint (by omega) (by omega)
  constructor
  · rw [written, hlast _ (by simp only [length_poke]) (by omega),
      load_put _ _ (by simp only [length_poke]; omega)]
  · rw [written, hlast _ (by simp only [length_poke]) (by omega),
      load_put_ne _ _ (by simp only [length_poke]; omega) (by omega),
      load_put _ _ (by simp only [length_poke]; omega)]
  · rw [written, hlast _ (by simp only [length_poke]) (by omega),
      load_put_ne _ _ (by simp only [length_poke]; omega) (by omega),
      load_put_ne _ _ (by simp only [length_poke]; omega) (by omega),
      load_put_ne _ _ (by simp only [length_poke]; omega) (by omega),
      load_put _ _ (by simp only [length_poke]; omega)]
  · rw [written, hlast _ (by simp only [length_poke]) (by omega),
      load_put_ne _ _ (by simp only [length_poke]; omega) (by omega),
      load_put_ne _ _ (by simp only [length_poke]; omega) (by omega),
      load_put _ _ (by simp only [length_poke]; omega)]
  · rw [written, ← hdata]
    exact load_poke_self (by simp only [length_poke, hdata]; omega)

/-- The other slots are left alone. -/
theorem load_written {off n : Nat} (hfits : e + (pktcap + 16) ≤ buf.length)
    (hne : off + n ≤ e ∨ e + (pktcap + 16) ≤ off) :
    load (written h pktcap buf e p) off n = load buf off n := by
  have hdata := length_data p pktcap
  have hmin : min p.bytes.length pktcap ≤ pktcap := Nat.min_le_right _ _
  have hzeros : (List.replicate (pktcap + 16) (0 : UInt8)).length = pktcap + 16 :=
    List.length_replicate
  rw [written, load_poke_of_disjoint (by simp only [length_poke, hdata]; omega) (by omega),
    load_put_ne _ _ (by simp only [length_poke]; omega) (by omega),
    load_put_ne _ _ (by simp only [length_poke]; omega) (by omega),
    load_put_ne _ _ (by simp only [length_poke]; omega) (by omega),
    load_put_ne _ _ (by simp only [length_poke]; omega) (by omega),
    load_poke_of_disjoint (by omega) (by omega)]

/-- A frame is stored in the next slot. -/
theorem addFrame_eq {r : Ring} (hlen : 0 < r.len) (hslen : r.slen = pktcap + 16)
    (hfits : r.slot r.fill + (pktcap + 16) ≤ r.buf.length) :
    addFrame h pktcap r p = .ok { r with
      fill := (r.fill + 1) % 2 ^ 32 % r.len
      buf := written h pktcap r.buf (r.slot r.fill) p } := by
  have hput (n : Nat) : (h.endian.put 4 n).length = 4 := Endian.length_put _ _ _
  have hif : (if pktcap < p.bytes.length then pktcap else p.bytes.length) =
      min p.bytes.length pktcap := by
    split_ifs <;> omega
  have hdata := length_data p pktcap
  have hmin : min p.bytes.length pktcap ≤ pktcap := Nat.min_le_right _ _
  have hadd : ringbufAdd h r p = .ok (r.slot r.fill, { r with
      fill := (r.fill + 1) % 2 ^ 32 % r.len
      buf := poke (poke (poke r.buf (r.slot r.fill) (List.replicate (pktcap + 16) 0))
        (r.slot r.fill + 8) (h.endian.put 4 p.sec)) (r.slot r.fill + 12)
        (h.endian.put 4 p.usec) }) := by
    rw [ringbufAdd, if_neg (Nat.ne_of_gt hlen), hslen,
      store_eq (by rw [List.length_replicate]; exact hfits), ok_bind,
      store_eq (by simp only [length_poke, hput]; omega), ok_bind,
      store_eq (by simp only [length_poke, hput]; omega), ok_bind]
    rfl
  rw [addFrame, hadd, ok_bind]
  dsimp only
  rw [hif, stored_take, store_eq (by simp only [length_poke, hput]; omega), ok_bind,
    store_eq (by simp only [length_poke, hput]; omega), ok_bind,
    store_eq (by simp only [length_poke, hdata]; omega), ok_bind]
  rfl

end

/-! ## Slots -/

/-- The sizes of a ring: its slots, and the bytes of a frame. -/
structure Sizes where
  slots : Nat
  pktcap : Nat
  pos : 0 < slots
  cap_pos : 0 < pktcap
  few : slots < 2 ^ 31
  small : pktcap < 2 ^ 16
  offsets : (slots - 1) * (pktcap + 16) < 2 ^ 32

namespace Sizes

variable {z : Sizes} {j j' : Nat}

def slen (z : Sizes) : Nat := z.pktcap + 16

theorem slot_lt (hj : j < z.slots) : j * z.slen < 2 ^ 32 :=
  (Nat.mul_le_mul_right _ (Nat.le_sub_one_of_lt hj)).trans_lt z.offsets

theorem slot_fits (hj : j < z.slots) : j * z.slen + z.slen ≤ z.slots * z.slen := by
  rw [← Nat.succ_mul]
  exact Nat.mul_le_mul_right _ hj

theorem slot_ne (h : j ≠ j') : j * z.slen + z.slen ≤ j' * z.slen ∨
    j' * z.slen + z.slen ≤ j * z.slen := by
  rcases Nat.lt_or_gt_of_ne h with hlt | hlt
  · exact .inl (by rw [← Nat.succ_mul]; exact Nat.mul_le_mul_right _ hlt)
  · exact .inr (by rw [← Nat.succ_mul]; exact Nat.mul_le_mul_right _ hlt)

end Sizes

theorem add_mod_ne {n s : Nat} (k : Nat) (hs : 0 < s) (hlt : s < n) : (k + s) % n ≠ k % n := by
  have hk : k % n < n := Nat.mod_lt k (hs.trans hlt)
  rw [← Nat.mod_add_mod]
  rcases Nat.lt_or_ge (k % n + s) n with h | h
  · rw [Nat.mod_eq_of_lt h]
    omega
  · rw [Nat.mod_eq_sub_mod h, Nat.mod_eq_of_lt (by omega)]
    omega

/-- The slots from the next one on have the last frames, from the oldest one on; before the first
round is complete, those in front are vacant. -/
structure Inv (h : Host) (z : Sizes) (stored : List Packet) (r : Ring) : Prop where
  len : r.len = z.slots
  slen : r.slen = z.slen
  size : r.buf.length = z.slots * z.slen
  fill : r.fill = stored.length % z.slots
  long : ∀ p ∈ stored, 0 < p.bytes.length
  full : ∀ t < z.slots, ∀ p, z.slots ≤ stored.length + t →
    stored[stored.length + t - z.slots]? = some p →
      Holds h z.pktcap r.buf ((stored.length + t) % z.slots * z.slen) p
  vacant : ∀ t, stored.length + t < z.slots →
    Vacant h r.buf ((stored.length + t) % z.slots * z.slen)

section
variable {h : Host} {z : Sizes} {stored : List Packet} {r : Ring} {p : Packet}

theorem Inv.slot (hr : Inv h z stored r) {j : Nat} (hj : j < z.slots) : r.slot j = j * z.slen := by
  rw [Ring.slot, hr.slen, Nat.mod_eq_of_lt (Sizes.slot_lt hj)]

/-- A frame takes the place of the oldest one. -/
theorem Inv.add (hr : Inv h z stored r) {p : Packet} (hp : 0 < p.bytes.length) :
    ∃ r', addFrame h z.pktcap r p = .ok r' ∧ Inv h z (stored ++ [p]) r' := by
  have hpos := z.pos
  have hmod := Nat.mod_lt stored.length z.pos
  have hslot : r.slot r.fill = stored.length % z.slots * z.slen := by
    rw [hr.fill]
    exact hr.slot hmod
  have hfits : r.slot r.fill + (z.pktcap + 16) ≤ r.buf.length := by
    rw [hslot, hr.size]
    exact Sizes.slot_fits hmod
  have hfill : (r.fill + 1) % 2 ^ 32 % r.len = (stored ++ [p]).length % z.slots := by
    have hfew := z.few
    rw [hr.fill, hr.len, Nat.mod_eq_of_lt (by omega : stored.length % z.slots + 1 < 2 ^ 32),
      List.length_append, List.length_singleton, Nat.mod_add_mod]
  refine ⟨_, addFrame_eq (by rw [hr.len]; exact hpos) hr.slen hfits, ?_⟩
  -- what is in the slots that are not written
  have hother {t off n : Nat} (ht : t + 1 < z.slots)
      (hlo : (stored.length + (t + 1)) % z.slots * z.slen ≤ off)
      (hhi : off + n ≤ (stored.length + (t + 1)) % z.slots * z.slen + z.slen) :
      load (written h z.pktcap r.buf (r.slot r.fill) p) off n = load r.buf off n := by
    refine load_written hfits ?_
    have hne : (stored.length + (t + 1)) % z.slots ≠ stored.length % z.slots :=
      add_mod_ne _ t.succ_pos ht
    have hsep := @Sizes.slot_ne z _ _ hne
    have hslen : z.slen = z.pktcap + 16 := rfl
    omega
  constructor
  · exact hr.len
  · exact hr.slen
  · exact length_written.trans hr.size
  · exact hfill
  · intro q hq
    rcases List.mem_append.mp hq with hq | hq
    · exact hr.long q hq
    · rwa [List.mem_singleton.mp hq]
  · intro t ht q hle hq
    rw [List.length_append, List.length_singleton, Nat.add_assoc, Nat.add_comm 1] at hq hle ⊢
    by_cases hlast : t + 1 = z.slots
    · rw [hlast, Nat.add_sub_cancel, List.getElem?_concat_length] at hq
      cases hq
      rw [hlast, Nat.add_mod_right]
      dsimp only
      rw [hslot]
      rw [hslot] at hfits
      exact holds_written hfits
    · rw [List.getElem?_append_left (by omega)] at hq
      refine (hr.full (t + 1) (by omega) q hle hq).congr fun off n hlo hhi => ?_
      exact hother (by omega) hlo hhi
  · intro t ht
    rw [List.length_append, List.length_singleton, Nat.add_assoc, Nat.add_comm 1] at ht ⊢
    rw [Vacant]
    dsimp only
    rw [hother (by omega) (Nat.le_refl _) (by rw [Sizes.slen]; omega)]
    exact hr.vacant (t + 1) ht

theorem mapM_ok {α β ε : Type} {l : List α} {f : α → Except ε β} {g : α → β}
    (hf : ∀ a ∈ l, f a = .ok (g a)) : l.mapM f = .ok (l.map g) := by
  induction l with
  | nil => rfl
  | cons a l ih =>
    rw [List.mapM_cons, hf a List.mem_cons_self, ih fun b hb => hf b (List.mem_cons_of_mem a hb)]
    rfl

/-- What a round of the dump writes. -/
def slotRecord (h : Host) (z : Sizes) (stored : List Packet) (t : Nat) : Bytes :=
  if z.slots ≤ stored.length + t then
    (stored[stored.length + t - z.slots]?).elim [] (record h z.pktcap)
  else []

/-- One round of the dump. -/
theorem Inv.dumpSlot (hr : Inv h z stored r) {t : Nat} (ht : t < z.slots) :
    Iwcap.dumpSlot h r t = .ok (slotRecord h z stored t) := by
  have hfew := z.few
  have hmod := Nat.mod_lt stored.length z.pos
  have hindex : (r.fill + t) % 2 ^ 32 % r.len = (stored.length + t) % z.slots := by
    rw [hr.fill, hr.len, Nat.mod_eq_of_lt (by omega : stored.length % z.slots + t < 2 ^ 32),
      Nat.mod_add_mod]
  have hlt := Nat.mod_lt (stored.length + t) z.pos
  have hslot : r.slot ((r.fill + t) % 2 ^ 32 % r.len) =
      (stored.length + t) % z.slots * z.slen := by
    rw [hindex]
    exact hr.slot hlt
  have hfits : (stored.length + t) % z.slots * z.slen + (z.pktcap + 16) ≤ r.buf.length := by
    rw [hr.size]
    exact Sizes.slot_fits hlt
  have hlen : r.len ≠ 0 := by
    rw [hr.len]
    exact Nat.ne_of_gt z.pos
  have hfull := hr.full t ht
  have hvacant := hr.vacant t
  have hsmall := z.small
  have hcap := z.cap_pos
  generalize (stored.length + t) % z.slots * z.slen = e at hslot hfits hfull hvacant
  have hget : ringbufGet h r t = .ok (if 0 < h.endian.get (load r.buf e 4) then some e else none) :=
      by
    rw [ringbufGet, if_neg hlen, hslot]
    dsimp only
    rw [fetch_eq (by omega)]
    rfl
  rw [Iwcap.dumpSlot, hget, ok_bind, slotRecord]
  by_cases hle : z.slots ≤ stored.length + t
  · obtain ⟨p, hp⟩ : ∃ p, stored[stored.length + t - z.slots]? = some p :=
      ⟨_, List.getElem?_eq_getElem (by omega)⟩
    have hholds := hfull p hle hp
    have hlong := hr.long p (List.mem_of_getElem? hp)
    have hbound := p.bound
    have hmin : min p.bytes.length z.pktcap < 256 ^ 4 := by omega
    have hget (n : Nat) : h.endian.put 4 (h.endian.get (h.endian.put 4 n)) = h.endian.put 4 n :=
      Endian.put_get _ (Endian.length_put _ _ _)
    have hlength : p.bytes.length < 256 ^ 4 := by omega
    rw [if_pos hle, hp, hholds.len, Endian.get_put_of_lt _ hmin, if_pos (by omega)]
    dsimp only
    rw [fetch_eq (by omega), ok_bind, fetch_eq (by omega), ok_bind, fetch_eq (by omega), ok_bind,
      fetch_eq (by omega), ok_bind, hholds.len, Endian.get_put_of_lt _ hmin, fetch_eq (by omega),
      ok_bind, hholds.data, hholds.olen, hholds.sec, hholds.usec, Endian.get_put_of_lt _ hlength,
      pcapFrame, hget, hget, Nat.mod_eq_of_lt (by omega : min p.bytes.length z.pktcap < 2 ^ 16),
      Nat.mod_eq_of_lt (by omega : p.bytes.length < 2 ^ 16)]
    rfl
  · have hzero := hvacant (by omega)
    rw [Vacant] at hzero
    rw [if_neg hle, hzero, Endian.get_put]
    rfl

/-- The slots from the oldest one on are the end of what was stored. -/
theorem flatMap_slots {α : Type} (f : α → Bytes) (l : List α) (n : Nat) :
    (List.range n).flatMap (fun t =>
      if n ≤ l.length + t then (l[l.length + t - n]?).elim [] f else []) =
      (lastOf n l).flatMap f := by
  induction n with
  | zero => rw [lastOf, Nat.sub_zero, List.drop_length, List.range_zero, List.flatMap_nil,
      List.flatMap_nil]
  | succ n ih =>
    have hrest : (fun t => if n + 1 ≤ l.length + (t + 1) then
        (l[l.length + (t + 1) - (n + 1)]?).elim [] f else []) = fun t =>
          if n ≤ l.length + t then (l[l.length + t - n]?).elim [] f else [] := by
      funext t
      rw [← Nat.add_assoc, Nat.add_sub_add_right]
      exact if_congr (Nat.add_le_add_iff_right) rfl rfl
    rw [List.range_succ_eq_map, List.flatMap_cons, List.flatMap_map, hrest, ih, Nat.add_zero l.length]
    by_cases hn : n + 1 ≤ l.length
    · have hlt : l.length - (n + 1) < l.length := by omega
      have hdrop : lastOf (n + 1) l = l[l.length - (n + 1)] :: lastOf n l := by
        have hnext : l.length - (n + 1) + 1 = l.length - n := by omega
        rw [lastOf, lastOf, List.drop_eq_getElem_cons hlt, hnext]
      rw [if_pos hn, List.getElem?_eq_getElem hlt, hdrop, List.flatMap_cons]
      rfl
    · rw [if_neg hn, lastOf, lastOf, Nat.sub_eq_zero_of_le (by omega),
        Nat.sub_eq_zero_of_le (by omega)]
      rfl

/-- A dump is the file of the last frames. -/
theorem Inv.dump (hr : Inv h z stored r) :
    Iwcap.dump h r = .ok (pcapFile h z.pktcap z.slots stored) := by
  rw [Iwcap.dump, hr.len, mapM_ok fun t ht => hr.dumpSlot (List.mem_range.mp ht), ok_bind, pcapFile,
    ← flatMap_slots, ← List.flatMap_def]
  rfl

/-! ## Runs -/

theorem long_of_keeps {fl : Filters} (hp : keeps fl p = true) : 0 < p.bytes.length := by
  simp only [keeps, Bool.and_eq_true, decide_eq_true_eq] at hp
  omega

/-- **Runs.** Whatever comes, the dumps are those of the last frames. -/
theorem Inv.run (fl : Filters) (es : List Event) (hr : Inv h z stored r) (out : List Bytes) :
    ∃ r', es.foldlM (step h fl z.pktcap) (r, out) =
      .ok (r', out ++ files h fl z.pktcap z.slots stored es) := by
  induction es generalizing r stored out with
  | nil => exact ⟨r, by rw [files, List.append_nil]; rfl⟩
  | cons ev es ih =>
    rw [List.foldlM_cons]
    cases ev with
    | dump =>
      obtain ⟨r', hr'⟩ := ih hr (out ++ [pcapFile h z.pktcap z.slots stored])
      refine ⟨r', ?_⟩
      rw [step, hr.dump, Except.map, ok_bind, hr', files, List.append_assoc, List.singleton_append]
    | frame p =>
      by_cases hp : keeps fl p = true
      · obtain ⟨next, hadd, hnext⟩ := hr.add (long_of_keeps hp)
        obtain ⟨r', hr'⟩ := ih hnext out
        refine ⟨r', ?_⟩
        rw [step, if_pos hp, hadd, Except.map, ok_bind, hr', files, if_pos hp]
      · obtain ⟨r', hr'⟩ := ih hr out
        refine ⟨r', ?_⟩
        rw [step, if_neg hp, ok_bind, hr', files, if_neg hp]
    | error =>
      obtain ⟨r', hr'⟩ := ih hr out
      exact ⟨r', by rw [step, ok_bind, hr', files]⟩

end

/-! ## The first ring -/

section
variable {h : Host} {mem : Malloc} {o : Opts}

/-- The sizes of the ring of some options. -/
def Opts.sizes (o : Opts) (hcap : 40 < o.pktcap ∧ o.pktcap < 2 ^ 16) (hring : o.ringsz < 2 ^ 32)
    (hfits : Fits h mem o) : Sizes where
  slots := o.ringsz / o.pktcap
  pktcap := o.pktcap
  pos := Nat.div_pos hfits.slots (by omega)
  cap_pos := by omega
  few := (Nat.div_le_div_left (by omega : 2 ≤ o.pktcap) (by omega)).trans_lt (by omega)
  small := hcap.2
  offsets := hfits.offsets

theorem put_zero (en : Endian) : en.put 4 0 = List.replicate 4 0 := by
  cases en <;> rfl

/-- At the start, all slots are vacant. -/
theorem ringbufInit_inv (hcap : 40 < o.pktcap ∧ o.pktcap < 2 ^ 16) (hring : o.ringsz < 2 ^ 32)
    (hfits : Fits h mem o) :
    ringbufInit h mem (o.ringsz / o.pktcap) o.pktcap = .ok none ∨
      ∃ r, ringbufInit h mem (o.ringsz / o.pktcap) o.pktcap = .ok (some r) ∧
        Inv h (o.sizes hcap hring hfits) [] r := by
  have hdiv : o.ringsz / o.pktcap * o.pktcap ≤ o.ringsz := Nat.div_mul_le_self _ _
  have hmul : o.ringsz / o.pktcap * (o.pktcap + 16) =
      o.ringsz / o.pktcap * o.pktcap + o.ringsz / o.pktcap * 16 := Nat.mul_add _ _ _
  rw [ringbufInit, if_neg (by omega), Nat.mod_eq_of_lt hfits.size,
    Nat.mod_eq_of_lt (hdiv.trans_lt hring)]
  cases halloc : mem.alloc (o.ringsz / o.pktcap * (o.pktcap + 16)) with
  | none => exact .inl rfl
  | some block =>
    have hlen := mem.length _ _ halloc
    have hclear : 0 + (List.replicate (o.ringsz / o.pktcap * o.pktcap) (0 : UInt8)).length ≤
        block.length := by
      rw [List.length_replicate]
      omega
    refine .inr ⟨_, by dsimp only; rw [store_eq hclear]; rfl, ?_⟩
    constructor
    · rfl
    · rfl
    · exact (length_poke _ _ _).trans hlen
    · exact (Nat.zero_mod _).symm
    · intro p hp
      cases hp
    · intro t ht p hle
      exact absurd hle (by rw [List.length_nil, Nat.zero_add]; exact Nat.not_le.mpr ht)
    · intro t ht
      rw [List.length_nil, Nat.zero_add] at ht ⊢
      rw [Nat.mod_eq_of_lt ht, Vacant, put_zero]
      refine load_eq_replicate fun i hlo hhi => ?_
      rw [getElem?_poke hclear]
      split_ifs with hi
      · rw [List.getElem?_replicate, if_pos (by rw [List.length_replicate] at hi; omega)]
      · rw [List.length_replicate] at hi
        exact hfits.zero block halloc t ht i hlo hhi (by omega)

end

/-- **Captures.** When the ring of the accepted options fits, no access is outside, and every dump
has the last frames, in their order. -/
theorem captured {h : Host} {mem : Malloc} {opts : List Opt} {o : Opts}
    (hopts : parseOpts opts = .ok o) (hfits : Fits h mem o) : Captures h mem o := by
  have hbounds := parseOpts_bounds hopts
  have hinit := ringbufInit_inv hbounds.2 hbounds.1 hfits
  refine ⟨Nat.div_pos hfits.slots (by omega), ?_, ?_⟩
  · rcases hinit with hnone | ⟨r, hr, -⟩
    · exact ⟨none, hnone⟩
    · exact ⟨some r, hr⟩
  · intro r hr fl es
    rcases hinit with hnone | ⟨r', hr', hinv⟩
    · rw [hr] at hnone
      cases hnone
    · rw [hr] at hr'
      cases hr'
      exact hinv.run fl es []

/-- A `malloc` that clears what it returns. -/
def Malloc.zeroed : Malloc where
  alloc n := some (List.replicate n 0)
  length n block hblock := by
    cases hblock
    exact List.length_replicate

/-- Without options, there are 4096 slots. -/
theorem captured_default : parseOpts [] = .ok ⟨1048576, 256⟩ ∧
    Captures ⟨.little, 64, .inr rfl⟩ .zeroed ⟨1048576, 256⟩ := by
  refine ⟨rfl, @captured _ _ [] _ rfl ⟨by decide, by decide, by decide, ?_⟩⟩
  intro block hblock j hj i hlo hhi hle
  cases hblock
  dsimp only at hj hhi
  rw [List.getElem?_replicate, if_pos (by dsimp only; omega)]

/-- The size of the ring is compared with that of the frames only where the ring is given: when
larger frames follow, there is no slot. -/
theorem parseOpts_no_slots : parseOpts [.ring 768, .cap 1000] = .ok ⟨768, 1000⟩ ∧
    ∀ h mem, ¬ Captures h mem ⟨768, 1000⟩ :=
  ⟨rfl, fun _ _ hcaptures => absurd hcaptures.slots (by decide)⟩

end UolaOs.Iwcap
