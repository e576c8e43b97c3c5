import Mathlib.Logic.Function.Basic
import UolaOs.Lib.CString
import UolaOs.Lib.Crc32

/-!
# RouterBOOT's soft config in sysfs

The driver rb_softconfig.c as a system of calls that run their lock-protected sections in any
order:

* the CRC word of the buffer is zero when the buffer holds changes;
* an attribute store writes a word and clears the CRC;
* a commit write reads the CRC under the read lock, works on the flash under the write lock, and
  clears the CRC of a failed one after that without a lock.
-/

namespace UolaOs.Rb

section
variable (e : Endian)

/-! ## The buffer -/

/-- `RB_SC_GETCRC` -/
def getCrc (buf : Bytes) : UInt32 := UInt32.ofNat (e.get (load buf 4 4))

/-- `RB_SC_SETCRC` -/
def setCrc (buf : Bytes) (crc : UInt32) : Bytes := poke buf 4 (e.put 4 crc.toNat)

/-- `RB_SC_CLRCRC` -/
def clrCrc (buf : Bytes) : Bytes := setCrc e buf 0

/-- `sysfs_streq`: one newline at the end does not count. -/
def sysfsStreq (a b : Bytes) : Bool := a == b || a == b ++ [0x0a] || a ++ [0x0a] == b

/-- The value that `sc_tag_store_u32tvs` stores. -/
def scTagStoreU32tvs (pld_len : Nat) (buf : Bytes) (tvs : List (UInt32 × Bytes)) (tvselmts : Int) :
    Except Int UInt32 :=
  if tvselmts < 0 then .error tvselmts
  else if pld_len ≠ 4 then .error (-22)
  else
    match (tvs.take tvselmts.toNat).find? fun tv => sysfsStreq buf tv.2 with
    | some tv => .ok tv.1
    | none => .error (-22)

/-- The value that `sc_tag_store_boolts` stores. -/
def scTagStoreBoolts (pld_len : Nat) (buf strfalse strtrue : Bytes) : Except Int UInt32 :=
  if pld_len ≠ 4 then .error (-22)
  else if sysfsStreq buf strfalse then .ok 0
  else if sysfsStreq buf strtrue then .ok 1
  else .error (-22)

/-- The section of a store under the write lock. -/
def storeTag (buf : Bytes) (pld_ofs : Nat) (data : UInt32) : Bytes :=
  clrCrc e (poke buf pld_ofs (e.put 4 data.toNat))

/-- The image that a commit writes. -/
def sealBuf (buf : Bytes) : Bytes := setCrc e buf (~~~ crc32 0xffffffff buf)

/-! ## Calls -/

/-- Where a call of `sc_commit_store` stands. -/
inductive Phase where
  | idle
  | checked (flush : Bool)
  | locked (ret : Int) (bytes_rw : Nat)
  deriving DecidableEq

/-- How an mtd operation ends, and what its target holds then. -/
structure MtdResult where
  ret : Int
  bytes_rw : Nat
  contents : Bytes

/-- The operation moved all of the data. -/
def MtdResult.Moved (r : MtdResult) (data : Bytes) : Prop :=
  r.contents.length = data.length ∧ (r.ret = 0 → r.bytes_rw = data.length → r.contents = data)

instance (r : MtdResult) (data : Bytes) : Decidable (r.Moved data) :=
  inferInstanceAs (Decidable (_ ∧ _))

/-- The driver and the calls that run in it. `held` tells of a call whether the flash held the
buffer at some time since it started; the lists collect what was written and answered. -/
structure World where
  buf : Bytes
  flash : Bytes
  call : Nat → Phase
  held : Nat → Bool
  written : List Bytes
  succeeded : List Bool
  clean : List Bool

/-- The sections that the calls run. -/
inductive Section where
  | store (pld_ofs : Nat) (data : UInt32)
  | show
  | check (id : Nat) (input : Option Bool)
  | reread (id : Nat) (read : MtdResult)
  | flush (id : Nat) (erase write : MtdResult)
  | finish (id : Nat)

namespace World

variable (w : World)

def same : Bool := w.flash == w.buf

def observe : World := { w with held := fun id => w.held id || w.same }

def move (id : Nat) (p : Phase) : World := { w with call := Function.update w.call id p }

@[simp] theorem observe_held (id : Nat) : w.observe.held id = (w.held id || w.same) := rfl

@[simp] theorem move_call_self (id : Nat) (p : Phase) : (w.move id p).call id = p :=
  Function.update_self ..

theorem move_call_of_ne {id k : Nat} (h : k ≠ id) (p : Phase) : (w.move id p).call k = w.call k :=
  Function.update_of_ne h ..

/-- A call of `sc_commit_store` up to the first lock it waits for. -/
def check (id : Nat) (input : Option Bool) : World :=
  let w := { w with held := Function.update w.held id w.same }
  if getCrc e w.buf ≠ 0 then { w with succeeded := w.same :: w.succeeded }
  else
    match input with
    | none => w
    | some flush => w.move id (.checked flush)

/-- What follows the write lock. -/
def finish (id : Nat) (ret : Int) (bytes_rw : Nat) : World :=
  let w := w.move id .idle
  if ret ≠ 0 ∨ bytes_rw ≠ w.buf.length then { w with buf := clrCrc e w.buf }
  else { w with succeeded := w.held id :: w.succeeded }

end World

/-- One section; `none` when the call does not stand before it. -/
def step (w : World) : Section → Option World
  | .store pld_ofs data => some { w with buf := storeTag e w.buf pld_ofs data }.observe
  | .show => some (if getCrc e w.buf ≠ 0 then { w with clean := w.same :: w.clean } else w)
  | .check id input => if w.call id = .idle then some (w.check e id input) else none
  | .reread id read =>
    if w.call id = .checked false ∧ read.Moved w.flash ∧ read.contents.length = w.buf.length then
      some ({ w with buf := read.contents }.move id (.locked read.ret read.bytes_rw)).observe
    else none
  | .flush id erase write =>
    if w.call id = .checked true ∧ write.Moved (sealBuf e w.buf) ∧
        erase.contents.length = w.buf.length then
      let w := { w with buf := sealBuf e w.buf }
      -- `mtd_write` is left out when `mtd_erase` fails
      if erase.ret ≠ 0 then
        some ({ w with flash := erase.contents }.move id (.locked erase.ret write.bytes_rw)).observe
      else
        some ({ w with flash := write.contents, written := w.buf :: w.written }.move id
          (.locked write.ret write.bytes_rw)).observe
    else none
  | .finish id =>
    match w.call id with
    | .locked ret bytes_rw => some (w.finish e id ret bytes_rw).observe
    | _ => none

/-- After `rb_softconfig_init`. -/
structure Init (w : World) : Prop where
  room : 8 ≤ w.buf.length
  same : w.flash = w.buf
  idle : ∀ id, w.call id = .idle
  written : w.written = []
  succeeded : w.succeeded = []
  clean : w.clean = []

end

end UolaOs.Rb
