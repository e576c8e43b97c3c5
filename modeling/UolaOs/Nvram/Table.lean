import UolaOs.Lib.CString
import UolaOs.Lib.ChainTable
import Mathlib.Data.List.Induction

/-!
# The nvram variable table

The in-memory half of package/utils/nvram: a handle holds a hash table of
`name`/`value` tuples over a memory-mapped partition. Memory allocation
succeeds throughout.
-/

namespace UolaOs.Nvram

/-- What the C code takes from its compilation target. -/
structure Target where
  endian : Endian
  charSigned : Bool
  ptr64 : Bool
  deriving DecidableEq, Repr

def Target.ptrSize (tg : Target) : Nat := if tg.ptr64 then 8 else 4

structure Tuple where
  name : CStr
  value : CStr
  deriving DecidableEq

def NVRAM_MIN_SPACE : Nat := 0x8000

/-- Where the variable store lies: a mapping of `length` bytes at address `addr`
with the header at `offset`. -/
structure Area where
  addr : Nat
  length : Nat
  offset : Nat
  page : 4096 ∣ addr
  aligned : 4 ∣ offset
  room : offset + NVRAM_MIN_SPACE ≤ length
  length_lt : length < 2 ^ 31

/-- The bytes from the header to the end of the mapping. -/
def Area.space (a : Area) : Nat := a.length - a.offset

theorem Area.min_le_space (a : Area) : NVRAM_MIN_SPACE ≤ a.space := by
  have := a.room
  rw [Area.space]
  omega

abbrev Chains := ChainTable.Table Tuple 257

structure Handle where
  area : Area
  mmap : Bytes
  mmap_length : mmap.length = area.length
  nvram_hash : Chains
  nvram_dead : List Tuple

section
variable (tg : Target)

/-- `*s` of type `char`, converted to `uint32_t`. -/
def charValue (c : UInt8) : UInt32 :=
  if tg.charSigned && decide (128 ≤ c) then c.toUInt32 - 256 else c.toUInt32

/-- String hash. -/
def hash (s : CStr) : UInt32 := s.bytes.foldl (fun h c => 31 * h + charValue tg c) 0

/-- `hash(name) % NVRAM_ARRAYSIZE(h->nvram_hash)`: the macro has no parentheses,
so the remainder is by `sizeof(h->nvram_hash)` and then divided by the size of
one entry. -/
def bucketIndex (name : CStr) : Nat :=
  (hash tg name).toNat % (257 * tg.ptrSize) / tg.ptrSize

theorem bucketIndex_lt (name : CStr) : bucketIndex tg name < 257 := by
  have size : 0 < tg.ptrSize := by unfold Target.ptrSize; split <;> decide
  exact (Nat.div_lt_iff_lt_mul size).mpr (Nat.mod_lt _ (Nat.mul_pos (by decide) size))

def bucket (name : CStr) : Fin 257 := ⟨bucketIndex tg name, bucketIndex_lt tg name⟩

/-- Get the value of an NVRAM variable. -/
def nvramGet (h : Handle) (name : CStr) : Option CStr :=
  (ChainTable.lookup Tuple.name (bucket tg) h.nvram_hash name).map Tuple.value

/-- What `_nvram_realloc` returns: the tuple it was given, or a new one. -/
inductive Realloc where
  | same (u : Tuple)
  | fresh (u : Tuple)

def nvramRealloc (h : Handle) (t : Option Tuple) (name value : CStr) : Option Realloc :=
  if value.length + 1 > h.area.space then none
  else match t with
    | none => some (.fresh ⟨name, value⟩)
    | some t => some (.same (if t.value ≠ value then { t with value := value } else t))

/-- Set the value of an NVRAM variable; the result code comes second. -/
def nvramSet (h : Handle) (name value : CStr) : Handle × Int :=
  let t := ChainTable.lookup Tuple.name (bucket tg) h.nvram_hash name
  match nvramRealloc h t name value with
  | none => (h, -12)
  | some (.same u) =>
    ({ h with nvram_hash := ChainTable.replace Tuple.name (bucket tg) h.nvram_hash u }, 0)
  | some (.fresh u) =>
    match t with
    -- Not reached: `_nvram_realloc` hands an existing tuple back.
    | some t =>
      let T := ChainTable.erase Tuple.name (bucket tg) h.nvram_hash name
      ({ h with nvram_hash := ChainTable.push Tuple.name (bucket tg) T u,
                nvram_dead := t :: h.nvram_dead }, 0)
    | none =>
      ({ h with nvram_hash := ChainTable.push Tuple.name (bucket tg) h.nvram_hash u }, 0)

/-- Unset the value of an NVRAM variable. -/
def nvramUnset (h : Handle) (name : CStr) : Handle :=
  match ChainTable.lookup Tuple.name (bucket tg) h.nvram_hash name with
  | none => h
  | some t =>
    { h with nvram_hash := ChainTable.erase Tuple.name (bucket tg) h.nvram_hash name,
             nvram_dead := t :: h.nvram_dead }

/-- Get all NVRAM variables. Each tuple is put in front of the list so far. -/
def nvramGetall (h : Handle) : List Tuple := (ChainTable.entries h.nvram_hash).reverse

/-- Free all tuples. -/
def nvramFree (h : Handle) : Handle := { h with nvram_hash := fun _ => [], nvram_dead := [] }

/-- Every tuple lies in the chain its name selects and no name occurs twice. -/
def TableOk (h : Handle) : Prop := ChainTable.Ok Tuple.name (bucket tg) h.nvram_hash

/-- A value `nvram_set` accepts. -/
def Accepted (a : Area) (value : CStr) : Prop := value.length + 1 ≤ a.space

instance (a : Area) (value : CStr) : Decidable (Accepted a value) := Nat.decLe _ _

end

/-! ## One operation -/

section
variable {tg : Target} {h : Handle}

theorem nvramSet_rejected {name value : CStr} (hv : ¬ Accepted h.area value) :
    nvramSet tg h name value = (h, -12) := by
  have : value.length + 1 > h.area.space := Nat.lt_of_not_le hv
  simp [nvramSet, nvramRealloc, this]

/-- What an accepted `nvram_set` does: it replaces the value in place, or adds a
tuple in front of the name's chain. -/
theorem nvramSet_accepted {name value : CStr} (hv : Accepted h.area value) :
    nvramSet tg h name value =
      ({ h with nvram_hash :=
          if (ChainTable.lookup Tuple.name (bucket tg) h.nvram_hash name).isSome then
            ChainTable.replace Tuple.name (bucket tg) h.nvram_hash ⟨name, value⟩
          else ChainTable.push Tuple.name (bucket tg) h.nvram_hash ⟨name, value⟩ }, 0) := by
  have fits : ¬ value.length + 1 > h.area.space := Nat.not_lt_of_le hv
  cases ht : ChainTable.lookup Tuple.name (bucket tg) h.nvram_hash name with
  | none => simp [nvramSet, nvramRealloc, fits, ht]
  | some t =>
    have hn : t.name = name := ChainTable.key_of_find _ ht
    have hu : (if t.value ≠ value then { t with value := value } else t) = ⟨name, value⟩ := by
      subst hn
      split
      · rfl
      · rename_i h'
        rw [not_not] at h'
        rw [← h']
    simp only [nvramSet, nvramRealloc, fits, ht, hu, ↓reduceIte, Option.isSome_some]

@[simp] theorem nvramSet_area (name value : CStr) :
    (nvramSet tg h name value).1.area = h.area := by
  by_cases hv : Accepted h.area value
  · rw [nvramSet_accepted hv]
  · rw [nvramSet_rejected hv]

@[simp] theorem nvramSet_mmap (name value : CStr) :
    (nvramSet tg h name value).1.mmap = h.mmap := by
  by_cases hv : Accepted h.area value
  · rw [nvramSet_accepted hv]
  · rw [nvramSet_rejected hv]

theorem nvramSet_code (name value : CStr) :
    (nvramSet tg h name value).2 = if Accepted h.area value then 0 else -12 := by
  split
  · rename_i hv; rw [nvramSet_accepted hv]
  · rename_i hv; rw [nvramSet_rejected hv]

theorem nvramSet_ok (ok : TableOk tg h) (name value : CStr) :
    TableOk tg (nvramSet tg h name value).1 := by
  by_cases hv : Accepted h.area value
  · rw [nvramSet_accepted hv]
    cases ht : ChainTable.lookup Tuple.name (bucket tg) h.nvram_hash name with
    | some t => exact ChainTable.ok_replace ok _
    | none => exact ChainTable.ok_push ok ht
  · rw [nvramSet_rejected hv]
    exact ok

/-- An accepted set changes the answer for its own name only. -/
theorem nvramGet_set {name value : CStr} (hv : Accepted h.area value) (n : CStr) :
    nvramGet tg (nvramSet tg h name value).1 n =
      if n = name then some value else nvramGet tg h n := by
  rw [nvramSet_accepted hv]
  cases ht : ChainTable.lookup Tuple.name (bucket tg) h.nvram_hash name with
  | some t =>
    simp only [nvramGet, Option.isSome_some, ↓reduceIte, ChainTable.lookup_replace, ht]
    split <;> rfl
  | none =>
    simp only [nvramGet, Option.isSome_none, Bool.false_eq_true, ↓reduceIte,
      ChainTable.lookup_push]
    split <;> rfl

@[simp] theorem nvramUnset_area (name : CStr) : (nvramUnset tg h name).area = h.area := by
  unfold nvramUnset; split <;> rfl

@[simp] theorem nvramUnset_mmap (name : CStr) : (nvramUnset tg h name).mmap = h.mmap := by
  unfold nvramUnset; split <;> rfl

theorem nvramUnset_ok (ok : TableOk tg h) (name : CStr) : TableOk tg (nvramUnset tg h name) := by
  unfold nvramUnset
  split
  · exact ok
  · exact ChainTable.ok_erase ok name

theorem nvramGet_unset (ok : TableOk tg h) (name n : CStr) :
    nvramGet tg (nvramUnset tg h name) n = if n = name then none else nvramGet tg h n := by
  unfold nvramUnset
  split
  · rename_i ht
    split
    · rename_i hn
      rw [hn, nvramGet, ht]
      rfl
    · rfl
  · simp only [nvramGet, ChainTable.lookup_erase ok]
    split <;> rfl

theorem nvramGet_free (n : CStr) : nvramGet tg (nvramFree h) n = none := rfl

theorem nvramFree_ok : TableOk tg (nvramFree h) := ChainTable.ok_empty

/-- `nvram_getall` holds exactly the pairs `nvram_get` answers. -/
theorem mem_nvramGetall (ok : TableOk tg h) (t : Tuple) :
    t ∈ nvramGetall h ↔ nvramGet tg h t.name = some t.value := by
  rw [nvramGetall, List.mem_reverse, ChainTable.mem_entries_iff ok, nvramGet,
    Option.map_eq_some_iff]
  constructor
  · intro ht
    exact ⟨t, ht, rfl⟩
  · rintro ⟨u, hu, hv⟩
    have hn : u.name = t.name := ChainTable.key_of_find _ hu
    rw [hu]
    cases u
    cases t
    simp_all

theorem nvramGetall_nodup (ok : TableOk tg h) : ((nvramGetall h).map Tuple.name).Nodup := by
  rw [nvramGetall, List.map_reverse, List.nodup_reverse]
  exact ChainTable.entries_nodup ok

end

/-! ## Runs -/

inductive Op where
  | set (name value : CStr)
  | unset (name : CStr)

def Op.name : Op → CStr
  | .set name _ => name
  | .unset name => name

/-- One library call, its result code dropped. -/
def apply (tg : Target) (h : Handle) : Op → Handle
  | .set name value => (nvramSet tg h name value).1
  | .unset name => nvramUnset tg h name

def run (tg : Target) (h : Handle) (ops : List Op) : Handle := ops.foldl (apply tg) h

/-- Whether the call changes the table: a set does so unless it returns an error. -/
def Op.takesEffect (a : Area) : Op → Bool
  | .set _ value => Accepted a value
  | .unset _ => true

/-- What the call leaves for its name. -/
def Op.result : Op → Option CStr
  | .set _ value => some value
  | .unset _ => none

/-- The last call on name `n` that took effect. -/
def lastOn (a : Area) (n : CStr) (ops : List Op) : Option Op :=
  ops.reverse.find? (fun op => decide (op.name = n) && op.takesEffect a)

/-- The value of the last accepted set not followed by an unset, and `before` if
no call on `n` took effect. -/
def valueAfter (a : Area) (n : CStr) (before : Option CStr) (ops : List Op) : Option CStr :=
  ((lastOn a n ops).map Op.result).getD before

section
variable {tg : Target} {h : Handle}

@[simp] theorem apply_area (op : Op) : (apply tg h op).area = h.area := by
  cases op <;> simp [apply]

@[simp] theorem apply_mmap (op : Op) : (apply tg h op).mmap = h.mmap := by
  cases op <;> simp [apply]

theorem apply_ok (ok : TableOk tg h) (op : Op) : TableOk tg (apply tg h op) := by
  cases op with
  | set name value => exact nvramSet_ok ok name value
  | unset name => exact nvramUnset_ok ok name

theorem run_append (ops : List Op) (op : Op) :
    run tg h (ops ++ [op]) = apply tg (run tg h ops) op := by
  simp [run]

theorem run_area (ops : List Op) : (run tg h ops).area = h.area := by
  induction ops using List.reverseRecOn with
  | nil => rfl
  | append_singleton ops op ih => rw [run_append, apply_area, ih]

theorem run_mmap (ops : List Op) : (run tg h ops).mmap = h.mmap := by
  induction ops using List.reverseRecOn with
  | nil => rfl
  | append_singleton ops op ih => rw [run_append, apply_mmap, ih]

theorem run_ok (ok : TableOk tg h) (ops : List Op) : TableOk tg (run tg h ops) := by
  induction ops using List.reverseRecOn with
  | nil => exact ok
  | append_singleton ops op ih =>
    rw [run_append]
    exact apply_ok ih op

/-- One call seen by `nvram_get`. -/
theorem nvramGet_apply (ok : TableOk tg h) (op : Op) (n : CStr) :
    nvramGet tg (apply tg h op) n =
      if op.name = n ∧ op.takesEffect h.area then op.result else nvramGet tg h n := by
  cases op with
  | set name value =>
    by_cases hv : Accepted h.area value
    · simp [apply, nvramGet_set hv, Op.name, Op.takesEffect, Op.result, hv, eq_comm]
    · simp [apply, nvramSet_rejected hv, Op.takesEffect, hv]
  | unset name => simp [apply, nvramGet_unset ok, Op.name, Op.takesEffect, Op.result, eq_comm]

theorem valueAfter_append (a : Area) (n : CStr) (before : Option CStr) (ops : List Op) (op : Op) :
    valueAfter a n before (ops ++ [op]) =
      if op.name = n ∧ op.takesEffect a then op.result else valueAfter a n before ops := by
  by_cases hop : op.name = n ∧ op.takesEffect a
  · simp [valueAfter, lastOn, hop]
  · rw [if_neg hop]
    have : (decide (op.name = n) && op.takesEffect a) = false := by simpa using hop
    simp [valueAfter, lastOn, this]

theorem nvramGet_run (ok : TableOk tg h) (ops : List Op) (n : CStr) :
    nvramGet tg (run tg h ops) n = valueAfter h.area n (nvramGet tg h n) ops := by
  induction ops using List.reverseRecOn with
  | nil => rfl
  | append_singleton ops op ih =>
    rw [run_append, nvramGet_apply (run_ok ok ops), run_area, valueAfter_append, ih]

end

end UolaOs.Nvram
