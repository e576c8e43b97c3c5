import UolaOs.Nvram.Table
import UolaOs.Lib.Numeral

/-!
# The nvram partition image

`nvramRehash` fills the table from the mapped partition and `nvramOpen` finds the
header of the store in a partition. `nvram_finite_map` is what a handle means: a
finite map from names to values, filled from the image and changed by the calls.
-/

namespace UolaOs.Nvram

def NVRAM_MAGIC : Nat := 0x48534C46

/-- `sizeof(nvram_header_t)`: five 32-bit words. -/
def headerSize : Nat := 20

/-- The 32-bit word number `i` of an area, as the host reads it. -/
def wordAt (tg : Target) (m : Bytes) (off : Nat) : Nat := tg.endian.get (load m off 4)

section
variable (tg : Target) (h : Handle)

def headerMagic : Nat := wordAt tg h.mmap h.area.offset
def headerLen : Nat := wordAt tg h.mmap (h.area.offset + 4)
def headerCrcVerInit : Nat := wordAt tg h.mmap (h.area.offset + 8)
def headerConfigRefresh : Nat := wordAt tg h.mmap (h.area.offset + 12)
def headerConfigNcdl : Nat := wordAt tg h.mmap (h.area.offset + 16)

end

/-- `"sdram_init"` -/
def sdramInit : CStr := ⟨[115, 100, 114, 97, 109, 95, 105, 110, 105, 116], by decide⟩

/-- `"sdram_config"` -/
def sdramConfig : CStr :=
  ⟨[115, 100, 114, 97, 109, 95, 99, 111, 110, 102, 105, 103], by decide⟩

/-- `"sdram_refresh"` -/
def sdramRefresh : CStr :=
  ⟨[115, 100, 114, 97, 109, 95, 114, 101, 102, 114, 101, 115, 104], by decide⟩

/-- `"sdram_ncdl"` -/
def sdramNcdl : CStr := ⟨[115, 100, 114, 97, 109, 95, 110, 99, 100, 108], by decide⟩

def sdramNames : List CStr := [sdramInit, sdramConfig, sdramRefresh, sdramNcdl]

/-- `sprintf(buf, "0x%0NX", n)` -/
def hexString (width n : Nat) : CStr :=
  ⟨48 :: 120 :: hexPadded true width n, by
    intro h0
    rcases List.mem_cons.mp h0 with h0 | h0
    · cases h0
    rcases List.mem_cons.mp h0 with h0 | h0
    · cases h0
    obtain ⟨d, hd, hc⟩ := digit_of_mem_hexPadded h0
    exact digitChar_ne_zero true hd hc.symm⟩

/-- The special parameters and the values the header gives them. -/
def sdramParams (tg : Target) (h : Handle) : List Tuple :=
  [⟨sdramInit, hexString 4 (headerCrcVerInit tg h / 2 ^ 16 % 2 ^ 16)⟩,
   ⟨sdramConfig, hexString 4 (headerConfigRefresh tg h % 2 ^ 16)⟩,
   ⟨sdramRefresh, hexString 4 (headerConfigRefresh tg h / 2 ^ 16 % 2 ^ 16)⟩,
   ⟨sdramNcdl, hexString 8 (headerConfigNcdl tg h)⟩]

/-- The `name=value` strings of the data area. The walk ends at an empty string or
at one without `=`; `none` when it runs off the end of the mapping. -/
def parseTuples (m : Bytes) : Option (List Tuple) :=
  match _hs : readCStr m with
  | none => none
  | some (s, rest) =>
    if s.bytes = [] then some []
    else
      match s.splitAt 61 with
      | none => some []
      | some (name, value) => (parseTuples rest).map (⟨name, value⟩ :: ·)
termination_by m.length
decreasing_by
  rw [readCStr_spec _hs]
  simp

def setDefault (tg : Target) (h : Handle) (t : Tuple) : Handle :=
  if (nvramGet tg h t.name).isNone then (nvramSet tg h t.name t.value).1 else h

/-- (Re)initialize the hash table. While a string is parsed its `=` is overwritten by
a zero byte and put back, so the mapping is as before. -/
def nvramRehash (tg : Target) (h : Handle) : Option Handle :=
  (parseTuples (h.mmap.drop (h.area.offset + headerSize))).map fun ts =>
    (sdramParams tg h).foldl (setDefault tg)
      (run tg (nvramFree h) (ts.map fun t => .set t.name t.value))

/-! ## What the parser reads -/

/-- One turn of the loop, once the string it reads is known. -/
theorem parseTuples_of_read {m rest : Bytes} {s : CStr} (hs : readCStr m = some (s, rest)) :
    parseTuples m =
      if s.bytes = [] then some []
      else match s.splitAt 61 with
        | none => some []
        | some (name, value) => (parseTuples rest).map (⟨name, value⟩ :: ·) := by
  rw [parseTuples]
  split
  · rename_i hn
    cases hn.symm.trans hs
  · rename_i s' rest' hs'
    obtain ⟨rfl, rfl⟩ := Prod.mk.injEq .. ▸ Option.some.injEq .. ▸ hs'.symm.trans hs
    rfl

theorem parseTuples_zero (m : Bytes) : parseTuples (0 :: m) = some [] := by
  have := parseTuples_of_read (readCStr_stored CStr.empty m)
  simpa [CStr.stored, CStr.empty] using this

theorem parseTuples_cons {name value : CStr} (he : 61 ∉ name.bytes) (m : Bytes) :
    parseTuples (name.bytes ++ 61 :: value.bytes ++ 0 :: m) =
      (parseTuples m).map (⟨name, value⟩ :: ·) := by
  let s : CStr := ⟨name.bytes ++ 61 :: value.bytes, by simp [name.nulFree, value.nulFree]⟩
  have split : s.splitAt 61 = some (name, value) := CStr.splitAt_append rfl he
  have read : readCStr (name.bytes ++ 61 :: value.bytes ++ 0 :: m) = some (s, m) := by
    have := readCStr_stored s m
    rwa [CStr.stored, List.append_assoc, List.singleton_append] at this
  have nonempty : s.bytes ≠ [] := by simp [s]
  rw [parseTuples_of_read read, if_neg nonempty, split]

/-- Names end at the first `=` and values lie inside the area. -/
theorem parseTuples_bound {m : Bytes} {ts : List Tuple} (h : parseTuples m = some ts) :
    ∀ t ∈ ts, 61 ∉ t.name.bytes ∧ t.value.length + 1 ≤ m.length := by
  induction hn : m.length using Nat.strongRecOn generalizing m ts with
  | ind n ih =>
    cases hs : readCStr m with
    | none =>
      rw [parseTuples] at h
      split at h
      · cases h
      · rename_i hs'
        cases hs.symm.trans hs'
    | some p =>
      obtain ⟨s, rest⟩ := p
      have hm := readCStr_spec hs
      have hl : m.length = s.length + 1 + rest.length := by rw [hm]; simp
      rw [parseTuples_of_read hs] at h
      split at h
      · cases h; simp
      split at h
      · cases h; simp
      · rename_i name value hsplit
        obtain ⟨ts', hts', rfl⟩ := Option.map_eq_some_iff.mp h
        obtain ⟨hbytes, hname⟩ := CStr.splitAt_spec hsplit
        have hlen : s.length = name.length + 1 + value.length := by
          simp [CStr.length, hbytes]
          omega
        intro t ht
        rcases List.mem_cons.mp ht with rfl | ht
        · exact ⟨hname, by dsimp only; omega⟩
        · have := ih rest.length (by omega) hts' rfl t ht
          exact ⟨this.1, by omega⟩

/-! ## What `_nvram_rehash` leaves -/

/-- The value of the last occurrence of a name. -/
def lastOccurrence (ts : List Tuple) (n : CStr) : Option CStr :=
  (ts.reverse.find? (fun t => decide (t.name = n))).map Tuple.value

/-- The value the header gives a special parameter. -/
def sdramDefault (tg : Target) (h : Handle) (n : CStr) : Option CStr :=
  ((sdramParams tg h).find? (fun t => decide (t.name = n))).map Tuple.value

/-- What an image means: the last occurrence in the data area, and the header's value
for a special parameter that does not occur there. -/
def imageValue (tg : Target) (h : Handle) (ts : List Tuple) (n : CStr) : Option CStr :=
  (lastOccurrence ts n).or (sdramDefault tg h n)

section
variable {tg : Target} {h : Handle}

theorem length_hexString {width n : Nat} (hn : n < 16 ^ width) :
    (hexString width n).length = width + 2 := by
  simp [hexString, CStr.length, length_hexPadded_le hn]

theorem wordAt_lt (m : Bytes) (off : Nat) : wordAt tg m off < 2 ^ 32 := by
  have len : (load m off 4).length ≤ 4 := by simp [load]
  have bound (bs : Bytes) (hl : bs.length ≤ 4) : leNat bs < 2 ^ 32 :=
    Nat.lt_of_lt_of_le (leNat_lt bs) (Nat.pow_le_pow_right (n := 256) (by decide) hl)
  unfold wordAt Endian.get
  cases tg.endian
  · exact bound _ len
  · exact bound _ (by simpa using len)

theorem sdramParams_length (t : Tuple) (ht : t ∈ sdramParams tg h) : t.value.length ≤ 10 := by
  have ncdl : headerConfigNcdl tg h < 2 ^ 32 := wordAt_lt _ _
  simp only [sdramParams, List.mem_cons, List.not_mem_nil, or_false] at ht
  rcases ht with rfl | rfl | rfl | rfl
  · rw [length_hexString (by omega)]; decide
  · rw [length_hexString (by omega)]; decide
  · rw [length_hexString (by omega)]; decide
  · rw [length_hexString (by omega)]

theorem sdramParams_accepted (t : Tuple) (ht : t ∈ sdramParams tg h) :
    Accepted h.area t.value := by
  have := sdramParams_length t ht
  have := h.area.min_le_space
  simp only [Accepted, NVRAM_MIN_SPACE] at *
  omega

@[simp] theorem setDefault_area (t : Tuple) : (setDefault tg h t).area = h.area := by
  unfold setDefault; split <;> simp

@[simp] theorem setDefault_mmap (t : Tuple) : (setDefault tg h t).mmap = h.mmap := by
  unfold setDefault; split <;> simp

theorem setDefault_ok (ok : TableOk tg h) (t : Tuple) : TableOk tg (setDefault tg h t) := by
  unfold setDefault
  split
  · exact nvramSet_ok ok _ _
  · exact ok

theorem nvramGet_setDefault {t : Tuple} (ht : Accepted h.area t.value) (n : CStr) :
    nvramGet tg (setDefault tg h t) n =
      (nvramGet tg h n).or (if t.name = n then some t.value else none) := by
  unfold setDefault
  by_cases hn : t.name = n
  · subst hn
    split
    · rename_i hnone
      rw [nvramGet_set ht, Option.isNone_iff_eq_none.mp hnone]
      simp
    · rename_i hsome
      obtain ⟨v, hv⟩ := Option.ne_none_iff_exists'.mp (by simpa using hsome)
      simp [hv]
  · split
    · rw [nvramGet_set ht]
      simp [Ne.symm hn]
    · simp

/-- The defaults change nothing that has a value. -/
theorem foldl_setDefault {ps : List Tuple} (hp : ∀ t ∈ ps, Accepted h.area t.value)
    (ok : TableOk tg h) :
    TableOk tg (ps.foldl (setDefault tg) h) ∧
    (ps.foldl (setDefault tg) h).area = h.area ∧ (ps.foldl (setDefault tg) h).mmap = h.mmap ∧
    ∀ n, nvramGet tg (ps.foldl (setDefault tg) h) n =
      (nvramGet tg h n).or ((ps.find? (fun t => decide (t.name = n))).map Tuple.value) := by
  induction ps generalizing h with
  | nil => exact ⟨ok, rfl, rfl, by simp⟩
  | cons t ps ih =>
    have hp' : ∀ u ∈ ps, Accepted (setDefault tg h t).area u.value := by
      intro u hu
      rw [setDefault_area]
      exact hp u (List.mem_cons_of_mem t hu)
    obtain ⟨ok', area, mmap, get⟩ := ih hp' (setDefault_ok ok t)
    refine ⟨ok', by rw [List.foldl_cons, area, setDefault_area],
      by rw [List.foldl_cons, mmap, setDefault_mmap], fun n => ?_⟩
    rw [List.foldl_cons, get, nvramGet_setDefault (hp t List.mem_cons_self), Option.or_assoc]
    congr 1
    by_cases hn : t.name = n <;> simp [hn]

theorem valueAfter_sets {a : Area} {ts : List Tuple} (ht : ∀ t ∈ ts, Accepted a t.value)
    (n : CStr) :
    valueAfter a n none (ts.map fun t => .set t.name t.value) = lastOccurrence ts n := by
  induction ts using List.reverseRecOn with
  | nil => rfl
  | append_singleton ts t ih =>
    have hlast : Accepted a t.value := ht t (by simp)
    rw [List.map_append, List.map_singleton, valueAfter_append,
      ih fun u hu => ht u (List.mem_append_left _ hu)]
    simp only [Op.name, Op.takesEffect, hlast, decide_true, and_true, Op.result]
    by_cases hn : t.name = n <;> simp [lastOccurrence, hn]

/-- Everything `_nvram_rehash` does. -/
theorem nvramRehash_spec {h₀ : Handle} (hr : nvramRehash tg h = some h₀) :
    ∃ ts, parseTuples (h.mmap.drop (h.area.offset + headerSize)) = some ts ∧
      TableOk tg h₀ ∧ h₀.area = h.area ∧ h₀.mmap = h.mmap ∧
      ∀ n, nvramGet tg h₀ n = imageValue tg h ts n := by
  obtain ⟨ts, hts, rfl⟩ := Option.map_eq_some_iff.mp hr
  have accepted : ∀ t ∈ ts, Accepted h.area t.value := by
    intro t ht
    have := (parseTuples_bound hts t ht).2
    simp only [List.length_drop, h.mmap_length] at this
    simp only [Accepted, Area.space]
    omega
  let ops : List Op := ts.map fun t => .set t.name t.value
  have ok : TableOk tg (run tg (nvramFree h) ops) := run_ok nvramFree_ok ops
  have area : (run tg (nvramFree h) ops).area = h.area := run_area ops
  have get : ∀ n, nvramGet tg (run tg (nvramFree h) ops) n = lastOccurrence ts n := by
    intro n
    rw [nvramGet_run nvramFree_ok, nvramGet_free]
    exact valueAfter_sets accepted n
  have accepted' : ∀ t ∈ sdramParams tg h, Accepted (run tg (nvramFree h) ops).area t.value := by
    rw [area]
    exact sdramParams_accepted
  obtain ⟨ok', area', mmap', get'⟩ := foldl_setDefault accepted' ok
  refine ⟨ts, hts, ok', area'.trans area, mmap'.trans (run_mmap ops), fun n => ?_⟩
  rw [get', get, imageValue, sdramDefault]

end

/-! ## A blank partition -/

/-- A little-endian host with 32-bit pointers and a signed `char`. -/
def mipsel : Target := ⟨.little, true, false⟩

/-- The smallest partition with a header and no tuples. -/
def blankImage : Bytes := leBytes 4 NVRAM_MAGIC ++ List.replicate 0x7FFC 0

theorem length_blankImage : blankImage.length = 0x8000 := by
  rw [blankImage, List.length_append, List.length_replicate, length_leBytes]

def blankMapping : Handle where
  area :=
    { addr := 0x77000000, length := 0x8000, offset := 0
      page := by decide, aligned := by decide, room := by decide, length_lt := by decide }
  mmap := blankImage
  mmap_length := length_blankImage
  nvram_hash := fun _ => []
  nvram_dead := []

/-- The table of a blank partition: the special parameters only. -/
def blankOpened (tg : Target) : Handle :=
  (sdramParams tg blankMapping).foldl (setDefault tg) (nvramFree blankMapping)

theorem parseTuples_blank :
    parseTuples (blankMapping.mmap.drop (blankMapping.area.offset + headerSize)) = some [] := by
  have data : blankMapping.mmap.drop (blankMapping.area.offset + headerSize) =
      0 :: List.replicate 0x7FEB 0 := by
    simp only [blankMapping, blankImage, headerSize, List.drop_append, length_leBytes,
      List.drop_replicate]
    rw [List.drop_of_length_le (by rw [length_leBytes]; decide), List.nil_append,
      ← List.replicate_succ]
  rw [data, parseTuples_zero]

theorem nvramRehash_blank (tg : Target) :
    nvramRehash tg blankMapping = some (blankOpened tg) := by
  rw [nvramRehash, parseTuples_blank]
  rfl

theorem nameA_nulFree : (0 : UInt8) ∉ [97] := by decide

/-- `"a"` -/
def nameA : CStr := ⟨[97], nameA_nulFree⟩

/-- **A handle is a finite map.** After any image and any run of calls, every name
lies in the chain its hash selects and in one tuple, `nvram_get` answers the last
accepted set, the last unset or the image, `nvram_getall` lists each variable once,
and a set that returns an error changes no answer. -/
theorem nvram_finite_map (tg : Target) (h h₀ : Handle) (hr : nvramRehash tg h = some h₀)
    (ops : List Op) :
    ∃ ts, parseTuples (h.mmap.drop (h.area.offset + headerSize)) = some ts ∧
      let h' := run tg h₀ ops
      (∀ i, ∀ t ∈ h'.nvram_hash i, bucket tg t.name = i) ∧
      ((ChainTable.entries h'.nvram_hash).map Tuple.name).Nodup ∧
      (∀ n, nvramGet tg h' n = valueAfter h.area n (imageValue tg h ts n) ops) ∧
      ((nvramGetall h').map Tuple.name).Nodup ∧
      (∀ t, t ∈ nvramGetall h' ↔ nvramGet tg h' t.name = some t.value) ∧
      (∀ n v, (nvramSet tg h' n v).2 ≠ 0 →
        ∀ m, nvramGet tg (nvramSet tg h' n v).1 m = nvramGet tg h' m) := by
  obtain ⟨ts, hts, ok, area, _, get⟩ := nvramRehash_spec hr
  have ok' := run_ok ok ops
  refine ⟨ts, hts, ok'.placed, ChainTable.entries_nodup ok', ?_,
    nvramGetall_nodup ok', mem_nvramGetall ok', ?_⟩
  · intro n
    rw [nvramGet_run ok, get, area]
  · intro n v hcode m
    have hv : ¬ Accepted (run tg h₀ ops).area v := by
      intro hv
      rw [nvramSet_code, if_pos hv] at hcode
      exact hcode rfl
    rw [nvramSet_rejected hv]

theorem nvram_finite_map_blank :
    nvramGet mipsel (run mipsel (blankOpened mipsel) [.set nameA nameA, .set nameA .empty]) nameA =
      some .empty := by
  obtain ⟨ts, -, -, -, get, -⟩ := nvram_finite_map mipsel blankMapping (blankOpened mipsel)
    (nvramRehash_blank mipsel) [.set nameA nameA, .set nameA .empty]
  rw [get]
  rfl

end UolaOs.Nvram
