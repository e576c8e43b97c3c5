import UolaOs.Nvram.Commit
import Mathlib.Data.List.Perm.Subperm

/-!
# What survives a commit

* `reachable_inv`: what holds of every handle between `nvram_open` and `nvram_commit`;
* `commit_preserves_iff_fits`: a commit keeps every variable exactly when the whole table
  fits into the store;
* `reopen_iff`: `nvram_open` accepts the committed store for writing exactly when the
  length it records stays below the size of the store.
-/

namespace UolaOs.Nvram

/-- The handles a caller can hold: names come from the command line, cut at the first
`=`. -/
inductive Reachable (tg : Target) : Handle → Prop
  | opened {addr image rdonly h} : nvramOpen tg addr image rdonly = some h → Reachable tg h
  | set {h name} (value) : Reachable tg h → 61 ∉ name.bytes →
      Reachable tg (nvramSet tg h name value).1
  | unset {h} (name) : Reachable tg h → Reachable tg (nvramUnset tg h name)

structure Inv (tg : Target) (h : Handle) : Prop where
  ok : TableOk tg h
  eqFree : ∀ n v, nvramGet tg h n = some v → 61 ∉ n.bytes
  magic : findMagic tg h.mmap = some h.area.offset

section
variable {tg : Target} {h h' : Handle}

theorem mem_of_lastOccurrence {ts : List Tuple} {n v : CStr}
    (h : lastOccurrence ts n = some v) : ⟨n, v⟩ ∈ ts := by
  obtain ⟨t, ht, rfl⟩ := Option.map_eq_some_iff.mp h
  have hn : t.name = n := by simpa using List.find?_some ht
  subst hn
  exact List.mem_reverse.mp (List.mem_of_find?_eq_some ht)

theorem sdramDefault_name {n v : CStr} (hd : sdramDefault tg h n = some v) :
    n ∈ sdramNames := by
  obtain ⟨t, ht, -⟩ := Option.map_eq_some_iff.mp hd
  have hn : t.name = n := by simpa using List.find?_some ht
  have hmem := List.mem_of_find?_eq_some ht
  simp only [sdramParams, List.mem_cons, List.not_mem_nil, or_false] at hmem
  subst hn
  rcases hmem with rfl | rfl | rfl | rfl <;> simp [sdramNames]

theorem sdramNames_eqFree : ∀ n ∈ sdramNames, 61 ∉ n.bytes := by decide

theorem reachable_inv (hr : Reachable tg h) : Inv tg h := by
  induction hr with
  | opened ho =>
    obtain ⟨off, hm, hl, ho, -⟩ := nvramOpen_spec ho
    obtain ⟨ts, hts, ok, area, mmap, get⟩ := nvramRehash_spec ho
    refine ⟨ok, fun n v hv => ?_, by rw [mmap, area]; exact hm⟩
    rw [get, imageValue, Option.or_eq_some_iff] at hv
    rcases hv with hv | ⟨-, hv⟩
    · exact (parseTuples_bound hts _ (mem_of_lastOccurrence hv)).1
    · exact sdramNames_eqFree n (sdramDefault_name hv)
  | set value _ hname ih =>
    refine ⟨nvramSet_ok ih.ok _ value, fun n v hv => ?_, by simpa using ih.magic⟩
    rename_i h name _
    by_cases ha : Accepted h.area value
    · rw [nvramGet_set ha] at hv
      split at hv
      · rename_i hn
        exact hn ▸ hname
      · exact ih.eqFree n v hv
    · rw [nvramSet_rejected ha] at hv
      exact ih.eqFree n v hv
  | unset name _ ih =>
    refine ⟨nvramUnset_ok ih.ok name, fun n v hv => ?_, by simpa using ih.magic⟩
    rw [nvramGet_unset ih.ok] at hv
    split at hv
    · cases hv
    · exact ih.eqFree n v hv

/-- The variables of a handle. -/
theorem mem_entries_get (ok : TableOk tg h) (t : Tuple) :
    t ∈ ChainTable.entries h.nvram_hash ↔ nvramGet tg h t.name = some t.value := by
  rw [← mem_nvramGetall ok, nvramGetall, List.mem_reverse]

theorem committed_eqFree (inv : Inv tg h) : ∀ t ∈ committed h, 61 ∉ t.name.bytes := by
  intro t ht
  have := (mem_entries_get inv.ok t).mp ((committed_sublist h).subset ht)
  exact inv.eqFree t.name t.value this

/-! ## Durability -/

/-- The whole table, with the header before and the double zero byte after it, fits
into the store. -/
def Fits (h : Handle) : Prop :=
  headerSize + Packing.total tupleSize (ChainTable.entries h.nvram_hash) + 2 ≤ h.area.space

theorem fits_iff : Fits h ↔ committed h = ChainTable.entries h.nvram_hash := by
  have := h.area.min_le_space
  simp only [NVRAM_MIN_SPACE] at this
  rw [committed_eq_iff, Fits, capacity, headerSize]
  omega

/-- Nothing a caller reads has changed, apart from special parameters that were unset,
and every variable is in the written table. -/
def Preserved (tg : Target) (h h' : Handle) : Prop :=
  (∀ n, nvramGet tg h' n = nvramGet tg h n ∨ n ∈ sdramNames ∧ nvramGet tg h n = none) ∧
  ∃ ts, parseTuples (h'.mmap.drop (h'.area.offset + headerSize)) = some ts ∧
    ∀ t ∈ nvramGetall h, t ∈ ts

theorem lastOccurrence_entries (ok : TableOk tg h) (n : CStr) :
    lastOccurrence (ChainTable.entries h.nvram_hash) n = nvramGet tg h n := by
  cases hv : nvramGet tg h n with
  | some v =>
    have hmem : (⟨n, v⟩ : Tuple) ∈ nvramGetall h := (mem_nvramGetall ok ⟨n, v⟩).mpr hv
    have := ChainTable.find_of_mem Tuple.name (nvramGetall_nodup ok) hmem
    exact congrArg (Option.map Tuple.value) this
  | none =>
    cases hl : lastOccurrence (ChainTable.entries h.nvram_hash) n with
    | none => rfl
    | some v =>
      have := (mem_entries_get ok ⟨n, v⟩).mp (mem_of_lastOccurrence hl)
      rw [hv] at this
      cases this

theorem preserved_of_fits (hr : Reachable tg h) {r : Int} (hc : nvramCommit tg h = some (h', r))
    (fits : Fits h) : Preserved tg h h' := by
  have inv := reachable_inv hr
  obtain ⟨w, hw, -, area, mmap, -, get⟩ := nvramCommit_spec hc (committed_eqFree inv)
  refine ⟨fun n => ?_, committed h, ?_, fun t ht => ?_⟩
  · rw [get, fits_iff.mp fits, imageValue, lastOccurrence_entries inv.ok]
    cases hv : nvramGet tg h n with
    | some v => exact .inl rfl
    | none =>
      rw [Option.none_or]
      cases hd : sdramDefault tg w n with
      | none => exact .inl rfl
      | some v => exact .inr ⟨sdramDefault_name hd, rfl⟩
  · rw [area, mmap]
    exact parseTuples_writeBack hw (committed_eqFree inv)
  · rw [fits_iff.mp fits]
    exact List.mem_reverse.mp ht

theorem fits_of_preserved (hr : Reachable tg h) {r : Int} (hc : nvramCommit tg h = some (h', r))
    (kept : Preserved tg h h') : Fits h := by
  have inv := reachable_inv hr
  obtain ⟨w, hw, -, area, mmap, -, -⟩ := nvramCommit_spec hc (committed_eqFree inv)
  obtain ⟨-, ts, hts, all⟩ := kept
  rw [area, mmap, parseTuples_writeBack hw (committed_eqFree inv)] at hts
  obtain rfl := Option.some.inj hts
  have nodup : (ChainTable.entries h.nvram_hash).Nodup := (ChainTable.entries_nodup inv.ok).of_map
  have sub : ChainTable.entries h.nvram_hash ⊆ committed h :=
    fun t ht => all t (List.mem_reverse.mpr ht)
  exact fits_iff.mpr ((committed_sublist h).eq_of_length_le (nodup.subperm sub).length_le)

/-! ## Commits that stay inside the mapping -/

/-- The remainder is taken of the pointer as an `int`: below 2 GiB it is the distance to the
next multiple of four. -/
theorem padLength_of_lt {ptr : Nat} (hp : ptr < 2 ^ 31) : ptr + padLength ptr = roundUp ptr 4 := by
  have small : Int.bmod ptr (2 ^ 32) = ptr := by
    rw [Int.bmod_def]
    omega
  have rem : Int.tmod ptr 4 = ((ptr % 4 : Nat) : Int) := rfl
  unfold padLength roundUp
  rw [small, rem]
  dsimp only
  split <;> omega

/-- A mapping below 2 GiB with a length divisible by four is never left. -/
theorem writeBack_returns (low : h.area.addr + h.area.length < 2 ^ 31) (words : 4 ∣ h.area.length) :
    ∃ w, writeBack tg h = some w := by
  have fits := length_committed_le h
  have room := h.area.room
  have page := h.area.page
  have aligned := h.area.aligned
  simp only [capacity, headerSize, Area.space, NVRAM_MIN_SPACE] at fits room
  let ptr := headerSize + ((committed h).flatMap tupleText).length + 1
  have pad := padLength_of_lt (show h.area.addr + h.area.offset + ptr < 2 ^ 31 by
    simp only [ptr, headerSize]; omega)
  have inside : ptr + padLength (h.area.addr + h.area.offset + ptr) ≤ h.area.space := by
    simp only [ptr, headerSize, Area.space, roundUp] at pad ⊢
    omega
  have inside' := Nat.not_lt_of_le inside
  simp only [ptr] at inside'
  simp only [writeBack, writeTable_committed]
  rw [if_neg inside']
  exact ⟨_, rfl⟩

theorem commit_returns (hr : Reachable tg h) (low : h.area.addr + h.area.length < 2 ^ 31)
    (words : 4 ∣ h.area.length) : ∃ h', nvramCommit tg h = some (h', 0) := by
  have written : ∃ w, writeBack tg h = some w := writeBack_returns low words
  obtain ⟨w, hw⟩ := written
  exact nvramCommit_returns hw (committed_eqFree (reachable_inv hr))

/-- A tuple too large for the whole store is lost, and the commit still reports success. -/
theorem oversized_lost (hr : Reachable tg h) {r : Int} (hc : nvramCommit tg h = some (h', r))
    {n v : CStr} (hv : nvramGet tg h n = some v) (big : capacity h < tupleSize ⟨n, v⟩)
    (plain : n ∉ sdramNames) : nvramGet tg h' n = none := by
  have inv := reachable_inv hr
  obtain ⟨w, -, -, -, -, -, get⟩ := nvramCommit_spec hc (committed_eqFree inv)
  rw [get, imageValue, Option.or_eq_none_iff]
  constructor
  · by_contra hne
    obtain ⟨u, hu⟩ := Option.ne_none_iff_exists'.mp hne
    have hmem := mem_of_lastOccurrence hu
    have same := (mem_entries_get inv.ok ⟨n, u⟩).mp ((committed_sublist h).subset hmem)
    obtain rfl : u = v := Option.some.inj (same.symm.trans hv)
    have := Packing.le_total_of_mem tupleSize hmem
    have : Packing.total tupleSize (committed h) ≤ capacity h := Packing.total_packed_le _ _ _
    omega
  · by_contra hne
    obtain ⟨u, hu⟩ := Option.ne_none_iff_exists'.mp hne
    exact plain (sdramDefault_name hu)

end

/-! ## The blank partition -/

theorem dvd_pageAddr : 4096 ∣ 0x77000000 := by decide

def pageAddr : { a : Nat // 4096 ∣ a } := ⟨0x77000000, dvd_pageAddr⟩

theorem scannable_blank : Scannable blankImage := by
  constructor <;> rw [length_blankImage] <;> decide

theorem magic_blank : wordAt mipsel blankImage 0 = NVRAM_MAGIC := by
  have first : load blankImage 0 4 = leBytes 4 NVRAM_MAGIC := rfl
  rw [wordAt, first]
  decide

theorem findMagic_blank : findMagic mipsel blankImage = some 0 := by
  rw [findMagic, length_blankImage]
  simp [NVRAM_MIN_SPACE, magic_blank]

theorem openHandle_blank :
    openHandle pageAddr findMagic_blank scannable_blank = blankMapping := by
  have named (n : Nat) (hn : blankImage.length = n) (room : 0 + NVRAM_MIN_SPACE ≤ n)
      (lt : n < 2 ^ 31) : openHandle pageAddr findMagic_blank scannable_blank =
        { area := { addr := pageAddr.1, length := n, offset := 0, page := pageAddr.2
                    aligned := by decide, room := room, length_lt := lt }
          mmap := blankImage, mmap_length := hn, nvram_hash := fun _ => [], nvram_dead := [] } := by
    subst hn
    rfl
  exact named 0x8000 length_blankImage (by decide) (by decide)

theorem nvramOpen_blank : nvramOpen mipsel pageAddr blankImage false = some (blankOpened mipsel) := by
  have second : load blankImage (0 + 4) 4 = [0, 0, 0, 0] := rfl
  have len : headerLen mipsel blankMapping < blankMapping.area.space := by
    change mipsel.endian.get (load blankImage (0 + 4) 4) < 0x8000
    rw [second]
    decide
  rw [nvramOpen_eq findMagic_blank scannable_blank, openHandle_blank]
  exact (if_pos ⟨magic_blank, .inr len⟩).trans (nvramRehash_blank mipsel)

theorem reachable_blank : Reachable mipsel (blankOpened mipsel) := .opened nvramOpen_blank

/-- A new variable is one tuple more. -/
theorem entries_set_perm {tg : Target} {h : Handle} (ok : TableOk tg h) {name value : CStr}
    (hv : Accepted h.area value) (absent : nvramGet tg h name = none) :
    (ChainTable.entries (nvramSet tg h name value).1.nvram_hash).Perm
      (⟨name, value⟩ :: ChainTable.entries h.nvram_hash) := by
  have none : ChainTable.lookup Tuple.name (bucket tg) h.nvram_hash name = none :=
    Option.map_eq_none_iff.mp absent
  rw [nvramSet_accepted hv, none]
  exact ChainTable.entries_push_perm ok none

theorem foldl_setDefault_perm {tg : Target} {ps : List Tuple} {h : Handle} (ok : TableOk tg h)
    (accepted : ∀ t ∈ ps, Accepted h.area t.value) (distinct : (ps.map Tuple.name).Nodup)
    (absent : ∀ t ∈ ps, nvramGet tg h t.name = none) :
    (ChainTable.entries (ps.foldl (setDefault tg) h).nvram_hash).Perm
      (ps ++ ChainTable.entries h.nvram_hash) := by
  induction ps generalizing h with
  | nil => exact .refl _
  | cons t ps ih =>
    rw [List.map_cons, List.nodup_cons] at distinct
    have ht : Accepted h.area t.value := accepted t List.mem_cons_self
    have hnone : nvramGet tg h t.name = none := absent t List.mem_cons_self
    have step : setDefault tg h t = (nvramSet tg h t.name t.value).1 := by
      rw [setDefault, hnone]
      rfl
    have rest := ih (h := setDefault tg h t) (setDefault_ok ok t)
      (fun u hu => by
        rw [setDefault_area]
        exact accepted u (List.mem_cons_of_mem t hu))
      distinct.2
      (fun u hu => by
        have other : u.name ≠ t.name := fun he => distinct.1 (he ▸ List.mem_map_of_mem hu)
        rw [step, nvramGet_set ht, if_neg other]
        exact absent u (List.mem_cons_of_mem t hu))
    refine rest.trans ?_
    rw [step]
    exact ((entries_set_perm ok ht hnone).append_left ps).trans List.perm_middle

/-- The special parameters always take the same room. -/
theorem total_sdramParams (tg : Target) (h : Handle) :
    Packing.total tupleSize (sdramParams tg h) = 81 := by
  have ncdl : headerConfigNcdl tg h < 16 ^ 8 := wordAt_lt _ _
  have word (n : Nat) : n % 2 ^ 16 < 16 ^ 4 := Nat.mod_lt _ (by decide)
  simp only [sdramParams, Packing.total_cons, Packing.total_nil, tupleSize,
    length_hexString (word _), length_hexString ncdl]
  rfl

theorem total_blank :
    Packing.total tupleSize (ChainTable.entries (blankOpened mipsel).nvram_hash) = 81 := by
  have names : ((sdramParams mipsel blankMapping).map Tuple.name).Nodup :=
    show sdramNames.Nodup by decide
  have accepted : ∀ t ∈ sdramParams mipsel blankMapping,
      Accepted (nvramFree blankMapping).area t.value := sdramParams_accepted
  have perm : (ChainTable.entries (blankOpened mipsel).nvram_hash).Perm
      (sdramParams mipsel blankMapping ++ ChainTable.entries (nvramFree blankMapping).nvram_hash) :=
    foldl_setDefault_perm nvramFree_ok accepted names fun _ _ => nvramGet_free _
  have empty : ChainTable.entries (nvramFree blankMapping).nvram_hash = [] := by
    simp [nvramFree, ChainTable.entries]
  rw [empty, List.append_nil] at perm
  rw [Packing.total_perm tupleSize perm, total_sdramParams]

/-- A value of `k` bytes. -/
def filler (k : Nat) : CStr :=
  ⟨List.replicate k 120, fun h => by cases List.eq_of_mem_replicate h⟩

theorem length_filler (k : Nat) : (filler k).length = k := List.length_replicate

/-- The blank partition after `nvram_set(h, "a", value)` with a value of `k` bytes. -/
def fillA (k : Nat) : Handle := (nvramSet mipsel (blankOpened mipsel) nameA (filler k)).1

theorem fillA_area (k : Nat) : (fillA k).area = blankMapping.area := by
  obtain ⟨-, -, -, area, -⟩ := nvramRehash_spec (nvramRehash_blank mipsel)
  rw [fillA, nvramSet_area, area]

theorem reachable_fillA (k : Nat) : Reachable mipsel (fillA k) :=
  .set _ reachable_blank (by decide)

theorem nvramGet_blank : nvramGet mipsel (blankOpened mipsel) nameA = none := by
  obtain ⟨ts, hts, -, -, -, get⟩ := nvramRehash_spec (nvramRehash_blank mipsel)
  rw [parseTuples_blank] at hts
  obtain rfl := Option.some.inj hts
  rw [get, imageValue, Option.or_eq_none_iff]
  refine ⟨rfl, ?_⟩
  by_contra hne
  obtain ⟨u, hu⟩ := Option.ne_none_iff_exists'.mp hne
  have : nameA ∉ sdramNames := by decide
  exact this (sdramDefault_name hu)

theorem accepted_filler {k : Nat} (hk : k < 0x8000) :
    Accepted (blankOpened mipsel).area (filler k) := by
  obtain ⟨-, -, -, area, -⟩ := nvramRehash_spec (nvramRehash_blank mipsel)
  rw [area, Accepted, length_filler]
  exact hk

theorem nvramGet_fillA {k : Nat} (hk : k < 0x8000) :
    nvramGet mipsel (fillA k) nameA = some (filler k) := by
  rw [fillA, nvramGet_set (accepted_filler hk), if_pos rfl]

theorem fillA_commits (k : Nat) : ∃ h', nvramCommit mipsel (fillA k) = some (h', 0) := by
  have low : (fillA k).area.addr + (fillA k).area.length < 2 ^ 31 := by
    rw [fillA_area]
    decide
  have words : 4 ∣ (fillA k).area.length := by
    rw [fillA_area]
    decide
  exact commit_returns (reachable_fillA k) low words

theorem total_fillA {k : Nat} (hk : k < 0x8000) :
    Packing.total tupleSize (ChainTable.entries (fillA k).nvram_hash) = 84 + k := by
  have ok : TableOk mipsel (blankOpened mipsel) := (reachable_inv reachable_blank).ok
  rw [fillA, Packing.total_perm tupleSize (entries_set_perm ok (accepted_filler hk) nvramGet_blank),
    Packing.total_cons, total_blank, tupleSize, length_filler]
  simp only [nameA, CStr.length, List.length_singleton]
  omega

theorem oversized_fillA {k : Nat} (hk : 32743 < k) :
    capacity (fillA k) < tupleSize ⟨nameA, filler k⟩ := by
  have room : capacity (fillA k) = 32746 := by
    rw [capacity, fillA_area]
    rfl
  rw [room, tupleSize, length_filler]
  simp only [nameA, CStr.length, List.length_singleton]
  omega

/-! ## What is kept -/

/-- **Durability.** A commit that reports success keeps every variable exactly when the
whole table fits. -/
theorem commit_preserves_iff_fits (tg : Target) (h h' : Handle) (hr : Reachable tg h)
    (hc : nvramCommit tg h = some (h', 0)) : Preserved tg h h' ↔ Fits h :=
  ⟨fits_of_preserved hr hc, preserved_of_fits hr hc⟩

theorem commit_preserves_iff_fits_filled : ∃ h', nvramCommit mipsel (fillA 1) = some (h', 0) ∧
    (Preserved mipsel (fillA 1) h' ↔ Fits (fillA 1)) := by
  obtain ⟨h', hc⟩ := fillA_commits 1
  exact ⟨h', hc, commit_preserves_iff_fits mipsel (fillA 1) h' (reachable_fillA 1) hc⟩

/-- A value of 32760 bytes is accepted by `nvram_set` and lost by a commit that returns 0. -/
theorem commit_drops_filled : Reachable mipsel (fillA 32760) ∧
    nvramGet mipsel (fillA 32760) nameA = some (filler 32760) ∧
    ∃ h', nvramCommit mipsel (fillA 32760) = some (h', 0) ∧ nvramGet mipsel h' nameA = none := by
  obtain ⟨h', hc⟩ := fillA_commits 32760
  have before := nvramGet_fillA (show 32760 < 0x8000 by decide)
  have big := oversized_fillA (show 32743 < 32760 by decide)
  exact ⟨reachable_fillA 32760, before, h', hc,
    oversized_lost (reachable_fillA 32760) hc before big (by decide)⟩

/-! ## Reopening -/

section
variable {tg : Target} {h h' : Handle}

/-- The scan stops at the same word when nothing before it has changed. -/
theorem findMagic_congr {m m' : Bytes} {off : Nat} (hm : findMagic tg m = some off)
    (len : m'.length = m.length) (before : m'.take off = m.take off)
    (word : wordAt tg m' off = NVRAM_MAGIC) : findMagic tg m' = some off := by
  obtain ⟨i, hi, rfl⟩ := Option.map_eq_some_iff.mp hm
  obtain ⟨-, mem, first⟩ := List.find?_range_eq_some.mp hi
  have same (j : Nat) (hj : j < i) : wordAt tg m' (j * 4) = wordAt tg m (j * 4) := by
    have inside (n : Bytes) : load n (j * 4) 4 = load (n.take (i * 4)) (j * 4) 4 := by
      rw [load, load, List.drop_take, List.take_take, Nat.min_eq_left (by omega)]
    rw [wordAt, wordAt, inside m', inside m, before]
  refine Option.map_eq_some_iff.mpr ⟨i, List.find?_range_eq_some.mpr ⟨?_, ?_, ?_⟩, rfl⟩
  · simpa using word
  · rwa [len]
  · intro j hj
    rw [same j hj]
    exact first j hj

/-- The first two header words of a written store. -/
theorem writeBack_words {w : Handle} (hw : writeBack tg h = some w) :
    wordAt tg w.mmap h.area.offset = NVRAM_MAGIC ∧
    wordAt tg w.mmap (h.area.offset + 4) = roundUp (writtenLength h + 2) 4 := by
  obtain ⟨-, a, b, c, rest, mmap⟩ := writeBack_spec hw
  have small : roundUp (writtenLength h + 2) 4 < 256 ^ 4 := by
    have := length_committed_le h
    have := roundUp_lt (writtenLength h + 2) (show 0 < 4 by decide)
    have := h.area.length_lt
    rw [length_text] at *
    simp only [writtenLength, capacity, headerSize, Area.space] at *
    omega
  have before := length_take_offset h
  constructor
  · have first : load w.mmap h.area.offset 4 = tg.endian.put 4 NVRAM_MAGIC := by
      rw [mmap, load_append_right before]
      simp only [headerBytes, List.append_assoc]
      exact List.take_left' (tg.endian.length_put 4 _)
    rw [wordAt, first]
    exact tg.endian.get_put_of_lt (by decide)
  · have second : load w.mmap (h.area.offset + 4) 4 =
        tg.endian.put 4 (roundUp (writtenLength h + 2) 4) := by
      have front : (h.mmap.take h.area.offset ++ tg.endian.put 4 NVRAM_MAGIC).length =
          h.area.offset + 4 := by
        rw [List.length_append, before, tg.endian.length_put]
      rw [mmap]
      simp only [headerBytes, List.append_assoc]
      rw [← List.append_assoc, load_append_right front]
      exact List.take_left' (tg.endian.length_put 4 _)
    rw [wordAt, second]
    exact tg.endian.get_put_of_lt small

theorem take_writeBack {w : Handle} (hw : writeBack tg h = some w) :
    w.mmap.take h.area.offset = h.mmap.take h.area.offset := by
  obtain ⟨-, a, b, c, rest, mmap⟩ := writeBack_spec hw
  rw [mmap]
  exact List.take_left' (length_take_offset h)

/-- What the tuples that find room leave of the store: with the header and the double zero
byte, rounded up to words, they stay below its size. -/
def LeavesRoom (h : Handle) : Prop :=
  roundUp (headerSize + Packing.total tupleSize (committed h) + 2) 4 < h.area.space

/-- How `nvram_open` decides about a written store. -/
theorem nvramOpen_committed (hr : Reachable tg h) {r : Int}
    (hc : nvramCommit tg h = some (h', r)) (addr : { a : Nat // 4096 ∣ a }) :
    (LeavesRoom h → ∃ h'', nvramOpen tg addr h'.mmap false = some h'' ∧
      h''.area.offset = h.area.offset) ∧
    (¬ LeavesRoom h → nvramOpen tg addr h'.mmap false = none) := by
  have inv := reachable_inv hr
  obtain ⟨w, hw, -, area, mmap, -, -⟩ := nvramCommit_spec hc (committed_eqFree inv)
  obtain ⟨warea, -⟩ := writeBack_spec hw
  obtain ⟨magic, len⟩ := writeBack_words hw
  have size : w.mmap.length = h.area.length := by rw [w.mmap_length, warea]
  have hm : findMagic tg w.mmap = some h.area.offset :=
    findMagic_congr inv.magic (by rw [size, h.mmap_length]) (take_writeBack hw) magic
  have room := h.area.room
  have hl : Scannable w.mmap := by
    constructor <;> rw [size]
    · omega
    · exact h.area.length_lt
  have parsed := parseTuples_writeBack hw (committed_eqFree inv)
  rw [warea] at parsed
  have rehash : ∃ h'', nvramRehash tg (openHandle addr hm hl) = some h'' :=
    ⟨_, by rw [nvramRehash, openHandle, parsed]; rfl⟩
  have test : headerLen tg (openHandle addr hm hl) < (openHandle addr hm hl).area.space ↔
      LeavesRoom h := by
    change wordAt tg w.mmap (h.area.offset + 4) < w.mmap.length - h.area.offset ↔ _
    rw [len, size]
    rfl
  rw [mmap, nvramOpen_eq hm hl]
  constructor
  · intro leaves
    obtain ⟨h'', hr''⟩ := rehash
    obtain ⟨-, -, -, area'', -, -⟩ := nvramRehash_spec hr''
    refine ⟨h'', ?_, by rw [area'']; rfl⟩
    rw [if_pos ⟨magic, .inr (test.mpr leaves)⟩, hr'']
  · intro full
    rw [if_neg]
    rintro ⟨-, hro | hlen⟩
    · cases hro
    · exact full (test.mp hlen)

end

/-- **Reopening.** The image a commit leaves is accepted for writing, at the same offset,
exactly when the recorded length is below the size of the store. -/
theorem reopen_iff (tg : Target) (h h' : Handle) (hr : Reachable tg h)
    (hc : nvramCommit tg h = some (h', 0)) (addr : { a : Nat // 4096 ∣ a }) :
    (∃ h'', nvramOpen tg addr h'.mmap false = some h'' ∧ h''.area.offset = h.area.offset) ↔
      LeavesRoom h := by
  obtain ⟨accepted, refused⟩ := nvramOpen_committed hr hc addr
  constructor
  · rintro ⟨h'', ho, -⟩
    by_contra full
    rw [refused full] at ho
    cases ho
  · exact accepted

theorem reopen_iff_filled : ∃ h', nvramCommit mipsel (fillA 1) = some (h', 0) ∧
    ((∃ h'', nvramOpen mipsel pageAddr h'.mmap false = some h'' ∧
      h''.area.offset = (fillA 1).area.offset) ↔ LeavesRoom (fillA 1)) := by
  obtain ⟨h', hc⟩ := fillA_commits 1
  exact ⟨h', hc, reopen_iff mipsel (fillA 1) h' (reachable_fillA 1) hc pageAddr⟩

/-- A store filled to its last byte: everything fits, but it cannot be opened for writing
again. -/
theorem reopen_refused_filled : Reachable mipsel (fillA 32662) ∧ Fits (fillA 32662) ∧
    ∃ h', nvramCommit mipsel (fillA 32662) = some (h', 0) ∧
      nvramOpen mipsel pageAddr h'.mmap false = none := by
  obtain ⟨h', hc⟩ := fillA_commits 32662
  have total := total_fillA (show 32662 < 0x8000 by decide)
  have space : (fillA 32662).area.space = 0x8000 := by rw [fillA_area]; rfl
  have fits : Fits (fillA 32662) := by rw [Fits, total, space]; decide
  have full : ¬ LeavesRoom (fillA 32662) := by
    rw [LeavesRoom, fits_iff.mp fits, total, space]
    decide
  exact ⟨reachable_fillA 32662, fits, h', hc,
    (nvramOpen_committed (reachable_fillA 32662) hc pageAddr).2 full⟩

end UolaOs.Nvram
