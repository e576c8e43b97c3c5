import UolaOs.Nvram.Commit

/-!
# What `nvram_open` reads

The search for the magic word and the walk over the strings, on a partition of any size. A read
outside of the mapping ends them.

* `scanFrom_spec`: what the search finds;
* `parseTuples_isSome_iff`: when the walk stays inside;
* `openReads_isSome_iff`: when `nvram_open` does.
-/

namespace UolaOs.Nvram

/-- The content of a partition. Its size is read into an `int`. -/
abbrev Partition := { image : Bytes // image.length < 2 ^ 31 }

/-- The bound of the search. The difference is a `size_t`. -/
def scanBound (tg : Target) (size : Nat) : Nat :=
  (size + 2 ^ (8 * tg.ptrSize) - NVRAM_MIN_SPACE) % 2 ^ (8 * tg.ptrSize) / 4

/-- The search for the magic word from the word `i` on; `none` when it leaves the mapping. -/
def scanFrom (tg : Target) (image : Bytes) (bound i : Nat) : Option (Option Nat) :=
  if bound < i then some none
  else if image.length < i * 4 + 4 then none
  else if wordAt tg image (i * 4) = NVRAM_MAGIC then some (some (i * 4))
  else scanFrom tg image bound (i + 1)
termination_by image.length - i * 4

/-- `nvram_open` up to the table: `none` when it leaves the mapping, and otherwise NULL, or the
offset of the header and the strings of the data area. -/
def openReads (tg : Target) (p : Partition) (rdonly : Bool) :
    Option (Option (Nat × List Tuple)) :=
  let image := p.1
  if image.length = 0 then some none
  else
    match scanFrom tg image (scanBound tg image.length) 0 with
    | none => none
    | some none => some none
    | some (some off) =>
      -- the length in the header is read for writing only
      if rdonly = false ∧ image.length < off + 8 then none
      else if rdonly = true ∨ wordAt tg image (off + 4) < image.length - off then
        (parseTuples (image.drop (off + headerSize))).map fun ts => some (off, ts)
      else some none

/-- The first word with the magic lies at `off`. -/
structure FirstMagic (tg : Target) (image : Bytes) (off : Nat) : Prop where
  words : 4 ∣ off
  inside : off + 4 ≤ image.length
  magic : wordAt tg image off = NVRAM_MAGIC
  first : ∀ o < off, 4 ∣ o → wordAt tg image o ≠ NVRAM_MAGIC

/-- The search looks at the word at `off`: it goes up to `NVRAM_MIN_SPACE` before the end, and on
and on in a partition that is smaller. -/
def InScan (image : Bytes) (off : Nat) : Prop :=
  image.length < NVRAM_MIN_SPACE ∨ off + NVRAM_MIN_SPACE ≤ image.length

/-- Strings with `=`, and then one without: an empty one, in a partition that was written whole. -/
def Terminated (m : Bytes) : Prop :=
  ∃ (ts : List CStr) (s : CStr) (rest : Bytes), m = ts.flatMap CStr.stored ++ s.stored ++ rest ∧
    (∀ t ∈ ts, 61 ∈ t.bytes) ∧ 61 ∉ s.bytes

/-- The partition is empty, or the search ends before the end of a large one, or there is a header,
and if it is accepted, the strings behind it end in the partition. -/
def ReadsInside (tg : Target) (image : Bytes) (rdonly : Bool) : Prop :=
  image = [] ∨
  (NVRAM_MIN_SPACE ≤ image.length ∧ ¬ ∃ off, FirstMagic tg image off ∧ InScan image off) ∨
  ∃ off, FirstMagic tg image off ∧ InScan image off ∧ (rdonly = true ∨ off + 8 ≤ image.length) ∧
    (rdonly = true ∨ wordAt tg image (off + 4) < image.length - off →
      Terminated (image.drop (off + headerSize)))

/-! ## The walk -/

theorem splitAt_eq_none_iff {c : UInt8} {s : CStr} : s.splitAt c = none ↔ c ∉ s.bytes := by
  rw [CStr.splitAt]
  split
  · next h => exact iff_of_false (Option.some_ne_none _) (not_not.mpr h)
  · next h => exact iff_of_true rfl h

/-- A walk that stays inside has found a last string. -/
theorem terminated_of_parse {m : Bytes} {ts : List Tuple} (h : parseTuples m = some ts) :
    Terminated m := by
  induction hn : m.length using Nat.strongRecOn generalizing m ts with
  | ind n ih =>
    cases hs : readCStr m with
    | none =>
      rw [parseTuples] at h
      split at h
      · cases h
      · next hs' => cases hs.symm.trans hs'
    | some p =>
      obtain ⟨s, rest⟩ := p
      have hm := readCStr_spec hs
      rw [parseTuples_of_read hs] at h
      by_cases hsplit : 61 ∈ s.bytes
      · have hne : s.bytes ≠ [] := List.ne_nil_of_mem hsplit
        obtain ⟨p, hp⟩ := Option.ne_none_iff_exists'.mp
          (mt splitAt_eq_none_iff.mp (not_not.mpr hsplit))
        rw [if_neg hne, hp] at h
        obtain ⟨ts', hts', -⟩ := Option.map_eq_some_iff.mp h
        have hlt : rest.length < n := by
          rw [← hn, hm, List.length_append, CStr.length_stored]
          omega
        obtain ⟨us, u, rest', hrest, hus, hu⟩ := ih rest.length hlt hts' rfl
        refine ⟨s :: us, u, rest', ?_, List.forall_mem_cons.mpr ⟨hsplit, hus⟩, hu⟩
        rw [hm, hrest, List.flatMap_cons, List.append_assoc, List.append_assoc, List.append_assoc]
      · exact ⟨[], s, rest, hm, fun t ht => absurd ht List.not_mem_nil, hsplit⟩

theorem parse_of_terminated {m : Bytes} (h : Terminated m) : ∃ ts, parseTuples m = some ts := by
  obtain ⟨us, s, rest, rfl, hus, hs⟩ := h
  induction us with
  | nil =>
    rw [List.flatMap_nil, List.nil_append, parseTuples_of_read (readCStr_stored s rest)]
    split
    · exact ⟨_, rfl⟩
    · rw [splitAt_eq_none_iff.mpr hs]
      exact ⟨_, rfl⟩
  | cons u us ih =>
    obtain ⟨hu, hus⟩ := List.forall_mem_cons.mp hus
    obtain ⟨ts, hts⟩ := ih hus
    obtain ⟨p, hp⟩ := Option.ne_none_iff_exists'.mp (mt splitAt_eq_none_iff.mp (not_not.mpr hu))
    rw [List.flatMap_cons, List.append_assoc, List.append_assoc, ← List.append_assoc (us.flatMap _),
      parseTuples_of_read (readCStr_stored u _), if_neg (List.ne_nil_of_mem hu), hp, hts]
    exact ⟨_, rfl⟩

/-- The walk stays inside when its strings end. -/
theorem parseTuples_isSome_iff {m : Bytes} : (parseTuples m).isSome = true ↔ Terminated m := by
  rw [Option.isSome_iff_exists]
  exact ⟨fun ⟨_, h⟩ => terminated_of_parse h, parse_of_terminated⟩

/-! ## The search -/

section
variable {tg : Target} {image : Bytes} {bound i : Nat}

/-- What the search has seen when it ends. -/
theorem scanFrom_spec (tg : Target) (image : Bytes) (bound i : Nat) :
    (∀ off, scanFrom tg image bound i = some (some off) → ∃ j, off = j * 4 ∧ i ≤ j ∧ j ≤ bound ∧
      j * 4 + 4 ≤ image.length ∧ wordAt tg image (j * 4) = NVRAM_MAGIC ∧
      ∀ k, i ≤ k → k < j → wordAt tg image (k * 4) ≠ NVRAM_MAGIC) ∧
    (scanFrom tg image bound i = some none → ∀ k, i ≤ k → k ≤ bound →
      k * 4 + 4 ≤ image.length ∧ wordAt tg image (k * 4) ≠ NVRAM_MAGIC) ∧
    (scanFrom tg image bound i = none → ∃ j, i ≤ j ∧ j ≤ bound ∧ image.length < j * 4 + 4 ∧
      ∀ k, i ≤ k → k < j → wordAt tg image (k * 4) ≠ NVRAM_MAGIC) := by
  induction i using scanFrom.induct tg image bound with
  | case1 i hbound =>
    rw [scanFrom, if_pos hbound]
    refine ⟨fun off h => ?_, fun _ k hk hkb => by omega, fun h => absurd h (Option.some_ne_none _)⟩
    cases h
  | case2 i hbound hshort =>
    rw [scanFrom, if_neg hbound, if_pos hshort]
    refine ⟨fun off h => ?_, fun h => ?_, fun _ => ⟨i, Nat.le_refl i, Nat.not_lt.mp hbound, hshort,
      fun k hk hki => by omega⟩⟩
    · cases h
    · cases h
  | case3 i hbound hshort hmagic =>
    rw [scanFrom, if_neg hbound, if_neg hshort, if_pos hmagic]
    refine ⟨fun off h => ?_, fun h => ?_, fun h => absurd h (Option.some_ne_none _)⟩
    · obtain rfl := Option.some.inj (Option.some.inj h)
      exact ⟨i, rfl, Nat.le_refl i, Nat.not_lt.mp hbound, Nat.not_lt.mp hshort, hmagic,
        fun k hk hki => by omega⟩
    · cases h
  | case4 i hbound hshort hmagic ih =>
    obtain ⟨hfound, hmissing, houtside⟩ := ih
    -- the word `i` is not the magic one, and the rest is as from `i + 1` on
    have hnext {j : Nat} (h : ∀ k, i + 1 ≤ k → k < j → wordAt tg image (k * 4) ≠ NVRAM_MAGIC)
        (k : Nat) (hik : i ≤ k) (hkj : k < j) : wordAt tg image (k * 4) ≠ NVRAM_MAGIC := by
      obtain rfl | hlt := Nat.eq_or_lt_of_le hik
      · exact hmagic
      · exact h k hlt hkj
    rw [scanFrom, if_neg hbound, if_neg hshort, if_neg hmagic]
    refine ⟨fun off h => ?_, fun h k hik hkb => ?_, fun h => ?_⟩
    · obtain ⟨j, hoff, hij, hrest⟩ := hfound off h
      exact ⟨j, hoff, Nat.le_of_succ_le hij, hrest.1, hrest.2.1, hrest.2.2.1, hnext hrest.2.2.2⟩
    · obtain rfl | hlt := Nat.eq_or_lt_of_le hik
      · exact ⟨Nat.not_lt.mp hshort, hmagic⟩
      · exact hmissing h k hlt hkb
    · obtain ⟨j, hij, hjb, hlen, hj⟩ := houtside h
      exact ⟨j, Nat.le_of_succ_le hij, hjb, hlen, hnext hj⟩

theorem two_pow_ptrSize (tg : Target) : 2 ^ 32 ≤ 2 ^ (8 * tg.ptrSize) := by
  rw [Target.ptrSize]
  split <;> decide

theorem scanBound_large (tg : Target) {size : Nat} (h : NVRAM_MIN_SPACE ≤ size) (hlt : size < 2 ^ 31) :
    scanBound tg size = (size - NVRAM_MIN_SPACE) / 4 := by
  have := two_pow_ptrSize tg
  rw [scanBound]
  generalize 2 ^ (8 * tg.ptrSize) = w at this
  rw [Nat.sub_add_comm h, Nat.add_mod_right, Nat.mod_eq_of_lt (by omega)]

/-- The bound wraps around. -/
theorem lt_scanBound (tg : Target) {size : Nat} (h : size < NVRAM_MIN_SPACE) : size < scanBound tg size := by
  have := two_pow_ptrSize tg
  rw [NVRAM_MIN_SPACE] at h
  rw [scanBound, NVRAM_MIN_SPACE]
  generalize 2 ^ (8 * tg.ptrSize) = w at this
  rw [Nat.mod_eq_of_lt (by omega)]
  omega

/-- Whether the search gets to a word of the mapping. -/
theorem inScan_iff {size : Nat} {j : Nat} (hsize : image.length = size) (hlt : size < 2 ^ 31)
    (hj : j * 4 + 4 ≤ size) : j ≤ scanBound tg size ↔ InScan image (j * 4) := by
  rw [InScan, hsize]
  by_cases hsmall : size < NVRAM_MIN_SPACE
  · have := lt_scanBound tg hsmall
    exact iff_of_true (by omega) (.inl hsmall)
  · rw [scanBound_large _ (Nat.not_lt.mp hsmall) hlt, or_iff_right hsmall]
    omega

theorem FirstMagic.unique {off off' : Nat} (h : FirstMagic tg image off)
    (h' : FirstMagic tg image off') : off = off' := by
  obtain hlt | heq | hlt := Nat.lt_trichotomy off off'
  · exact absurd h.magic (h'.first off hlt h.words)
  · exact heq
  · exact absurd h'.magic (h.first off' hlt h'.words)

/-- A partition whose search leaves the mapping. -/
theorem not_readsInside {p : Partition} {rdonly : Bool} (h0 : p.1.length ≠ 0)
    (h : scanFrom tg p.1 (scanBound tg p.1.length) 0 = none) : ¬ ReadsInside tg p.1 rdonly := by
  obtain ⟨-, -, houtside⟩ := scanFrom_spec tg p.1 (scanBound tg p.1.length) 0
  obtain ⟨j, -, hjb, hlen, hj⟩ := houtside h
  rintro (hnil | ⟨hlarge, -⟩ | ⟨off, hoff, -⟩)
  · exact h0 (hnil ▸ rfl)
  · rw [scanBound_large _ hlarge p.2] at hjb
    rw [NVRAM_MIN_SPACE] at hlarge hjb
    omega
  · obtain ⟨k, rfl⟩ := hoff.words
    have hinside := hoff.inside
    have hmagic := hoff.magic
    rw [Nat.mul_comm] at hmagic
    exact hj k (Nat.zero_le k) (by omega) hmagic

/-- A partition in which the search ends without a header. -/
theorem readsInside_of_missing {p : Partition} {rdonly : Bool}
    (h : scanFrom tg p.1 (scanBound tg p.1.length) 0 = some none) :
    ReadsInside tg p.1 rdonly := by
  obtain ⟨-, hmissing, -⟩ := scanFrom_spec tg p.1 (scanBound tg p.1.length) 0
  have hall := hmissing h
  have hlarge : NVRAM_MIN_SPACE ≤ p.1.length := by
    by_contra hsmall
    have := lt_scanBound tg (Nat.not_le.mp hsmall)
    have := (hall _ (Nat.zero_le _) (Nat.le_refl _)).1
    omega
  refine .inr (.inl ⟨hlarge, ?_⟩)
  rintro ⟨off, hoff, hscan⟩
  obtain ⟨k, rfl⟩ := hoff.words
  have hinside := hoff.inside
  have hmagic := hoff.magic
  rw [Nat.mul_comm] at hmagic hscan
  exact (hall k (Nat.zero_le k) ((inScan_iff rfl p.2 (by omega)).mpr hscan)).2 hmagic

/-- A partition with a header. -/
theorem readsInside_iff_of_found {p : Partition} {rdonly : Bool} {off : Nat}
    (h : scanFrom tg p.1 (scanBound tg p.1.length) 0 = some (some off)) :
    ReadsInside tg p.1 rdonly ↔ (rdonly = true ∨ off + 8 ≤ p.1.length) ∧
      (rdonly = true ∨ wordAt tg p.1 (off + 4) < p.1.length - off →
        Terminated (p.1.drop (off + headerSize))) := by
  obtain ⟨hfound, -, -⟩ := scanFrom_spec tg p.1 (scanBound tg p.1.length) 0
  obtain ⟨j, rfl, -, hjb, hlen, hmagic, hbefore⟩ := hfound off h
  have hfirst : FirstMagic tg p.1 (j * 4) := by
    refine ⟨Nat.dvd_mul_left 4 j, hlen, hmagic, ?_⟩
    rintro o ho ⟨k, rfl⟩
    rw [Nat.mul_comm]
    exact hbefore k (Nat.zero_le k) (by omega)
  have hscan : InScan p.1 (j * 4) := (inScan_iff rfl p.2 hlen).mp hjb
  constructor
  · rintro (hnil | ⟨-, hnone⟩ | ⟨off, hoff, -, hheader, hwalk⟩)
    · rw [hnil] at hlen
      exact absurd hlen (Nat.not_succ_le_zero _)
    · exact absurd ⟨_, hfirst, hscan⟩ hnone
    · obtain rfl := hoff.unique hfirst
      exact ⟨hheader, hwalk⟩
  · rintro ⟨hheader, hwalk⟩
    exact .inr (.inr ⟨_, hfirst, hscan, hheader, hwalk⟩)

end

/-- **When `nvram_open` reads inside of the mapping.** -/
theorem openReads_isSome_iff (tg : Target) (p : Partition) (rdonly : Bool) :
    (openReads tg p rdonly).isSome = true ↔ ReadsInside tg p.1 rdonly := by
  rw [openReads]
  by_cases h0 : p.1.length = 0
  · rw [if_pos h0]
    exact iff_of_true rfl (.inl (List.eq_nil_of_length_eq_zero h0))
  rw [if_neg h0]
  cases hscan : scanFrom tg p.1 (scanBound tg p.1.length) 0 with
  | none => exact iff_of_false Bool.false_ne_true (not_readsInside h0 hscan)
  | some o =>
    cases o with
    | none => exact iff_of_true rfl (readsInside_of_missing hscan)
    | some off =>
      rw [readsInside_iff_of_found hscan]
      dsimp only
      by_cases hheader : rdonly = false ∧ p.1.length < off + 8
      · rw [if_pos hheader]
        refine iff_of_false Bool.false_ne_true fun h => ?_
        obtain hro | hlen := h.1
        · exact Bool.false_ne_true (hheader.1.symm.trans hro)
        · exact absurd hheader.2 (Nat.not_lt.mpr hlen)
      have hread : rdonly = true ∨ off + 8 ≤ p.1.length := by
        cases rdonly with
        | true => exact .inl rfl
        | false => exact .inr (Nat.not_lt.mp fun h => hheader ⟨rfl, h⟩)
      rw [if_neg hheader, and_iff_right hread]
      by_cases haccept : rdonly = true ∨ wordAt tg p.1 (off + 4) < p.1.length - off
      · rw [if_pos haccept, Option.isSome_map, parseTuples_isSome_iff]
        exact ⟨fun h _ => h, fun h => h haccept⟩
      · rw [if_neg haccept]
        exact iff_of_true rfl fun h => absurd h haccept

/-! ## The handle -/

section
variable {tg : Target} {p : Partition} {rdonly : Bool}

theorem scanFrom_eq_findMagic (hl : NVRAM_MIN_SPACE ≤ p.1.length) :
    scanFrom tg p.1 (scanBound tg p.1.length) 0 = some (findMagic tg p.1) := by
  obtain ⟨hfound, hmissing, houtside⟩ := scanFrom_spec tg p.1 (scanBound tg p.1.length) 0
  have hbound := scanBound_large tg hl p.2
  cases hscan : scanFrom tg p.1 (scanBound tg p.1.length) 0 with
  | none =>
    obtain ⟨j, -, hjb, hlen, -⟩ := houtside hscan
    rw [NVRAM_MIN_SPACE] at hl hbound
    omega
  | some o =>
    congr 1
    symm
    cases o with
    | none =>
      rw [findMagic, Option.map_eq_none_iff, List.find?_eq_none]
      intro k hk
      have hk := List.mem_range.mp hk
      rw [decide_eq_true_eq]
      exact (hmissing hscan k (Nat.zero_le k) (by omega)).2
    | some off =>
      obtain ⟨j, rfl, -, hjb, -, hmagic, hbefore⟩ := hfound off hscan
      refine Option.map_eq_some_iff.mpr ⟨j, List.find?_range_eq_some.mpr ⟨?_, ?_, ?_⟩, rfl⟩
      · exact decide_eq_true hmagic
      · exact List.mem_range.mpr (by omega)
      · intro k hk
        rw [Bool.not_eq_true', decide_eq_false_iff_not]
        exact hbefore k (Nat.zero_le k) hk

/-- In a partition that is large enough, `nvramOpen` gives a handle when these reads do. -/
theorem nvramOpen_isSome_iff (addr : { a : Nat // 4096 ∣ a }) (hl : NVRAM_MIN_SPACE ≤ p.1.length) :
    (nvramOpen tg addr p.1 rdonly).isSome = true ↔ ∃ r, openReads tg p rdonly = some (some r) := by
  have hs : Scannable p.1 := ⟨hl, p.2⟩
  have h0 : p.1.length ≠ 0 := by
    rw [NVRAM_MIN_SPACE] at hl
    omega
  rw [openReads, if_neg h0, scanFrom_eq_findMagic hl]
  cases hm : findMagic tg p.1 with
  | none =>
    constructor
    · intro h
      obtain ⟨handle, ho⟩ := Option.isSome_iff_exists.mp h
      obtain ⟨off, hoff, -⟩ := nvramOpen_spec ho
      cases hm.symm.trans hoff
    · rintro ⟨r, hr⟩
      cases hr
  | some off =>
    have hroom := (findMagic_spec hm hl).2
    have hmagic : headerMagic tg (openHandle addr hm hs) = NVRAM_MAGIC := by
      obtain ⟨j, hj, rfl⟩ := Option.map_eq_some_iff.mp hm
      exact of_decide_eq_true (List.find?_range_eq_some.mp hj).1
    have hheader : ¬ (rdonly = false ∧ p.1.length < off + 8) := by
      rw [NVRAM_MIN_SPACE] at hroom
      omega
    -- the header of the handle is the one at the offset
    have hlen : headerLen tg (openHandle addr hm hs) < (openHandle addr hm hs).area.space ↔
        wordAt tg p.1 (off + 4) < p.1.length - off := Iff.rfl
    rw [nvramOpen_eq hm hs]
    dsimp only
    rw [if_neg hheader]
    by_cases haccept : rdonly = true ∨ wordAt tg p.1 (off + 4) < p.1.length - off
    · rw [if_pos haccept, if_pos ⟨hmagic, haccept.imp id hlen.mpr⟩, nvramRehash, Option.isSome_map,
        Option.isSome_iff_exists]
      constructor
      · rintro ⟨ts, hts⟩
        exact ⟨_, Option.map_eq_some_iff.mpr ⟨ts, hts, rfl⟩⟩
      · rintro ⟨r, hr⟩
        obtain ⟨ts, hts, -⟩ := Option.map_eq_some_iff.mp hr
        exact ⟨ts, hts⟩
    · rw [if_neg haccept, if_neg fun h => haccept (h.2.imp id hlen.mp)]
      refine iff_of_false Bool.false_ne_true ?_
      rintro ⟨r, hr⟩
      cases hr

end

/-! ## A small partition -/

/-- A partition of 16 KiB that is all zero. -/
def smallPartition : Partition :=
  ⟨List.replicate 0x4000 0, by rw [List.length_replicate]; decide⟩

theorem leNat_zeros (n : Nat) : leNat (List.replicate n 0) = 0 := by
  induction n with
  | zero => rfl
  | succ n ih => rw [List.replicate_succ, leNat, ih]; rfl

/-- The search goes on behind the end of the partition. -/
theorem not_openReads : ¬ ∀ (tg : Target) (p : Partition) (rdonly : Bool),
    (openReads tg p rdonly).isSome = true := by
  intro h
  have hlen : smallPartition.1.length = 0x4000 := List.length_replicate ..
  have hword (off : Nat) : wordAt mipsel smallPartition.1 off ≠ NVRAM_MAGIC := by
    have hzero : wordAt mipsel smallPartition.1 off = 0 := by
      rw [wordAt, smallPartition, load, List.drop_replicate, List.take_replicate]
      exact leNat_zeros _
    rw [hzero]
    decide
  obtain ⟨hfound, hmissing, -⟩ := scanFrom_spec mipsel smallPartition.1
    (scanBound mipsel smallPartition.1.length) 0
  have hopen := h mipsel smallPartition false
  rw [openReads] at hopen
  cases hscan : scanFrom mipsel smallPartition.1 (scanBound mipsel smallPartition.1.length) 0 with
  | none =>
    rw [hscan, if_neg (by rw [hlen]; decide)] at hopen
    exact Bool.false_ne_true hopen
  | some o =>
    cases o with
    | none =>
      have hbound := (hmissing hscan _ (Nat.zero_le _) (Nat.le_refl _)).1
      have hlt : smallPartition.1.length < scanBound mipsel smallPartition.1.length :=
        lt_scanBound _ (by rw [hlen]; decide)
      omega
    | some off =>
      obtain ⟨j, -, -, -, -, hmagic, -⟩ := hfound off hscan
      exact hword _ hmagic

end UolaOs.Nvram
