import UolaOs.Kconfig.Config

/-!
# The laws of the operators

* `lookup_and`, `lookup_add`, `lookup_diff`, `lookup_sub`: what the operators leave under a symbol;
* `parse_cfgline`: the lines that are printed are read as they were meant, when they are readable;
* `laws_iff`: the laws hold when no symbol is "0" twice, and when what is printed is readable.
-/

namespace UolaOs.Kconfig

/-! ## The operators, symbol by symbol -/

section
variable {a b : Config} {k v : Bytes}

theorem lookup_and : (configAnd a b).lookup k = some v ↔
    a.lookup k = some v ∧ truthy (b.lookup k) = true ∧ b.lookup k = some v :=
  Hash.lookup_collect a fun k v => truthy (b.lookup k) = true ∧ b.lookup k = some v

theorem lookup_add (k : Bytes) :
    (configAdd a b false).lookup k = (b.lookup k).or (a.lookup k) := by
  have hentry : addEntry false = fun config e => config.insert e.1 e.2 := by
    funext config e
    exact if_neg fun h => Bool.false_ne_true h.1
  rw [configAdd, hentry]
  refine (Hash.lookup_storeAll b _ k).trans (congrArg _ ?_)
  rw [Hash.lookup_storeAll, AList.lookup_empty, Option.or_none]

theorem lookup_diff : (configDiff a b false).lookup k = some v ↔
    b.lookup k = some v ∧ a.lookup k ≠ some v := by
  refine (Hash.lookup_collect b fun k v => (a.lookup k = none ∨ a.lookup k ≠ some v) ∧
    ¬ (false = true ∧ a.lookup k = none ∧ v = undef)).trans (and_congr_right fun _ => ?_)
  constructor
  · rintro ⟨hnone | hne, -⟩
    · rw [hnone]
      exact (Option.some_ne_none v).symm
    · exact hne
  · exact fun hne => ⟨.inr hne, fun h => Bool.false_ne_true h.1⟩

/-- Without patterns, the symbols are deleted. -/
theorem lookup_sub (regex : Bytes → Bytes → Bool) (h : ∀ k ∈ b.keys, isPattern k = false)
    (k : Bytes) : (k ∈ b.keys → (configSub a b regex).lookup k = none) ∧
      (k ∉ b.keys → (configSub a b regex).lookup k = a.lookup k) := by
  have hkeys : (b.keys.flatMap fun expr =>
      if isPattern expr = true then a.keys.filter (regex expr) else [expr]) = b.keys := by
    refine (List.flatMap_congr fun expr hexpr => ?_).trans (List.flatMap_singleton' b.keys)
    exact if_neg fun hpattern => Bool.false_ne_true ((h expr hexpr).symm.trans hpattern)
  rw [configSub, hkeys]
  exact Hash.lookup_foldl_erase b.keys a k

theorem add_diff : Hash.Same (configAdd a (configDiff a b false) false) (configAdd a b false) := by
  intro k
  rw [lookup_add, lookup_add]
  cases hb : b.lookup k with
  | none =>
    have hnone : (configDiff a b false).lookup k = none :=
      Option.eq_none_iff_forall_ne_some.mpr fun v hv => by
        rw [(lookup_diff.mp hv).1] at hb
        cases hb
    rw [hnone]
  | some v =>
    by_cases ha : a.lookup k = some v
    · have hnone : (configDiff a b false).lookup k = none :=
        Option.eq_none_iff_forall_ne_some.mpr fun w hw => by
          obtain ⟨hw, hne⟩ := lookup_diff.mp hw
          exact hne (ha.trans (hb.symm.trans hw))
      rw [hnone, ha]
      rfl
    · rw [lookup_diff.mpr ⟨hb, ha⟩]

theorem sub_add (regex : Bytes → Bytes → Bool) (h : ∀ k ∈ b.keys, isPattern k = false) :
    Hash.Same (configSub (configAdd a b false) b regex) (configSub a b regex) := by
  intro k
  obtain ⟨hin, hout⟩ := lookup_sub (a := a) regex h k
  obtain ⟨hin', hout'⟩ := lookup_sub (a := configAdd a b false) regex h k
  by_cases hk : k ∈ b.keys
  · rw [hin hk, hin' hk]
  · have hnone : b.lookup k = none := AList.lookup_eq_none.mpr hk
    rw [hout hk, hout' hk, lookup_add, hnone]
    rfl

end

/-- What the operators leave can be loaded again. -/
theorem loadable_operators (regex : Bytes → Bytes → Bool) (a b : Loaded) (k v : Bytes)
    (h : (configAnd a.config b.config).lookup k = some v ∨
      (configAdd a.config b.config false).lookup k = some v ∨
        (configDiff a.config b.config false).lookup k = some v ∨
          (configSub a.config b.config regex).lookup k = some v) : Loadable k v := by
  obtain h | h | h | h := h
  · exact a.loadable k v (lookup_and.mp h).1
  · rw [lookup_add] at h
    obtain h | ⟨-, h⟩ := Option.or_eq_some_iff.mp h
    · exact b.loadable k v h
    · exact a.loadable k v h
  · exact b.loadable k v (lookup_diff.mp h).1
  · rw [configSub] at h
    refine a.loadable k v ?_
    obtain ⟨hin, hout⟩ := Hash.lookup_foldl_erase
      (b.config.keys.flatMap fun expr =>
        if isPattern expr then a.config.keys.filter (regex expr) else [expr]) a.config k
    by_cases hk : k ∈ b.config.keys.flatMap fun expr =>
        if isPattern expr then a.config.keys.filter (regex expr) else [expr]
    · cases (hin hk).symm.trans h
    · exact (hout hk).symm.trans h

/-! ## Lines -/

section
variable {key val line rest : Bytes}

theorem afterPrefix_append (front rest : Bytes) : afterPrefix front (front ++ rest) = some rest :=
    by
  rw [afterPrefix, if_pos (List.prefix_append front rest), List.drop_left]

theorem afterPrefix_iff {front : Bytes} :
    afterPrefix front line = some rest ↔ line = front ++ rest := by
  constructor
  · intro h
    rw [afterPrefix] at h
    split at h
    · next hfront =>
      obtain ⟨tail, rfl⟩ := hfront
      rw [List.drop_left] at h
      rw [Option.some.inj h]
    · cases h
  · rintro rfl
    exact afterPrefix_append front rest

/-- A comment is no line that sets a symbol. -/
theorem afterPrefix_comment (rest : Bytes) : afterPrefix PREFIX (ascii "# " ++ rest) = none :=
  if_neg fun h => absurd (List.cons_prefix_cons.mp h).1 (by decide)

theorem parseSet_iff : parseSet rest = some (key, val) ↔
    ∃ c k, key = c :: k ∧ (0x3d : UInt8) ∉ k ∧ val ≠ [] ∧ rest = c :: k ++ 0x3d :: val := by
  constructor
  · intro h
    cases rest with
    | nil => cases h
    | cons c rest =>
      have hsplit := List.takeWhile_append_dropWhile (p := fun x : UInt8 => x ≠ 0x3d) (l := rest)
      rw [parseSet] at h
      rcases hdrop : rest.dropWhile (fun x : UInt8 => x ≠ 0x3d) with _ | ⟨x, _ | ⟨b, v⟩⟩
      · rw [hdrop] at h
        cases h
      · rw [hdrop] at h
        cases h
      · rw [hdrop] at h
        obtain ⟨rfl, rfl⟩ := Prod.mk.inj (Option.some.inj h)
        obtain rfl : x = 0x3d := by
          have := List.head?_dropWhile_not (fun x : UInt8 => x ≠ 0x3d) rest
          rw [hdrop] at this
          simpa using this
        refine ⟨c, _, rfl, fun hin => ?_, List.cons_ne_nil _ _, ?_⟩
        · have := List.mem_takeWhile_imp hin
          simp at this
        · rw [List.cons_append, ← hdrop, hsplit]
  · rintro ⟨c, k, rfl, hk, hval, rfl⟩
    obtain ⟨b, v, rfl⟩ := List.exists_cons_of_ne_nil hval
    have hkeep : ∀ x ∈ k, decide (x ≠ 0x3d) = true := fun x hx =>
      decide_eq_true fun heq => hk (heq ▸ hx)
    have hdrop : (k ++ 0x3d :: b :: v).dropWhile (fun x : UInt8 => x ≠ 0x3d) = 0x3d :: b :: v := by
      rw [List.dropWhile_append_of_pos hkeep]
      rfl
    have htake : (k ++ 0x3d :: b :: v).takeWhile (fun x : UInt8 => x ≠ 0x3d) = k := by
      rw [List.takeWhile_append_of_pos hkeep]
      exact List.append_nil k
    rw [List.cons_append, parseSet, hdrop, htake]

theorem parseNotSet_iff : parseNotSet rest = some key ↔
    ∃ c k r, key = c :: k ∧ rest = c :: r ∧ FirstAt notSet k r := by
  cases rest with
  | nil =>
    refine iff_of_false (Option.some_ne_none key).symm ?_
    rintro ⟨c, k, r, -, h, -⟩
    cases h
  | cons c rest =>
    rw [parseNotSet, Option.map_eq_some_iff]
    constructor
    · rintro ⟨k, hk, rfl⟩
      exact ⟨c, k, rest, rfl, rfl, splitBefore_iff.mp hk⟩
    · rintro ⟨c', k, r, rfl, hrest, hfirst⟩
      obtain ⟨rfl, rfl⟩ := List.cons.inj hrest
      exact ⟨k, splitBefore_iff.mpr hfirst, rfl⟩

/-- The two kinds of lines that give entries. -/
theorem parseLine_iff : parseLine line = some (key, val) ↔
    (∃ rest, line = PREFIX ++ rest ∧ parseSet rest = some (key, val)) ∨
      (afterPrefix PREFIX line).bind parseSet = none ∧
        ∃ rest, line = ascii "# " ++ PREFIX ++ rest ∧ parseNotSet rest = some key ∧ val = undef :=
          by
  rw [parseLine, Option.or_eq_some_iff, Option.map_eq_some_iff]
  refine or_congr ?_ (and_congr_right fun _ => ?_)
  · rw [Option.bind_eq_some_iff]
    exact exists_congr fun rest => and_congr_left fun _ => afterPrefix_iff
  · constructor
    · rintro ⟨k, hk, heq⟩
      obtain ⟨rest, hrest, hparse⟩ := Option.bind_eq_some_iff.mp hk
      obtain ⟨rfl, rfl⟩ := Prod.mk.inj heq
      exact ⟨rest, afterPrefix_iff.mp hrest, hparse, rfl⟩
    · rintro ⟨rest, hline, hparse, rfl⟩
      exact ⟨key, Option.bind_eq_some_iff.mpr ⟨rest, afterPrefix_iff.mpr hline, hparse⟩, rfl⟩

/-- The entries that lines give have a symbol and a value, without newlines; a symbol with another
value than `#undef` has no "=" but in front. -/
theorem Loadable.parts (h : Loadable key val) : newline ∉ key ∧ newline ∉ val ∧ val ≠ [] ∧
    ∃ c k, key = c :: k ∧ (val ≠ undef → (0x3d : UInt8) ∉ k) := by
  obtain ⟨line, hline, hparse⟩ := h
  obtain ⟨rest, rfl, hset⟩ | ⟨-, rest, rfl, hnot, rfl⟩ := parseLine_iff.mp hparse
  · obtain ⟨c, k, rfl, hk, hval, rfl⟩ := parseSet_iff.mp hset
    refine ⟨fun hin => hline ?_, fun hin => hline ?_, hval, c, k, rfl, fun _ => hk⟩
    · exact List.mem_append_right _ (List.mem_append_left _ hin)
    · exact List.mem_append_right _ (List.mem_append_right _ (List.mem_cons_of_mem _ hin))
  · obtain ⟨c, k, r, rfl, rfl, hstart, -⟩ := parseNotSet_iff.mp hnot
    refine ⟨fun hin => hline ?_, by decide, by decide, c, k, rfl, fun hne => absurd rfl hne⟩
    refine List.mem_append_right _ ?_
    exact (List.mem_cons.mp hin).elim (fun heq => heq ▸ List.mem_cons_self)
      fun hin => List.mem_cons_of_mem _ (hstart.subset hin)

/-! ## What is printed -/

/-- The value "n" is read back as `#undef`. -/
def readBack (val : Bytes) : Bytes := if val = no then undef else val

theorem newline_notMem_cfgline (h : Loadable key val) : newline ∉ cfgline key val := by
  obtain ⟨hkey, hval, -⟩ := h.parts
  have hstart : newline ∉ PREFIX := by decide
  have hcomment : newline ∉ ascii "# " := by decide
  have hnotset : newline ∉ notSet := by decide
  rw [cfgline]
  split
  · simp [hstart, hcomment, hnotset, hkey]
  · have hequals : newline ≠ 0x3d := by decide
    simp [hstart, hkey, hval, hequals]

theorem parse_set (h : Loadable key val) (hundef : val ≠ undef) (hno : val ≠ no) :
    parseLine (cfgline key val) = some (key, val) := by
  obtain ⟨-, -, hval, c, k, rfl, hk⟩ := h.parts
  rw [cfgline, if_neg (not_or.mpr ⟨hundef, hno⟩), List.append_assoc]
  exact parseLine_iff.mpr (.inl ⟨_, rfl, parseSet_iff.mpr ⟨c, k, rfl, hk hundef, hval, rfl⟩⟩)

/-- A symbol that is printed as not set is read up to the first ` is not set`. -/
theorem parse_notSet (hval : val = undef ∨ val = no) {key' val' : Bytes} :
    parseLine (cfgline key val) = some (key', val') ↔
      parseNotSet (key ++ notSet) = some key' ∧ val' = undef := by
  have hline : cfgline key val = ascii "# " ++ (PREFIX ++ (key ++ notSet)) := by
    rw [cfgline, if_pos hval, List.append_assoc, List.append_assoc]
  have hnone : (afterPrefix PREFIX (cfgline key val)).bind parseSet = none := by
    rw [hline, afterPrefix_comment]
    rfl
  rw [parseLine_iff, hnone]
  constructor
  · rintro (⟨rest, hrest, hset⟩ | ⟨-, rest, hrest, hnot, rfl⟩)
    · rw [afterPrefix_iff.mpr hrest] at hnone
      cases hnone.symm.trans hset
    · rw [hline, List.append_assoc] at hrest
      obtain rfl := List.append_cancel_left (List.append_cancel_left hrest)
      exact ⟨hnot, rfl⟩
  · rintro ⟨hnot, rfl⟩
    refine .inr ⟨rfl, key ++ notSet, ?_, hnot, rfl⟩
    rw [hline, List.append_assoc]

/-- Printed as not set, the symbol is read again: ` is not set` does not occur in it before the
end, but in front. -/
def NotSetKey (key : Bytes) : Prop :=
  ∀ i, 0 < i → i < key.length → ¬ notSet <+: (key ++ notSet).drop i

theorem parseNotSet_key : parseNotSet (key ++ notSet) = some key ↔ key ≠ [] ∧ NotSetKey key := by
  rw [parseNotSet_iff]
  constructor
  · rintro ⟨c, k, r, rfl, hr, -, -, hfirst⟩
    obtain ⟨-, rfl⟩ := List.cons.inj hr
    refine ⟨List.cons_ne_nil c k, fun i h0 hi => ?_⟩
    obtain ⟨j, rfl⟩ := Nat.exists_eq_succ_of_ne_zero (Nat.ne_of_gt h0)
    exact hfirst j (Nat.lt_of_succ_lt_succ hi)
  · rintro ⟨hne, hkey⟩
    obtain ⟨c, k, rfl⟩ := List.exists_cons_of_ne_nil hne
    refine ⟨c, k, k ++ notSet, rfl, rfl, List.prefix_append k notSet, ?_, fun i hi => ?_⟩
    · simp only [List.drop_left, List.prefix_rfl]
    · exact hkey (i + 1) (Nat.succ_pos i) (Nat.succ_lt_succ hi)

/-- No other symbol is read for one that is cut short. -/
theorem parseNotSet_cut {key' : Bytes} (h : parseNotSet (key ++ notSet) = some key') :
    key' ≠ [] ∧ NotSetKey key' := by
  obtain ⟨c, k, r, rfl, hr, hstart, hbehind, hfirst⟩ := parseNotSet_iff.mp h
  refine ⟨List.cons_ne_nil c k, fun i h0 hi hin => ?_⟩
  obtain ⟨j, rfl⟩ := Nat.exists_eq_succ_of_ne_zero (Nat.ne_of_gt h0)
  obtain ⟨w, rfl⟩ := hstart
  rw [List.drop_left] at hbehind
  -- the text of the cut symbol is the beginning of the text that was read
  obtain ⟨u, hu⟩ : k ++ notSet <+: k ++ w := (List.prefix_append_right_inj k).mpr hbehind
  have hj : j < k.length := Nat.lt_of_succ_lt_succ hi
  have hle : j ≤ (k ++ notSet).length := by
    rw [List.length_append]
    omega
  refine hfirst j hj ?_
  rw [← hu, List.drop_append_of_le_length hle]
  exact hin.trans (List.prefix_append _ u)

end

/-! ## Printing and reading -/

/-- Symbols that are printed as not set can be read. -/
def Readable (c : Config) : Prop :=
  ∀ key val, c.lookup key = some val → val = undef ∨ val = no → NotSetKey key

section
variable {c : Config} {key val line : Bytes} {modPlus : Bool}

theorem lookup_setConfig_isSome (config : Config) (idx newval : Bytes) :
    (∀ key, (config.lookup key).isSome = true →
      ((setConfig config idx newval modPlus).lookup key).isSome = true) ∧
      ((setConfig config idx newval modPlus).lookup idx).isSome = true := by
  rw [setConfig]
  split
  · refine ⟨fun key h => ?_, by rw [AList.lookup_insert]; rfl⟩
    by_cases hkey : key = idx
    · rw [hkey, AList.lookup_insert]
      rfl
    · rwa [AList.lookup_insert_ne hkey]
  · next hkept =>
    exact ⟨fun _ h => h, Option.isSome_iff_ne_none.mpr fun hnone => hkept (.inl hnone)⟩

/-- What a line gives is there in the end. -/
theorem lookup_lines_isSome {lines : List Bytes} (config : Config) :
    (∀ key, (config.lookup key).isSome = true →
      ((lines.foldl (loadLine modPlus) config).lookup key).isSome = true) ∧
      ∀ line ∈ lines, ∀ key val, parseLine line = some (key, val) →
        ((lines.foldl (loadLine modPlus) config).lookup key).isSome = true := by
  induction lines generalizing config with
  | nil => exact ⟨fun _ h => h, fun _ h => absurd h List.not_mem_nil⟩
  | cons line lines ih =>
    obtain ⟨hkept, hlines⟩ := ih (loadLine modPlus config line)
    rw [List.foldl_cons]
    refine ⟨fun key h => hkept key ?_, fun l hl key val hparse => ?_⟩
    · rw [loadLine]
      cases parseLine line with
      | none => exact h
      | some kv => exact (lookup_setConfig_isSome config kv.1 kv.2).1 key h
    · obtain rfl | hl := List.mem_cons.mp hl
      · refine hkept key ?_
        rw [loadLine, hparse]
        exact (lookup_setConfig_isSome config key val).2
      · exact hlines l hl key val hparse

theorem mem_dumpLines : line ∈ dumpLines c ↔
    ∃ key val, c.lookup key = some val ∧ line = cfgline key val := by
  rw [dumpLines, List.mem_map]
  constructor
  · rintro ⟨key, hkey, rfl⟩
    obtain ⟨val, hval⟩ := Hash.mem_keys_iff.mp ((List.mergeSort_perm _ _).mem_iff.mp hkey)
    rw [hval]
    exact ⟨key, val, hval, rfl⟩
  · rintro ⟨key, val, hval, rfl⟩
    refine ⟨key, (List.mergeSort_perm _ _).mem_iff.mpr (Hash.mem_keys_iff.mpr ⟨val, hval⟩), ?_⟩
    rw [hval]
    rfl

variable (hc : ∀ key val, c.lookup key = some val → Loadable key val)
include hc

theorem loadConfig_dump : loadConfig modPlus (dumpConfig c) =
    (dumpLines c).foldl (loadLine modPlus) ∅ := by
  rw [loadConfig, dumpConfig, readLines_unlines]
  intro line hline
  obtain ⟨key, val, hval, rfl⟩ := mem_dumpLines.mp hline
  exact newline_notMem_cfgline (hc key val hval)

/-- A line that is printed, when it can be read. -/
theorem parse_cfgline (hread : Readable c) (hval : c.lookup key = some val) :
    parseLine (cfgline key val) = some (key, readBack val) := by
  have hload := hc key val hval
  by_cases hset : val = undef ∨ val = no
  · have hback : readBack val = undef := by
      rw [readBack]
      split
      · rfl
      · next hno => exact hset.resolve_right hno
    obtain ⟨-, -, -, b, k, rfl, -⟩ := hload.parts
    rw [hback]
    refine (parse_notSet hset).mpr ⟨parseNotSet_key.mpr ⟨List.cons_ne_nil b k, ?_⟩, rfl⟩
    exact hread _ val hval hset
  · obtain ⟨hundef, hno⟩ := not_or.mp hset
    rw [readBack, if_neg hno]
    exact parse_set hload hundef hno

theorem load_dump (hread : Readable c) (key : Bytes) :
    (loadConfig modPlus (dumpConfig c)).lookup key = (c.lookup key).map readBack := by
  rw [loadConfig_dump hc]
  cases hload : ((dumpLines c).foldl (loadLine modPlus) ∅).lookup key with
  | some w =>
    obtain ⟨line, hline, hparse⟩ | hempty := lookup_lines hload
    swap
    · cases hempty
    obtain ⟨key', val, hval, rfl⟩ := mem_dumpLines.mp hline
    rw [parse_cfgline hc hread hval] at hparse
    obtain ⟨rfl, rfl⟩ := Prod.mk.inj (Option.some.inj hparse)
    rw [hval]
    rfl
  | none =>
    cases hval : c.lookup key with
    | none => rfl
    | some val =>
      have hsome : (((dumpLines c).foldl (loadLine modPlus) ∅).lookup key).isSome = true :=
        (lookup_lines_isSome ∅).2 (cfgline key val) (mem_dumpLines.mpr ⟨key, val, hval, rfl⟩) key _
          (parse_cfgline hc hread hval)
      rw [hload] at hsome
      cases hsome

/-- A symbol that cannot be read is lost. -/
theorem lookup_unreadable (hkey : ¬ NotSetKey key) :
    (loadConfig modPlus (dumpConfig c)).lookup key ≠ some undef := by
  intro hload
  rw [loadConfig_dump hc] at hload
  obtain ⟨line, hline, hparse⟩ | hempty := lookup_lines hload
  swap
  · cases hempty
  obtain ⟨key', val', hval', rfl⟩ := mem_dumpLines.mp hline
  by_cases hset' : val' = undef ∨ val' = no
  · exact hkey (parseNotSet_cut ((parse_notSet hset').mp hparse).1).2
  · obtain ⟨hundef, hno⟩ := not_or.mp hset'
    rw [parse_set (hc key' val' hval') hundef hno] at hparse
    exact hundef (Prod.mk.inj (Option.some.inj hparse)).2

end

/-! ## The laws -/

/-- What is expected of the operators on `a` and `b`, and of the text that is printed for `c`. -/
structure Laws (regex : Bytes → Bytes → Bool) (a b c : Config) : Prop where
  and_entries : ∀ k v, (configAnd a b).lookup k = some v ↔
    a.lookup k = some v ∧ b.lookup k = some v
  add_diff : Hash.Same (configAdd a (configDiff a b false) false) (configAdd a b false)
  diff_entries : ∀ k v, (configDiff a b false).lookup k = some v →
    b.lookup k = some v ∧ a.lookup k ≠ some v
  sub_add : (∀ k ∈ b.keys, isPattern k = false) →
    Hash.Same (configSub (configAdd a b false) b regex) (configSub a b regex)
  load_dump : ∀ modPlus k,
    (loadConfig modPlus (dumpConfig c)).lookup k = (c.lookup k).map readBack

/-- **When the laws hold.** -/
theorem laws_iff (regex : Bytes → Bytes → Bool) (a b c : Loaded) :
    Laws regex a.config b.config c.config ↔
      (∀ k, ¬ (a.config.lookup k = some zero ∧ b.config.lookup k = some zero)) ∧
        Readable c.config := by
  constructor
  · intro h
    constructor
    · rintro k ⟨ha, hb⟩
      have htrue := (lookup_and.mp ((h.and_entries k zero).mpr ⟨ha, hb⟩)).2.1
      rw [hb] at htrue
      revert htrue
      decide
    · intro key val hval hset
      by_contra hkey
      refine @lookup_unreadable c.config key false c.loadable hkey ?_
      rw [h.load_dump false key, hval]
      obtain rfl | rfl := hset <;> decide
  · rintro ⟨hzero, hread⟩
    refine ⟨fun k v => ?_, add_diff, fun k v => lookup_diff.mp, sub_add regex, fun modPlus k => ?_⟩
    · rw [lookup_and]
      refine and_congr_right fun ha => and_iff_right_of_imp fun hb => ?_
      have hne : v ≠ zero := fun h => hzero k ⟨h ▸ ha, h ▸ hb⟩
      rw [hb]
      exact decide_eq_true ⟨(a.loadable k v ha).parts.2.2.1, hne⟩
    · exact load_dump c.loadable hread k

/-- The value "0" is lost. -/
theorem not_laws : ¬ ∀ (regex : Bytes → Bytes → Bool) (a b c : Loaded),
    Laws regex a.config b.config c.config := by
  intro h
  have hlaws := h (fun _ _ => false) (load false (ascii "CONFIG_PANIC_TIMEOUT=0\n"))
    (load false (ascii "CONFIG_PANIC_TIMEOUT=0\n")) (load false [])
  have hand := (hlaws.and_entries (ascii "PANIC_TIMEOUT") zero).mpr
  revert hand
  decide

end UolaOs.Kconfig
