import Mathlib.Data.List.GetD
import UolaOs.Lib.Loop
import UolaOs.Mtd.Jffs2

/-!
# Which bytes the scan of a block reads

`mtd_parse_jffs2data` with each read checked against the block. A name is read up to its first
difference only.

* `checked_of_parse`: it is the scan of the appending where that ends;
* `parse_ends_iff`: when the walk over the nodes ends inside the block.
-/

namespace UolaOs.Mtd.Walk

section
variable (e : Endian) (buf : Bytes)

/-- A read of bytes that have to lie in the block. -/
def peek (off n : Nat) : Option Bytes :=
  if off + n ≤ buf.length then some (load buf off n) else none

def peek16 (off : Nat) : Option Nat := (peek buf off 2).map e.get

def peek32 (off : Nat) : Option UInt32 := (peek buf off 4).map fun bs => UInt32.ofNat (e.get bs)

/-- `strncmp(buf + off, s, n) == 0`, up to the first difference. -/
def strncmpAt : Nat → Bytes → Nat → Option Bool
  | _, _, 0 => some true
  | _, [], _ => some true
  | off, b :: s, n + 1 =>
    match buf[off]? with
    | none => none
    | some a => if a ≠ b then some false else if a = 0 then some true else strncmpAt (off + 1) s n

section
variable (dir : CStr)

/-- Whether this is the right directory name, in the root. -/
def isTarget (ofs : Nat) : Option Bool :=
  if dir.bytes ≠ [] then do
    let pino ← peek32 e buf (ofs + 12)
    if pino = 1 then do
      let nsize ← buf[ofs + 28]?
      strncmpAt buf (ofs + 40) dir.stored nsize.toNat
    else some false
  else some false

def noteDirent (ofs : Nat) (s : Scan) : Option Scan := do
  let found ← isTarget e buf dir ofs
  let ino ← peek32 e buf (ofs + 20)
  let version ← peek32 e buf (ofs + 16)
  some
    { target_ino := if found = true then ino else s.target_ino
      last_ino := if s.last_ino < ino then ino else s.last_ino
      last_version := if s.last_version < version then version else s.last_version }

/-- A node whose magic has been read. -/
def parseNode (ofs : Nat) (s : Scan) : Option (Round Nat Scan) := do
  let totlen ← peek32 e buf (ofs + 4)
  let nodetype ← peek16 e buf (ofs + 2)
  let next := (ofs + padWord totlen) % 2 ^ 32
  if nodetype = jffs2NodetypeDirent then (noteDirent e buf dir ofs s).map (.next next)
  else some (.next next s)

def parseRound (ofs : Nat) (s : Scan) : Option (Round Nat Scan) :=
  if ofs < buf.length then do
    let magic ← peek16 e buf ofs
    if magic = jffs2MagicBitmask then parseNode e buf dir ofs s else some (.stop s)
  else some (.stop s)

/-- The scan of a block, in `fuel` rounds at most. -/
def mtdParseJffs2data (fuel : Nat) (s : Scan) : Option Scan :=
  loop (parseRound e buf dir) fuel 0 s

/-! ## What a block has to be -/

def NodeAt (ofs : Nat) : Prop := ofs < buf.length ∧ word16 e buf ofs = jffs2MagicBitmask

/-- The link from a node to what follows it: the length is rounded and added in 32 bits. -/
def Link (ofs next : Nat) : Prop :=
  NodeAt e buf ofs ∧ next = (ofs + padWord (word32 e buf (ofs + 4))) % 2 ^ 32

/-- A directory entry with the members that are read; of a name in the root, the bytes up to the
first difference from the wanted one. -/
structure EntryFits (ofs : Nat) : Prop where
  members : ofs + 24 ≤ buf.length
  name : dir.bytes ≠ [] → word32 e buf (ofs + 12) = 1 → ofs + 28 < buf.length ∧
    ∀ i < (buf.getD (ofs + 28) 0).toNat, i ≤ dir.length →
      load buf (ofs + 40) i = dir.bytes.take i → ofs + 40 + i < buf.length

/-- What is read of a node lies in the block. -/
structure NodeFits (ofs : Nat) : Prop where
  magic : ofs < buf.length → ofs + 2 ≤ buf.length
  header : NodeAt e buf ofs → ofs + 8 ≤ buf.length
  entry : NodeAt e buf ofs → word16 e buf (ofs + 2) = jffs2NodetypeDirent → EntryFits e buf dir ofs

/-- The nodes that links lead to from the start of the block. -/
def Chained (ofs : Nat) : Prop := Relation.ReflTransGen (Link e buf) 0 ofs

/-- **A block that can be scanned**: no node leads back to itself, and each lies in the block. -/
structure Scannable : Prop where
  no_cycle : ∀ ofs, Chained e buf ofs → ¬ Relation.TransGen (Link e buf) ofs ofs
  fits : ∀ ofs, Chained e buf ofs → NodeFits e buf dir ofs

end

end

/-! ## The reads -/

section
variable {e : Endian} {buf : Bytes} {off n : Nat}

theorem peek_some (h : off + n ≤ buf.length) : peek buf off n = some (load buf off n) := if_pos h

theorem peek_none (h : ¬ off + n ≤ buf.length) : peek buf off n = none := if_neg h

theorem peek16_some (h : off + 2 ≤ buf.length) : peek16 e buf off = some (word16 e buf off) := by
  rw [peek16, peek_some h]
  rfl

theorem peek32_some (h : off + 4 ≤ buf.length) : peek32 e buf off = some (word32 e buf off) := by
  rw [peek32, peek_some h]
  rfl

theorem peek16_none (h : ¬ off + 2 ≤ buf.length) : peek16 e buf off = none := by
  rw [peek16, peek_none h]
  rfl

theorem peek32_none (h : ¬ off + 4 ≤ buf.length) : peek32 e buf off = none := by
  rw [peek32, peek_none h]
  rfl

theorem load_succ (h : off < buf.length) (i : Nat) :
    load buf off (i + 1) = buf[off] :: load buf (off + 1) i := by
  rw [load, load, List.drop_eq_getElem_cons h, List.take_succ_cons]

/-- A comparison reads the bytes up to the first difference. -/
theorem strncmpAt_isSome {bs : Bytes} (hbs : (0 : UInt8) ∉ bs) :
    (strncmpAt buf off (bs ++ [0]) n).isSome = true ↔
      ∀ i < n, i ≤ bs.length → load buf off i = bs.take i → off + i < buf.length := by
  induction bs generalizing off n with
  | nil =>
    cases n with
    | zero => exact iff_of_true rfl fun i hi => absurd hi (Nat.not_lt_zero i)
    | succ n =>
      have hfirst : (∀ i < n + 1, i ≤ 0 → load buf off i = ([] : Bytes).take i →
          off + i < buf.length) ↔ off < buf.length := by
        constructor
        · exact fun h => h 0 (Nat.succ_pos n) (Nat.le_refl 0) rfl
        · intro h i _ hi _
          omega
      rw [List.length_nil, hfirst, List.nil_append, strncmpAt]
      by_cases hoff : off < buf.length
      · rw [List.getElem?_eq_getElem hoff]
        refine iff_of_true ?_ hoff
        dsimp only
        split
        · rfl
        · split
          · rfl
          · cases n <;> rfl
      · rw [List.getElem?_eq_none (Nat.not_lt.mp hoff)]
        exact iff_of_false Bool.false_ne_true hoff
  | cons b bs ih =>
    obtain ⟨hb, hbs⟩ := List.ne_and_not_mem_of_not_mem_cons hbs
    cases n with
    | zero => exact iff_of_true rfl fun i hi => absurd hi (Nat.not_lt_zero i)
    | succ n =>
      rw [List.cons_append, strncmpAt]
      by_cases hoff : off < buf.length
      swap
      · rw [List.getElem?_eq_none (Nat.not_lt.mp hoff)]
        exact iff_of_false Bool.false_ne_true
          fun h => hoff (h 0 (Nat.succ_pos n) (Nat.zero_le _) rfl)
      rw [List.getElem?_eq_getElem hoff]
      dsimp only
      by_cases hab : buf[off] = b
      · rw [if_neg (not_not.mpr hab), if_neg (hab ▸ Ne.symm hb), ih hbs]
        have hnext (i : Nat) : load buf off (i + 1) = (b :: bs).take (i + 1) ↔
            load buf (off + 1) i = bs.take i := by
          rw [load_succ hoff, hab, List.take_succ_cons, List.cons_inj_right]
        constructor
        · intro h i hi hlen hload
          cases i with
          | zero => exact hoff
          | succ i =>
            have := h i (by omega) (by simpa using hlen) ((hnext i).mp hload)
            omega
        · intro h i hi hlen hload
          have := h (i + 1) (by omega) (by simpa using hlen) ((hnext i).mpr hload)
          omega
      · rw [if_pos hab]
        refine iff_of_true rfl fun i hi _ hload => ?_
        cases i with
        | zero => exact hoff
        | succ i =>
          rw [load_succ hoff, List.take_succ_cons] at hload
          exact absurd (List.cons.inj hload).1 hab

end

/-! ## A round -/

section
variable {e : Endian} {buf : Bytes} {dir : CStr} {ofs : Nat} {s : Scan}

theorem isTarget_isSome (hpino : ofs + 16 ≤ buf.length) :
    (isTarget e buf dir ofs).isSome = true ↔
      (dir.bytes ≠ [] → word32 e buf (ofs + 12) = 1 → ofs + 28 < buf.length ∧
        ∀ i < (buf.getD (ofs + 28) 0).toNat, i ≤ dir.length →
          load buf (ofs + 40) i = dir.bytes.take i → ofs + 40 + i < buf.length) := by
  rw [isTarget]
  by_cases hdir : dir.bytes ≠ []
  swap
  · rw [if_neg hdir]
    exact iff_of_true rfl fun h => absurd h hdir
  rw [if_pos hdir, peek32_some hpino]
  change Option.isSome (if word32 e buf (ofs + 12) = 1 then _ else _) = true ↔ _
  by_cases hroot : word32 e buf (ofs + 12) = 1
  swap
  · rw [if_neg hroot]
    exact iff_of_true rfl fun _ h => absurd h hroot
  rw [if_pos hroot]
  by_cases hsize : ofs + 28 < buf.length
  · rw [List.getElem?_eq_getElem hsize, List.getD_eq_getElem _ _ hsize]
    refine (strncmpAt_isSome dir.nulFree).trans ⟨fun h _ _ => ⟨hsize, h⟩, fun h => (h hdir hroot).2⟩
  · rw [List.getElem?_eq_none (Nat.not_lt.mp hsize)]
    exact iff_of_false Bool.false_ne_true fun h => hsize (h hdir hroot).1

theorem noteDirent_isSome :
    (noteDirent e buf dir ofs s).isSome = true ↔ EntryFits e buf dir ofs := by
  rw [noteDirent]
  by_cases hmem : ofs + 24 ≤ buf.length
  · rw [peek32_some (by omega : ofs + 20 + 4 ≤ buf.length),
      peek32_some (by omega : ofs + 16 + 4 ≤ buf.length)]
    have hpino : ofs + 16 ≤ buf.length := by omega
    have hname := @isTarget_isSome e buf dir ofs hpino
    cases hfound : isTarget e buf dir ofs with
    | none =>
      rw [hfound] at hname
      exact iff_of_false Bool.false_ne_true fun h => Bool.false_ne_true (hname.mpr h.name)
    | some found =>
      rw [hfound] at hname
      exact iff_of_true rfl ⟨hmem, hname.mp rfl⟩
  · refine iff_of_false ?_ fun h => hmem h.members
    rw [peek32_none (by omega : ¬ ofs + 20 + 4 ≤ buf.length)]
    cases isTarget e buf dir ofs <;> exact Bool.false_ne_true

/-- Where the next node starts. -/
def nextOfs (e : Endian) (buf : Bytes) (ofs : Nat) : Nat :=
  (ofs + padWord (word32 e buf (ofs + 4))) % 2 ^ 32

theorem parseNode_eq (h : ofs + 8 ≤ buf.length) :
    parseNode e buf dir ofs s =
      if word16 e buf (ofs + 2) = jffs2NodetypeDirent then
        (noteDirent e buf dir ofs s).map (.next (nextOfs e buf ofs))
      else some (.next (nextOfs e buf ofs) s) := by
  rw [parseNode, peek32_some (by omega : ofs + 4 + 4 ≤ buf.length),
    peek16_some (by omega : ofs + 2 + 2 ≤ buf.length)]
  rfl

theorem parseNode_none (h : ¬ ofs + 8 ≤ buf.length) : parseNode e buf dir ofs s = none := by
  rw [parseNode, peek32_none (by omega : ¬ ofs + 4 + 4 ≤ buf.length)]
  rfl

theorem parseNode_isSome : (parseNode e buf dir ofs s).isSome = true ↔
    ofs + 8 ≤ buf.length ∧
      (word16 e buf (ofs + 2) = jffs2NodetypeDirent → EntryFits e buf dir ofs) := by
  by_cases h : ofs + 8 ≤ buf.length
  · rw [parseNode_eq h, and_iff_right h]
    split
    · next hentry =>
      rw [Option.isSome_map, noteDirent_isSome]
      exact ⟨fun hfits _ => hfits, fun hfits => hfits hentry⟩
    · next hother => exact iff_of_true rfl fun hentry => absurd hentry hother
  · rw [parseNode_none h]
    exact iff_of_false Bool.false_ne_true fun hfits => h hfits.1

theorem parseNode_next {r : Round Nat Scan} (h : parseNode e buf dir ofs s = some r) :
    ∃ t, r = .next (nextOfs e buf ofs) t := by
  by_cases hheader : ofs + 8 ≤ buf.length
  swap
  · rw [parseNode_none hheader] at h
    cases h
  rw [parseNode_eq hheader] at h
  split at h
  · obtain ⟨t, -, rfl⟩ := Option.map_eq_some_iff.mp h
    exact ⟨t, rfl⟩
  · exact ⟨s, (Option.some.inj h).symm⟩

instance decidableNodeAt (e : Endian) (buf : Bytes) (ofs : Nat) : Decidable (NodeAt e buf ofs) :=
  inferInstanceAs (Decidable (_ ∧ _))

theorem parseRound_eq (h : ofs < buf.length → ofs + 2 ≤ buf.length) :
    parseRound e buf dir ofs s =
      if NodeAt e buf ofs then parseNode e buf dir ofs s else some (.stop s) := by
  rw [parseRound]
  by_cases hofs : ofs < buf.length
  · rw [if_pos hofs, peek16_some (h hofs)]
    change (if word16 e buf ofs = jffs2MagicBitmask then _ else _) = _
    exact if_congr ⟨fun hm => ⟨hofs, hm⟩, And.right⟩ rfl rfl
  · rw [if_neg hofs, if_neg fun hnode => hofs hnode.1]

theorem parseRound_none (hofs : ofs < buf.length) (h : ¬ ofs + 2 ≤ buf.length) :
    parseRound e buf dir ofs s = none := by
  rw [parseRound, if_pos hofs, peek16_none h]
  rfl

theorem parseRound_isSome :
    (parseRound e buf dir ofs s).isSome = true ↔ NodeFits e buf dir ofs := by
  by_cases hmagic : ofs < buf.length → ofs + 2 ≤ buf.length
  swap
  · obtain ⟨hofs, hbad⟩ := Classical.not_imp.mp hmagic
    rw [parseRound_none hofs hbad]
    exact iff_of_false Bool.false_ne_true fun h => hmagic h.magic
  rw [parseRound_eq hmagic]
  by_cases hnode : NodeAt e buf ofs
  · rw [if_pos hnode, parseNode_isSome]
    exact ⟨fun h => ⟨hmagic, fun _ => h.1, fun _ => h.2⟩,
      fun h => ⟨h.header hnode, h.entry hnode⟩⟩
  · rw [if_neg hnode]
    exact iff_of_true rfl ⟨hmagic, fun h => absurd h hnode, fun h => absurd h hnode⟩

/-- A round stops where there is no node, and goes on to the next node else. -/
theorem parseRound_cases {r : Round Nat Scan} (h : parseRound e buf dir ofs s = some r) :
    (r = .stop s ∧ ¬ NodeAt e buf ofs) ∨
      (NodeAt e buf ofs ∧ ∃ t, r = .next (nextOfs e buf ofs) t) := by
  have hfits := parseRound_isSome.mp (Option.isSome_iff_exists.mpr ⟨r, h⟩)
  rw [parseRound_eq hfits.magic] at h
  by_cases hnode : NodeAt e buf ofs
  · rw [if_pos hnode] at h
    exact .inr ⟨hnode, parseNode_next h⟩
  · rw [if_neg hnode] at h
    exact .inl ⟨(Option.some.inj h).symm, hnode⟩

theorem follows (e : Endian) (buf : Bytes) (dir : CStr) :
    Follows (parseRound e buf dir) (Link e buf) (NodeFits e buf dir) where
  safe := fun _ _ => parseRound_isSome
  links := by
    intro ofs s next t h
    obtain ⟨hstop, -⟩ | ⟨hnode, u, hnext⟩ := parseRound_cases h
    · cases hstop
    · cases hnext
      exact ⟨hnode, rfl⟩
  stops := by
    intro ofs s t h next hlink
    obtain ⟨-, hno⟩ | ⟨-, u, hnext⟩ := parseRound_cases h
    · exact hno hlink.1
    · cases hnext
  unique := by
    rintro ofs a b ⟨-, rfl⟩ ⟨-, rfl⟩
    rfl

/-- Links start inside the block. -/
theorem finite_links (e : Endian) (buf : Bytes) : {ofs | ∃ next, Link e buf ofs next}.Finite :=
  (Set.finite_lt_nat buf.length).subset fun _ ⟨_, hlink⟩ => hlink.1.1

end

/-! ## The scan of the appending -/

section
variable {e : Endian} {buf : Bytes} {dir : CStr} {ofs : Nat} {s : Scan}

/-- A name that lies in the block. -/
theorem strncmpAt_eq {bs : Bytes} (hbs : (0 : UInt8) ∉ bs) {off n : Nat} (h :
    off + n ≤ buf.length) :
    strncmpAt buf off (bs ++ [0]) n = some (strncmpEq (load buf off n) (bs ++ [0]) n) := by
  induction bs generalizing off n with
  | nil =>
    cases n with
    | zero => rfl
    | succ n =>
      have hoff : off < buf.length := by omega
      rw [List.nil_append, strncmpAt, List.getElem?_eq_getElem hoff, load_succ hoff, strncmpEq_cons]
      dsimp only
      by_cases ha : buf[off] = 0
      · rw [if_neg (not_not.mpr ha), if_neg (not_not.mpr ha), if_pos ha, if_pos ha]
      · rw [if_pos ha, if_pos ha]
  | cons b bs ih =>
    obtain ⟨hb, hbs⟩ := List.ne_and_not_mem_of_not_mem_cons hbs
    cases n with
    | zero => rfl
    | succ n =>
      have hoff : off < buf.length := by omega
      rw [List.cons_append, strncmpAt, List.getElem?_eq_getElem hoff, load_succ hoff,
        strncmpEq_cons, ih hbs (by omega)]
      dsimp only
      by_cases hab : buf[off] = b
      · rw [if_neg (not_not.mpr hab), if_neg (not_not.mpr hab), if_neg (hab ▸ Ne.symm hb),
          if_neg (hab ▸ Ne.symm hb)]
      · rw [if_pos hab, if_pos hab]

theorem noteDirent_eq {de : Dirent} (h : readDirent e buf ofs = some de) :
    noteDirent e buf dir ofs s = some (Mtd.noteDirent dir s de) := by
  rw [readDirent] at h
  by_cases hfit : ofs + 40 + ((buf.drop (ofs + 28)).headD 0).toNat ≤ buf.length
  swap
  · rw [if_neg hfit] at h
    cases h
  rw [if_pos hfit] at h
  obtain rfl := Option.some.inj h
  have hsize : ofs + 28 < buf.length := by omega
  rw [List.drop_eq_getElem_cons hsize, List.headD_cons] at hfit
  have hfound : isTarget e buf dir ofs = some (decide (dir.bytes ≠ [] ∧
      word32 e buf (ofs + 12) = 1 ∧
        strncmpEq (load buf (ofs + 40) buf[ofs + 28].toNat) dir.stored buf[ofs + 28].toNat)) := by
    rw [isTarget]
    by_cases hdir : dir.bytes ≠ []
    swap
    · rw [if_neg hdir, decide_eq_false fun h => hdir h.1]
    rw [if_pos hdir, peek32_some (by omega : ofs + 12 + 4 ≤ buf.length)]
    change (if word32 e buf (ofs + 12) = 1 then _ else _) = _
    by_cases hroot : word32 e buf (ofs + 12) = 1
    swap
    · rw [if_neg hroot, decide_eq_false fun h => hroot h.2.1]
    rw [if_pos hroot, List.getElem?_eq_getElem hsize]
    change strncmpAt buf (ofs + 40) (dir.bytes ++ [0]) _ = _
    rw [strncmpAt_eq dir.nulFree hfit]
    refine congrArg some (Bool.eq_iff_iff.mpr ?_)
    rw [decide_eq_true_eq, and_iff_right hdir, and_iff_right hroot]
    rfl
  rw [noteDirent, hfound, peek32_some (by omega : ofs + 20 + 4 ≤ buf.length),
    peek32_some (by omega : ofs + 16 + 4 ≤ buf.length), Mtd.noteDirent,
    List.drop_eq_getElem_cons hsize, List.headD_cons, length_load hfit]
  refine congrArg some ?_
  simp only [decide_eq_true_eq]

/-- Where the scan of the appending ends, no check fails. -/
theorem checked_of_parse {c : Chip} (hlen : c.erasesize = buf.length) (hdvd : 4 ∣ buf.length)
    {fuel : Nat} {t : Scan} (hofs : 4 ∣ ofs)
    (h : Mtd.mtdParseJffs2data e c dir buf fuel ofs s = some t) :
    loop (parseRound e buf dir) fuel ofs s = some t := by
  induction fuel generalizing ofs s with
  | zero => cases h
  | succ fuel ih =>
    have hmagic : ofs < buf.length → ofs + 2 ≤ buf.length := by omega
    rw [loop, parseRound_eq hmagic]
    rw [Mtd.mtdParseJffs2data, hlen] at h
    by_cases hnode : NodeAt e buf ofs
    swap
    · have hstop : buf.length ≤ ofs ∨ word16 e buf ofs ≠ jffs2MagicBitmask := by
        by_contra hno
        obtain ⟨hin, hm⟩ := not_or.mp hno
        exact hnode ⟨Nat.not_le.mp hin, not_not.mp hm⟩
      rw [if_pos hstop] at h
      rw [if_neg hnode]
      exact h
    have hgo : ¬ (buf.length ≤ ofs ∨ word16 e buf ofs ≠ jffs2MagicBitmask) := fun hstop =>
      hstop.elim (Nat.not_le.mpr hnode.1) (absurd hnode.2)
    rw [if_neg hgo] at h
    by_cases hheader : ofs + 8 ≤ buf.length
    swap
    · rw [if_pos (Nat.not_le.mp hheader)] at h
      cases h
    rw [if_neg (Nat.not_lt.mpr hheader)] at h
    rw [if_pos hnode, parseNode_eq hheader]
    have hnext : 4 ∣ nextOfs e buf ofs := by
      have hpad : 4 ∣ padWord (word32 e buf (ofs + 4)) := Nat.dvd_mul_left ..
      exact (Nat.dvd_mod_iff (by decide)).mpr (Nat.dvd_add hofs hpad)
    by_cases hentry : word16 e buf (ofs + 2) = jffs2NodetypeDirent
    · rw [if_pos hentry]
      dsimp only at h
      rw [if_pos hentry] at h
      cases hread : readDirent e buf ofs with
      | none =>
        rw [hread] at h
        cases h
      | some de =>
        rw [hread] at h
        rw [noteDirent_eq hread]
        exact ih hnext h
    · rw [if_neg hentry]
      dsimp only at h
      rw [if_neg hentry] at h
      exact ih hnext h

end

/-- **When the scan of a block ends inside it.** -/
theorem parse_ends_iff (e : Endian) (buf : Bytes) (dir : CStr) (s : Scan) :
    (∃ fuel t, mtdParseJffs2data e buf dir fuel s = some t) ↔ Scannable e buf dir :=
  ((follows e buf dir).ends_iff (finite_links e buf) 0 s).trans
    ⟨fun h => ⟨h.1, h.2⟩, fun h => ⟨h.no_cycle, h.fits⟩⟩

/-- A block of 4096 bytes whose first node has the length 0. -/
def zeroNode : Bytes := [0x85, 0x19, 0x03, 0x20, 0, 0, 0, 0] ++ List.replicate 4088 0xff

theorem zeroNode_link : Link .little zeroNode 0 0 := by
  have hlen : 0 < zeroNode.length := by
    rw [zeroNode, List.length_append, List.length_cons]
    omega
  exact ⟨⟨hlen, rfl⟩, rfl⟩

/-- The scan stays at that node. -/
theorem not_parse_ends : ¬ ∀ (e : Endian) (buf : Bytes) (dir : CStr) (s : Scan),
    ∃ fuel t, mtdParseJffs2data e buf dir fuel s = some t := by
  intro h
  obtain ⟨fuel, t, hrun⟩ := h .little zeroNode CStr.empty (startScan CStr.empty)
  obtain ⟨hends, -⟩ := (follows .little zeroNode CStr.empty).ends hrun
  exact hends.no_cycle (.single zeroNode_link)

end UolaOs.Mtd.Walk
