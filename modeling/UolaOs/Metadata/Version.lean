import UolaOs.Lib.Bytes
import UolaOs.Lib.CString
import Mathlib.Data.Nat.Bitwise

/-!
# Version tags

`version_to_num` and `version_filter_list` of package-metadata.pl.

* `findTag`: what the pattern for a tag matches first;
* `pack`: a version as one integer, and `spill`: its four bytes, where a component above 255 runs
  into those before it;
* `versionFilter_iff`: when the filter follows the order of versions.
-/

namespace UolaOs.Metadata

def dot : UInt8 := 0x2e

def atSign : UInt8 := 0x40

/-- `\d` -/
def isDigit (c : UInt8) : Bool := 48 ≤ c && c ≤ 57

/-- `\w` -/
def isWord (c : UInt8) : Bool :=
  isDigit c || (65 ≤ c && c ≤ 90) || (97 ≤ c && c ≤ 122) || c == 0x5f

/-- `\d+` -/
def IsDigits (d : Bytes) : Prop := d ≠ [] ∧ ∀ c ∈ d, isDigit c = true

instance (d : Bytes) : Decidable (IsDigits d) := inferInstanceAs (Decidable (_ ∧ _))

/-- The number that digits say. -/
def number (d : Bytes) : Nat := d.foldl (fun n c => 10 * n + (c.toNat - 48)) 0

/-! ## Versions as integers -/

/-- The integers of a perl. -/
structure Uv where
  bits : Nat
  wide : 32 ≤ bits

section
variable (w : Uv)

/-- `$n[$i]` as an integer: a number that is too large is the largest one. -/
def component (comps : List Nat) (i : Nat) : Nat := min (comps.getD i 0) (2 ^ w.bits - 1)

/-- The shifts and the bitwise or of `version_to_num`. -/
def pack (comps : List Nat) : Nat :=
  (component w comps 0 <<< 24) % 2 ^ w.bits ||| (component w comps 1 <<< 16) % 2 ^ w.bits |||
    (component w comps 2 <<< 8) % 2 ^ w.bits ||| component w comps 3

/-- A newline that `$` passes over. -/
def chompLine (s : Bytes) : Bytes := if s.getLast? = some 0x0a then s.dropLast else s

/-- `version_to_num` -/
def versionToNum (str : Option Bytes) : Nat :=
  match str with
  | none => 0
  | some s =>
    let parts := (chompLine s).splitOn dot
    if 2 ≤ parts.length ∧ ∀ d ∈ parts, IsDigits d then pack w (parts.map number) else 0

end

/-! ## Tags -/

inductive Op where
  | lt
  | le
  | gt
  | ge
  | eq
  | ne
  deriving DecidableEq

def Op.all : List Op := [.lt, .le, .gt, .ge, .eq, .ne]

def Op.text : Op → Bytes
  | .lt => ascii "lt"
  | .le => ascii "le"
  | .gt => ascii "gt"
  | .ge => ascii "ge"
  | .eq => ascii "eq"
  | .ne => ascii "ne"

/-- The comparison of `version_filter_list`. -/
def Op.test (op : Op) (cmpver symver : Nat) : Bool :=
  match op with
  | .lt => cmpver < symver
  | .le => cmpver ≤ symver
  | .gt => symver < cmpver
  | .ge => symver ≤ cmpver
  | .eq => cmpver == symver
  | .ne => cmpver != symver

/-- `\b` behind a digit. -/
def boundary (s : Bytes) : Bool := !(s.head?.any isWord)

/-- `(?:\.\d+)*\b` behind a digit: the length of what is matched, with at most `n` groups. A group
takes all of its digits, since neither a dot nor a boundary is in front of a digit. -/
def matchGroups : Nat → Bytes → Option Nat
  | 0, s => if boundary s = true then some 0 else none
  | n + 1, s =>
    let d := s.tail.takeWhile isDigit
    if s.head? = some dot ∧ d ≠ [] then
      ((matchGroups n (s.tail.drop d.length)).map (1 + d.length + ·)).or
        (if boundary s = true then some 0 else none)
    else if boundary s = true then some 0 else none

/-- `\d+(?:\.\d+)+\b` -/
def matchVersion (s : Bytes) : Option Nat :=
  let n := (s.takeWhile isDigit).length
  let d := (s.drop (n + 1)).takeWhile isDigit
  if 0 < n ∧ (s.drop n).head? = some dot ∧ d ≠ [] then
    (matchGroups s.length (s.drop (n + 1 + d.length))).map (n + 1 + d.length + ·)
  else none

/-- The pattern at the start of a string: the operator, the version, and what comes behind. -/
def matchTag (s : Bytes) : Option (Op × Bytes × Bytes) :=
  if s.head? = some atSign then
    (Op.all.find? fun op => op.text.isPrefixOf s.tail).bind fun op =>
      (matchVersion (s.drop 3)).map fun k => (op, (s.drop 3).take k, s.drop (3 + k))
  else none

/-- What a match says of a string. -/
structure Match where
  before : Bytes
  op : Op
  version : Bytes
  behind : Bytes

/-- The first match. -/
def findTag : Bytes → Option Match
  | [] => none
  | c :: s =>
    match matchTag (c :: s) with
    | some (op, version, behind) => some ⟨[], op, version, behind⟩
    | none => (findTag s).map fun m => { m with before := c :: m.before }

section
variable (w : Uv)

/-- One item of `version_filter_list`, `none` when it is left out. -/
def versionFilterItem (cmpver : Nat) (item : Bytes) : Option Bytes :=
  match findTag item with
  | none => some item
  | some m =>
    let symver := versionToNum w (some m.version)
    if 0 < symver ∧ 0 < cmpver ∧ m.op.test cmpver symver = false then none
    else some (m.before ++ m.behind)

/-- `version_filter_list` -/
def versionFilterList (patchver : Option Bytes) (items : List Bytes) : List Bytes :=
  items.filterMap (versionFilterItem w (versionToNum w patchver))

end

/-! ## What the filter is to do -/

/-- A dotted version of two to four components, which are not all zero. -/
structure Version where
  parts : List Bytes
  two_le : 2 ≤ parts.length
  le_four : parts.length ≤ 4
  digits : ∀ d ∈ parts, IsDigits d
  nonzero : ∃ d ∈ parts, number d ≠ 0

namespace Version

variable (v : Version)

def text : Bytes := [dot].intercalate v.parts

def comps : List Nat := v.parts.map number

end Version

/-- Component by component, where a missing one is zero. -/
def compareParts : List Nat → List Nat → Ordering
  | [], bs => bs.foldr (fun b o => (compare 0 b).then o) .eq
  | a :: as, bs => (compare a (bs.headD 0)).then (compareParts as bs.tail)

/-- What an operator says of two versions. -/
def Op.holds (op : Op) (o : Ordering) : Bool :=
  match op with
  | .lt => o == .lt
  | .le => o != .gt
  | .gt => o == .gt
  | .ge => o != .lt
  | .eq => o == .eq
  | .ne => o != .eq

/-- A version in a string, of any number of components. -/
def IsVersion (s : Bytes) : Prop :=
  ∃ parts : List Bytes, 2 ≤ parts.length ∧ (∀ d ∈ parts, IsDigits d) ∧ s = [dot].intercalate parts

/-- There is a tag in a string. -/
structure TagAt (item before : Bytes) (op : Op) (version behind : Bytes) : Prop where
  text : item = before ++ atSign :: (op.text ++ version ++ behind)
  version : IsVersion version
  ended : boundary behind = true

def itemText (before : Bytes) (tag : Option (Op × Version)) (behind : Bytes) : Bytes :=
  before ++ tag.elim behind fun t => atSign :: (t.1.text ++ t.2.text ++ behind)

/-- An item with at most one tag. -/
structure Item where
  before : Bytes
  tag : Option (Op × Version)
  behind : Bytes
  ended : tag.isSome = true → boundary behind = true
  only : ∀ before' op version behind',
    TagAt (itemText before tag behind) before' op version behind' →
    ∃ t, tag = some t ∧ before' = before ∧ version.length ≤ t.2.text.length

namespace Item

variable (i : Item) (p : Version)

def text : Bytes := itemText i.before i.tag i.behind

/-- The item without its tag. -/
def stripped : Bytes := i.before ++ i.behind

/-- There is no tag, or it holds. -/
def holds : Bool := i.tag.all fun t => t.1.holds (compareParts p.comps t.2.comps)

end Item

/-- The filter keeps the items that have no tag or one that holds, without their tags. -/
structure Filters (w : Uv) (p : Version) (items : List Item) : Prop where
  each : ∀ i ∈ items, versionFilterItem w (versionToNum w (some p.text)) i.text =
    if i.holds p = true then some i.stripped else none
  all : versionFilterList w (some p.text) (items.map Item.text) =
    (items.filter fun i => i.holds p).map Item.stripped

/-- The bytes of a version, where the upper bits of each component are added to those before. -/
def spill (w : Uv) (comps : List Nat) : List Nat :=
  [(component w comps 0 ||| component w comps 1 >>> 8 ||| component w comps 2 >>> 16 |||
      component w comps 3 >>> 24) % 2 ^ (w.bits - 24),
    (component w comps 1 ||| component w comps 2 >>> 8 ||| component w comps 3 >>> 16) % 2 ^ 8,
    (component w comps 2 ||| component w comps 3 >>> 8) % 2 ^ 8,
    component w comps 3 % 2 ^ 8]

/-- What is added to a component does not change what an operator says. -/
def Agrees (w : Uv) (p : Version) (op : Op) (u : Version) : Prop :=
  (spill w p.comps = [0, 0, 0, 0] ∨ spill w u.comps = [0, 0, 0, 0] ∨
    op.holds (compareParts (spill w p.comps) (spill w u.comps)) = true) ↔
    op.holds (compareParts p.comps u.comps) = true

/-! ## The bytes of a packed version -/

section
variable {w : Uv}

theorem component_lt (w : Uv) (comps : List Nat) (i : Nat) : component w comps i < 2 ^ w.bits := by
  have hpos := Nat.two_pow_pos w.bits
  rw [component]
  omega

/-- What is written bit by bit. -/
theorem pack_eq_or (comps : List Nat) :
    pack w comps =
      ((((component w comps 0 ||| component w comps 1 >>> 8 ||| component w comps 2 >>> 16 |||
        component w comps 3 >>> 24) % 2 ^ (w.bits - 24)) <<< 8 |||
        (component w comps 1 ||| component w comps 2 >>> 8 ||| component w comps 3 >>> 16) %
          2 ^ 8) <<< 8 |||
        (component w comps 2 ||| component w comps 3 >>> 8) % 2 ^ 8) <<< 8 |||
        component w comps 3 % 2 ^ 8 := by
  have hwide := w.wide
  have hlast : component w comps 3 = component w comps 3 % 2 ^ w.bits :=
    (Nat.mod_eq_of_lt (component_lt w comps 3)).symm
  rw [pack]
  generalize component w comps 0 = n0
  generalize component w comps 1 = n1
  generalize component w comps 2 = n2
  generalize component w comps 3 = n3 at hlast ⊢
  rw [hlast]
  apply Nat.eq_of_testBit_eq
  intro i
  simp only [Nat.testBit_or, Nat.testBit_shiftLeft, Nat.testBit_mod_two_pow, Nat.testBit_shiftRight]
  -- the byte that the bit is in
  obtain h | ⟨j, hj, rfl⟩ | ⟨j, hj, rfl⟩ | ⟨j, rfl⟩ :
      i < 8 ∨ (∃ j < 8, i = 8 + j) ∨ (∃ j < 8, i = 16 + j) ∨ ∃ j, i = 24 + j := by
    by_cases h8 : i < 8
    · exact .inl h8
    by_cases h16 : i < 16
    · exact .inr (.inl ⟨i - 8, by omega, by omega⟩)
    by_cases h24 : i < 24
    · exact .inr (.inr (.inl ⟨i - 16, by omega, by omega⟩))
    · exact .inr (.inr (.inr ⟨i - 24, by omega⟩))
  · have h0 : i < w.bits := by omega
    have h1 : ¬ 8 ≤ i := by omega
    have h2 : ¬ 16 ≤ i := by omega
    have h3 : ¬ 24 ≤ i := by omega
    simp [h, h0, h1, h2, h3]
  · have h0 : 8 + j < w.bits := by omega
    have h1 : ¬ 8 ≤ j := by omega
    have h2 : ¬ 16 ≤ 8 + j := by omega
    have h3 : ¬ 24 ≤ 8 + j := by omega
    simp [hj, h0, h1, h2, h3]
  · have h0 : 16 + j < w.bits := by omega
    have h1 : 16 + j - 8 = 8 + j := by omega
    have h3 : ¬ 24 ≤ 16 + j := by omega
    have h4 : 8 ≤ 16 + j := by omega
    have h5 : ¬ 8 ≤ j := by omega
    have h6 : ¬ 16 + j < 8 := by omega
    simp [hj, h0, h1, h3, h4, h5, h6]
  · have h1 : 24 + j - 16 = 8 + j := by omega
    have h2 : 24 + j - 8 = 16 + j := by omega
    have h3 : 8 ≤ 24 + j := by omega
    have h4 : 16 ≤ 24 + j := by omega
    have h5 : 16 + j - 8 = 8 + j := by omega
    have h6 : 8 ≤ 16 + j := by omega
    have h7 : j < w.bits - 24 ↔ 24 + j < w.bits := by omega
    have h8 : ¬ 16 + j < 8 := by omega
    have h9 : ¬ 24 + j < 8 := by omega
    by_cases hw : 24 + j < w.bits
    · simp [h1, h2, h3, h4, h5, h6, h7, h8, h9, hw]
    · simp [h1, h2, h3, h4, h5, h6, h7, h8, h9, hw]

/-- A list of four bytes, where the first one may be larger. -/
def joinBytes : List Nat → Nat := List.foldl (fun n b => n * 2 ^ 8 + b) 0

theorem shift_or {n b : Nat} (h : b < 2 ^ 8) : n <<< 8 ||| b = n * 2 ^ 8 + b := by
  rw [← Nat.shiftLeft_add_eq_or_of_lt h, Nat.shiftLeft_eq]

theorem pack_eq (comps : List Nat) : pack w comps = joinBytes (spill w comps) := by
  have hlt (n : Nat) : n % 2 ^ 8 < 2 ^ 8 := Nat.mod_lt _ (by decide)
  rw [pack_eq_or, shift_or (hlt _), shift_or (hlt _), shift_or (hlt _), spill, joinBytes]
  simp only [List.foldl_cons, List.foldl_nil, Nat.zero_mul, Nat.zero_add]

/-! ## The order of versions -/

theorem compare_step {a b x y : Nat} (hx : x < 2 ^ 8) (hy : y < 2 ^ 8) :
    compare (a * 2 ^ 8 + x) (b * 2 ^ 8 + y) = (compare a b).then (compare x y) := by
  rcases Nat.lt_trichotomy a b with h | rfl | h
  · rw [Nat.compare_eq_lt.mpr h, Nat.compare_eq_lt.mpr (by omega)]
    rfl
  · rw [Nat.compare_eq_eq.mpr rfl, Ordering.then]
    rcases Nat.lt_trichotomy x y with h | rfl | h
    · rw [Nat.compare_eq_lt.mpr h, Nat.compare_eq_lt.mpr (by omega)]
    · rw [Nat.compare_eq_eq.mpr rfl, Nat.compare_eq_eq.mpr rfl]
    · rw [Nat.compare_eq_gt.mpr h, Nat.compare_eq_gt.mpr (by omega)]
  · rw [Nat.compare_eq_gt.mpr h, Nat.compare_eq_gt.mpr (by omega)]
    rfl

/-- Packed versions compare like their bytes. -/
theorem compare_pack (v u : List Nat) :
    compare (pack w v) (pack w u) = compareParts (spill w v) (spill w u) := by
  have hlt (n : Nat) : n % 2 ^ 8 < 2 ^ 8 := Nat.mod_lt _ (by decide)
  rw [pack_eq, pack_eq]
  simp only [spill, joinBytes, List.foldl_cons, List.foldl_nil, compareParts, List.headD_cons,
    List.tail_cons, List.foldr_nil]
  rw [compare_step (hlt _) (hlt _), compare_step (hlt _) (hlt _), compare_step (hlt _) (hlt _),
    Nat.zero_mul, Nat.zero_add, Nat.zero_add, Ordering.then_assoc, Ordering.then_assoc,
    Ordering.then_eq]

theorem pack_pos_iff (v : List Nat) : 0 < pack w v ↔ spill w v ≠ [0, 0, 0, 0] := by
  rw [pack_eq]
  simp only [spill, joinBytes, List.foldl_cons, List.foldl_nil, ne_eq, List.cons.injEq, and_true]
  omega

theorem Op.test_eq (op : Op) (a b : Nat) : op.test a b = op.holds (compare a b) := by
  rcases Nat.lt_trichotomy a b with h | rfl | h
  · rw [Nat.compare_eq_lt.mpr h]
    cases op <;> simp [Op.test, Op.holds, bne, h, h.le, h.ne]
  · rw [Nat.compare_eq_eq.mpr rfl]
    cases op <;> simp [Op.test, Op.holds]
  · rw [Nat.compare_eq_gt.mpr h]
    cases op <;> simp [Op.test, Op.holds, bne, h, h.le, h.ne']

/-- Without components above 255 (the first one may be larger) nothing is added to any. -/
theorem spill_of_small {v : List Nat} (h0 : v.getD 0 0 < 2 ^ (w.bits - 24))
    (h1 : v.getD 1 0 < 2 ^ 8) (h2 : v.getD 2 0 < 2 ^ 8) (h3 : v.getD 3 0 < 2 ^ 8) :
    spill w v = [v.getD 0 0, v.getD 1 0, v.getD 2 0, v.getD 3 0] := by
  have hwide := w.wide
  have hsmall : 2 ^ 8 ≤ 2 ^ w.bits := Nat.pow_le_pow_right (by decide) (by omega)
  have hlarge : 2 ^ (w.bits - 24) ≤ 2 ^ w.bits := Nat.pow_le_pow_right (by decide) (by omega)
  have hcomp {i : Nat} (h : v.getD i 0 < 2 ^ w.bits) : component w v i = v.getD i 0 :=
    Nat.min_eq_left (by omega)
  have hshift {n k : Nat} (hk : 8 ≤ k) (h : n < 2 ^ 8) : n >>> k = 0 := by
    rw [Nat.shiftRight_eq_div_pow]
    exact Nat.div_eq_of_lt (h.trans_le (Nat.pow_le_pow_right (by decide) hk))
  rw [spill, hcomp (h0.trans_le hlarge), hcomp (h1.trans_le hsmall), hcomp (h2.trans_le hsmall),
    hcomp (h3.trans_le hsmall), hshift (Nat.le_refl _) h1, hshift (by decide) h2,
    hshift (by decide) h3, hshift (Nat.le_refl _) h2, hshift (by decide) h3,
    hshift (Nat.le_refl _) h3]
  simp only [Nat.or_zero, Nat.mod_eq_of_lt h0, Nat.mod_eq_of_lt h1, Nat.mod_eq_of_lt h2,
    Nat.mod_eq_of_lt h3]

end

/-! ## What the pattern matches -/

section
variable {s item rest : Bytes} {n k : Nat} {ds : List Bytes} {op : Op}

/-- Digits, each group behind a dot. -/
def groups (ds : List Bytes) : Bytes := ds.flatMap (dot :: ·)

theorem groups_cons (d : Bytes) (ds : List Bytes) :
    groups (d :: ds) = dot :: (d ++ groups ds) := rfl

theorem length_le_groups (ds : List Bytes) : ds.length ≤ (groups ds).length := by
  induction ds with
  | nil => exact Nat.zero_le _
  | cons d ds ih =>
    rw [groups_cons, List.length_cons, List.length_cons, List.length_append]
    omega

theorem intercalate_cons (d : Bytes) (ds : List Bytes) :
    [dot].intercalate (d :: ds) = d ++ groups ds := by
  induction ds generalizing d with
  | nil => simp [groups]
  | cons e ds ih =>
    rw [List.intercalate_cons_cons, ih, groups_cons]
    simp

theorem isVersion_iff : IsVersion s ↔ ∃ d ds, ds ≠ [] ∧ IsDigits d ∧ (∀ d ∈ ds, IsDigits d) ∧
    s = d ++ groups ds := by
  constructor
  · rintro ⟨parts, hlength, hdigits, rfl⟩
    cases parts with
    | nil => exact absurd hlength (by decide)
    | cons d ds =>
      rw [List.forall_mem_cons] at hdigits
      refine ⟨d, ds, ?_, hdigits.1, hdigits.2, intercalate_cons d ds⟩
      rintro rfl
      exact absurd hlength (by simp)
  · rintro ⟨d, ds, hne, hd, hds, rfl⟩
    refine ⟨d :: ds, ?_, List.forall_mem_cons.mpr ⟨hd, hds⟩, (intercalate_cons d ds).symm⟩
    have := List.length_pos_iff.mpr hne
    rw [List.length_cons]
    omega

theorem isDigit_dot : isDigit dot = false := by decide

theorem isWord_of_isDigit {c : UInt8} (h : isDigit c = true) : isWord c = true := by
  rw [isWord, h]
  rfl

/-- Nothing that goes on with a digit is behind a boundary. -/
theorem takeWhile_boundary {d : Bytes} (hd : IsDigits d) (h : boundary rest = true) :
    (d ++ rest).takeWhile isDigit = d := by
  rw [List.takeWhile_append_of_pos hd.2]
  cases rest with
  | nil => simp
  | cons c rest =>
    have hc : isDigit c = false := by
      by_contra hdigit
      have hword := isWord_of_isDigit ((Bool.not_eq_false _).mp hdigit)
      simp [boundary, hword] at h
    rw [List.takeWhile_cons_of_neg (by simp [hc]), List.append_nil]

theorem boundary_dot (s : Bytes) : boundary (dot :: s) = true := by
  have hdot : isWord dot = false := by decide
  simp [boundary, hdot]

theorem boundary_groups (h : boundary rest = true) (ds : List Bytes) :
    boundary (groups ds ++ rest) = true := by
  cases ds with
  | nil => exact h
  | cons d ds => exact boundary_dot _

theorem isDigits_takeWhile (h : s.takeWhile isDigit ≠ []) : IsDigits (s.takeWhile isDigit) :=
  ⟨h, fun _ hc => List.mem_takeWhile_imp hc⟩

theorem takeWhile_append_drop (s : Bytes) :
    s.takeWhile isDigit ++ s.drop (s.takeWhile isDigit).length = s := by
  induction s with
  | nil => rfl
  | cons c s ih =>
    by_cases hc : isDigit c = true
    · rw [List.takeWhile_cons_of_pos hc, List.length_cons, List.drop_succ_cons, List.cons_append,
      ih]
    · rw [List.takeWhile_cons_of_neg hc]
      rfl

theorem matchGroups_sound (h : matchGroups n s = some k) :
    ∃ ds rest, (∀ d ∈ ds, IsDigits d) ∧ s = groups ds ++ rest ∧ k = (groups ds).length ∧
      boundary rest = true := by
  have hnone {s : Bytes} {k : Nat} (h : (if boundary s = true then some 0 else none) = some k) :
      ∃ ds rest, (∀ d ∈ ds, IsDigits d) ∧ s = groups ds ++ rest ∧ k = (groups ds).length ∧
        boundary rest = true := by
    split at h
    · cases h
      exact ⟨[], s, by simp, rfl, rfl, ‹_›⟩
    · cases h
  induction n generalizing s k with
  | zero => exact hnone h
  | succ n ih =>
    rw [matchGroups] at h
    split at h
    · rename_i hgroup
      obtain ⟨hdot, hd⟩ := hgroup
      cases s with
      | nil => cases hdot
      | cons c t =>
        obtain rfl := Option.some.inj hdot
        rw [List.tail_cons] at h hd
        rcases Option.or_eq_some_iff.mp h with hmore | ⟨-, hstop⟩
        · obtain ⟨k', hk', rfl⟩ := Option.map_eq_some_iff.mp hmore
          obtain ⟨ds, rest, hds, hs, rfl, hrest⟩ := ih hk'
          refine ⟨t.takeWhile isDigit :: ds, rest, ?_, ?_, ?_, hrest⟩
          · exact List.forall_mem_cons.mpr ⟨isDigits_takeWhile hd, hds⟩
          · rw [groups_cons, List.cons_append, List.append_assoc, ← hs, takeWhile_append_drop]
          · rw [groups_cons, List.length_cons, List.length_append]
            omega
        · exact hnone hstop
    · exact hnone h

theorem matchGroups_boundary (h : boundary rest = true) (n : Nat) :
    ∃ k, matchGroups n rest = some k := by
  cases n with
  | zero => exact ⟨0, if_pos h⟩
  | succ n =>
    rw [matchGroups, if_pos h]
    split
    · cases (matchGroups n _).map _ with
      | none => exact ⟨0, rfl⟩
      | some k => exact ⟨k, rfl⟩
    · exact ⟨0, rfl⟩

theorem matchGroups_complete (hds : ∀ d ∈ ds, IsDigits d) (h : boundary rest = true)
    (hn : ds.length ≤ n) :
    ∃ k, matchGroups n (groups ds ++ rest) = some k ∧ (groups ds).length ≤ k := by
  induction ds generalizing n with
  | nil =>
    obtain ⟨k, hk⟩ := matchGroups_boundary h n
    exact ⟨k, hk, Nat.zero_le _⟩
  | cons d ds ih =>
    obtain ⟨n, rfl⟩ : ∃ m, n = m + 1 := ⟨n - 1, by rw [List.length_cons] at hn; omega⟩
    rw [List.forall_mem_cons] at hds
    obtain ⟨k, hk, hle⟩ := ih hds.2 (Nat.le_of_succ_le_succ hn)
    have hs : groups (d :: ds) ++ rest = dot :: (d ++ (groups ds ++ rest)) := by
      rw [groups_cons, List.cons_append, List.append_assoc]
    have htake := takeWhile_boundary hds.1 (boundary_groups h ds)
    refine ⟨1 + d.length + k, ?_, ?_⟩
    · rw [hs, matchGroups, List.tail_cons, htake, if_pos ⟨rfl, hds.1.1⟩, List.drop_left, hk]
      rfl
    · rw [groups_cons, List.length_cons, List.length_append]
      omega

/-- What is matched is a version. -/
theorem matchVersion_sound (h : matchVersion s = some k) :
    IsVersion (s.take k) ∧ boundary (s.drop k) = true := by
  rw [matchVersion] at h
  split at h
  · rename_i hfirst
    obtain ⟨hn, hdot, hd⟩ := hfirst
    have hd0 := isDigits_takeWhile (List.length_pos_iff.mp hn)
    have hsplit := takeWhile_append_drop s
    generalize s.takeWhile isDigit = d0 at h hn hdot hd hd0 hsplit
    -- the dot and what is behind it
    obtain ⟨t, ht⟩ : ∃ t, s.drop d0.length = dot :: t := by
      cases hrest : s.drop d0.length with
      | nil =>
        rw [hrest] at hdot
        cases hdot
      | cons c t =>
        rw [hrest] at hdot
        exact ⟨t, by rw [Option.some.inj hdot]⟩
    have htail : s.drop (d0.length + 1) = t := by
      rw [← List.tail_drop, ht, List.tail_cons]
    rw [htail] at h hd
    have hd1 := isDigits_takeWhile hd
    have hsecond := takeWhile_append_drop t
    generalize t.takeWhile isDigit = d1 at h hd1 hsecond
    rw [← List.drop_drop, htail] at h
    obtain ⟨k', hk', rfl⟩ := Option.map_eq_some_iff.mp h
    obtain ⟨ds, rest, hds, hs, rfl, hrest⟩ := matchGroups_sound hk'
    have htext : s = (d0 ++ groups (d1 :: ds)) ++ rest := by
      rw [← hsplit, ht, ← hsecond, hs, groups_cons]
      simp
    have hlength : d0.length + 1 + d1.length + (groups ds).length =
        (d0 ++ groups (d1 :: ds)).length := by
      rw [groups_cons, List.length_append, List.length_cons, List.length_append]
      omega
    rw [hlength]
    constructor
    · rw [htext, List.take_left]
      exact isVersion_iff.mpr ⟨d0, d1 :: ds, List.cons_ne_nil _ _, hd0,
        List.forall_mem_cons.mpr ⟨hd1, hds⟩, rfl⟩
    · rw [htext, List.drop_left]
      exact hrest
  · cases h

/-- A version is matched, as long as it can be. -/
theorem matchVersion_complete {version : Bytes} (hv : IsVersion version)
    (h : boundary rest = true) :
    ∃ k, matchVersion (version ++ rest) = some k ∧ version.length ≤ k := by
  obtain ⟨d, ds, hne, hd, hds, rfl⟩ := isVersion_iff.mp hv
  obtain ⟨e, ds, rfl⟩ := List.exists_cons_of_ne_nil hne
  rw [List.forall_mem_cons] at hds
  have htext : d ++ groups (e :: ds) ++ rest = d ++ dot :: (e ++ (groups ds ++ rest)) := by
    rw [groups_cons]
    simp
  have hfirst := takeWhile_boundary hd (boundary_dot (e ++ (groups ds ++ rest)))
  have hsecond := takeWhile_boundary hds.1 (boundary_groups h ds)
  have hlength : ds.length ≤ (d ++ dot :: (e ++ (groups ds ++ rest))).length := by
    have hgroups := length_le_groups ds
    rw [List.length_append, List.length_cons, List.length_append, List.length_append]
    omega
  obtain ⟨k, hk, hle⟩ := matchGroups_complete hds.2 h hlength
  have hdrop : (d ++ dot :: (e ++ (groups ds ++ rest))).drop (d.length + 1) =
      e ++ (groups ds ++ rest) := by
    rw [← List.drop_drop, List.drop_left]
    rfl
  refine ⟨d.length + 1 + e.length + k, ?_, ?_⟩
  · rw [htext, matchVersion, hfirst, hdrop, hsecond, if_pos ⟨List.length_pos_iff.mpr hd.1, by
      rw [List.drop_left]; rfl, hds.1.1⟩, ← List.drop_drop, hdrop, List.drop_left, hk]
    rfl
  · rw [groups_cons, List.length_append, List.length_cons, List.length_append]
    omega

theorem length_opText (op : Op) : op.text.length = 2 := by
  cases op <;> rfl

theorem find_op (op : Op) (t : Bytes) :
    (Op.all.find? fun o => o.text.isPrefixOf (op.text ++ t)) = some op := by
  cases op <;> rfl

theorem matchTag_sound {version behind : Bytes} (h : matchTag s = some (op, version, behind)) :
    TagAt s [] op version behind := by
  rw [matchTag] at h
  split at h
  · rename_i hat
    obtain ⟨o, ho, h⟩ := Option.bind_eq_some_iff.mp h
    obtain ⟨k, hk, heq⟩ := Option.map_eq_some_iff.mp h
    cases heq
    obtain ⟨hv, hended⟩ := matchVersion_sound hk
    rw [List.drop_drop] at hended
    cases s with
    | nil => cases hat
    | cons c t =>
      obtain rfl := Option.some.inj hat
      have hprefix : op.text.isPrefixOf t = true :=
        List.find?_some (p := fun o : Op => o.text.isPrefixOf t) ho
      obtain ⟨u, hu⟩ := List.isPrefixOf_iff_prefix.mp hprefix
      have hdrop : (atSign :: t).drop 3 = u := by
        rw [List.drop_succ_cons, ← hu, ← length_opText op, List.drop_left]
      refine ⟨?_, hv, hended⟩
      rw [← List.drop_drop, hdrop, List.append_assoc, List.take_append_drop, hu]
      rfl
  · cases h

theorem matchTag_complete {version : Bytes} (op : Op) (hv : IsVersion version) (h : boundary rest = true) :
    ∃ k, matchTag (atSign :: (op.text ++ version ++ rest)) =
      some (op, (version ++ rest).take k, (version ++ rest).drop k) ∧
      version.length ≤ ((version ++ rest).take k).length := by
  obtain ⟨k, hk, hle⟩ := matchVersion_complete hv h
  have hdrop : (atSign :: (op.text ++ (version ++ rest))).drop 3 = version ++ rest := by
    rw [List.drop_succ_cons, ← length_opText op, List.drop_left]
  refine ⟨k, ?_, ?_⟩
  · rw [matchTag, List.head?_cons, if_pos rfl, List.append_assoc, List.tail_cons, find_op,
    Option.bind_some,
      hdrop, hk, Option.map_some, ← List.drop_drop, hdrop]
  · rw [List.length_take, List.length_append]
    omega

theorem findTag_sound {m : Match} (h : findTag item = some m) :
    TagAt item m.before m.op m.version m.behind := by
  induction item generalizing m with
  | nil => cases h
  | cons c s ih =>
    rw [findTag] at h
    cases hmatch : matchTag (c :: s) with
    | some r =>
      obtain ⟨op, version, behind⟩ := r
      rw [hmatch] at h
      cases h
      exact matchTag_sound hmatch
    | none =>
      rw [hmatch] at h
      obtain ⟨m', hm', rfl⟩ := Option.map_eq_some_iff.mp h
      obtain ⟨htext, hversion, hended⟩ := ih hm'
      refine ⟨?_, hversion, hended⟩
      rw [List.cons_append, ← htext]

/-- Where there is a tag, one is found; at the same place it is as long. -/
theorem findTag_complete {before version behind : Bytes}
    (h : TagAt item before op version behind) :
    ∃ m, findTag item = some m ∧ (m.before = before → version.length ≤ m.version.length) := by
  obtain ⟨rfl, hversion, hended⟩ := h
  induction before with
  | nil =>
    obtain ⟨k, hk, hle⟩ := matchTag_complete op hversion hended
    rw [List.nil_append, findTag, hk]
    exact ⟨_, rfl, fun _ => hle⟩
  | cons c before ih =>
    rw [List.cons_append, findTag]
    cases hmatch : matchTag (c :: (before ++ atSign :: (op.text ++ version ++ behind))) with
    | some r => exact ⟨_, rfl, fun heq => by cases heq⟩
    | none =>
      obtain ⟨m, hm, hle⟩ := ih
      refine ⟨{ m with before := c :: m.before }, by rw [hm]; rfl, fun heq => hle ?_⟩
      exact (List.cons.inj heq).2

/-! ## The filter -/

variable {w : Uv} {p : Version} {i : Item}

theorem Version.isVersion (v : Version) : IsVersion v.text := ⟨v.parts, v.two_le, v.digits, rfl⟩

theorem findTag_untagged (h : i.tag = none) : findTag i.text = none := by
  cases hfind : findTag i.text with
  | none => rfl
  | some m =>
    obtain ⟨t, ht, -⟩ := i.only _ _ _ _ (findTag_sound hfind)
    rw [h] at ht
    cases ht

theorem findTag_tagged {u : Version} (h : i.tag = some (op, u)) :
    findTag i.text = some ⟨i.before, op, u.text, i.behind⟩ := by
  have htag : TagAt i.text i.before op u.text i.behind := by
    refine ⟨?_, u.isVersion, i.ended (by rw [h]; rfl)⟩
    rw [Item.text, itemText, h]
    rfl
  obtain ⟨m, hm, hle⟩ := findTag_complete htag
  have hfound := findTag_sound hm
  obtain ⟨t, ht, hbefore, hlength⟩ := i.only _ _ _ _ hfound
  rw [h] at ht
  obtain rfl := Option.some.inj ht
  have hsame := Nat.le_antisymm hlength (hle hbefore)
  have htext := htag.text.symm.trans hfound.text
  rw [hbefore] at htext
  have hrest := (List.cons.inj (List.append_cancel_left htext)).2
  rw [List.append_assoc, List.append_assoc] at hrest
  obtain ⟨hop, hrest⟩ := List.append_inj hrest (by rw [length_opText, length_opText])
  obtain ⟨hversion, hbehind⟩ := List.append_inj hrest hsame.symm
  have hop' : op = m.op := by
    have hfirst := find_op op []
    rw [hop, find_op] at hfirst
    exact (Option.some.inj hfirst).symm
  rw [hm, ← hbefore, hop', hversion, hbehind]

theorem versionToNum_text (w : Uv) (v : Version) :
    versionToNum w (some v.text) = pack w v.comps := by
  have hdot : ∀ d ∈ v.parts, dot ∉ d := by
    intro d hd hmem
    have hdigit := (v.digits d hd).2 dot hmem
    rw [isDigit_dot] at hdigit
    cases hdigit
  have hne : v.parts ≠ [] := by
    intro hnil
    have htwo := v.two_le
    rw [hnil] at htwo
    exact absurd htwo (by decide)
  have hlast : chompLine v.text = v.text := by
    rw [chompLine, if_neg]
    intro hnewline
    obtain ⟨d, ds, hds, -, hall, htext⟩ := isVersion_iff.mp v.isVersion
    -- the last byte is a digit of the last part
    obtain ⟨ds, e, rfl⟩ := List.eq_nil_or_concat ds |>.resolve_left hds
    obtain ⟨e', c, rfl⟩ := List.eq_nil_or_concat e |>.resolve_left
      (hall e (by simp)).1
    have hc := (hall (e' ++ [c]) (by simp)).2 c (by simp)
    rw [htext, groups, List.concat_eq_append, List.flatMap_append, List.flatMap_singleton,
      List.concat_eq_append, ← List.cons_append, ← List.append_assoc, ← List.append_assoc,
      List.getLast?_concat, Option.some.injEq] at hnewline
    rw [hnewline] at hc
    exact absurd hc (by decide)
  rw [versionToNum, hlast, Version.text, List.splitOn_intercalate dot hdot hne, if_pos ⟨v.two_le,
    v.digits⟩,
    Version.comps]

/-- What the filter says of an operator. -/
theorem test_iff (op : Op) (u : Version) :
    ¬ (0 < pack w u.comps ∧ 0 < pack w p.comps ∧
      op.test (pack w p.comps) (pack w u.comps) = false) ↔
      spill w p.comps = [0, 0, 0, 0] ∨ spill w u.comps = [0, 0, 0, 0] ∨
        op.holds (compareParts (spill w p.comps) (spill w u.comps)) = true := by
  rw [Op.test_eq, compare_pack, pack_pos_iff, pack_pos_iff, not_and_or, not_and_or, not_ne_iff,
    not_ne_iff, Bool.not_eq_false, or_left_comm]

theorem filterItem_iff : versionFilterItem w (versionToNum w (some p.text)) i.text =
      (if i.holds p = true then some i.stripped else none) ↔
    ∀ op u, i.tag = some (op, u) → Agrees w p op u := by
  rw [versionFilterItem, versionToNum_text]
  cases htag : i.tag with
  | none =>
    rw [findTag_untagged htag, Item.holds, htag]
    refine iff_of_true ?_ fun _ _ h => by cases h
    rw [Item.text, itemText, htag]
    rfl
  | some t =>
    obtain ⟨op, u⟩ := t
    rw [findTag_tagged htag, Item.holds, htag]
    dsimp only
    rw [versionToNum_text]
    have hall : (∀ op' u', some (op, u) = some (op', u') → Agrees w p op' u') ↔
        Agrees w p op u := by
      refine ⟨fun h => h op u rfl, fun h op' u' heq => ?_⟩
      cases heq
      exact h
    rw [hall, Agrees, ← test_iff, Option.all_some, Item.stripped]
    split_ifs with hout hholds hholds
    · exact iff_of_false (fun h => by cases h) fun h => (h.mpr hholds) hout
    · exact iff_of_true rfl (iff_of_false (fun h => h hout) hholds)
    · exact iff_of_true rfl (iff_of_true hout hholds)
    · exact iff_of_false (fun h => by cases h) fun h => hholds (h.mp hout)

/-- **When the filter follows the order of versions.** -/
theorem versionFilter_iff (w : Uv) (p : Version) (items : List Item) :
    Filters w p items ↔ ∀ i ∈ items, ∀ op u, i.tag = some (op, u) → Agrees w p op u := by
  constructor
  · exact fun h i hi => filterItem_iff.mp (h.each i hi)
  · intro h
    have heach (i : Item) (hi : i ∈ items) := filterItem_iff.mpr (h i hi)
    refine ⟨heach, ?_⟩
    rw [versionFilterList, List.filterMap_map]
    clear h
    induction items with
    | nil => rfl
    | cons i items ih =>
      rw [List.forall_mem_cons] at heach
      rw [List.filterMap_cons, Function.comp_apply, heach.1, ih heach.2]
      by_cases hholds : i.holds p = true
      · rw [if_pos hholds, List.filter_cons, if_pos hholds, List.map_cons]
      · rw [if_neg hholds, List.filter_cons, if_neg hholds]

theorem compareParts_padded {v u : List Nat} (hv : v.length ≤ 4) (hu : u.length ≤ 4) :
    compareParts [v.getD 0 0, v.getD 1 0, v.getD 2 0, v.getD 3 0]
      [u.getD 0 0, u.getD 1 0, u.getD 2 0, u.getD 3 0] = compareParts v u := by
  obtain _ | ⟨a, _ | ⟨b, _ | ⟨c, _ | ⟨d, _ | ⟨e, v⟩⟩⟩⟩⟩ := v <;>
    obtain _ | ⟨a', _ | ⟨b', _ | ⟨c', _ | ⟨d', _ | ⟨e', u⟩⟩⟩⟩⟩ := u <;>
      first
        | (simp only [List.length_cons] at hv hu; omega)
        | simp [compareParts]

theorem comps_nonzero (v : Version) :
    [v.comps.getD 0 0, v.comps.getD 1 0, v.comps.getD 2 0, v.comps.getD 3 0] ≠ [0, 0, 0, 0] := by
  intro h
  simp only [List.cons.injEq, and_true] at h
  obtain ⟨h0, h1, h2, h3⟩ := h
  obtain ⟨d, hd, hne⟩ := v.nonzero
  obtain ⟨j, hj, hget⟩ := List.getElem_of_mem (List.mem_map_of_mem (f := number) hd)
  have hlength := v.le_four
  rw [List.length_map] at hj
  have hgetD : v.comps.getD j 0 = number d := by
    rw [← hget, Version.comps, List.getD_eq_getElem _ _ (by rwa [List.length_map])]
  obtain rfl | rfl | rfl | rfl : j = 0 ∨ j = 1 ∨ j = 2 ∨ j = 3 := by omega
  all_goals simp_all

/-- Components up to 255 are enough. -/
theorem agrees_of_small {u : Version} (op : Op) (hp : ∀ j, p.comps.getD j 0 < 2 ^ 8)
    (hu : ∀ j, u.comps.getD j 0 < 2 ^ 8) : Agrees w p op u := by
  have hwide : 2 ^ 8 ≤ 2 ^ (w.bits - 24) :=
    Nat.pow_le_pow_right (by decide) (by have := w.wide; omega)
  have hlength (v : Version) : v.comps.length ≤ 4 := by
    rw [Version.comps, List.length_map]
    exact v.le_four
  rw [Agrees, spill_of_small ((hp 0).trans_le hwide) (hp 1) (hp 2) (hp 3),
    spill_of_small ((hu 0).trans_le hwide) (hu 1) (hu 2) (hu 3), or_iff_right (comps_nonzero p),
    or_iff_right (comps_nonzero u), compareParts_padded (hlength p) (hlength u)]

end

/-! ## A component above 255 -/

theorem wide_64 : 32 ≤ 64 := by decide

def uv64 : Uv := ⟨64, wide_64⟩

/-- 4.14.256, and 4.15. -/
def highSublevel : List Bytes := [ascii "4", ascii "14", ascii "256"]

theorem two_le_high : 2 ≤ highSublevel.length := by decide

theorem le_four_high : highSublevel.length ≤ 4 := by decide

theorem digits_high : ∀ d ∈ highSublevel, IsDigits d := by decide +kernel

theorem nonzero_high : ∃ d ∈ highSublevel, number d ≠ 0 := by decide

def high : Version := ⟨highSublevel, two_le_high, le_four_high, digits_high, nonzero_high⟩

def nextLevel : List Bytes := [ascii "4", ascii "15"]

theorem two_le_next : 2 ≤ nextLevel.length := by decide

theorem le_four_next : nextLevel.length ≤ 4 := by decide

theorem digits_next : ∀ d ∈ nextLevel, IsDigits d := by decide +kernel

theorem nonzero_next : ∃ d ∈ nextLevel, number d ≠ 0 := by decide

def next : Version := ⟨nextLevel, two_le_next, le_four_next, digits_next, nonzero_next⟩

theorem isDigit_atSign : isDigit atSign = false := by decide

theorem atSign_notMem_text (v : Version) : atSign ∉ v.text := by
  obtain ⟨d, ds, -, hd, hds, htext⟩ := isVersion_iff.mp v.isVersion
  have hdigits {d : Bytes} (hd : IsDigits d) : atSign ∉ d := by
    intro hmem
    have hdigit := hd.2 atSign hmem
    rw [isDigit_atSign] at hdigit
    cases hdigit
  rw [htext, List.mem_append, not_or]
  refine ⟨hdigits hd, fun hmem => ?_⟩
  obtain ⟨e, he, hmem⟩ := List.mem_flatMap.mp hmem
  rcases List.mem_cons.mp hmem with heq | hmem
  · exact absurd heq (by decide)
  · exact hdigits (hds e he) hmem

/-- A tag at the end of an item is the only one, when there is no other `@`. -/
theorem only_last {front : Bytes} {op : Op} {v : Version} (h : atSign ∉ front)
    (before : Bytes) (op' : Op) (version behind : Bytes)
    (htag : TagAt (itemText front (some (op, v)) []) before op' version behind) :
    ∃ t, some (op, v) = some t ∧ before = front ∧ version.length ≤ t.2.text.length := by
  have hrest : atSign ∉ op.text ++ v.text ++ [] := by
    have hop : atSign ∉ op.text := by cases op <;> decide
    rw [List.append_nil, List.mem_append, not_or]
    exact ⟨hop, atSign_notMem_text v⟩
  have htext : front ++ atSign :: (op.text ++ v.text ++ []) =
      before ++ atSign :: (op'.text ++ version ++ behind) := htag.text
  obtain ⟨hfront, -, hbehind⟩ := (List.append_cons_inj_of_notMem h hrest).mp htext
  refine ⟨_, rfl, hfront.symm, ?_⟩
  have hlength := congrArg List.length hbehind
  simp only [List.length_append, length_opText, List.length_nil] at hlength
  dsimp only
  omega

theorem ended_nil (tag : Option (Op × Version)) (_ : tag.isSome = true) : boundary [] = true := rfl

theorem atSign_notMem_symbol : atSign ∉ ascii "CONFIG_X" := by decide

/-- `CONFIG_X@lt4.15` -/
def olderThanNext : Item where
  before := ascii "CONFIG_X"
  tag := some (.lt, next)
  behind := []
  ended := ended_nil _
  only := only_last atSign_notMem_symbol

theorem versionFilter_high : ¬ Filters uv64 high [olderThanNext] := by
  intro h
  have hkept : olderThanNext.holds high = true := by decide
  have hitem := h.each olderThanNext List.mem_cons_self
  rw [if_pos hkept] at hitem
  exact absurd hitem (by decide +kernel)

end UolaOs.Metadata
