import UolaOs.Metadata.Packages

/-!
# Users and groups

`parse_package_metadata_usergroup`, `parse_package_metadata` and `clear_packages` of metadata.pm.

* `Ids`: the names of one kind with their ids, and the ids with their names;
* `reachable_sound`: the two agree in every process;
* `records_iff`: what the ids are, in terms of the specs that were read;
* `usergroup_iff`: when a cleared process is like a fresh one.
-/

namespace UolaOs.Metadata

/-! ## Specs -/

/-- `[a-z_]` -/
def isNameStart (c : UInt8) : Bool := (97 ≤ c && c ≤ 122) || c == 0x5f

/-- `[a-z0-9_-]` -/
def isNameChar (c : UInt8) : Bool := isNameStart c || isDigit c || c == 0x2d

/-- `[a-z_][a-z0-9_-]*\$?` -/
def isUserName (s : Bytes) : Bool :=
  s.head?.any isNameStart && [[], ascii "$"].contains (s.dropWhile isNameChar)

/-- The name of a spec, and its id, which is -1 when there is none. There are no spaces in it. -/
def readSpec (spec : Bytes) : Option (Bytes × Option Bytes) :=
  let name := spec.takeWhile (· ≠ 0x3d)
  let id := spec.drop (name.length + 1)
  if isUserName spec = true then some (spec, none)
  else if isUserName name = true ∧ name.length < spec.length ∧ IsDigits id then some (name, some id)
  else none

/-! ## The tables of one kind -/

/-- `{ id => $id, makefile => $makefile }` -/
structure NameEntry where
  id : Option Nat
  makefile : Option Bytes
  deriving DecidableEq

/-- `{ name => $name, makefile => $makefile }` -/
structure IdEntry where
  name : Bytes
  makefile : Option Bytes
  deriving DecidableEq

structure Ids where
  names : Hash Bytes NameEntry
  ids : Hash Nat IdEntry

def Ids.empty : Ids := ⟨∅, ∅⟩

/-- `$makefile: ...` -/
def warning (makefile : Option Bytes) (parts : List Bytes) : Bytes :=
  makefile.getD [] ++ ascii ":" ++ parts.flatMap fun part => 0x20 :: part

section
variable (kind : Kind) (makefile : Option Bytes) (name : Bytes)

/-- The first half: the id, with the table of the ids. An id that starts with "0" is none. -/
def takeId (id : Option Bytes) (ids : Hash Nat IdEntry) :
    Except Bytes (Option Nat × Hash Nat IdEntry) :=
  match id with
  | none => .ok (none, ids)
  | some id =>
    if id.head? = some 0x30 then
      .error (warning makefile [kind.text, name, ascii "has invalid id", id])
    else if 65536 ≤ number id then
      .error (warning makefile [kind.text, name, ascii "id", id, ascii ">= 65536"])
    else
      match ids.lookup (number id) with
      | none => .ok (some (number id), ids.insert (number id) ⟨name, makefile⟩)
      | some e =>
        if e.name = name then .ok (some (number id), ids)
        else .error (warning makefile [kind.text, name, ascii "id", id,
          ascii "is already taken by", e.makefile.getD []])

/-- The second half: the table of the names. -/
def takeName (id : Option Nat) (names : Hash Bytes NameEntry) :
    Except Bytes (Hash Bytes NameEntry) :=
  match names.lookup name with
  | none => .ok (names.insert name ⟨id, makefile⟩)
  | some e =>
    if e.id = id then .ok names
    else .error (warning makefile [ascii "id of", kind.text, name,
      ascii "collides with that defined defined in", e.makefile.getD []])

/-- `parse_package_metadata_usergroup`, with its warning when it fails. -/
def parseUsergroup (spec : Bytes) (t : Ids) : Option Bytes × Ids :=
  match readSpec spec with
  | none => (some (warning makefile [ascii "invalid", kind.text, ascii "spec", spec]), t)
  | some (name, id) =>
    match takeId kind makefile name id t.ids with
    | .error w => (some w, t)
    | .ok (id, ids) =>
      match takeName kind makefile name id t.names with
      | .error w => (some w, { t with ids })
      | .ok names => (none, ⟨names, ids⟩)

end

/-! ## Processes -/

/-- `%usernames` and `%userids`, `%groupnames` and `%groupids`. -/
structure Users where
  user : Ids
  group : Ids

namespace Users

def empty : Users := ⟨.empty, .empty⟩

variable (u : Users)

def get : Kind → Ids
  | .user => u.user
  | .group => u.group

def set (kind : Kind) (t : Ids) : Users :=
  match kind with
  | .user => { u with user := t }
  | .group => { u with group := t }

@[simp] theorem get_set (kind : Kind) (t : Ids) : (u.set kind t).get kind = t := by
  cases kind <;> rfl

@[simp] theorem set_get (kind : Kind) : u.set kind (u.get kind) = u := by
  cases kind <;> rfl

theorem get_set_ne {kind kind' : Kind} (t : Ids) (h : kind' ≠ kind) :
    (u.set kind t).get kind' = u.get kind' := by
  cases kind <;> cases kind' <;> first | rfl | exact absurd rfl h

end Users

def requireSpec (u : Users) (s : UgSpec) : Option Bytes × Users :=
  let r := parseUsergroup s.kind s.makefile s.spec (u.get s.kind)
  (r.1, u.set s.kind r.2)

/-- The specs of a line, up to the first one that fails. -/
def requireSpecs : Users → List UgSpec → Option Bytes × Users
  | u, [] => (none, u)
  | u, s :: ss =>
    match requireSpec u s with
    | (some w, u) => (some w, u)
    | (none, u) => requireSpecs u ss

/-- The loop of `parse_package_metadata`, of at most `n` rounds: whether it comes to the end. -/
def parseLoop (ignore : List Bytes) : Nat → Reader → Users → Bool × Tables × Users
  | 0, r, u => (true, r.tables, u)
  | n + 1, r, u =>
    match r.lines with
    | [] => (true, r.tables, u)
    | line :: lines =>
      let p := readLine ignore (chompLine line) { r with lines }
      match requireSpecs u p.2 with
      | (some _, u) => (false, p.1.tables, u)
      | (none, u) => parseLoop ignore n p.1 u

/-- What a perl process has in the variables of metadata.pm. -/
structure Process where
  tables : Tables
  users : Users

def Process.fresh : Process := ⟨.empty, .empty⟩

/-- The reader of a file. -/
def startReader (file : Bytes) (t : Tables) : Reader := ⟨rawLines file, none, none, [], t⟩

/-- `parse_package_metadata`, where a file that cannot be opened is none. Each round takes a line
at least. -/
def parsePackageMetadata (ignore : List Bytes) (file : Option Bytes) (p : Process) :
    Option Bool × Process :=
  match file with
  | none => (none, p)
  | some file =>
    let r := parseLoop ignore (rawLines file).length (startReader file p.tables) p.users
    (some r.1, ⟨r.2.1, r.2.2⟩)

/-- `clear_packages` -/
def clearPackages (p : Process) : Process where
  tables := .empty
  users := ⟨{ p.users.user with names := ∅ }, { p.users.group with names := ∅ }⟩

inductive Reachable : Process → Prop where
  | fresh : Reachable .fresh
  | parse {p} (ignore : List Bytes) (file : Option Bytes) :
    Reachable p → Reachable (parsePackageMetadata ignore file p).2
  | clear {p} : Reachable p → Reachable (clearPackages p)

/-! ## What is to hold -/

/-- Names have ids of their own, in a range. -/
structure Bijective (t : Ids) : Prop where
  distinct : ∀ name name' e e', t.names.lookup name = some e → t.names.lookup name' = some e' →
    e.id = e'.id → e.id ≠ none → name = name'
  range : ∀ name e n, t.names.lookup name = some e → e.id = some n → 1 ≤ n ∧ n ≤ 65535
  ids_range : ∀ n e, t.ids.lookup n = some e → 1 ≤ n ∧ n ≤ 65535

/-- What is left behind two runs is the same. -/
structure SameRun (r r' : Option Bool × Process) : Prop where
  result : r.1 = r'.1
  tables : r.2.tables = r'.2.tables
  names : ∀ kind, Hash.Same (r.2.users.get kind).names (r'.2.users.get kind).names
  ids : ∀ kind, Hash.Same (r.2.users.get kind).ids (r'.2.users.get kind).ids

/-- A cleared process reads `g` like a fresh one. -/
def Cleared (ignore : List Bytes) (f g : Bytes) : Prop :=
  SameRun
    (parsePackageMetadata ignore (some g)
      (clearPackages (parsePackageMetadata ignore (some f) .fresh).2))
    (parsePackageMetadata ignore (some g) .fresh)

/-! ## The specs of a text -/

/-- The specs that the loop comes to when none fails. -/
def loopSpecs (ignore : List Bytes) : Nat → Reader → List UgSpec
  | 0, _ => []
  | n + 1, r =>
    match r.lines with
    | [] => []
    | line :: lines =>
      let p := readLine ignore (chompLine line) { r with lines }
      p.2 ++ loopSpecs ignore n p.1

/-- The users and groups that a text requires. -/
def specs (ignore : List Bytes) (file : Bytes) : List UgSpec :=
  loopSpecs ignore (rawLines file).length (startReader file .empty)

/-- The name that a spec claims, and the id, if it may have it. -/
def UgSpec.claim (s : UgSpec) : Option (Bytes × Option Nat) :=
  (readSpec s.spec).bind fun p =>
    match p.2 with
    | none => some (p.1, none)
    | some id =>
      if id.head? = some 0x30 ∨ 65536 ≤ number id then none else some (p.1, some (number id))

/-- Two specs give a name one id, and an id one name. -/
def Agree (s t : UgSpec) : Prop :=
  s.kind = t.kind → ∀ a b, s.claim = some a → t.claim = some b →
    (a.1 = b.1 → a.2 = b.2) ∧ (a.2 = b.2 → a.2 ≠ none → a.1 = b.1)

/-- All specs can be taken. -/
structure Accepted (ss : List UgSpec) : Prop where
  valid : ∀ s ∈ ss, s.claim ≠ none
  agree : ss.Pairwise Agree

/-- A spec is the first one for an id, behind others that are taken. -/
def Records (ss : List UgSpec) (kind : Kind) (n : Nat) (e : IdEntry) : Prop :=
  ∃ front s back, ss = front ++ s :: back ∧ Accepted front ∧ s.kind = kind ∧
    s.claim = some (e.name, some n) ∧ s.makefile = e.makefile ∧
      ∀ t ∈ front, t.kind = kind → ∀ name, t.claim ≠ some (name, some n)

/-! ## One spec -/

section
variable {kind : Kind} {makefile : Option Bytes} {name spec : Bytes} {id : Option Nat} {t : Ids}
  {n : Nat} {e : IdEntry}

theorem le_number (d : Bytes) (n : Nat) : n ≤ d.foldl (fun n c => 10 * n + (c.toNat - 48)) n := by
  induction d generalizing n with
  | nil => exact Nat.le_refl n
  | cons c d ih =>
    have hle : n ≤ 10 * n + (c.toNat - 48) := by omega
    exact hle.trans (ih _)

/-- Digits without a zero in front. -/
theorem number_pos {d : Bytes} (h : IsDigits d) (hzero : d.head? ≠ some 0x30) : 1 ≤ number d := by
  obtain ⟨c, d, rfl⟩ := List.exists_cons_of_ne_nil h.1
  have hdigit := h.2 c List.mem_cons_self
  have hne : c ≠ 0x30 := fun heq => hzero (congrArg some heq)
  have hc : 49 ≤ c.toNat := by
    rw [isDigit, Bool.and_eq_true, decide_eq_true_iff, decide_eq_true_iff,
      UInt8.le_iff_toNat_le] at hdigit
    have h48 : (48 : UInt8).toNat = 48 := rfl
    have hne' : c.toNat ≠ 48 := fun heq => hne (UInt8.toNat_inj.mp heq)
    omega
  have hle : 1 ≤ 10 * 0 + (c.toNat - 48) := by omega
  exact hle.trans (le_number d _)

/-- What `readSpec` says of an id. -/
theorem readSpec_digits {id : Bytes} (h : readSpec spec = some (name, some id)) : IsDigits id := by
  rw [readSpec] at h
  split_ifs at h with _ hid
  · cases h
  · cases h
    exact hid.2.2

/-- The claim of a spec, by its text. -/
def claimOf (spec : Bytes) : Option (Bytes × Option Nat) := UgSpec.claim ⟨.user, none, spec⟩

theorem claim_eq (s : UgSpec) : s.claim = claimOf s.spec := rfl

theorem claimOf_range (h : claimOf spec = some (name, some n)) : 1 ≤ n ∧ n ≤ 65535 := by
  obtain ⟨⟨name', id⟩, hread, h⟩ := Option.bind_eq_some_iff.mp h
  cases id with
  | none => cases h
  | some id =>
    dsimp only at h
    split_ifs at h with hbad
    cases h
    rw [not_or, not_le] at hbad
    exact ⟨number_pos (readSpec_digits hread) hbad.1, by omega⟩

/-- The table of the ids behind a spec that may have its id. -/
def idsAfter (makefile : Option Bytes) (name : Bytes) (id : Option Nat) (ids : Hash Nat IdEntry) :
    Hash Nat IdEntry :=
  match id with
  | none => ids
  | some n => if ids.lookup n = none then ids.insert n ⟨name, makefile⟩ else ids

/-- No other name has the id. -/
def Free (ids : Hash Nat IdEntry) (name : Bytes) (id : Option Nat) : Prop :=
  ∀ n e, id = some n → ids.lookup n = some e → e.name = name

theorem parseUsergroup_invalid (kind : Kind) (makefile : Option Bytes) (t : Ids)
    (h : claimOf spec = none) : ∃ w, parseUsergroup kind makefile spec t = (some w, t) := by
  rw [parseUsergroup]
  cases hread : readSpec spec with
  | none => exact ⟨_, rfl⟩
  | some p =>
    obtain ⟨name, id⟩ := p
    rw [claimOf, UgSpec.claim, hread, Option.bind_some] at h
    cases id with
    | none => cases h
    | some id =>
      dsimp only at h ⊢
      split_ifs at h with hbad
      rw [takeId]
      by_cases hzero : id.head? = some 0x30
      · rw [if_pos hzero]
        exact ⟨_, rfl⟩
      · rw [if_neg hzero, if_pos (hbad.resolve_left hzero)]
        exact ⟨_, rfl⟩

theorem parseUsergroup_taken (kind : Kind) (makefile : Option Bytes)
    (h : claimOf spec = some (name, id)) (hfree : ¬ Free t.ids name id) :
    ∃ w, parseUsergroup kind makefile spec t = (some w, t) := by
  obtain ⟨⟨name', digits⟩, hread, h⟩ := Option.bind_eq_some_iff.mp h
  cases digits with
  | none =>
    cases h
    exact absurd (fun n e h => by cases h) hfree
  | some digits =>
    dsimp only at h
    split_ifs at h with hbad
    cases h
    rw [not_or] at hbad
    rw [parseUsergroup, hread]
    dsimp only
    rw [takeId, if_neg hbad.1, if_neg hbad.2]
    cases hlookup : t.ids.lookup (number digits) with
    | none =>
      refine absurd (fun n e hn he => ?_) hfree
      cases hn
      rw [hlookup] at he
      cases he
    | some e =>
      dsimp only
      rw [if_neg]
      · exact ⟨_, rfl⟩
      · intro hname
        refine hfree fun n e' hn he => ?_
        cases hn
        rw [hlookup] at he
        cases he
        exact hname

/-- What is left when the id can be had. -/
theorem parseUsergroup_free (kind : Kind) (makefile : Option Bytes)
    (h : claimOf spec = some (name, id)) (hfree : Free t.ids name id) :
    parseUsergroup kind makefile spec t =
      match takeName kind makefile name id t.names with
      | .error w => (some w, { t with ids := idsAfter makefile name id t.ids })
      | .ok names => (none, ⟨names, idsAfter makefile name id t.ids⟩) := by
  obtain ⟨⟨name', digits⟩, hread, h⟩ := Option.bind_eq_some_iff.mp h
  cases digits with
  | none =>
    cases h
    rw [parseUsergroup, hread]
    rfl
  | some digits =>
    dsimp only at h
    split_ifs at h with hbad
    cases h
    rw [not_or] at hbad
    rw [parseUsergroup, hread]
    dsimp only
    rw [takeId, if_neg hbad.1, if_neg hbad.2, idsAfter]
    cases hlookup : t.ids.lookup (number digits) with
    | none => rfl
    | some e =>
      dsimp only
      rw [if_pos (hfree _ _ rfl hlookup)]
      rfl

/-- Nothing is forgotten. -/
theorem lookup_idsAfter {ids : Hash Nat IdEntry} (makefile : Option Bytes) (name : Bytes)
    (id : Option Nat) (n : Nat) : (idsAfter makefile name id ids).lookup n =
      (ids.lookup n).or (if id = some n then some ⟨name, makefile⟩ else none) := by
  cases id with
  | none =>
    rw [idsAfter, if_neg (Option.some_ne_none n).symm, Option.or_none]
  | some m =>
    rw [idsAfter]
    by_cases hm : m = n
    · subst hm
      rw [if_pos rfl]
      cases hlookup : ids.lookup m with
      | none =>
        rw [if_pos rfl, AList.lookup_insert]
        rfl
      | some e =>
        rw [if_neg (Option.some_ne_none e), hlookup]
        rfl
    · rw [if_neg fun h => hm (Option.some.inj h), Option.or_none]
      split_ifs
      · exact AList.lookup_insert_ne (Ne.symm hm)
      · rfl

theorem takeName_ok {names names' : Hash Bytes NameEntry}
    (h : takeName kind makefile name id names = .ok names') :
    names.lookup name = none ∧ names' = names.insert name ⟨id, makefile⟩ ∨
      ∃ e, names.lookup name = some e ∧ e.id = id ∧ names' = names := by
  rw [takeName] at h
  cases hlookup : names.lookup name with
  | none =>
    rw [hlookup] at h
    cases h
    exact .inl ⟨rfl, rfl⟩
  | some e =>
    rw [hlookup] at h
    dsimp only at h
    split_ifs at h with hid
    cases h
    exact .inr ⟨e, rfl, hid, rfl⟩

/-- The three outcomes. -/
theorem parseUsergroup_cases (kind : Kind) (makefile : Option Bytes) (spec : Bytes) (t : Ids) :
    (∃ w, parseUsergroup kind makefile spec t = (some w, t)) ∨
      ∃ name id, claimOf spec = some (name, id) ∧ Free t.ids name id ∧
        ((∃ w, parseUsergroup kind makefile spec t =
            (some w, { t with ids := idsAfter makefile name id t.ids })) ∨
          ∃ names, takeName kind makefile name id t.names = .ok names ∧
            parseUsergroup kind makefile spec t =
              (none, ⟨names, idsAfter makefile name id t.ids⟩)) := by
  cases hclaim : claimOf spec with
  | none => exact .inl (parseUsergroup_invalid kind makefile t hclaim)
  | some p =>
    obtain ⟨name, id⟩ := p
    by_cases hfree : Free t.ids name id
    · refine .inr ⟨name, id, rfl, hfree, ?_⟩
      rw [parseUsergroup_free kind makefile hclaim hfree]
      cases htake : takeName kind makefile name id t.names with
      | error w => exact .inl ⟨w, rfl⟩
      | ok names => exact .inr ⟨names, rfl, rfl⟩
    · exact .inl (parseUsergroup_taken kind makefile hclaim hfree)

end

/-! ## What every spec keeps -/

section
variable {P : Users → Prop} {u : Users}

/-- What each spec keeps, the specs of a line keep. -/
theorem requireSpecs_keeps (hstep : ∀ u s, P u → P (requireSpec u s).2) (ss : List UgSpec)
    (h : P u) : P (requireSpecs u ss).2 := by
  induction ss generalizing u with
  | nil => exact h
  | cons s ss ih =>
    have hnext := hstep u s h
    rw [requireSpecs]
    rcases hr : requireSpec u s with ⟨w | w, v⟩
    · rw [hr] at hnext
      exact ih hnext
    · rw [hr] at hnext
      exact hnext

/-- And all lines of a file. -/
theorem parseLoop_keeps (hstep : ∀ u s, P u → P (requireSpec u s).2) (ignore : List Bytes) (n : Nat)
    (r : Reader) (h : P u) : P (parseLoop ignore n r u).2.2 := by
  induction n generalizing r u with
  | zero => exact h
  | succ n ih =>
    rw [parseLoop]
    cases r.lines with
    | nil => exact h
    | cons line lines =>
      dsimp only
      have hnext := requireSpecs_keeps hstep
        (readLine ignore (chompLine line) { r with lines := lines }).2 h
      rcases hr : requireSpecs u (readLine ignore (chompLine line) { r with lines := lines }).2
        with ⟨w | w, v⟩
      · rw [hr] at hnext
        exact ih _ hnext
      · rw [hr] at hnext
        exact hnext

end

/-! ## Names and ids -/

/-- Each id of a name is a name's id. -/
structure Sound (t : Ids) : Prop where
  back : ∀ name e n, t.names.lookup name = some e → e.id = some n →
    ∃ e', t.ids.lookup n = some e' ∧ e'.name = name
  range : ∀ n e, t.ids.lookup n = some e → 1 ≤ n ∧ n ≤ 65535

theorem Sound.bijective {t : Ids} (h : Sound t) : Bijective t where
  distinct := by
    intro name name' e e' he he' hid hne
    obtain ⟨n, hn⟩ := Option.ne_none_iff_exists'.mp hne
    obtain ⟨i, hi, rfl⟩ := h.back name e n he hn
    obtain ⟨i', hi', rfl⟩ := h.back name' e' n he' (hid ▸ hn)
    rw [hi] at hi'
    rw [Option.some.inj hi']
  range := by
    intro name e n he hn
    obtain ⟨i, hi, -⟩ := h.back name e n he hn
    exact h.range n i hi
  ids_range := h.range

theorem sound_empty : Sound .empty where
  back := fun _ _ _ h => by cases h
  range := fun _ _ h => by cases h

section
variable {kind : Kind} {makefile : Option Bytes} {name spec : Bytes} {id : Option Nat} {t : Ids}

/-- The ids of a spec that may have its id. -/
theorem Sound.idsAfter (makefile : Option Bytes) (h : Sound t)
    (hclaim : claimOf spec = some (name, id)) :
    Sound { t with ids := Metadata.idsAfter makefile name id t.ids } where
  back := by
    intro name' e n he hn
    obtain ⟨e', he', hname⟩ := h.back name' e n he hn
    refine ⟨e', ?_, hname⟩
    rw [lookup_idsAfter, he', Option.some_or]
  range := by
    intro n e he
    rw [lookup_idsAfter, Option.or_eq_some_iff] at he
    obtain he | ⟨-, he⟩ := he
    · exact h.range n e he
    · split_ifs at he with hid
      rw [hid] at hclaim
      exact claimOf_range hclaim

theorem parseUsergroup_sound (kind : Kind) (makefile : Option Bytes) (spec : Bytes)
    (h : Sound t) : Sound (parseUsergroup kind makefile spec t).2 := by
  obtain ⟨w, hr⟩ | ⟨name, id, hclaim, hfree, ⟨w, hr⟩ | ⟨names, htake, hr⟩⟩ :=
    parseUsergroup_cases kind makefile spec t
  · rw [hr]
    exact h
  · rw [hr]
    exact h.idsAfter makefile hclaim
  · rw [hr]
    have hafter := h.idsAfter makefile hclaim
    refine ⟨fun name' e n he hn => ?_, hafter.range⟩
    obtain ⟨-, rfl⟩ | ⟨-, -, -, rfl⟩ := takeName_ok htake
    swap
    · exact hafter.back name' e n he hn
    by_cases hname : name' = name
    · subst hname
      rw [AList.lookup_insert] at he
      cases he
      obtain rfl : id = some n := hn
      dsimp only
      cases hlookup : t.ids.lookup n with
      | none =>
        refine ⟨⟨name', makefile⟩, ?_, rfl⟩
        rw [lookup_idsAfter, hlookup, if_pos rfl]
        rfl
      | some e' =>
        refine ⟨e', ?_, hfree n e' rfl hlookup⟩
        rw [lookup_idsAfter, hlookup]
        rfl
    · rw [AList.lookup_insert_ne hname] at he
      exact hafter.back name' e n he hn

end

/-- Both kinds. -/
def Users.Sound (u : Users) : Prop := ∀ kind, Metadata.Sound (u.get kind)

theorem requireSpec_sound (u : Users) (s : UgSpec) (h : u.Sound) : (requireSpec u s).2.Sound := by
  intro kind
  rw [requireSpec]
  by_cases hkind : kind = s.kind
  · rw [hkind, Users.get_set]
    exact parseUsergroup_sound s.kind s.makefile s.spec (h s.kind)
  · rw [Users.get_set_ne _ _ hkind]
    exact h kind

/-- **Every process.** The ids of the names are the names of the ids. -/
theorem reachable_sound {p : Process} (h : Reachable p) : p.users.Sound := by
  induction h with
  | fresh =>
    intro kind
    cases kind <;> exact sound_empty
  | parse ignore file _ ih =>
    cases file with
    | none => exact ih
    | some file => exact parseLoop_keeps requireSpec_sound ignore _ _ ih
  | clear _ ih =>
    intro kind
    have hrange := (ih kind).range
    cases kind
    all_goals exact ⟨(fun _ _ _ h => by cases h), hrange⟩

/-! ## A run with ids that are left over -/

/-- The ids are still there. -/
def Users.Extends (u v : Users) : Prop :=
  ∀ kind n e, (u.get kind).ids.lookup n = some e → (v.get kind).ids.lookup n = some e

theorem parseUsergroup_extends (kind : Kind) (makefile : Option Bytes) (spec : Bytes) (t : Ids)
    {n : Nat} {e : IdEntry} (h : t.ids.lookup n = some e) :
    (parseUsergroup kind makefile spec t).2.ids.lookup n = some e := by
  obtain ⟨w, hr⟩ | ⟨name, id, -, -, ⟨w, hr⟩ | ⟨names, -, hr⟩⟩ :=
    parseUsergroup_cases kind makefile spec t
  · rw [hr]
    exact h
  all_goals
    rw [hr]
    dsimp only
    rw [lookup_idsAfter, h, Option.some_or]

theorem requireSpec_extends {u : Users} (v : Users) (s : UgSpec) (h : u.Extends v) :
    u.Extends (requireSpec v s).2 := by
  intro kind n e he
  rw [requireSpec]
  by_cases hkind : kind = s.kind
  · rw [hkind, Users.get_set]
    rw [hkind] at he
    exact parseUsergroup_extends s.kind s.makefile s.spec _ (h s.kind n e he)
  · rw [Users.get_set_ne _ _ hkind]
    exact h kind n e he

theorem Users.Extends.refl (u : Users) : u.Extends u := fun _ _ _ h => h

theorem requireSpecs_extends (u : Users) (ss : List UgSpec) : u.Extends (requireSpecs u ss).2 :=
  requireSpecs_keeps requireSpec_extends ss (.refl u)

theorem parseLoop_extends (ignore : List Bytes) (n : Nat) (r : Reader) (u : Users) :
    u.Extends (parseLoop ignore n r u).2.2 :=
  parseLoop_keeps requireSpec_extends ignore n r (.refl u)

/-- The tables of a run that began with some ids, and those of one that did not. -/
structure Over (left : Kind → Hash Nat IdEntry) (u v : Users) : Prop where
  names : ∀ kind, (u.get kind).names = (v.get kind).names
  ids : ∀ kind n, (u.get kind).ids.lookup n = ((left kind).lookup n).or ((v.get kind).ids.lookup n)

/-- The ids that are left over are not other ones than those of a run. -/
def Compatible (left : Kind → Hash Nat IdEntry) (v : Users) : Prop :=
  ∀ kind n e e', (left kind).lookup n = some e → (v.get kind).ids.lookup n = some e' → e = e'

theorem Compatible.mono {left : Kind → Hash Nat IdEntry} {v v' : Users} (h : Compatible left v')
    (hext : v.Extends v') : Compatible left v :=
  fun kind n e e' he he' => h kind n e e' he (hext kind n e' he')

section
variable {left : Kind → Hash Nat IdEntry} {u v : Users} {s : UgSpec}

/-- One spec does the same in both. -/
theorem requireSpec_over (s : UgSpec) (h : Over left u v)
    (hcompatible : Compatible left (requireSpec v s).2) :
    (requireSpec u s).1.isSome = (requireSpec v s).1.isSome ∧
      Over left (requireSpec u s).2 (requireSpec v s).2 := by
  have hset (t t' : Ids) (hnames : t.names = t'.names)
      (hids : ∀ n, t.ids.lookup n = ((left s.kind).lookup n).or (t'.ids.lookup n)) :
      Over left (u.set s.kind t) (v.set s.kind t') := by
    constructor
    · intro kind
      by_cases hkind : kind = s.kind
      · rw [hkind, Users.get_set, Users.get_set, hnames]
      · rw [Users.get_set_ne _ _ hkind, Users.get_set_ne _ _ hkind, h.names]
    · intro kind n
      by_cases hkind : kind = s.kind
      · rw [hkind, Users.get_set, Users.get_set, hids]
      · rw [Users.get_set_ne _ _ hkind, Users.get_set_ne _ _ hkind, h.ids]
  have hcompat := hcompatible s.kind
  have hnames := h.names s.kind
  have hids := h.ids s.kind
  rw [requireSpec, Users.get_set] at hcompat
  rw [requireSpec, requireSpec]
  dsimp only at hcompat ⊢
  generalize u.get s.kind = t at hnames hids ⊢
  generalize v.get s.kind = t' at hnames hids hcompat ⊢
  cases hclaim : claimOf s.spec with
  | none =>
    obtain ⟨w, hr⟩ := parseUsergroup_invalid s.kind s.makefile t hclaim
    obtain ⟨w', hr'⟩ := parseUsergroup_invalid s.kind s.makefile t' hclaim
    rw [hr, hr']
    exact ⟨rfl, hset t t' hnames hids⟩
  | some p =>
    obtain ⟨name, id⟩ := p
    by_cases hfree' : Free t'.ids name id
    swap
    · -- an id that another name has in the fresh run, it has in both
      have hfree : ¬ Free t.ids name id := by
        intro hfree
        refine hfree' fun n e hid he => ?_
        cases hleft : (left s.kind).lookup n with
        | none => exact hfree n e hid (by rw [hids, hleft, he, Option.none_or])
        | some e' =>
          have heq := hcompat n e' e hleft (parseUsergroup_extends _ _ _ _ he)
          rw [← heq]
          exact hfree n e' hid (by rw [hids, hleft, Option.some_or])
      obtain ⟨w, hr⟩ := parseUsergroup_taken s.kind s.makefile hclaim hfree
      obtain ⟨w', hr'⟩ := parseUsergroup_taken s.kind s.makefile hclaim hfree'
      rw [hr, hr']
      exact ⟨rfl, hset t t' hnames hids⟩
    have hafter : (parseUsergroup s.kind s.makefile s.spec t').2.ids =
        idsAfter s.makefile name id t'.ids := by
      rw [parseUsergroup_free s.kind s.makefile hclaim hfree']
      cases takeName s.kind s.makefile name id t'.names <;> rfl
    rw [hafter] at hcompat
    have hfree : Free t.ids name id := by
      intro n e hid he
      rw [hids, Option.or_eq_some_iff] at he
      obtain he | ⟨-, he⟩ := he
      · cases hlookup : t'.ids.lookup n with
        | some e' =>
          rw [hcompat n e e' he (by rw [lookup_idsAfter, hlookup, Option.some_or])]
          exact hfree' n e' hid hlookup
        | none =>
          rw [hcompat n e ⟨name, s.makefile⟩ he
            (by rw [lookup_idsAfter, hlookup, if_pos hid, Option.none_or])]
      · exact hfree' n e hid he
    have hlookup (n : Nat) : (idsAfter s.makefile name id t.ids).lookup n =
        ((left s.kind).lookup n).or ((idsAfter s.makefile name id t'.ids).lookup n) := by
      rw [lookup_idsAfter, lookup_idsAfter, hids, Option.or_assoc]
    rw [parseUsergroup_free s.kind s.makefile hclaim hfree,
      parseUsergroup_free s.kind s.makefile hclaim hfree', hnames]
    cases takeName s.kind s.makefile name id t'.names with
    | error w => exact ⟨rfl, hset _ _ rfl hlookup⟩
    | ok names => exact ⟨rfl, hset _ _ rfl hlookup⟩

theorem requireSpecs_over (ss : List UgSpec) (h : Over left u v)
    (hcompatible : Compatible left (requireSpecs v ss).2) :
    (requireSpecs u ss).1.isSome = (requireSpecs v ss).1.isSome ∧
      Over left (requireSpecs u ss).2 (requireSpecs v ss).2 := by
  induction ss generalizing u v with
  | nil => exact ⟨rfl, h⟩
  | cons s ss ih =>
    have hfirst : Compatible left (requireSpec v s).2 := by
      refine hcompatible.mono ?_
      rw [requireSpecs]
      rcases requireSpec v s with ⟨w | w, v'⟩
      · exact requireSpecs_extends v' ss
      · exact .refl v'
    obtain ⟨hsome, hover⟩ := requireSpec_over s h hfirst
    rw [requireSpecs] at hcompatible ⊢
    rw [requireSpecs]
    rcases hr : requireSpec u s with ⟨w | w, u'⟩ <;> rcases hr' : requireSpec v s with ⟨w' | w', v'⟩
    all_goals rw [hr, hr'] at hsome hover
    · rw [hr'] at hcompatible
      exact ih hover hcompatible
    · cases hsome
    · cases hsome
    · exact ⟨rfl, hover⟩

/-- **The whole file is read alike.** -/
theorem parseLoop_over (ignore : List Bytes) (n : Nat) (r : Reader) (h : Over left u v)
    (hcompatible : Compatible left (parseLoop ignore n r v).2.2) :
    (parseLoop ignore n r u).1 = (parseLoop ignore n r v).1 ∧
      (parseLoop ignore n r u).2.1 = (parseLoop ignore n r v).2.1 ∧
        Over left (parseLoop ignore n r u).2.2 (parseLoop ignore n r v).2.2 := by
  induction n generalizing r u v with
  | zero => exact ⟨rfl, rfl, h⟩
  | succ n ih =>
    rw [parseLoop] at hcompatible ⊢
    rw [parseLoop]
    cases hlines : r.lines with
    | nil => exact ⟨rfl, rfl, h⟩
    | cons line lines =>
      rw [hlines] at hcompatible
      dsimp only at hcompatible ⊢
      generalize readLine ignore (chompLine line) { r with lines := lines } = p
        at hcompatible ⊢
      have hfirst : Compatible left (requireSpecs v p.2).2 := by
        refine hcompatible.mono ?_
        rcases requireSpecs v p.2 with ⟨w | w, v'⟩
        · exact parseLoop_extends ignore n p.1 v'
        · exact .refl v'
      obtain ⟨hsome, hover⟩ := requireSpecs_over p.2 h hfirst
      rcases hr : requireSpecs u p.2 with ⟨w | w, u'⟩ <;>
        rcases hr' : requireSpecs v p.2 with ⟨w' | w', v'⟩
      all_goals rw [hr, hr'] at hsome hover
      · rw [hr'] at hcompatible
        exact ih p.1 hover hcompatible
      · cases hsome
      · cases hsome
      · exact ⟨rfl, rfl, hover⟩

end

/-! ## The ids of a text -/

section
variable {ss : List UgSpec} {s : UgSpec} {kind : Kind} {n : Nat} {e : IdEntry}

theorem accepted_concat : Accepted (ss ++ [s]) ↔
    Accepted ss ∧ s.claim ≠ none ∧ ∀ t ∈ ss, Agree t s := by
  constructor
  · rintro ⟨hvalid, hagree⟩
    rw [List.pairwise_append] at hagree
    refine ⟨⟨fun t ht => hvalid t (List.mem_append_left _ ht), hagree.1⟩,
      hvalid s (List.mem_append_right _ (List.mem_singleton_self s)), fun t ht => ?_⟩
    exact hagree.2.2 t ht s (List.mem_singleton_self s)
  · rintro ⟨⟨hvalid, hagree⟩, hs, hboth⟩
    refine ⟨fun t ht => ?_, List.pairwise_append.mpr ⟨hagree, List.pairwise_singleton _ _, ?_⟩⟩
    · rcases List.mem_append.mp ht with ht | ht
      · exact hvalid t ht
      · rwa [List.mem_singleton.mp ht]
    · intro t ht t' ht'
      rw [List.mem_singleton.mp ht']
      exact hboth t ht

/-- A spec at the end records its id, when it is the first one for it. -/
theorem records_concat : Records (ss ++ [s]) kind n e ↔ Records ss kind n e ∨
    Accepted ss ∧ s.kind = kind ∧ s.claim = some (e.name, some n) ∧ s.makefile = e.makefile ∧
      ∀ t ∈ ss, t.kind = kind → ∀ name, t.claim ≠ some (name, some n) := by
  constructor
  · rintro ⟨front, x, back, heq, hrest⟩
    rcases List.eq_nil_or_concat back with rfl | ⟨back, y, rfl⟩
    · obtain ⟨rfl, hx⟩ := List.append_inj' heq rfl
      cases hx
      exact .inr hrest
    · refine .inl ⟨front, x, back, ?_, hrest⟩
      rw [List.concat_eq_append, ← List.cons_append, ← List.append_assoc] at heq
      exact (List.append_inj' heq rfl).1
  · rintro (⟨front, x, back, rfl, hrest⟩ | hrest)
    · exact ⟨front, x, back ++ [s], by rw [List.append_assoc, List.cons_append], hrest⟩
    · exact ⟨ss, s, [], rfl, hrest⟩

theorem Records.mem (h : Records ss kind n e) :
    ∃ t ∈ ss, t.kind = kind ∧ t.claim = some (e.name, some n) := by
  obtain ⟨front, x, back, rfl, -, hkind, hclaim, -⟩ := h
  exact ⟨x, List.mem_append_right _ List.mem_cons_self, hkind, hclaim⟩

instance : Std.Symm Agree where
  symm := fun _ _ h hkind a b ha hb =>
    have hagree := h hkind.symm b a hb ha
    ⟨fun heq => (hagree.1 heq.symm).symm, fun heq hne => (hagree.2 heq.symm (heq ▸ hne)).symm⟩

theorem Accepted.agree_all (h : Accepted ss) : ∀ s ∈ ss, ∀ t ∈ ss, Agree s t := by
  have hself (s : UgSpec) : Agree s s := by
    intro _ a b ha hb
    rw [ha] at hb
    rw [Option.some.inj hb]
    exact ⟨fun _ => rfl, fun _ _ => rfl⟩
  exact fun s hs t ht => h.agree.forall_of_forall (fun s _ => hself s) hs ht

/-- Where an id is claimed, it is recorded. -/
theorem exists_record (h : Accepted ss)
    (hclaim : ∃ t ∈ ss, t.kind = kind ∧ ∃ name, t.claim = some (name, some n)) :
    ∃ e, Records ss kind n e := by
  induction ss using List.reverseRecOn with
  | nil =>
    obtain ⟨t, ht, -⟩ := hclaim
    cases ht
  | append_singleton ss x ih =>
    have hfront := (accepted_concat.mp h).1
    by_cases hearlier : ∃ t ∈ ss, t.kind = kind ∧ ∃ name, t.claim = some (name, some n)
    · obtain ⟨e, he⟩ := ih hfront hearlier
      exact ⟨e, records_concat.mpr (.inl he)⟩
    · obtain ⟨t, ht, hkind, name, hname⟩ := hclaim
      obtain rfl : t = x := by
        refine List.mem_singleton.mp ((List.mem_append.mp ht).resolve_left fun ht => ?_)
        exact hearlier ⟨t, ht, hkind, name, hname⟩
      refine ⟨⟨name, t.makefile⟩, records_concat.mpr (.inr ⟨hfront, hkind, hname, rfl, ?_⟩)⟩
      exact fun t' ht' hkind' name' hname' => hearlier ⟨t', ht', hkind', name', hname'⟩

theorem requireSpecs_concat (u : Users) (ss : List UgSpec) (s : UgSpec) :
    requireSpecs u (ss ++ [s]) =
      if (requireSpecs u ss).1 = none then requireSpec (requireSpecs u ss).2 s
      else requireSpecs u ss := by
  induction ss generalizing u with
  | nil =>
    rw [List.nil_append, requireSpecs, requireSpecs, if_pos rfl]
    rcases requireSpec u s with ⟨w | w, v⟩ <;> rfl
  | cons x ss ih =>
    rw [List.cons_append, requireSpecs, requireSpecs]
    rcases requireSpec u x with ⟨w | w, v⟩
    · exact ih v
    · rw [if_neg (Option.some_ne_none w)]

/-- What a fresh run says of the specs. -/
structure Ran (ss : List UgSpec) (r : Option Bytes × Users) : Prop where
  accepted : r.1 = none ↔ Accepted ss
  ids : ∀ kind n e, (r.2.get kind).ids.lookup n = some e ↔ Records ss kind n e
  names : r.1 = none → ∀ kind name id,
    (∃ makefile, (r.2.get kind).names.lookup name = some ⟨id, makefile⟩) ↔
      ∃ t ∈ ss, t.kind = kind ∧ t.claim = some (name, id)

theorem ran_nil : Ran [] (none, .empty) where
  accepted := iff_of_true rfl ⟨fun _ h => absurd h List.not_mem_nil, .nil⟩
  ids := by
    intro kind n e
    refine iff_of_false (fun h => by cases kind <;> cases h) fun h => ?_
    obtain ⟨t, ht, -⟩ := h.mem
    cases ht
  names := by
    intro _ kind name id
    refine iff_of_false (fun h => ?_) fun h => ?_
    · obtain ⟨makefile, h⟩ := h
      cases kind <;> cases h
    · obtain ⟨t, ht, -⟩ := h
      cases ht

/-- A spec that is not taken leaves everything, and records nothing. -/
theorem Ran.rejected {r : Option Bytes × Users} (h : Ran ss r) (w : Bytes)
    (hnot : ¬ Accepted (ss ++ [s]))
    (hrecords : ∀ kind n e, Records (ss ++ [s]) kind n e → Records ss kind n e) :
    Ran (ss ++ [s]) (some w, r.2) where
  accepted := iff_of_false (Option.some_ne_none w) hnot
  ids := fun kind n e => (h.ids kind n e).trans
    ⟨fun hrecord => records_concat.mpr (.inl hrecord), hrecords kind n e⟩
  names := fun hnone => by cases hnone

/-- The id of a spec can be had when all specs that claim it have the same name. -/
theorem Ran.free_iff {u : Users} (h : Ran ss (none, u)) {name : Bytes} {id : Option Nat} :
    Free (u.get kind).ids name id ↔ ∀ t ∈ ss, t.kind = kind → ∀ name',
      t.claim = some (name', id) → id ≠ none → name' = name := by
  have haccepted := h.accepted.mp rfl
  constructor
  · intro hfree t ht hkind name' hclaim hne
    obtain ⟨n, rfl⟩ := Option.ne_none_iff_exists'.mp hne
    obtain ⟨e, he⟩ := exists_record haccepted ⟨t, ht, hkind, name', hclaim⟩
    obtain ⟨t', ht', hkind', hclaim'⟩ := he.mem
    rw [← hfree n e rfl ((h.ids kind n e).mpr he)]
    exact (haccepted.agree_all t ht t' ht' (hkind.trans hkind'.symm) _ _ hclaim hclaim').2 rfl hne
  · intro hall n e hid he
    obtain ⟨t, ht, hkind, hclaim⟩ := ((h.ids kind n e).mp he).mem
    rw [← hid] at hclaim
    exact hall t ht hkind e.name hclaim (by rw [hid]; exact Option.some_ne_none n)

/-- The ids behind a spec that may have its id. -/
theorem Ran.ids_next {u : Users} (h : Ran ss (none, u)) {name : Bytes} {id : Option Nat}
    (hclaim : s.claim = some (name, id)) (names : Hash Bytes NameEntry) (kind : Kind) (n : Nat)
    (e : IdEntry) :
    ((u.set s.kind ⟨names, idsAfter s.makefile name id (u.get s.kind).ids⟩).get kind).ids.lookup n =
      some e ↔ Records (ss ++ [s]) kind n e := by
  have haccepted := h.accepted.mp rfl
  rw [records_concat]
  by_cases hkind : kind = s.kind
  swap
  · rw [Users.get_set_ne _ _ hkind]
    exact (h.ids kind n e).trans (or_iff_left fun hs => hkind hs.2.1.symm).symm
  subst hkind
  rw [Users.get_set]
  dsimp only
  rw [lookup_idsAfter, Option.or_eq_some_iff]
  refine or_congr (h.ids s.kind n e) ?_
  -- nothing is recorded for the id when no spec claims it
  have hnone : (u.get s.kind).ids.lookup n = none ↔
      ∀ t ∈ ss, t.kind = s.kind → ∀ name, t.claim ≠ some (name, some n) := by
    constructor
    · intro hlookup t ht hkind name' hclaim'
      obtain ⟨e', he'⟩ := exists_record haccepted ⟨t, ht, hkind, name', hclaim'⟩
      rw [← h.ids] at he'
      rw [hlookup] at he'
      cases he'
    · intro hall
      refine Option.eq_none_iff_forall_ne_some.mpr fun e' he' => ?_
      obtain ⟨t, ht, hkind, hclaim'⟩ := ((h.ids s.kind n e').mp he').mem
      exact hall t ht hkind e'.name hclaim'
  rw [hnone, hclaim]
  constructor
  · rintro ⟨hfirst, hentry⟩
    split_ifs at hentry with hid
    cases hentry
    exact ⟨haccepted, rfl, by rw [hid], rfl, hfirst⟩
  · rintro ⟨-, -, heq, hmakefile, hfirst⟩
    cases heq
    rw [if_pos rfl, hmakefile]
    exact ⟨hfirst, rfl⟩

/-- The names behind a spec that is taken. -/
theorem Ran.names_next {u : Users} (h : Ran ss (none, u)) {name : Bytes} {id : Option Nat}
    (hclaim : s.claim = some (name, id)) {names : Hash Bytes NameEntry}
    (htake : takeName s.kind s.makefile name id (u.get s.kind).names = .ok names)
    (ids : Hash Nat IdEntry) (kind : Kind) (name' : Bytes) (id' : Option Nat) :
    (∃ makefile, ((u.set s.kind ⟨names, ids⟩).get kind).names.lookup name' = some ⟨id', makefile⟩) ↔
      ∃ t ∈ ss ++ [s], t.kind = kind ∧ t.claim = some (name', id') := by
  have hnames := h.names rfl kind name' id'
  have hconcat : (∃ t ∈ ss ++ [s], t.kind = kind ∧ t.claim = some (name', id')) ↔
      (∃ t ∈ ss, t.kind = kind ∧ t.claim = some (name', id')) ∨
        s.kind = kind ∧ s.claim = some (name', id') := by
    simp only [List.mem_append, List.mem_singleton, or_and_right, exists_or, exists_eq_left]
  rw [hconcat, ← hnames]
  by_cases hkind : kind = s.kind
  swap
  · rw [Users.get_set_ne _ _ hkind]
    exact (or_iff_left fun hs => hkind hs.1.symm).symm
  subst hkind
  rw [Users.get_set, hclaim]
  dsimp only
  obtain ⟨hnone, rfl⟩ | ⟨e, he, rfl, rfl⟩ := takeName_ok htake
  · by_cases hname : name' = name
    · subst hname
      rw [AList.lookup_insert, hnone]
      simp [eq_comm]
    · rw [AList.lookup_insert_ne hname, or_iff_left]
      rintro ⟨-, heq⟩
      cases heq
      exact hname rfl
  · refine (or_iff_left_of_imp ?_).symm
    rintro ⟨-, heq⟩
    cases heq
    exact ⟨e.makefile, he⟩

/-- A spec can be taken behind others when its name and its id are free. -/
theorem Ran.accepted_next {u : Users} (h : Ran ss (none, u)) {name : Bytes} {id : Option Nat}
    (hclaim : s.claim = some (name, id)) : Accepted (ss ++ [s]) ↔
      Free (u.get s.kind).ids name id ∧
        ∃ names, takeName s.kind s.makefile name id (u.get s.kind).names = .ok names := by
  have hname : (∃ names, takeName s.kind s.makefile name id (u.get s.kind).names = .ok names) ↔
      ∀ t ∈ ss, t.kind = s.kind → ∀ id', t.claim = some (name, id') → id' = id := by
    have hnames := h.names rfl s.kind name
    rw [takeName]
    cases hlookup : (u.get s.kind).names.lookup name with
    | none =>
      refine iff_of_true ⟨_, rfl⟩ fun t ht hkind id' hclaim' => ?_
      obtain ⟨makefile, he⟩ := (hnames id').mpr ⟨t, ht, hkind, hclaim'⟩
      rw [hlookup] at he
      cases he
    | some e =>
      dsimp only
      constructor
      · rintro ⟨names, hok⟩ t ht hkind id' hclaim'
        obtain ⟨makefile, he⟩ := (hnames id').mpr ⟨t, ht, hkind, hclaim'⟩
        rw [hlookup] at he
        cases he
        split_ifs at hok with hid
        exact hid
      · intro hall
        obtain ⟨t, ht, hkind, hclaim'⟩ := (hnames e.id).mp ⟨e.makefile, hlookup⟩
        rw [if_pos (hall t ht hkind e.id hclaim')]
        exact ⟨_, rfl⟩
  rw [accepted_concat, hname, h.free_iff]
  constructor
  · rintro ⟨-, -, hagree⟩
    refine ⟨fun t ht hkind name' hclaim' hne => ?_, fun t ht hkind id' hclaim' => ?_⟩
    · exact (hagree t ht hkind _ _ hclaim' hclaim).2 rfl hne
    · exact (hagree t ht hkind _ _ hclaim' hclaim).1 rfl
  · rintro ⟨hids, hnames⟩
    refine ⟨h.accepted.mp rfl, by rw [hclaim]; exact Option.some_ne_none _, ?_⟩
    rintro t ht hkind ⟨name', id'⟩ b ha hb
    rw [hclaim] at hb
    cases hb
    dsimp only
    constructor
    · rintro rfl
      exact hnames t ht hkind id' ha
    · rintro rfl hne
      exact hids t ht hkind name' ha hne

/-- One spec behind others that are taken. -/
theorem Ran.next {u : Users} (h : Ran ss (none, u)) (s : UgSpec) :
    Ran (ss ++ [s]) (requireSpec u s) := by
  rw [requireSpec]
  cases hclaim : s.claim with
  | none =>
    obtain ⟨w, hr⟩ := parseUsergroup_invalid s.kind s.makefile (u.get s.kind) hclaim
    rw [hr, Users.set_get]
    refine h.rejected w (fun haccepted => ?_) fun kind n e hrecord => ?_
    · exact (accepted_concat.mp haccepted).2.1 hclaim
    · refine (records_concat.mp hrecord).resolve_right fun hs => ?_
      rw [hclaim] at hs
      cases hs.2.2.1
  | some p =>
    obtain ⟨name, id⟩ := p
    have haccepted := h.accepted_next hclaim
    by_cases hfree : Free (u.get s.kind).ids name id
    swap
    · obtain ⟨w, hr⟩ := parseUsergroup_taken s.kind s.makefile hclaim hfree
      rw [hr, Users.set_get]
      refine h.rejected w (fun hall => hfree (haccepted.mp hall).1) fun kind n e hrecord => ?_
      refine (records_concat.mp hrecord).resolve_right fun hs => ?_
      obtain ⟨-, rfl, heq, -, hfirst⟩ := hs
      rw [hclaim] at heq
      cases heq
      exact hfree (h.free_iff.mpr fun t ht hkind name' hclaim' =>
        absurd hclaim' (hfirst t ht hkind name'))
    rw [parseUsergroup_free s.kind s.makefile hclaim hfree]
    cases htake : takeName s.kind s.makefile name id (u.get s.kind).names with
    | error w =>
      refine ⟨iff_of_false (Option.some_ne_none w) fun hall => ?_, h.ids_next hclaim _,
        fun hnone => by cases hnone⟩
      obtain ⟨-, names, hok⟩ := haccepted.mp hall
      rw [htake] at hok
      cases hok
    | ok names =>
      exact ⟨iff_of_true rfl (haccepted.mpr ⟨hfree, names, htake⟩), h.ids_next hclaim _,
        fun _ => h.names_next hclaim htake _⟩

/-- **What a fresh process has read.** -/
theorem requireSpecs_ran (ss : List UgSpec) : Ran ss (requireSpecs .empty ss) := by
  induction ss using List.reverseRecOn with
  | nil => exact ran_nil
  | append_singleton ss s ih =>
    rw [requireSpecs_concat]
    split_ifs with hnone
    · refine Ran.next ?_ s
      rw [← hnone]
      exact ih
    · obtain ⟨w, hw⟩ := Option.ne_none_iff_exists'.mp hnone
      have hnot : ¬ Accepted ss := fun hall => hnone (ih.accepted.mpr hall)
      have hran := ih.rejected w (s := s) (fun hall => hnot (accepted_concat.mp hall).1)
        fun kind n e hrecord => (records_concat.mp hrecord).resolve_right fun hs => hnot hs.1
      rw [← hw] at hran
      exact hran

end

/-! ## Clearing -/

section
variable (ignore : List Bytes)

/-- There are enough rounds. -/
theorem parseLoop_rounds {n : Nat} {r : Reader} (h : r.lines.length ≤ n) (u : Users) :
    parseLoop ignore n r u = parseLoop ignore r.lines.length r u := by
  induction n using Nat.strongRecOn generalizing r u with
  | _ n ih =>
    obtain ⟨lines, src, pkg, override, tables⟩ := r
    cases lines with
    | nil => cases n <;> rfl
    | cons line lines =>
      cases n with
      | zero => cases h
      | succ n =>
        have hlines := @length_readLine (chompLine line) ⟨lines, src, pkg, override, tables⟩ ignore
        have hn := Nat.le_of_succ_le_succ h
        dsimp only at hlines hn ⊢
        rw [List.length_cons, parseLoop, parseLoop]
        dsimp only
        generalize readLine ignore (chompLine line) ⟨lines, src, pkg, override, tables⟩ = p
          at hlines ⊢
        rcases requireSpecs u p.2 with ⟨w | w, v⟩
        · dsimp only
          rw [ih n (Nat.lt_succ_self n) (hlines.trans hn) v,
            ih lines.length (Nat.lt_succ_of_le hn) hlines v]
        · rfl

/-- The users and groups of a loop are those of its specs. -/
theorem parseLoop_users (n : Nat) (r : Reader) (u : Users) :
    (parseLoop ignore n r u).2.2 = (requireSpecs u (loopSpecs ignore n r)).2 := by
  induction n generalizing r u with
  | zero => rfl
  | succ n ih =>
    rw [parseLoop, loopSpecs]
    cases r.lines with
    | nil => rfl
    | cons line lines =>
      dsimp only
      generalize readLine ignore (chompLine line) { r with lines := lines } = p
      generalize hrest : loopSpecs ignore n p.1 = rest
      obtain ⟨r', ss⟩ := p
      induction ss generalizing u with
      | nil =>
        subst hrest
        exact ih r' u
      | cons s ss ih' =>
        dsimp only at ih' ⊢
        rw [List.cons_append, requireSpecs, requireSpecs]
        rcases requireSpec u s with ⟨w | w, v⟩
        · exact ih' v hrest
        · rfl

theorem users_fresh (file : Bytes) : (parsePackageMetadata ignore (some file) .fresh).2.users =
    (requireSpecs .empty (specs ignore file)).2 :=
  parseLoop_users ignore _ _ _

/-- What is left over is recorded by the second text, too. -/
theorem cleared_iff (f g : Bytes) : Cleared ignore f g ↔
    (parsePackageMetadata ignore (some f) .fresh).2.users.Extends
      (parsePackageMetadata ignore (some g) .fresh).2.users := by
  rw [Cleared]
  generalize (parsePackageMetadata ignore (some f) .fresh).2 = q
  have hclear (kind : Kind) : ((clearPackages q).users.get kind).ids = (q.users.get kind).ids := by
    cases kind <;> rfl
  constructor
  · intro h kind n e he
    rw [← h.ids kind n]
    rw [← hclear] at he
    exact parseLoop_extends ignore _ _ (clearPackages q).users kind n e he
  · intro h
    have hover : Over (fun kind => (q.users.get kind).ids) (clearPackages q).users .empty := by
      refine ⟨fun kind => by cases kind <;> rfl, fun kind n => ?_⟩
      rw [hclear]
      cases kind <;> exact (Option.or_none).symm
    have hcompatible : Compatible (fun kind => (q.users.get kind).ids)
        (parseLoop ignore (rawLines g).length (startReader g .empty) .empty).2.2 := by
      intro kind n e e' he he'
      exact Option.some.inj ((h kind n e he).symm.trans he')
    obtain ⟨hresult, htables, hafter⟩ := parseLoop_over ignore _ _ hover hcompatible
    refine ⟨congrArg some hresult, htables, fun kind key => ?_, fun kind n => ?_⟩
    · exact congrArg (AList.lookup key) (hafter.names kind)
    · refine (hafter.ids kind n).trans ?_
      cases hleft : (q.users.get kind).ids.lookup n with
      | none => exact Option.none_or
      | some e => exact (Option.some_or).trans (h kind n e hleft).symm

/-- **When clearing is complete.** Names and ids are a partial bijection in every process. A cleared
process reads a text like a fresh one when the ids of the text before are recorded again. -/
theorem usergroup_iff (ignore : List Bytes) (f g : Bytes) :
    (∀ p, Reachable p → ∀ kind, Bijective (p.users.get kind)) ∧
      (Cleared ignore f g ↔
        ∀ kind n e, Records (specs ignore f) kind n e → Records (specs ignore g) kind n e) := by
  refine ⟨fun p hp kind => (reachable_sound hp kind).bijective, ?_⟩
  rw [cleared_iff, users_fresh, users_fresh]
  refine forall_congr' fun kind => forall_congr' fun n => forall_congr' fun e => ?_
  rw [(requireSpecs_ran (specs ignore f)).ids kind n e, (requireSpecs_ran (specs ignore g)).ids]

end

/-! ## An id that is left over -/

def firstFeed : Bytes :=
    ascii "Source-Makefile: package/a/Makefile\nPackage: a\nRequire-User: a=100\n"

def secondFeed : Bytes :=
  ascii "Source-Makefile: package/b/Makefile\nPackage: b\nRequire-User: b=100\n"

/-- The second feed fails in a cleared process. -/
theorem not_cleared : ¬ Cleared [] firstFeed secondFeed := by
  intro h
  have hresult := h.result
  revert hresult
  decide +kernel

end UolaOs.Metadata
