import UolaOs.Lib.CString
import UolaOs.Lib.Hash
import UolaOs.Lib.Text

/-!
# Kernel configurations

The operators of scripts/kconfig.pl on configurations, with the prefix `CONFIG_`:

* `loadConfig` and `dumpConfig` read and print one, line by line;
* `configAnd`, `configAdd`, `configDiff` and `configSub` are the loops over the keys of a hash;
* `Loaded` is a configuration whose entries are such that lines can give them.
-/

namespace UolaOs.Kconfig

abbrev Config := Hash Bytes Bytes

def PREFIX : Bytes := ascii "CONFIG_"
def undef : Bytes := ascii "#undef"
def yes : Bytes := ascii "y"
def no : Bytes := ascii "n"
def zero : Bytes := ascii "0"
def notSet : Bytes := ascii " is not set"

/-- What counts as true: a value that is defined, not empty, and not "0". -/
def truthy : Option Bytes → Bool
  | none => false
  | some val => val ≠ [] ∧ val ≠ zero

/-! ## Reading -/

def setConfig (config : Config) (idx newval : Bytes) (modPlus : Bool) : Config :=
  if config.lookup idx = none ∨ modPlus = false ∨ config.lookup idx = some undef ∨ newval = yes then
    config.insert idx newval
  else config

/-- The rest of a line that starts with `front`. -/
def afterPrefix (front line : Bytes) : Option Bytes :=
  if front <+: line then some (line.drop front.length) else none

/-- `(.+?)=(.+)`: the shortest name of at least one character; a value cannot be empty. -/
def parseSet : Bytes → Option (Bytes × Bytes)
  | [] => none
  | c :: rest =>
    match rest.dropWhile (· ≠ 0x3d) with
    | _ :: b :: val => some (c :: rest.takeWhile (· ≠ 0x3d), b :: val)
    | _ => none

/-- `(.+?) is not set` -/
def parseNotSet : Bytes → Option Bytes
  | [] => none
  | c :: rest => (splitBefore notSet rest).map (c :: ·)

/-- The symbol and the value of a line, if it has some. -/
def parseLine (line : Bytes) : Option (Bytes × Bytes) :=
  ((afterPrefix PREFIX line).bind parseSet).or
    (((afterPrefix (ascii "# " ++ PREFIX) line).bind parseNotSet).map fun idx => (idx, undef))

def loadLine (modPlus : Bool) (config : Config) (line : Bytes) : Config :=
  match parseLine line with
  | none => config
  | some (idx, newval) => setConfig config idx newval modPlus

def loadConfig (modPlus : Bool) (file : Bytes) : Config :=
  (readLines file).foldl (loadLine modPlus) ∅

/-! ## The operators -/

section
variable (cfg1 cfg2 : Config)

def configAnd : Config :=
  cfg1.entries.foldl (fun config e =>
    if truthy (cfg2.lookup e.1) ∧ cfg2.lookup e.1 = some e.2 then config.insert e.1 e.2
    else config) ∅

/-- One key of a configuration that is added. -/
def addEntry (modPlus : Bool) (config : Config) (e : Sigma fun _ : Bytes => Bytes) : Config :=
  if modPlus ∧ truthy (config.lookup e.1) ∧ (config.lookup e.1 = some yes ∨ e.2 = undef) then config
  else config.insert e.1 e.2

def configAdd (modPlus : Bool) : Config :=
  [cfg1, cfg2].foldl (fun config cfg => cfg.entries.foldl (addEntry modPlus) config) ∅

def configDiff (newOnly : Bool) : Config :=
  cfg2.entries.foldl (fun config e =>
    if (cfg1.lookup e.1 = none ∨ cfg1.lookup e.1 ≠ some e.2) ∧
        ¬ (newOnly ∧ cfg1.lookup e.1 = none ∧ e.2 = undef) then config.insert e.1 e.2
    else config) ∅

def isPattern (expr : Bytes) : Bool := expr.any fun c => c ∈ ascii "?.*"

/-- `regex` tells what a pattern matches from end to end. -/
def configSub (regex : Bytes → Bytes → Bool) : Config :=
  let keys := cfg2.keys.flatMap fun expr =>
    if isPattern expr then cfg1.keys.filter (regex expr) else [expr]
  keys.foldl (fun config key => config.erase key) cfg1

end

/-! ## Printing -/

/-- A line, without its newline. -/
def cfgline (name val : Bytes) : Bytes :=
  if val = undef ∨ val = no then ascii "# " ++ PREFIX ++ name ++ notSet
  else PREFIX ++ name ++ 0x3d :: val

/-- The order of strings, byte by byte. -/
def notAfter : Bytes → Bytes → Bool
  | [], _ => true
  | _ :: _, [] => false
  | a :: s, b :: t => decide (a < b) || (decide (a = b) && notAfter s t)

section
variable {a b c : Bytes}

theorem notAfter_total (a b : Bytes) : (notAfter a b || notAfter b a) = true := by
  induction a generalizing b with
  | nil => rfl
  | cons x a ih =>
    cases b with
    | nil => rfl
    | cons y b =>
      have hrest := ih b
      simp only [notAfter, Bool.or_eq_true, Bool.and_eq_true, decide_eq_true_iff] at hrest ⊢
      obtain h | h | h : x < y ∨ x = y ∨ y < x := by
        simp only [UInt8.lt_iff_toNat_lt, ← UInt8.toNat_inj]
        omega
      · exact .inl (.inl h)
      · exact hrest.imp (fun hab => .inr ⟨h, hab⟩) fun hba => .inr ⟨h.symm, hba⟩
      · exact .inr (.inl h)

theorem notAfter_antisymm (h : notAfter a b = true) (h' : notAfter b a = true) : a = b := by
  induction a generalizing b with
  | nil =>
    cases b with
    | nil => rfl
    | cons y b => cases h'
  | cons x a ih =>
    cases b with
    | nil => cases h
    | cons y b =>
      simp only [notAfter, Bool.or_eq_true, Bool.and_eq_true, decide_eq_true_iff] at h h'
      obtain h | ⟨rfl, h⟩ := h
      · obtain h' | ⟨rfl, -⟩ := h'
        · exact absurd (UInt8.lt_trans h h') (UInt8.lt_irrefl x)
        · exact absurd h (UInt8.lt_irrefl _)
      · obtain h' | ⟨-, h'⟩ := h'
        · exact absurd h' (UInt8.lt_irrefl x)
        · rw [ih h h']

theorem notAfter_trans (a b c : Bytes) (h : notAfter a b = true) (h' : notAfter b c = true) :
    notAfter a c = true := by
  induction a generalizing b c with
  | nil => rfl
  | cons x a ih =>
    cases b with
    | nil => cases h
    | cons y b =>
      cases c with
      | nil => cases h'
      | cons z c =>
        simp only [notAfter, Bool.or_eq_true, Bool.and_eq_true, decide_eq_true_iff] at h h' ⊢
        obtain h | ⟨rfl, h⟩ := h
        · obtain h' | ⟨rfl, -⟩ := h'
          · exact .inl (UInt8.lt_trans h h')
          · exact .inl h
        · exact h'.imp_right fun h' => ⟨h'.1, ih b c h h'.2⟩

end

/-- The lines in the order of the symbols. -/
def dumpLines (cfg : Config) : List Bytes :=
  (cfg.keys.mergeSort notAfter).map fun key => cfgline key ((cfg.lookup key).getD [])

def dumpConfig (cfg : Config) : Bytes := unlines (dumpLines cfg)

/-! ## Configurations that files can give -/

/-- A line gives this entry. -/
def Loadable (key val : Bytes) : Prop := ∃ line, newline ∉ line ∧ parseLine line = some (key, val)

structure Loaded where
  config : Config
  loadable : ∀ key val, config.lookup key = some val → Loadable key val

section
variable {config : Config} {key idx newval val : Bytes} {modPlus : Bool}

theorem lookup_setConfig (h : (setConfig config idx newval modPlus).lookup key = some val) :
    key = idx ∧ val = newval ∨ config.lookup key = some val := by
  rw [setConfig] at h
  split at h
  · by_cases hkey : key = idx
    · subst hkey
      rw [AList.lookup_insert] at h
      exact .inl ⟨rfl, (Option.some.inj h).symm⟩
    · rw [AList.lookup_insert_ne hkey] at h
      exact .inr h
  · exact .inr h

theorem lookup_loadLine {line : Bytes} (h : (loadLine modPlus config line).lookup key = some val) :
    parseLine line = some (key, val) ∨ config.lookup key = some val := by
  rw [loadLine] at h
  cases hline : parseLine line with
  | none =>
    rw [hline] at h
    exact .inr h
  | some kv =>
    rw [hline] at h
    obtain ⟨rfl, rfl⟩ | h := lookup_setConfig h
    · exact .inl rfl
    · exact .inr h

/-- An entry comes out of a line. -/
theorem lookup_lines {lines : List Bytes}
    (h : (lines.foldl (loadLine modPlus) config).lookup key = some val) :
    (∃ line ∈ lines, parseLine line = some (key, val)) ∨ config.lookup key = some val := by
  induction lines generalizing config with
  | nil => exact .inr h
  | cons line lines ih =>
    obtain ⟨l, hl, hparse⟩ | h := ih h
    · exact .inl ⟨l, List.mem_cons_of_mem _ hl, hparse⟩
    · exact (lookup_loadLine h).imp_left fun hparse => ⟨line, List.mem_cons_self, hparse⟩

end

theorem loadable_loadConfig (modPlus : Bool) (file : Bytes) (key val : Bytes)
    (h : (loadConfig modPlus file).lookup key = some val) : Loadable key val := by
  obtain ⟨line, hline, hparse⟩ | h := lookup_lines h
  · exact ⟨line, newline_notMem_readLines file line hline, hparse⟩
  · cases h

/-- What a file gives. -/
def load (modPlus : Bool) (file : Bytes) : Loaded :=
  ⟨loadConfig modPlus file, loadable_loadConfig modPlus file⟩

end UolaOs.Kconfig
