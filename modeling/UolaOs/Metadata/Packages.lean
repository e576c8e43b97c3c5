import UolaOs.Metadata.Overrides

/-!
# Packages

What `parse_package_metadata` of metadata.pm reads of packages, line by line.

* `Tables`: the hashes of packages. The references `$pkg` and `$src` are positions in the lists of
  all objects;
* `Reader`: the file, with `$src`, `$pkg` and `$override`;
* `readLine`: one line, and the users and groups that it requires.
-/

namespace UolaOs.Metadata

open Kconfig (truthy afterPrefix)

/-! ## Patterns -/

/-- `\s*(.+)\s*$`: the spaces at the end are a part of it. -/
def greedy (s : Bytes) : Option Bytes :=
  if s.dropWhile isSpace = [] then s.getLast?.map fun c => [c] else some (s.dropWhile isSpace)

def dropSpaces (s : Bytes) : Bytes := (s.reverse.dropWhile isSpace).reverse

def slash : UInt8 := 0x2f

/-- `(?:.+\/)?([^\/]+)` -/
def lastName (path : Bytes) : Option Bytes :=
  let name := (path.reverse.takeWhile (· ≠ slash)).reverse
  if name ≠ [] ∧ path.length - name.length ≠ 1 then some name else none

/-- What a `Source-Makefile` line says. -/
structure Makefile where
  makefile : Bytes
  path : Bytes
  name : Bytes

/-- `(?:package\/)?((?:.+\/)?([^\/]+))\/Makefile`, without the last part. -/
def matchDirectory (s : Bytes) : Option Makefile :=
  let named (path : Bytes) : Option Makefile :=
    (lastName path).map fun name => ⟨s ++ ascii "/Makefile", path, name⟩
  ((afterPrefix (ascii "package/") s).bind named).or (named s)

/-- The `Source-Makefile` pattern. Where nothing matches behind all of the spaces in front, it is
tried with fewer of them. -/
def sourceMakefile (line : Bytes) : Option Makefile :=
  (afterPrefix (ascii "Source-Makefile: ") line).bind fun rest =>
    let text := dropSpaces rest
    if ascii "/Makefile" <:+ text then
      let directory := text.take (text.length - (ascii "/Makefile").length)
      let spaces := (directory.takeWhile isSpace).length
      (List.range (spaces + 1)).findSome? fun i => matchDirectory (directory.drop (spaces - i))
    else none

/-! ## Lines of a file -/

/-- The lines, with their newlines. -/
def rawLines : Bytes → List Bytes
  | [] => []
  | c :: text =>
    if c = newline then [c] :: rawLines text
    else
      match rawLines text with
      | [] => [[c]]
      | line :: lines => (c :: line) :: lines

/-- The loop of `get_multiline`, and the lines that it leaves. -/
def multiline (before : Bytes) : List Bytes → Bytes × List Bytes
  | [] => ([], [])
  | line :: lines =>
    if ascii "@@" <+: line then ([], lines)
    else
      let r := multiline before lines
      ((if truthy (some line) = true then before ++ line else line) ++ r.1, r.2)

/-- `get_multiline` -/
def getMultiline (before : Bytes) (lines : List Bytes) : Bytes × List Bytes :=
  let r := multiline before lines
  (if truthy (some r.1) = true then r.1 else [], r.2)

/-! ## Objects -/

inductive Key where
  | title | depends | mdepends | provides | tristate | override | version | menu | submenu
  | submenudep | source | license | licensefiles | default | conflicts | hidden | variant
  | variantDefault | buildonly | repository | category | description | type | config | prereq
  deriving DecidableEq

/-- A scalar, a list, or 1 where it is set. -/
inductive Value where
  | text (s : Bytes)
  | words (l : List Bytes)
  | flag (set : Bool)
  deriving DecidableEq

/-- `$pkg` -/
structure Pkg where
  src : Nat
  name : Bytes
  fields : Hash Key Value

/-- `$src`; one that is first used by an `Override` line has no names. -/
structure Src where
  makefile : Option Bytes
  path : Option Bytes
  name : Option Bytes
  ignore : Bool
  packages : List Nat
  lists : Hash Bytes (List Bytes)

structure Tables where
  pkgs : List Pkg
  srcs : List Src
  package : Hash Bytes Nat
  vpackage : Hash Bytes (List Nat)
  srcpackage : Hash Bytes Nat
  category : Hash Bytes (Hash Bytes (List Nat))
  overrides : Hash Bytes Nat

/-- Without an object: none that there was can be reached from the tables. -/
def Tables.empty : Tables := ⟨[], [], ∅, ∅, ∅, ∅, ∅⟩

namespace Tables

variable (t : Tables)

def modifyPkg (pkg : Nat) (key : Key) (val : Value) : Tables :=
  { t with pkgs := t.pkgs.modify pkg fun p => { p with fields := p.fields.insert key val } }

def modifySrc (src : Nat) (key : Bytes) (val : List Bytes) : Tables :=
  { t with srcs := t.srcs.modify src fun s => { s with lists := s.lists.insert key val } }

/-- `$src->{name}` as a key. -/
def srcName (src : Nat) : Bytes := ((t.srcs[src]?).bind Src.name).getD []

def pkgName (pkg : Nat) : Bytes := ((t.pkgs[pkg]?).map Pkg.name).getD []

end Tables

/-! ## Fields -/

/-- `/^front.../ and $pkg->{key} = ...` -/
structure Rule where
  front : Bytes
  key : Key
  value : Bytes → Option Value

def textRule (front : String) (key : Key) : Rule :=
  ⟨ascii front, key, fun s => (greedy s).map .text⟩

def wordsRule (front : String) (key : Key) : Rule :=
  ⟨ascii front, key, fun s => (greedy s).map fun text => .words (splitSpaces text)⟩

def flagRule (front : String) (key : Key) : Rule :=
  ⟨ascii front, key, fun s => (greedy s).map fun _ => .flag true⟩

/-- A line without more after it. -/
def markRule (front : String) (key : Key) : Rule := ⟨ascii front, key, fun _ => some (.flag true)⟩

/-- `\s*([\w\-]+)\s*` -/
def variantValue (s : Bytes) : Option Value :=
  let variant := (s.dropWhile isSpace).takeWhile fun c => isWord c || c == 0x2d
  if variant = [] then none else some (.text variant)

/-- The patterns that only set one key. No two of them match the same line. -/
def rules : List Rule :=
  [textRule "Version: " .version, textRule "Title: " .title, textRule "Menu: " .menu,
    textRule "Submenu: " .submenu, textRule "Submenu-Depends: " .submenudep,
    textRule "Source: " .source, textRule "License: " .license,
    textRule "LicenseFiles: " .licensefiles, textRule "Default: " .default,
    wordsRule "Menu-Depends: " .mdepends, wordsRule "Depends: " .depends,
    wordsRule "Conflicts: " .conflicts, flagRule "Hidden: " .hidden,
    ⟨ascii "Build-Variant: ", .variant, variantValue⟩,
    markRule "Default-Variant: " .variantDefault, flagRule "Build-Only: " .buildonly,
    ⟨ascii "Repository:", .repository, fun s => (trim s).map .text⟩,
    markRule "Prereq-Check:" .prereq]

def applyRule (pkg : Nat) (line : Bytes) (t : Tables) (rule : Rule) : Tables :=
  match (afterPrefix rule.front line).bind rule.value with
  | none => t
  | some val => t.modifyPkg pkg rule.key val

/-- The `Provides` line: the package is put behind those that provide the same names. -/
def readProvides (pkg : Nat) (line : Bytes) (t : Tables) : Tables :=
  match (afterPrefix (ascii "Provides: ") line).bind greedy with
  | none => t
  | some s =>
    let vpkgs := splitSpaces s
    let t := t.modifyPkg pkg .provides (.words (t.pkgName pkg :: vpkgs))
    { t with
      vpackage := (vpkgs.filter fun vpkg => vpkg ≠ t.pkgName pkg).foldl
        (fun vpackage vpkg => vpackage.insert vpkg ((vpackage.lookup vpkg).getD [] ++ [pkg]))
        t.vpackage }

def readCategory (src pkg : Nat) (line : Bytes) (t : Tables) : Tables :=
  match (afterPrefix (ascii "Category: ") line).bind greedy with
  | none => t
  | some s =>
    let t := t.modifyPkg pkg .category (.text s)
    let sources := (t.category.lookup s).getD ∅
    let pkgs := (sources.lookup (t.srcName src)).getD []
    { t with category := t.category.insert s (sources.insert (t.srcName src) (pkgs ++ [pkg])) }

def readType (pkg : Nat) (line : Bytes) (t : Tables) : Tables :=
  match (afterPrefix (ascii "Type: ") line).bind greedy with
  | none => t
  | some s =>
    let types := splitSpaces s
    (t.modifyPkg pkg .type (.words types)).modifyPkg pkg .tristate
      (.flag (types.any fun type => decide (ascii "ipkg" <:+: type)))

/-! ## Users and groups of a line -/

inductive Kind where
  | user
  | group
  deriving DecidableEq

/-- `$typename` -/
def Kind.text : Kind → Bytes
  | .user => ascii "user"
  | .group => ascii "group"

/-- A user or a group that is required, and `$src->{makefile}`. -/
structure UgSpec where
  kind : Kind
  makefile : Option Bytes
  spec : Bytes
  deriving DecidableEq

/-- `split /:/, $ugspec, 2`, where empty parts and "0" are passed over. -/
def ugSpecs (makefile : Option Bytes) (ugspec : Bytes) : List UgSpec :=
  let user := ugspec.takeWhile (· ≠ 0x3a)
  let group := (ugspec.dropWhile (· ≠ 0x3a)).tail
  (if truthy (some user) = true then [⟨.user, makefile, user⟩] else []) ++
    if truthy (some group) = true then [⟨.group, makefile, group⟩] else []

/-- `Require-User:\s*(.*?)\s*$` -/
def requireUser (makefile : Option Bytes) (line : Bytes) : List UgSpec :=
  match afterPrefix (ascii "Require-User:") line with
  | none => []
  | some s => (splitSpaces (dropSpaces (s.dropWhile isSpace))).flatMap (ugSpecs makefile)

/-! ## Reading -/

/-- A file, with the variables of the loop. -/
structure Reader where
  lines : List Bytes
  src : Option Nat
  pkg : Option Nat
  /-- `$override`, where none is the empty one. -/
  override : Bytes
  tables : Tables

def readSource (ignore : List Bytes) (line : Bytes) (r : Reader) : Reader :=
  match sourceMakefile line with
  | none => r
  | some m =>
    let src := r.tables.srcs.length
    let lists := ((∅ : Hash Bytes (List Bytes)).insert (ascii "buildtypes") []).insert
      (ascii "builddepends") []
    { r with
      src := some src
      pkg := none
      override := []
      tables := { r.tables with
        srcs := r.tables.srcs ++
          [⟨some m.makefile, some m.path, some m.name, ignore.contains m.name, [], lists⟩]
        srcpackage := r.tables.srcpackage.insert m.name src } }

/-- `$src->{name}` makes an object when there is none. -/
def readOverride (line : Bytes) (r : Reader) : Reader :=
  match field (ascii "Override: ") line with
  | none => r
  | some override =>
    let src := r.src.getD r.tables.srcs.length
    let srcs := if r.src = none then r.tables.srcs ++ [⟨none, none, none, false, [], ∅⟩]
      else r.tables.srcs
    let tables := { r.tables with srcs }
    { r with
      src := some src
      override
      tables := { tables with overrides := tables.overrides.insert (tables.srcName src) 1 } }

def readPackage (src : Nat) (line : Bytes) (r : Reader) : Reader :=
  match field (ascii "Package:") line with
  | none => r
  | some name =>
    let t := r.tables
    let pkg := t.pkgs.length
    let fields := [(Key.title, Value.text []), (.depends, .words []), (.mdepends, .words []),
      (.provides, .words [name]), (.tristate, .flag true), (.override, .text r.override)].foldl
        (fun fields p => fields.insert p.1 p.2) (∅ : Hash Key Value)
    { r with
      pkg := some pkg
      tables := { t with
        pkgs := t.pkgs ++ [⟨src, name, fields⟩]
        srcs := t.srcs.modify src fun s => { s with packages := s.packages ++ [pkg] }
        package := t.package.insert name pkg
        vpackage := t.vpackage.insert name (pkg :: (t.vpackage.lookup name).getD []) } }

/-- The three `Build` lines. -/
def readBuild (src : Nat) (line : Bytes) (t : Tables) : Tables :=
  match (afterPrefix (ascii "Build-Depends: ") line).bind greedy with
  | some s => t.modifySrc src (ascii "builddepends") (splitSpaces s)
  | none =>
    match afterPrefix (ascii "Build-Depends/") line with
    | some rest =>
      let name := rest.takeWhile isWord
      match (afterPrefix (name ++ ascii ": ") rest).bind greedy with
      | some s =>
        if name = [] then t
        else t.modifySrc src (ascii "builddepends/" ++ name) (splitSpaces s)
      | none => t
    | none =>
      match (afterPrefix (ascii "Build-Types:") line).bind greedy with
      | some s => t.modifySrc src (ascii "buildtypes") (splitSpaces s)
      | none => t

/-- A `Description` or `Config` line, which goes on in the lines behind it. Afterwards `$_` is the
line that ended it, where no pattern matches. -/
def readMultiline (front : String) (key : Key) (opening before : Bytes) (pkg : Nat) (line : Bytes)
    (r : Reader) : Reader :=
  match afterPrefix (ascii front) line with
  | none => r
  | some s =>
    let m := getMultiline before r.lines
    { r with
      lines := m.2
      tables := r.tables.modifyPkg pkg key
        (.text (opening ++ s.dropWhile isSpace ++ newline :: m.1)) }

def tab : UInt8 := 0x09

/-- The lines of a package. -/
def readFields (src pkg : Nat) (line : Bytes) (r : Reader) : Reader :=
  let t := readType pkg line (readCategory src pkg line (readProvides pkg line
    (rules.foldl (applyRule pkg line) r.tables)))
  readMultiline "Config:" .config [] [tab] pkg line
    (readMultiline "Description: " .description [tab, tab, 0x20] [tab, tab, 0x20] pkg line
      { r with tables := t })

/-- One line, without its newline, in front of the lines of the reader. -/
def readLine (ignore : List Bytes) (line : Bytes) (r : Reader) : Reader × List UgSpec :=
  let r := readOverride line (readSource ignore line r)
  match r.src with
  | none => (r, [])
  | some src =>
    let r := readPackage src line r
    let r := { r with tables := readBuild src line r.tables }
    match r.pkg with
    | none => (r, [])
    | some pkg =>
      (readFields src pkg line r, requireUser ((r.tables.srcs[src]?).bind Src.makefile) line)

/-! ## The lines that are left -/

section
variable {line : Bytes} {r : Reader}

theorem length_multiline (before : Bytes) (lines : List Bytes) :
    (multiline before lines).2.length ≤ lines.length := by
  induction lines with
  | nil => exact Nat.le_refl 0
  | cons line lines ih =>
    rw [multiline]
    split
    · exact Nat.le_succ _
    · exact ih.trans (Nat.le_succ _)

theorem length_readMultiline (front : String) (key : Key) (opening before : Bytes) (pkg : Nat) :
    (readMultiline front key opening before pkg line r).lines.length ≤ r.lines.length := by
  rw [readMultiline]
  split
  · exact Nat.le_refl _
  · exact length_multiline before r.lines

theorem lines_readSource (ignore : List Bytes) : (readSource ignore line r).lines = r.lines := by
  rw [readSource]
  split <;> rfl

theorem lines_readOverride : (readOverride line r).lines = r.lines := by
  rw [readOverride]
  split <;> rfl

theorem lines_readPackage (src : Nat) : (readPackage src line r).lines = r.lines := by
  rw [readPackage]
  split <;> rfl

/-- No line comes back. -/
theorem length_readLine (ignore : List Bytes) :
    (readLine ignore line r).1.lines.length ≤ r.lines.length := by
  have hlines := (@lines_readOverride line _).trans (@lines_readSource line r ignore)
  rw [readLine]
  dsimp only
  rw [← hlines]
  generalize readOverride line (readSource ignore line r) = r
  cases r.src with
  | none => exact Nat.le_refl _
  | some src =>
    dsimp only
    rw [← @lines_readPackage line r src]
    generalize readPackage src line r = r
    cases r.pkg with
    | none => exact Nat.le_refl _
    | some pkg => exact (length_readMultiline _ _ _ _ _).trans (length_readMultiline _ _ _ _ _)

end

end UolaOs.Metadata
