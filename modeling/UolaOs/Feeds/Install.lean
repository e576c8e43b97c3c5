import Mathlib.Logic.Function.Basic
import Mathlib.Data.List.Sort

/-!
# Installing from feeds

`install` of scripts/feeds with what it calls. What `metadata.pm` makes of an index is given, and a
missing or rejected one is `none`. The exit status and the warnings are left out.

* The objects that the tables of a feed refer to are edited in place, so they are part of the state.
* `$feed_package` and the other tables in use are those of one feed, `selected`.
-/

namespace UolaOs.Feeds

/-- What Perl takes as true. -/
def truthy (s : String) : Bool := decide (s ≠ "" ∧ s ≠ "0")

/-- `s/^.+://`, up to the last colon that something is in front of. -/
def dropCondition (s : String) : String :=
  match s.toList with
  | [] => s
  | _ :: rest =>
    if ':' ∈ rest then String.ofList (rest.reverse.takeWhile (· ≠ ':')).reverse else s

/-- `s/\/.+$//` -/
def dropVariant (s : String) : String :=
  let front := s.toList.takeWhile (· ≠ '/')
  if s.toList.length ≤ front.length + 1 then s else String.ofList front

/-- `s/^\+//` -/
def dropPlus (s : String) : String :=
  match s.toList with
  | '+' :: rest => String.ofList rest
  | _ => s

/-- An entry of `builddepends` or `builddepends/host`, or of the `depends` of a package. -/
structure Dep where
  build : Bool
  text : String
  deriving DecidableEq

/-- What the loops of `install_src` make of the text of an entry. -/
def Dep.edit (d : Dep) : Dep :=
  ⟨d.build, if d.build = true then dropVariant (dropCondition d.text) else
    dropCondition (dropPlus d.text)⟩

/-- A source package, with its dependencies in the order of the loops of `install_src`: those of the
build first, then those of its packages. -/
structure Src where
  name : String
  deps : List Dep
  deriving DecidableEq

/-- An index that was accepted. -/
structure Index where
  /-- `%srcpackage` -/
  src : List Src
  /-- `%vpackage`, with the source of the first provider. -/
  vpackage : List (String × String)
  /-- `%target` -/
  target : List String

def Index.findSrc (i : Index) (name : String) : Option Src :=
  i.src.find? fun src => decide (src.name = name)

/-- A line of feeds.conf. -/
structure Feed where
  name : String
  /-- `--force` -/
  force : Bool
  deriving DecidableEq

/-- What `install` finds. -/
structure Tree where
  feeds : List Feed
  /-- The index of a feed. -/
  index : String → Option Index
  /-- The files of tmp/info that are not empty, without the `.packageinfo-` of their names. -/
  info : List String
  /-- The sources of tmp/.packageinfo. -/
  parsed : List String
  /-- `parse_file` refuses a feed without a name. -/
  feeds_true : ∀ f ∈ feeds, truthy f.name = true
  /-- `parse_file` refuses a name that is there already. -/
  feeds_nodup : (feeds.map Feed.name).Nodup

/-- The arguments of `install`. -/
structure Opts where
  /-- `-a` -/
  all : Bool
  /-- `-p` -/
  prefer : Option String
  /-- `-f` -/
  force : Bool
  names : List String

/-- An entry of `%installed`. -/
inductive Mark where
  | parsed
  | one
  deriving DecidableEq

structure State where
  /-- `%feed_cache` -/
  cache : String → Option Index
  /-- The sources of a feed. -/
  object : String → String → Option Src
  /-- The feed whose tables are in use. -/
  selected : Option String
  /-- `%installed` -/
  installed : String → Option Mark
  /-- The links of package/feeds, by feed and source. -/
  links : List (String × String)

section
variable (t : Tree)

/-- `get_feed` -/
def getFeed (feed : String) (s : State) : State :=
  match s.cache feed with
  | some _ => { s with selected := some feed }
  | none =>
    match t.index feed with
    | none => s
    | some i =>
      { s with
        cache := Function.update s.cache feed (some i)
        object := Function.update s.object feed i.findSrc
        selected := some feed }

/-- The state after `get_installed`. -/
def getInstalled : State where
  cache := fun _ => none
  object := fun _ _ => none
  selected := none
  installed := fun name => if name ∈ t.parsed then some .parsed else none
  links := []

/-- The loop of the three lookups, for the entries of a table that are found. -/
def lookup (found : Index → Bool) (feed : Option Feed) (s : State) : Option Feed :=
  (feed.toList ++ t.feeds).find? fun f => truthy f.name && (s.cache f.name).any found

def lookupSrc (feed : Option Feed) (name : String) (s : State) : Option Feed :=
  lookup t (fun i => (i.findSrc name).isSome) feed s

def lookupPackage (feed : Option Feed) (name : String) (s : State) : Option Feed :=
  lookup t (fun i => (i.vpackage.lookup name).isSome) feed s

def lookupTarget (feed : Option Feed) (name : String) (s : State) : Option Feed :=
  lookup t (fun i => decide (name ∈ i.target)) feed s

/-- `$feed_src->{$name}` -/
def feedSrc (name : String) (s : State) : Option Src :=
  s.selected.bind fun feed => s.object feed name

/-- `$feed_vpackage->{$name}->[0]{src}{name}` -/
def feedVpackage (name : String) (s : State) : Option String :=
  s.selected.bind fun feed => (s.cache feed).bind fun i => i.vpackage.lookup name

/-- `is_core_src` -/
def isCoreSrc (name : String) : Bool :=
  t.info.any fun file =>
    decide (file = name ∨ ("_".toList ++ name.toList) <:+ file.toList) &&
      decide (¬ "feeds_".toList <+: file.toList)

/-- The mark and the link that `install_src` makes. `do_install_src` finds a makefile, as every
source of an index has one. -/
def doInstallSrc (feed name : String) (s : State) : State :=
  { s with
    installed := Function.update s.installed name (some .one)
    links := s.links ++ [(feed, name)] }

/-- `install_package`, over the `install_src` that it calls. -/
def installPackage (installSrc : String → State → Option State) (feed : Option Feed)
    (name : String) (s : State) : Option State :=
  match lookupPackage t feed name s with
  | none => some s
  | some select =>
    let s := getFeed t select.name s
    match feedVpackage name s with
    | none => some s
    | some src => installSrc src s

/-- Replace an entry of a source of a feed. -/
def setDep (feed name : String) (i : Nat) (d : Dep) (s : State) : State :=
  { s with
    object := Function.update s.object feed (Function.update (s.object feed) name
      ((s.object feed name).map fun src => { src with deps := src.deps.set i d })) }

/-- An entry of a dependency loop of `install_src`. -/
def installDep (installSrc : String → State → Option State) (feed : Option Feed)
    (select name : String) (s : State) (i : Nat) : Option State :=
  match (s.object select name).bind fun src => src.deps[i]? with
  | none => some s
  | some d =>
    if '@' ∈ d.text.toList then some s
    else
      let s := setDep select name i d.edit s
      if truthy d.edit.text = false then some s
      else if d.build = true then installSrc d.edit.text s
      else installPackage t installSrc feed d.edit.text s

/-- `install_src`, with a bound on the depth of its calls. -/
def installSrc : Nat → Option Feed → Bool → String → State → Option State
  | 0, _, _, _, _ => none
  | fuel + 1, feed, force, name, s =>
    match lookupSrc t feed name s with
    | none => some s
    | some select =>
      let s := getFeed t select.name s
      match feedSrc name s with
      | none => some s
      | some src =>
        let force := force || select.force
        if isCoreSrc t name = true ∧ force = false then some s
        else
          let override := isCoreSrc t name
          if s.installed name = some .one ∨ s.installed name ≠ none ∧ override = false then some s
          else
            (List.range src.deps.length).foldlM
              (installDep t (installSrc fuel feed false) feed select.name name)
              (doInstallSrc select.name name s)

/-- `install_target_or_package`. A target is linked below target/linux. -/
def installTargetOrPackage (fuel : Nat) (feed : Option Feed) (force : Bool) (name : String)
    (s : State) : Option State :=
  if (lookupTarget t feed name s).isSome = true then some s
  else if (lookupSrc t feed name s).isSome = true then installSrc t fuel feed force name s
  else installPackage t (installSrc t fuel feed force) feed name s

/-- The keys of `$feed_src`, sorted without regard to case. -/
def feedSrcKeys (s : State) : List String :=
  ((s.selected.bind s.cache).elim [] fun i => i.src.map Src.name).insertionSort
    fun a b => a.toLower ≤ b.toLower

/-- The feed of `-p`. -/
def preferred (o : Opts) : Option Feed :=
  (t.feeds.filter fun f => o.prefer.any fun p => truthy p && decide (f.name = p)).getLast?

/-- All sources of the tables in use, as `-a` installs them for a feed. -/
def installAll (fuel : Nat) (feed : Option Feed) (force : Bool) (s : State) (f : Feed) :
    Option State :=
  let s := getFeed t f.name s
  (feedSrcKeys s).foldlM
    (fun s name => (installSrc t fuel feed force name s).map (getFeed t f.name)) s

/-- `install` -/
def install (fuel : Nat) (o : Opts) : Option State :=
  let s := t.feeds.foldl (fun s f => getFeed t f.name s) (getInstalled t)
  let feed := preferred t o
  if o.all = true then
    (t.feeds.filter fun f => decide (o.prefer = none ∨ o.prefer = some f.name)).foldlM
      (installAll t fuel feed o.force) s
  else
    (o.names.takeWhile truthy).foldlM (fun s name => installTargetOrPackage t fuel feed o.force name
      s) s

end

end UolaOs.Feeds
