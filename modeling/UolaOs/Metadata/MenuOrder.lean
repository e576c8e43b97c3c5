import UolaOs.Lib.Explore
import UolaOs.Lib.Precedence
import Mathlib.Data.List.Nodup
import Mathlib.Data.String.Basic

/-!
# The order of a menu

The comparator of `print_package_config_category` of package-metadata.pl.

* `searchDeps`: `__find_package_dep`, which marks the names that it has seen;
* `findPackageDep_iff`: it finds what a package depends on;
* `menuOrder_iff`: when the comparator is a strict order.
-/

namespace UolaOs.Metadata

/-- What the comparator uses of a parsed package. A package without a submenu has an empty one, as
it is compared. -/
structure Package where
  name : String
  submenu : String
  depends : List String
  /-- What a `Provides` line says. -/
  provides : List String
  deriving DecidableEq

/-- All packages, with names of their own. -/
structure Packages where
  all : List Package
  distinct : (all.map Package.name).Nodup

namespace Packages

variable (ps : Packages)

/-- `@{$vpackage{$name}}`: the package with the name, and then those that provide it. -/
def vpackage (name : String) : List Package :=
  ps.all.filter (fun p => p.name = name) ++
    ps.all.flatMap fun p => (p.provides.filter fun v => v = name ∧ v ≠ p.name).map fun _ => p

/-- What the two loops of `__find_package_dep` go over. -/
def deps (p : Package) : List Package := p.depends.flatMap ps.vpackage

/-- One package in the loops of `__find_package_dep`, with the result so far and `%dep_check`.
`search` is the recursive call. -/
def searchDep (search : Package → List String → Bool × List String) (name : String)
    (r : Bool × List String) (dep : Package) : Bool × List String :=
  if r.1 = true then r
  else if dep.name ∈ r.2 then r
  else if dep.name = name then (true, dep.name :: r.2)
  else search dep (dep.name :: r.2)

/-- `__find_package_dep`, with calls nested at most `fuel` deep. -/
def searchDeps (name : String) : Nat → Package → List String → Bool × List String
  | 0, _, check => (false, check)
  | fuel + 1, p, check =>
    (ps.deps p).foldl (searchDep (searchDeps name fuel) name) (false, check)

/-- `find_package_dep` -/
def findPackageDep (p : Package) (name : String) : Bool :=
  (ps.searchDeps name (ps.all.length + 1) p []).1

/-- `package_depends` -/
def packageDepends (a b : Package) : Int :=
  if a.submenu ≠ b.submenu then 0
  else if ps.findPackageDep a b.name = true then 1
  else if ps.findPackageDep b a.name = true then -1
  else 0

/-- The comparator: `package_depends`, or `cmp` of the names. -/
def compare (a b : Package) : Int :=
  if ps.packageDepends a b ≠ 0 then ps.packageDepends a b
  else if a.name < b.name then -1
  else if b.name < a.name then 1
  else 0

/-! ## What is to be found -/

/-- A package depends on another one. -/
def Needs (p q : Package) : Prop := q ∈ ps.deps p

/-- A package depends on another one through others. -/
abbrev DependsOn : Package → Package → Prop := Relation.TransGen ps.Needs

end Packages

/-- The packages of a submenu, of packages that do not depend on themselves. -/
structure Menu extends Packages where
  pkgs : List Package
  sub : pkgs ⊆ all
  submenu : String
  inside : ∀ p ∈ pkgs, p.submenu = submenu
  acyclic : ∀ p ∈ all, ¬ toPackages.DependsOn p p

/-- A strict order in which a package comes after those that it depends on. -/
structure Ordered (m : Menu) : Prop where
  antisymm : ∀ a ∈ m.pkgs, ∀ b ∈ m.pkgs, m.compare b a = - m.compare a b
  total : ∀ a ∈ m.pkgs, ∀ b ∈ m.pkgs, a ≠ b → m.compare a b ≠ 0
  trans : ∀ a ∈ m.pkgs, ∀ b ∈ m.pkgs, ∀ c ∈ m.pkgs, m.compare a b < 0 → m.compare b c < 0 →
    m.compare a c < 0
  first : ∀ a ∈ m.pkgs, ∀ b ∈ m.pkgs, m.DependsOn a b → m.compare b a < 0

/-! ## The search -/

section
variable {ps : Packages} {p q dep : Package} {name : String} {check check' : List String}

theorem mem_vpackage (h : p ∈ ps.vpackage name) : p ∈ ps.all := by
  rcases List.mem_append.mp h with h | h
  · exact (List.mem_filter.mp h).1
  · obtain ⟨q, hq, hp⟩ := List.mem_flatMap.mp h
    obtain ⟨-, -, rfl⟩ := List.mem_map.mp hp
    exact hq

theorem mem_all_of_needs (h : ps.Needs p q) : q ∈ ps.all := by
  obtain ⟨v, -, hq⟩ := List.mem_flatMap.mp h
  exact mem_vpackage hq

theorem eq_of_name (hp : p ∈ ps.all) (hq : q ∈ ps.all) (h : p.name = q.name) : p = q :=
  List.inj_on_of_nodup_map ps.distinct hp hq h

/-- The packages with a mark. -/
def marked (ps : Packages) (check : List String) : Set Package :=
  {p | p ∈ ps.all ∧ p.name ∈ check}

/-- How many packages have none. -/
def left (ps : Packages) (check : List String) : Nat :=
  ps.all.countP fun p => p.name ∉ check

theorem marked_nil : marked ps [] = ∅ := by
  ext p
  simp [marked]

theorem marked_cons (h : dep ∈ ps.all) :
    marked ps (dep.name :: check) = insert dep (marked ps check) := by
  ext p
  rw [Set.mem_insert_iff]
  constructor
  · rintro ⟨hp, hmem⟩
    rcases List.mem_cons.mp hmem with heq | hmem
    · exact .inl (eq_of_name hp h heq)
    · exact .inr ⟨hp, hmem⟩
  · rintro (rfl | ⟨hp, hmem⟩)
    · exact ⟨h, List.mem_cons_self⟩
    · exact ⟨hp, List.mem_cons_of_mem _ hmem⟩

theorem left_le (h : marked ps check ⊆ marked ps check') : left ps check' ≤ left ps check :=
  List.countP_mono_left fun p hp hleft => by
    rw [decide_eq_true_eq] at hleft ⊢
    exact fun hmem => hleft (h ⟨hp, hmem⟩).2

theorem left_cons (h : dep ∈ ps.all) (hnew : dep.name ∉ check) :
    left ps (dep.name :: check) < left ps check := by
  have hmono (l : List Package) : l.countP (fun p => p.name ∉ dep.name :: check) ≤
      l.countP fun p => p.name ∉ check :=
    List.countP_mono_left fun p _ hp => by
      rw [decide_eq_true_eq] at hp ⊢
      exact fun hmem => hp (List.mem_cons_of_mem _ hmem)
  obtain ⟨before, behind, hsplit⟩ := List.append_of_mem h
  have hbefore := hmono before
  have hbehind := hmono behind
  rw [left, left, hsplit, List.countP_append, List.countP_append,
    List.countP_cons_of_neg (by simp), List.countP_cons_of_pos (by simpa using hnew)]
  omega

/-- What a search from some packages ends with. -/
structure Searched (ps : Packages) (name : String) (roots : Set Package) (check : List String)
    (r : Bool × List String) : Prop where
  kept : marked ps check ⊆ marked ps r.2
  found : r.1 = true → ∃ q ∈ reach ps.Needs roots, q.name = name
  missed : r.1 = false → Explores ps.Needs roots (marked ps check) (marked ps r.2) ∧
    ∀ q ∈ marked ps r.2, q ∉ marked ps check → q.name ≠ name

variable {roots others : Set Package} {r r' : Bool × List String} {fuel : Nat}
  {search : Package → List String → Bool × List String}

theorem reach_mono (h : roots ⊆ others) : reach ps.Needs roots ⊆ reach ps.Needs others :=
  fun _ ⟨x, hx, hpath⟩ => ⟨x, h hx, hpath⟩

theorem Searched.append (h : Searched ps name roots check (false, check'))
    (h' : Searched ps name others check' r) : Searched ps name (roots ∪ others) check r := by
  obtain ⟨hexplores, hother⟩ := h.missed rfl
  refine ⟨h.kept.trans h'.kept, fun hr => ?_, fun hr => ?_⟩
  · obtain ⟨q, hq, hname⟩ := h'.found hr
    exact ⟨q, reach_mono Set.subset_union_right hq, hname⟩
  · obtain ⟨hexplores', hother'⟩ := h'.missed hr
    refine ⟨hexplores.append hexplores', fun q hq hnew => ?_⟩
    by_cases hmid : q ∈ marked ps check'
    · exact hother q hmid hnew
    · exact hother' q hq hmid

/-- One package of the loop. -/
theorem searchDep_spec (hdep : dep ∈ ps.all) (hleft : left ps check ≤ fuel)
    (hsearch : ∀ p check, left ps check < fuel →
      Searched ps name {q | ps.Needs p q} check (search p check)) :
    Searched ps name {dep} check (Packages.searchDep search name (false, check) dep) := by
  rw [Packages.searchDep, if_neg Bool.false_ne_true]
  dsimp only
  by_cases hseen : dep.name ∈ check
  · rw [if_pos hseen]
    refine ⟨Set.Subset.refl _, fun h => absurd h Bool.false_ne_true, fun _ => ⟨.nothing ?_, ?_⟩⟩
    · rintro q rfl
      exact ⟨hdep, hseen⟩
    · exact fun q hq hnew => absurd hq hnew
  · rw [if_neg hseen]
    have hkept : marked ps check ⊆ marked ps (dep.name :: check) :=
      marked_cons hdep ▸ Set.subset_insert _ _
    by_cases hname : dep.name = name
    · rw [if_pos hname]
      exact ⟨hkept, fun _ => ⟨dep, subset_reach rfl, hname⟩,
        fun h => absurd h.symm Bool.false_ne_true⟩
    · rw [if_neg hname]
      have h := hsearch dep (dep.name :: check) ((left_cons hdep hseen).trans_le hleft)
      refine ⟨hkept.trans h.kept, fun hr => ?_, fun hr => ?_⟩
      · obtain ⟨q, ⟨x, hx, hpath⟩, hq⟩ := h.found hr
        exact ⟨q, ⟨dep, rfl, .head hx hpath⟩, hq⟩
      · obtain ⟨hexplores, hother⟩ := h.missed hr
        rw [marked_cons hdep] at hexplores hother
        refine ⟨hexplores.visit, fun q hq hnew => ?_⟩
        by_cases hqd : q = dep
        · rw [hqd]
          exact hname
        · exact hother q hq fun hins => hins.elim hqd hnew

theorem foldl_found (l : List Package) (h : r.1 = true) :
    l.foldl (Packages.searchDep search name) r = r := by
  induction l with
  | nil => rfl
  | cons dep l ih => rw [List.foldl_cons, Packages.searchDep, if_pos h, ih]

/-- The loop over some packages. -/
theorem foldl_spec {l : List Package} (hl : ∀ p ∈ l, p ∈ ps.all) (hleft : left ps check ≤ fuel)
    (hsearch : ∀ p check, left ps check < fuel →
      Searched ps name {q | ps.Needs p q} check (search p check)) :
    Searched ps name {p | p ∈ l} check
      (l.foldl (Packages.searchDep search name) (false, check)) := by
  induction l generalizing check with
  | nil =>
    refine ⟨Set.Subset.refl _, fun h => absurd h Bool.false_ne_true, fun _ => ⟨.nothing ?_, ?_⟩⟩
    · exact fun q hq => absurd hq List.not_mem_nil
    · exact fun q hq hnew => absurd hq hnew
  | cons dep l ih =>
    have hroots : {p | p ∈ dep :: l} = {dep} ∪ {p | p ∈ l} := by
      ext p
      exact List.mem_cons
    have hfirst := searchDep_spec (hl dep List.mem_cons_self) hleft hsearch
    rw [List.foldl_cons, hroots]
    generalize Packages.searchDep search name (false, check) dep = r at hfirst
    obtain ⟨found, check'⟩ := r
    cases found with
    | true =>
      rw [foldl_found l rfl]
      refine ⟨hfirst.kept, fun h => ?_, fun h => absurd h.symm Bool.false_ne_true⟩
      obtain ⟨q, hq, hname⟩ := hfirst.found h
      exact ⟨q, reach_mono Set.subset_union_left hq, hname⟩
    | false =>
      exact hfirst.append (ih (fun p hp => hl p (List.mem_cons_of_mem _ hp))
        ((left_le hfirst.kept).trans hleft))

/-- **What the search does**, as long as fewer than `fuel` packages are left. -/
theorem searchDeps_spec (name : String) (fuel : Nat) (p : Package) (check : List String)
    (hleft : left ps check < fuel) :
    Searched ps name {q | ps.Needs p q} check (ps.searchDeps name fuel p check) := by
  induction fuel generalizing p check with
  | zero => exact absurd hleft (Nat.not_lt_zero _)
  | succ fuel ih =>
    exact foldl_spec (fun q hq => mem_all_of_needs (p := p) hq) (Nat.le_of_lt_succ hleft) ih

theorem findPackageDep_iff : ps.findPackageDep p name = true ↔
    ∃ q, ps.DependsOn p q ∧ q.name = name := by
  have hleft : left ps [] < ps.all.length + 1 := Nat.lt_succ_of_le List.countP_le_length
  have h := searchDeps_spec name _ p [] hleft
  rw [Packages.findPackageDep]
  constructor
  · intro hr
    obtain ⟨q, ⟨x, hx, hpath⟩, hname⟩ := h.found hr
    exact ⟨q, Relation.TransGen.head'_iff.mpr ⟨x, hx, hpath⟩, hname⟩
  · rintro ⟨q, hpq, hname⟩
    by_contra hr
    obtain ⟨hexplores, hother⟩ := h.missed (Bool.eq_false_iff.mpr hr)
    rw [marked_nil] at hexplores hother
    obtain ⟨x, hx, hpath⟩ := Relation.TransGen.head'_iff.mp hpq
    refine hother q ?_ (Set.notMem_empty q) hname
    rw [hexplores.eq_reach]
    exact ⟨x, hx, hpath⟩

theorem mem_all_of_dependsOn (h : ps.DependsOn p q) : q ∈ ps.all := by
  obtain ⟨x, -, hx⟩ := Relation.TransGen.tail'_iff.mp h
  exact mem_all_of_needs hx

theorem findPackageDep_name (hq : q ∈ ps.all) :
    ps.findPackageDep p q.name = true ↔ ps.DependsOn p q := by
  rw [findPackageDep_iff]
  constructor
  · rintro ⟨x, hx, hname⟩
    rwa [← eq_of_name (mem_all_of_dependsOn hx) hq hname]
  · exact fun h => ⟨q, h, rfl⟩

end

/-! ## The comparator -/

section
variable {m : Menu} {a b : Package}

theorem compare_after (ha : a ∈ m.pkgs) (hb : b ∈ m.pkgs) (h : m.DependsOn a b) :
    m.compare a b = 1 := by
  have hsub : ¬ a.submenu ≠ b.submenu := by rw [m.inside a ha, m.inside b hb]; simp
  have hdep : m.packageDepends a b = 1 := by
    rw [Packages.packageDepends, if_neg hsub, if_pos ((findPackageDep_name (m.sub hb)).mpr h)]
  rw [Packages.compare, hdep]
  rfl

theorem compare_before (ha : a ∈ m.pkgs) (hb : b ∈ m.pkgs) (h : m.DependsOn b a) :
    m.compare a b = -1 := by
  have hsub : ¬ a.submenu ≠ b.submenu := by rw [m.inside a ha, m.inside b hb]; simp
  have hnot : ¬ m.DependsOn a b := fun hab => m.acyclic a (m.sub ha) (hab.trans h)
  have hdep : m.packageDepends a b = -1 := by
    rw [Packages.packageDepends, if_neg hsub,
      if_neg (mt (findPackageDep_name (m.sub hb)).mp hnot),
      if_pos ((findPackageDep_name (m.sub ha)).mpr h)]
  rw [Packages.compare, hdep]
  rfl

theorem compare_apart (ha : a ∈ m.pkgs) (hb : b ∈ m.pkgs) (hab : ¬ m.DependsOn a b)
    (hba : ¬ m.DependsOn b a) :
    m.compare a b = if a.name < b.name then -1 else if b.name < a.name then 1 else 0 := by
  have hsub : ¬ a.submenu ≠ b.submenu := by rw [m.inside a ha, m.inside b hb]; simp
  have hdep : m.packageDepends a b = 0 := by
    rw [Packages.packageDepends, if_neg hsub,
      if_neg (mt (findPackageDep_name (m.sub hb)).mp hab),
      if_neg (mt (findPackageDep_name (m.sub ha)).mp hba)]
  rw [Packages.compare, hdep]
  exact if_neg fun h => h rfl

theorem compare_lt_iff (ha : a ∈ m.pkgs) (hb : b ∈ m.pkgs) :
    m.compare a b < 0 ↔ Before m.DependsOn Package.name a b := by
  rw [Before]
  by_cases hab : m.DependsOn a b
  · rw [compare_after ha hb hab]
    refine iff_of_false (by decide) ?_
    rintro (hba | ⟨hnot, -⟩)
    · exact m.acyclic a (m.sub ha) (hab.trans hba)
    · exact hnot hab
  · by_cases hba : m.DependsOn b a
    · rw [compare_before ha hb hba]
      exact iff_of_true (by decide) (.inl hba)
    · rw [compare_apart ha hb hab hba, or_iff_right hba, and_iff_right hab]
      split
      · exact iff_of_true (by decide) ‹_›
      · refine iff_of_false ?_ ‹_›
        split <;> decide

theorem compare_antisymm (ha : a ∈ m.pkgs) (hb : b ∈ m.pkgs) :
    m.compare b a = - m.compare a b := by
  by_cases hab : m.DependsOn a b
  · rw [compare_after ha hb hab, compare_before hb ha hab]
  · by_cases hba : m.DependsOn b a
    · rw [compare_before ha hb hba, compare_after hb ha hba]
      rfl
    · rw [compare_apart ha hb hab hba, compare_apart hb ha hba hab]
      split_ifs with h h'
      · exact absurd (h.trans h') (lt_irrefl _)
      · rfl
      · rfl
      · rfl

/-- **When the menu has an order**, which is not up to the sort algorithm. -/
theorem menuOrder_iff (m : Menu) :
    Ordered m ↔ Separate m.DependsOn Package.name {p | p ∈ m.pkgs} := by
  refine Iff.trans ?_ (before_trans_iff (fun a b c => Relation.TransGen.trans)
    (fun a ha => m.acyclic a (m.sub ha)) fun a ha b hb => eq_of_name (m.sub ha) (m.sub hb))
  constructor
  · intro h a ha b hb c hc hab hbc
    rw [← compare_lt_iff ha hc]
    exact h.trans a ha b hb c hc ((compare_lt_iff ha hb).mpr hab) ((compare_lt_iff hb hc).mpr hbc)
  · intro h
    refine ⟨fun a ha b hb => compare_antisymm ha hb, fun a ha b hb hne hzero => ?_,
      fun a ha b hb c hc hab hbc => ?_, fun a ha b hb hab => ?_⟩
    · have hname : a.name ≠ b.name := fun heq => hne (eq_of_name (m.sub ha) (m.sub hb) heq)
      by_cases hab : m.DependsOn a b
      · rw [compare_after ha hb hab] at hzero
        exact absurd hzero (by decide)
      · by_cases hba : m.DependsOn b a
        · rw [compare_before ha hb hba] at hzero
          exact absurd hzero (by decide)
        · rw [compare_apart ha hb hab hba] at hzero
          rcases lt_or_gt_of_ne hname with hlt | hgt
          · rw [if_pos hlt] at hzero
            exact absurd hzero (by decide)
          · rw [if_neg (lt_asymm hgt), if_pos hgt] at hzero
            exact absurd hzero (by decide)
    · rw [compare_lt_iff ha hb] at hab
      rw [compare_lt_iff hb hc] at hbc
      rw [compare_lt_iff ha hc]
      exact h a ha b hb c hc hab hbc
    · rw [compare_before hb ha hab]
      decide

end

/-! ## A package between two others -/

def dependent : Package := ⟨"a", "Net", ["c"], []⟩

def between : Package := ⟨"b", "Net", [], []⟩

def needed : Package := ⟨"c", "Net", [], []⟩

theorem distinct_three : ([dependent, between, needed].map Package.name).Nodup := by decide

def threePackages : Packages := ⟨[dependent, between, needed], distinct_three⟩

theorem needs_three {p q : Package} (hp : p ∈ threePackages.all) (h : threePackages.Needs p q) :
    p = dependent ∧ q = needed := by
  simp only [threePackages, List.mem_cons, List.not_mem_nil, or_false] at hp
  rcases hp with rfl | rfl | rfl
  · have hdeps : threePackages.deps dependent = [needed] := by decide
    rw [Packages.Needs, hdeps, List.mem_singleton] at h
    exact ⟨rfl, h⟩
  · cases h
  · cases h

theorem acyclic_three : ∀ p ∈ threePackages.all, ¬ threePackages.DependsOn p p := by
  intro p hp h
  obtain ⟨x, hx, -⟩ := Relation.TransGen.head'_iff.mp h
  obtain ⟨y, hy, hyp⟩ := Relation.TransGen.tail'_iff.mp h
  have hfirst := (needs_three hp hx).1
  have hall : y ∈ threePackages.all := by
    rcases Relation.reflTransGen_iff_eq_or_transGen.mp hy with rfl | hy
    · exact hp
    · exact mem_all_of_dependsOn hy
  have hlast := (needs_three hall hyp).2
  rw [hfirst] at hlast
  exact absurd hlast (by decide)

theorem inside_three : ∀ p ∈ threePackages.all, p.submenu = "Net" := by
  decide

/-- `a` depends on `c`, and `b` on nothing. -/
def threeMenu : Menu where
  toPackages := threePackages
  pkgs := threePackages.all
  sub := List.Subset.refl _
  submenu := "Net"
  inside := inside_three
  acyclic := acyclic_three

theorem menuOrder_three : ¬ Ordered threeMenu := by
  intro h
  have hlt := h.trans dependent (by decide) between (by decide) needed (by decide)
    (by decide) (by decide)
  exact absurd hlt (by decide)

end UolaOs.Metadata
