import UolaOs.Kconfig.Config
import UolaOs.Lib.Numeral
import UolaOs.Metadata.Version
import Mathlib.Data.List.Dedup
import Mathlib.Data.List.Induction

/-!
# Overrides of the kernel configuration

`gen_kconfig_overrides` of package-metadata.pl.

* `update`: what one item of a `Kernel-Config` line does to a symbol;
* `lookup_updates`: a symbol is left with the most that is asked for, in any order of the items;
* `overrides_iff`: when the printed lines say what the packages ask for.
-/

namespace UolaOs.Metadata

open Kconfig (PREFIX yes no truthy afterPrefix parseSet notAfter notAfter_total notAfter_antisymm
  notAfter_trans)

/-! ## Reading -/

/-- `\s*(.+?)\s*$`: a text without the spaces around it. Of a text of spaces, the last one stays. -/
def trim (s : Bytes) : Option Bytes :=
  if s.dropWhile isSpace = [] then s.getLast?.map fun c => [c]
  else some ((s.dropWhile isSpace).reverse.dropWhile isSpace).reverse

/-- The value of a line of the metadata. -/
def field (name line : Bytes) : Option Bytes := (afterPrefix name line).bind trim

/-- `split /\s+/` of a value. -/
def splitSpaces (s : Bytes) : List Bytes := (s.splitOnP isSpace).filter fun item => item ≠ []

/-- The keys of `%config`. -/
def configKeys (cfgfile : Bytes) : List Bytes :=
  (readLines cfgfile).filterMap fun line =>
    ((afterPrefix PREFIX line).bind parseSet).map fun p => PREFIX ++ p.1

/-- `$config{"CONFIG_PACKAGE_$package"}` -/
def enabled (cfgfile package : Bytes) : Bool :=
  ascii "CONFIG_PACKAGE_" ++ package ∈ configKeys cfgfile

/-- An item of a package: the symbol, and the value if there is one. -/
structure Request where
  package : Bytes
  config : Bytes
  override : Option Bytes
  deriving DecidableEq

def modular : Bytes := ascii "m"

namespace Request

def ofItem (package item : Bytes) : Request :=
  match parseSet item with
  | some (config, val) => ⟨package, config, some val⟩
  | none => ⟨package, item, none⟩

def val (r : Request) : Bytes := r.override.getD modular

end Request

section
variable (w : Uv) (patchver : Option Bytes)

/-- The items of a line. -/
def lineRequests (package line : Bytes) : List Request :=
  match field (ascii "Kernel-Config:") line with
  | none => []
  | some items => (versionFilterList w patchver (splitSpaces items)).map (Request.ofItem package)

/-- `$package` behind a line. -/
def packageAt (package line : Bytes) : Bytes := (field (ascii "Package:") line).getD package

/-! ## The loop -/

/-- `%kconfig` behind an item. -/
def update (on : Bytes → Bool) (kconfig : Hash Bytes Bytes) (r : Request) : Hash Bytes Bytes :=
  if on r.package = true ∧ r.config ≠ no then
    if kconfig.lookup r.config = some yes then kconfig else kconfig.insert r.config r.val
  else if r.override = none then
    if truthy (kconfig.lookup r.config) = true then kconfig else kconfig.insert r.config no
  else kconfig

/-- `$package`, where none is the empty one, and `%kconfig`. -/
structure Scan where
  package : Bytes
  kconfig : Hash Bytes Bytes

def scanLine (on : Bytes → Bool) (s : Scan) (line : Bytes) : Scan where
  package := packageAt s.package line
  kconfig := (lineRequests w patchver (packageAt s.package line) line).foldl (update on) s.kconfig

def printed (kconfig val : Bytes) : Bytes :=
  if val = no then ascii "# " ++ kconfig ++ Kconfig.notSet else kconfig ++ 0x3d :: val

def printLines (kconfig : Hash Bytes Bytes) : List Bytes :=
  (kconfig.keys.mergeSort notAfter).map fun key => printed key ((kconfig.lookup key).getD [])

/-- The lines that `gen_kconfig_overrides` prints; a file that cannot be opened is none. -/
def genKconfigOverrides (pkginfo cfgfile : Option Bytes) : List Bytes :=
  match cfgfile, pkginfo with
  | some cfgfile, some pkginfo =>
    printLines ((readLines pkginfo).foldl (scanLine w patchver (enabled cfgfile)) ⟨[], ∅⟩).kconfig
  | _, _ => []

/-! ## What is asked for -/

/-- The items of all packages. -/
def requests : Bytes → List Bytes → List Request
  | _, [] => []
  | package, line :: lines =>
    lineRequests w patchver (packageAt package line) line ++
      requests (packageAt package line) lines

end

/-- The most that is asked for; an item that is not `asked` for only says that there is a symbol. -/
def wanted (asked : Request → Bool) (reqs : List Request) (key : Bytes) : Option Bytes :=
  if ∃ r ∈ reqs, asked r = true ∧ r.config = key ∧ r.val = yes then some yes
  else if ∃ r ∈ reqs, asked r = true ∧ r.config = key ∧ r.val = modular then some modular
  else if ∃ r ∈ reqs, asked r = false ∧ r.config = key ∧ r.override = none then some no
  else none

/-- The lines for what is asked for, in the order of the symbols. -/
def wantedLines (asked : Request → Bool) (reqs : List Request) : List Bytes :=
  (((reqs.map Request.config).dedup.filter fun key => wanted asked reqs key ≠ none).mergeSort
    notAfter).map fun key => printed key ((wanted asked reqs key).getD [])

/-- Metadata where each value that is given is `y` or `m`. -/
structure PkgInfo (w : Uv) (patchver : Option Bytes) where
  text : Bytes
  values : ∀ r ∈ requests w patchver [] (readLines text),
    r.override = none ∨ r.override = some yes ∨ r.override = some modular

def PkgInfo.items {w : Uv} {patchver : Option Bytes} (pkginfo : PkgInfo w patchver) :
    List Request :=
  requests w patchver [] (readLines pkginfo.text)

/-- The lines of a package. -/
def IsPackage (lines : List Bytes) : Prop :=
  ∃ line rest, lines = line :: rest ∧ field (ascii "Package:") line ≠ none

/-- The same packages, in another order. -/
def Permuted (text text' : Bytes) : Prop :=
  ∃ (front : List Bytes) (packages packages' : List (List Bytes)),
    readLines text = front ++ packages.flatten ∧
    readLines text' = front ++ packages'.flatten ∧ (∀ p ∈ packages, IsPackage p) ∧
      packages.Perm packages'

/-- The lines say what the enabled packages ask for, and the order of the packages does not
matter. -/
structure Overrides {w : Uv} {patchver : Option Bytes} (pkginfo : PkgInfo w patchver)
    (cfgfile : Bytes) : Prop where
  lines : genKconfigOverrides w patchver (some pkginfo.text) (some cfgfile) =
    wantedLines (fun r => enabled cfgfile r.package) pkginfo.items
  permuted : ∀ text', Permuted pkginfo.text text' →
    genKconfigOverrides w patchver (some text') (some cfgfile) =
      genKconfigOverrides w patchver (some pkginfo.text) (some cfgfile)

/-! ## A symbol behind some items -/

/-- What an enabled package asks for, as the loop has it. -/
def asks (on : Bytes → Bool) (r : Request) : Bool := on r.package && decide (r.config ≠ no)

section
variable {asked : Request → Bool} {on : Bytes → Bool} {reqs reqs' : List Request} {key : Bytes}

theorem wanted_cases (asked : Request → Bool) (reqs : List Request) (key : Bytes) :
    wanted asked reqs key = some yes ∨ wanted asked reqs key = some modular ∨
      wanted asked reqs key = some no ∨ wanted asked reqs key = none := by
  rw [wanted]
  split_ifs <;> simp

theorem wanted_congr (h : ∀ r, r ∈ reqs ↔ r ∈ reqs') :
    wanted asked reqs key = wanted asked reqs' key := by
  simp only [wanted, h]

/-- An item of another symbol. -/
theorem wanted_other {r : Request} (h : r.config ≠ key) :
    wanted asked (reqs ++ [r]) key = wanted asked reqs key := by
  simp [wanted, or_and_right, exists_or, h]

theorem wanted_yes {r : Request} (hasked : asked r = true) (hval : r.val = yes) :
    wanted asked (reqs ++ [r]) r.config = some yes := by
  rw [wanted, if_pos ⟨r, List.mem_append_right _ (List.mem_singleton_self r), hasked, rfl, hval⟩]

theorem wanted_modular {r : Request} (hasked : asked r = true) (hval : r.val = modular) :
    wanted asked (reqs ++ [r]) r.config =
      if wanted asked reqs r.config = some yes then some yes else some modular := by
  have hne : modular ≠ yes := by decide
  have hno : no ≠ yes := by decide
  simp only [wanted, List.mem_append, List.mem_singleton, or_and_right, exists_or,
    exists_eq_left, hasked, hval, hne, and_false, and_self, or_false, or_true, if_true]
  split_ifs <;> simp_all

theorem wanted_listed {r : Request} (hasked : asked r = false) (hval : r.override = none) :
    wanted asked (reqs ++ [r]) r.config =
      (wanted asked reqs r.config).or (some no) := by
  simp only [wanted, List.mem_append, List.mem_singleton, or_and_right, exists_or,
    exists_eq_left, hasked, hval, and_self, Bool.false_eq_true, false_and, or_false, or_true,
    if_true]
  split_ifs <;> rfl

theorem wanted_ignored {r : Request} (hasked : asked r = false) (hval : r.override ≠ none) :
    wanted asked (reqs ++ [r]) key = wanted asked reqs key := by
  simp [wanted, or_and_right, exists_or, hasked, hval]

/-- The values of the items. -/
def Plain (reqs : List Request) : Prop :=
  ∀ r ∈ reqs, r.override = none ∨ r.override = some yes ∨ r.override = some modular

theorem Request.val_cases {r : Request}
    (h : r.override = none ∨ r.override = some yes ∨ r.override = some modular) :
    r.val = yes ∨ r.val = modular := by
  rw [Request.val]
  obtain h | h | h := h
  · exact .inr (by rw [h]; rfl)
  · exact .inl (by rw [h]; rfl)
  · exact .inr (by rw [h]; rfl)

theorem truthy_wanted (asked : Request → Bool) (reqs : List Request) (key : Bytes) :
    truthy (wanted asked reqs key) = (wanted asked reqs key).isSome := by
  obtain h | h | h | h := wanted_cases asked reqs key <;> rw [h] <;> decide

/-- A symbol that an item is not about is left as it is. -/
theorem lookup_update_ne {kconfig : Hash Bytes Bytes} {r : Request} (h : r.config ≠ key) :
    (update on kconfig r).lookup key = kconfig.lookup key := by
  rw [update]
  split_ifs
  · rfl
  · exact AList.lookup_insert_ne (Ne.symm h)
  · rfl
  · exact AList.lookup_insert_ne (Ne.symm h)
  · rfl

/-- One item: what is asked for with it in addition. -/
theorem lookup_update {kconfig : Hash Bytes Bytes} {r : Request}
    (hplain : r.override = none ∨ r.override = some yes ∨ r.override = some modular)
    (h : ∀ key, kconfig.lookup key = wanted (asks on) reqs key) (key : Bytes) :
    (update on kconfig r).lookup key = wanted (asks on) (reqs ++ [r]) key := by
  by_cases hkey : r.config = key
  swap
  · rw [lookup_update_ne hkey, wanted_other hkey, h]
  subst hkey
  by_cases hon : on r.package = true ∧ r.config ≠ no
  · have hasked : asks on r = true := by
      rw [asks, hon.1, Bool.true_and]
      exact decide_eq_true hon.2
    rw [update, if_pos hon, h]
    obtain hval | hval := Request.val_cases hplain
    · rw [wanted_yes hasked hval]
      split_ifs with hyes
      · rw [h, hyes]
      · rw [AList.lookup_insert, hval]
    · rw [wanted_modular hasked hval]
      split_ifs with hyes
      · rw [h, hyes]
      · rw [AList.lookup_insert, hval]
  · have hasked : asks on r = false := by
      rw [asks, Bool.and_eq_false_iff, decide_eq_false_iff_not]
      exact (not_and_or.mp hon).imp_left Bool.eq_false_iff.mpr
    rw [update, if_neg hon]
    by_cases hoverride : r.override = none
    · rw [if_pos hoverride, wanted_listed hasked hoverride, h, truthy_wanted]
      split_ifs with hsome
      · obtain ⟨val, hval⟩ := Option.isSome_iff_exists.mp hsome
        rw [h, hval]
        rfl
      · rw [AList.lookup_insert, Option.not_isSome_iff_eq_none.mp hsome]
        rfl
    · rw [if_neg hoverride, wanted_ignored hasked hoverride, h]

/-- **What the loop leaves.** In any order of the items, a symbol has the most that is asked for. -/
theorem lookup_updates (hplain : Plain reqs) (key : Bytes) :
    (reqs.foldl (update on) ∅).lookup key = wanted (asks on) reqs key := by
  induction reqs using List.reverseRecOn generalizing key with
  | nil => simp [wanted]
  | append_singleton reqs r ih =>
    rw [List.foldl_append]
    refine lookup_update (hplain r (List.mem_append_right _ (List.mem_singleton_self r))) ?_ key
    exact ih fun r hr => hplain r (List.mem_append_left _ hr)

end

/-! ## The lines -/

section
variable {asked : Request → Bool} {on : Bytes → Bool} {reqs reqs' : List Request} {key : Bytes}

theorem wanted_mem (h : wanted asked reqs key ≠ none) : ∃ r ∈ reqs, r.config = key := by
  rw [wanted] at h
  split_ifs at h with hyes hmodular hno
  · obtain ⟨r, hr, -, hkey, -⟩ := hyes
    exact ⟨r, hr, hkey⟩
  · obtain ⟨r, hr, -, hkey, -⟩ := hmodular
    exact ⟨r, hr, hkey⟩
  · obtain ⟨r, hr, -, hkey, -⟩ := hno
    exact ⟨r, hr, hkey⟩
  · exact absurd rfl h

/-- Two sorted lists of the same symbols. -/
theorem mergeSort_eq {l l' : List Bytes} (h : l.Perm l') :
    l.mergeSort notAfter = l'.mergeSort notAfter := by
  have hsorted (l : List Bytes) : (l.mergeSort notAfter).Pairwise fun a b => notAfter a b = true :=
    List.pairwise_mergeSort notAfter_trans notAfter_total l
  refine List.Perm.eq_of_pairwise (fun a b _ _ => notAfter_antisymm) (hsorted l) (hsorted l') ?_
  exact ((List.mergeSort_perm l _).trans h).trans (List.mergeSort_perm l' _).symm

theorem printLines_updates (hplain : Plain reqs) :
    printLines (reqs.foldl (update on) ∅) = wantedLines (asks on) reqs := by
  have hlookup := @lookup_updates on reqs hplain
  rw [printLines, wantedLines]
  have hkeys : (reqs.foldl (update on) ∅).keys.Perm ((reqs.map Request.config).dedup.filter
      fun key => wanted (asks on) reqs key ≠ none) := by
    refine (List.perm_ext_iff_of_nodup (AList.keys_nodup _) ?_).mpr fun key => ?_
    · exact (List.nodup_dedup _).filter _
    · rw [← AList.mem_keys, ← AList.lookup_isSome, hlookup, List.mem_filter, List.mem_dedup,
        decide_eq_true_iff, Option.isSome_iff_ne_none]
      refine (and_iff_right_of_imp fun h => ?_).symm
      obtain ⟨r, hr, rfl⟩ := wanted_mem h
      exact List.mem_map_of_mem hr
  rw [mergeSort_eq hkeys]
  exact List.map_congr_left fun key _ => by rw [hlookup]

theorem mem_wantedLines {line : Bytes} : line ∈ wantedLines asked reqs ↔
    ∃ key val, wanted asked reqs key = some val ∧ line = printed key val := by
  rw [wantedLines, List.mem_map]
  constructor
  · rintro ⟨key, hkey, rfl⟩
    rw [List.mem_mergeSort, List.mem_filter, decide_eq_true_iff] at hkey
    obtain ⟨val, hval⟩ := Option.ne_none_iff_exists'.mp hkey.2
    exact ⟨key, val, hval, by rw [hval]; rfl⟩
  · rintro ⟨key, val, hval, rfl⟩
    have hne : wanted asked reqs key ≠ none := by rw [hval]; exact Option.some_ne_none val
    obtain ⟨r, hr, rfl⟩ := wanted_mem hne
    refine ⟨r.config, ?_, by rw [hval]; rfl⟩
    rw [List.mem_mergeSort, List.mem_filter, List.mem_dedup, decide_eq_true_iff]
    exact ⟨List.mem_map_of_mem hr, hne⟩

/-- The order of the items is lost. -/
theorem wantedLines_perm (h : reqs.Perm reqs') :
    wantedLines asked reqs = wantedLines asked reqs' := by
  have hwanted (key : Bytes) : wanted asked reqs key = wanted asked reqs' key :=
    wanted_congr fun _ => h.mem_iff
  rw [wantedLines, wantedLines]
  simp only [hwanted]
  rw [mergeSort_eq ((h.map Request.config).dedup.filter _)]

end

/-! ## The symbol `n` -/

section
variable {on : Bytes → Bool} {reqs : List Request}

/-- The loop takes no package to ask for it. -/
theorem wanted_no : wanted (asks on) reqs no = some no ∨ wanted (asks on) reqs no = none := by
  have hnone (val : Bytes) :
      ¬ ∃ r ∈ reqs, asks on r = true ∧ r.config = no ∧ r.val = val := by
    rintro ⟨r, -, hasks, hconfig, -⟩
    rw [asks, Bool.and_eq_true, decide_eq_true_iff] at hasks
    exact hasks.2 hconfig
  rw [wanted, if_neg (hnone _), if_neg (hnone _)]
  split_ifs
  · exact .inl rfl
  · exact .inr rfl

/-- A package asks for it. -/
theorem wanted_of_enabled {r : Request} (hplain : Plain reqs) (hr : r ∈ reqs)
    (hon : on r.package = true) :
    wanted (fun r => on r.package) reqs r.config = some yes ∨
      wanted (fun r => on r.package) reqs r.config = some modular := by
  rw [wanted]
  split_ifs with hyes hmodular
  · exact .inl rfl
  · exact .inr rfl
  all_goals
    obtain hval | hval := Request.val_cases (hplain r hr)
    · exact absurd ⟨r, hr, hon, rfl, hval⟩ hyes
    · exact absurd ⟨r, hr, hon, rfl, hval⟩ hmodular

theorem printed_no {key val v : Bytes} (hval : val = yes ∨ val = modular ∨ val = no)
    (hv : v = yes ∨ v = modular) (h : printed no v = printed key val) : key = no ∧ val = v := by
  have hno : v ≠ no := by obtain rfl | rfl := hv <;> decide
  have hlength : v.length = 1 := by obtain rfl | rfl := hv <;> rfl
  rw [printed, printed, if_neg hno] at h
  split_ifs at h with hnot
  · -- the line of a symbol that is not set starts otherwise
    have hhead : (0x6e : UInt8) = 0x23 := (List.cons.inj h).1
    exact absurd hhead (by decide)
  · have hlength' : val.length = 1 := by obtain rfl | rfl | rfl := hval <;> rfl
    obtain ⟨hkey, heq⟩ := List.append_inj' h (by simp [hlength, hlength'])
    exact ⟨hkey.symm, (List.cons.inj heq).2.symm⟩

/-- The lines are those for what is asked for, when no package asks for `n`. -/
theorem wantedLines_iff (hplain : Plain reqs) :
    wantedLines (asks on) reqs = wantedLines (fun r => on r.package) reqs ↔
      ∀ r ∈ reqs, on r.package = true → r.config ≠ no := by
  constructor
  · rintro h r hr hon hconfig
    obtain ⟨v, hv, hv'⟩ : ∃ v, wanted (fun r => on r.package) reqs no = some v ∧
        (v = yes ∨ v = modular) := by
      have hcases := wanted_of_enabled hplain hr hon
      rw [hconfig] at hcases
      exact hcases.elim (fun h => ⟨yes, h, .inl rfl⟩) fun h => ⟨modular, h, .inr rfl⟩
    have hline := mem_wantedLines.mpr ⟨no, v, hv, rfl⟩
    rw [← h] at hline
    obtain ⟨key, val, hval, heq⟩ := mem_wantedLines.mp hline
    have hcases : val = yes ∨ val = modular ∨ val = no := by
      have hcases := wanted_cases (asks on) reqs key
      rw [hval] at hcases
      simpa using hcases
    obtain ⟨rfl, rfl⟩ := printed_no hcases hv' heq
    obtain hno | hno := @wanted_no on reqs
    · rw [hval] at hno
      obtain rfl := Option.some.inj hno
      exact absurd hv' (by decide)
    · rw [hval] at hno
      cases hno
  · intro h
    have hasks : ∀ r ∈ reqs, asks on r = on r.package := by
      intro r hr
      rw [asks]
      cases hon : on r.package with
      | false => rfl
      | true => exact decide_eq_true (h r hr hon)
    have hwanted (key : Bytes) :
        wanted (asks on) reqs key = wanted (fun r => on r.package) reqs key := by
      rw [wanted, wanted]
      have hex (b : Bool) (p : Request → Prop) :
          (∃ r ∈ reqs, asks on r = b ∧ p r) ↔ ∃ r ∈ reqs, on r.package = b ∧ p r :=
        exists_congr fun r => and_congr_right fun hr => by rw [hasks r hr]
      simp only [hex]
    simp only [wantedLines, hwanted]

end

/-! ## Lines and packages -/

section
variable {w : Uv} {patchver : Option Bytes} {on : Bytes → Bool}

theorem scanLines (lines : List Bytes) (s : Scan) :
    (lines.foldl (scanLine w patchver on) s).kconfig =
      (requests w patchver s.package lines).foldl (update on) s.kconfig := by
  induction lines generalizing s with
  | nil => rfl
  | cons line lines ih =>
    rw [List.foldl_cons, ih, requests, List.foldl_append]
    rfl

theorem requests_append (lines lines' : List Bytes) (package : Bytes) :
    requests w patchver package (lines ++ lines') =
      requests w patchver package lines ++
        requests w patchver (lines.foldl packageAt package) lines' := by
  induction lines generalizing package with
  | nil => rfl
  | cons line lines ih => rw [List.cons_append, requests, requests, ih, List.append_assoc]; rfl

/-- The items of a package do not depend on the lines in front of it. -/
theorem requests_package {lines : List Bytes} (h : IsPackage lines) (package : Bytes) :
    requests w patchver package lines = requests w patchver [] lines := by
  obtain ⟨line, rest, rfl, hfield⟩ := h
  obtain ⟨name, hname⟩ := Option.ne_none_iff_exists'.mp hfield
  rw [requests, requests, packageAt, packageAt, hname]
  rfl

theorem requests_packages {packages : List (List Bytes)} (h : ∀ p ∈ packages, IsPackage p)
    (package : Bytes) : requests w patchver package packages.flatten =
      packages.flatMap (requests w patchver []) := by
  induction packages generalizing package with
  | nil => rfl
  | cons p packages ih =>
    rw [List.forall_mem_cons] at h
    rw [List.flatten_cons, requests_append, requests_package h.1, ih h.2, List.flatMap_cons]

theorem requests_permuted {text text' : Bytes} (h : Permuted text text') :
    (requests w patchver [] (readLines text')).Perm (requests w patchver [] (readLines text)) := by
  obtain ⟨front, packages, packages', htext, htext', hpackages, hperm⟩ := h
  have hpackages' : ∀ p ∈ packages', IsPackage p := fun p hp => hpackages p (hperm.mem_iff.mpr hp)
  rw [htext, htext', requests_append, requests_append, requests_packages hpackages,
    requests_packages hpackages']
  exact (hperm.symm.flatMap_right _).append_left _

theorem genKconfigOverrides_eq {text : Bytes} (cfgfile : Bytes)
    (h : Plain (requests w patchver [] (readLines text))) :
    genKconfigOverrides w patchver (some text) (some cfgfile) =
      wantedLines (asks (enabled cfgfile)) (requests w patchver [] (readLines text)) := by
  rw [genKconfigOverrides, scanLines]
  exact printLines_updates h

/-- **When the overrides are what the packages ask for.** -/
theorem overrides_iff (pkginfo : PkgInfo w patchver) (cfgfile : Bytes) :
    Overrides pkginfo cfgfile ↔
      ∀ r ∈ pkginfo.items, enabled cfgfile r.package = true → r.config ≠ no := by
  have hlines := genKconfigOverrides_eq cfgfile pkginfo.values
  constructor
  · intro h
    refine (wantedLines_iff pkginfo.values).mp ?_
    rw [← hlines]
    exact h.lines
  · intro h
    refine ⟨hlines.trans ((wantedLines_iff pkginfo.values).mpr h), fun text' hpermuted => ?_⟩
    have hperm := @requests_permuted w patchver _ _ hpermuted
    rw [hlines, genKconfigOverrides_eq cfgfile fun r hr => pkginfo.values r (hperm.mem_iff.mp hr)]
    exact wantedLines_perm hperm

end

/-! ## An enabled package asks for `n` -/

def namedNo : Bytes := ascii "Package: kmod-n\nKernel-Config: n\n"

theorem namedNo_values : ∀ r ∈ requests uv64 none [] (readLines namedNo),
    r.override = none ∨ r.override = some yes ∨ r.override = some modular := by
  decide

theorem overrides_namedNo : ¬ Overrides (⟨namedNo, namedNo_values⟩ : PkgInfo uv64 none)
    (ascii "CONFIG_PACKAGE_kmod-n=y\n") := by
  intro h
  have hlines := h.lines
  rw [genKconfigOverrides_eq _ namedNo_values] at hlines
  refine (wantedLines_iff namedNo_values).mp hlines
    (Request.ofItem (ascii "kmod-n") no) ?_ ?_ rfl <;> decide

end UolaOs.Metadata
