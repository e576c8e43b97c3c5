import Mathlib.Data.List.Basic
import Mathlib.Data.List.Nodup
import Mathlib.Data.List.FinRange
import Mathlib.Logic.Function.Basic

/-!
# Hash tables with chaining

A table maps each index to a chain of entries. `key` reads an entry's key and
`bucket` selects the chain of a key:

* `Ok`: every entry lies in the chain of its key, no chain repeats a key;
* `lookup_push`, `lookup_replace`, `lookup_erase`: the three updates change the
  answer for one key only, and `Ok` is kept by each;
* `entries`: all entries, chain after chain; `mem_entries_iff` ties it to `lookup`.
-/

namespace UolaOs.ChainTable

variable {α K : Type} [DecidableEq K] {n : Nat} (key : α → K) (bucket : K → Fin n)

abbrev Table (α : Type) (n : Nat) := Fin n → List α

/-- The first entry with key `k` of a chain. -/
def find (k : K) (c : List α) : Option α := c.find? (fun a => key a = k)

/-- Put `u` in the place of the first entry with key `k`. -/
def replaceFirst (k : K) (u : α) : List α → List α
  | [] => []
  | a :: c => if key a = k then u :: c else a :: replaceFirst k u c

def removeFirst (k : K) (c : List α) : List α := c.eraseP (fun a => key a = k)

def lookup (T : Table α n) (k : K) : Option α := find key k (T (bucket k))

def push (T : Table α n) (u : α) : Table α n :=
  Function.update T (bucket (key u)) (u :: T (bucket (key u)))

def replace (T : Table α n) (u : α) : Table α n :=
  Function.update T (bucket (key u)) (replaceFirst key (key u) u (T (bucket (key u))))

def erase (T : Table α n) (k : K) : Table α n :=
  Function.update T (bucket k) (removeFirst key k (T (bucket k)))

/-- All entries, chain after chain. -/
def entries (T : Table α n) : List α := (List.finRange n).flatMap T

structure Ok (T : Table α n) : Prop where
  placed : ∀ i, ∀ a ∈ T i, bucket (key a) = i
  distinct : ∀ i, ((T i).map key).Nodup

/-! ## Chains -/

theorem key_of_find {k : K} {c : List α} {a : α} (h : find key k c = some a) : key a = k := by
  simpa using List.find?_some h

theorem mem_of_find {k : K} {c : List α} {a : α} (h : find key k c = some a) : a ∈ c :=
  List.mem_of_find?_eq_some h

theorem find_none_iff {k : K} {c : List α} : find key k c = none ↔ k ∉ c.map key := by
  simp [find]

theorem find_of_mem {c : List α} {a : α} (hd : (c.map key).Nodup) (ha : a ∈ c) :
    find key (key a) c = some a := by
  induction c with
  | nil => cases ha
  | cons b c ih =>
    simp only [List.map_cons, List.nodup_cons] at hd
    rcases List.mem_cons.mp ha with rfl | ha
    · simp [find]
    · have hb : key b ≠ key a := fun h => hd.1 (h ▸ List.mem_map_of_mem ha)
      simpa [find, hb] using ih hd.2 ha

theorem map_key_replaceFirst {k : K} {u : α} (hu : key u = k) (c : List α) :
    (replaceFirst key k u c).map key = c.map key := by
  induction c with
  | nil => rfl
  | cons a c ih =>
    unfold replaceFirst
    split
    · simp_all
    · simp [ih]

theorem mem_replaceFirst {k : K} {u a : α} {c : List α} (h : a ∈ replaceFirst key k u c) :
    a = u ∨ a ∈ c := by
  induction c with
  | nil => cases h
  | cons b c ih =>
    unfold replaceFirst at h
    split at h
    · rcases List.mem_cons.mp h with h | h
      · exact .inl h
      · exact .inr (List.mem_cons_of_mem b h)
    · rcases List.mem_cons.mp h with rfl | h
      · exact .inr List.mem_cons_self
      · exact (ih h).imp_right (List.mem_cons_of_mem b)

theorem find_replaceFirst {k : K} {u : α} (hu : key u = k) (c : List α) (k' : K) :
    find key k' (replaceFirst key k u c) =
      if k' = k then (find key k c).map (fun _ => u) else find key k' c := by
  induction c with
  | nil => simp [replaceFirst, find]
  | cons a c ih =>
    unfold replaceFirst
    by_cases ha : key a = k
    · by_cases hk : k' = k
      · simp [find, ha, hu, hk]
      · simp [find, ha, hu, hk, Ne.symm hk]
    · by_cases hk : k' = k
      · subst hk
        simpa [find, ha] using ih
      · by_cases ha' : key a = k'
        · subst ha'
          simp [find, ha]
        · simpa [find, ha, hk, ha'] using ih

theorem find_removeFirst {c : List α} (hd : (c.map key).Nodup) (k k' : K) :
    find key k' (removeFirst key k c) = if k' = k then none else find key k' c := by
  induction c with
  | nil => simp [removeFirst, find]
  | cons a c ih =>
    simp only [List.map_cons, List.nodup_cons] at hd
    by_cases ha : key a = k
    · have hrm : removeFirst key k (a :: c) = c := by simp [removeFirst, ha]
      rw [hrm]
      by_cases hk : k' = k
      · rw [if_pos hk, find_none_iff, hk, ← ha]
        exact hd.1
      · simp [find, ha, hk, Ne.symm hk]
    · have hrm : removeFirst key k (a :: c) = a :: removeFirst key k c := by
        simp [removeFirst, ha]
      rw [hrm]
      by_cases hk' : key a = k'
      · subst hk'
        simp [find, ha]
      · simpa [find, hk'] using ih hd.2

/-! ## Tables -/

section
variable {key bucket} {T : Table α n}

theorem lookup_eq_some_iff (hT : Ok key bucket T) {k : K} {a : α} :
    lookup key bucket T k = some a ↔ a ∈ T (bucket k) ∧ key a = k := by
  constructor
  · intro h
    exact ⟨mem_of_find key h, key_of_find key h⟩
  · rintro ⟨ha, rfl⟩
    exact find_of_mem key (hT.distinct _) ha

theorem lookup_push (u : α) (k : K) :
    lookup key bucket (push key bucket T u) k =
      if k = key u then some u else lookup key bucket T k := by
  by_cases hk : k = key u
  · subst hk
    simp [lookup, push, find]
  · by_cases hb : bucket k = bucket (key u)
    · simp [lookup, push, find, hb, hk, Ne.symm hk]
    · simp [lookup, push, hb, hk]

theorem lookup_replace (u : α) (k : K) :
    lookup key bucket (replace key bucket T u) k =
      if k = key u then (lookup key bucket T (key u)).map (fun _ => u)
      else lookup key bucket T k := by
  by_cases hb : bucket k = bucket (key u)
  · simp only [lookup, replace, hb, Function.update_self]
    exact find_replaceFirst key rfl _ k
  · have hk : k ≠ key u := fun h => hb (congrArg bucket h)
    simp [lookup, replace, hb, hk]

theorem lookup_erase (hT : Ok key bucket T) (k k' : K) :
    lookup key bucket (erase key bucket T k) k' =
      if k' = k then none else lookup key bucket T k' := by
  by_cases hb : bucket k' = bucket k
  · simp only [lookup, erase, hb, Function.update_self]
    exact find_removeFirst key (hT.distinct _) k k'
  · have hk : k' ≠ k := fun h => hb (congrArg bucket h)
    simp [lookup, erase, hb, hk]

omit [DecidableEq K] in
theorem ok_empty : Ok key bucket (fun _ => []) := ⟨by simp, by simp⟩

omit [DecidableEq K] in
/-- An update of one chain keeps the invariant if the new chain satisfies it. -/
theorem Ok.update (hT : Ok key bucket T) {i : Fin n} {c : List α}
    (placed : ∀ a ∈ c, bucket (key a) = i) (distinct : (c.map key).Nodup) :
    Ok key bucket (Function.update T i c) := by
  constructor <;> intro j <;> by_cases hj : j = i
  · subst hj; simpa using placed
  · simpa [hj] using hT.placed j
  · subst hj; simpa using distinct
  · simpa [hj] using hT.distinct j

theorem ok_push (hT : Ok key bucket T) {u : α} (absent : lookup key bucket T (key u) = none) :
    Ok key bucket (push key bucket T u) := by
  apply hT.update
  · intro a ha
    rcases List.mem_cons.mp ha with rfl | ha
    · rfl
    · exact hT.placed _ a ha
  · rw [List.map_cons, List.nodup_cons]
    exact ⟨(find_none_iff key).mp absent, hT.distinct _⟩

theorem ok_replace (hT : Ok key bucket T) (u : α) : Ok key bucket (replace key bucket T u) := by
  apply hT.update
  · intro a ha
    rcases mem_replaceFirst key ha with rfl | ha
    · rfl
    · exact hT.placed _ a ha
  · rw [map_key_replaceFirst key rfl]
    exact hT.distinct _

theorem ok_erase (hT : Ok key bucket T) (k : K) : Ok key bucket (erase key bucket T k) := by
  have sub : (removeFirst key k (T (bucket k))).Sublist (T (bucket k)) := List.eraseP_sublist
  apply hT.update
  · intro a ha
    exact hT.placed _ a (sub.subset ha)
  · exact (hT.distinct _).sublist (sub.map key)

theorem mem_entries_iff (hT : Ok key bucket T) {a : α} :
    a ∈ entries T ↔ lookup key bucket T (key a) = some a := by
  rw [lookup_eq_some_iff hT]
  simp only [entries, List.mem_flatMap, List.mem_finRange, true_and, and_true]
  constructor
  · rintro ⟨i, hi⟩
    rwa [hT.placed i a hi]
  · intro h
    exact ⟨_, h⟩

omit [DecidableEq K] in
/-- No key occurs twice in the whole table. -/
theorem entries_nodup (hT : Ok key bucket T) : ((entries T).map key).Nodup := by
  rw [entries, List.map_flatMap, List.nodup_flatMap]
  refine ⟨fun i _ => hT.distinct i, ?_⟩
  refine (List.nodup_finRange n).imp ?_
  intro i j hij k hi hj
  obtain ⟨a, ha, rfl⟩ := List.mem_map.mp hi
  obtain ⟨b, hb, hab⟩ := List.mem_map.mp hj
  apply hij
  rw [← hT.placed i a ha, ← hT.placed j b hb, hab]

/-- A new entry is one entry more. -/
theorem entries_push_perm (hT : Ok key bucket T) {u : α}
    (absent : lookup key bucket T (key u) = none) :
    (entries (push key bucket T u)).Perm (u :: entries T) := by
  have hT' := ok_push hT absent
  have hu : u ∉ entries T := by
    intro hu
    rw [mem_entries_iff hT, absent] at hu
    cases hu
  rw [List.perm_ext_iff_of_nodup (entries_nodup hT').of_map
    (List.nodup_cons.mpr ⟨hu, (entries_nodup hT).of_map⟩)]
  intro a
  rw [mem_entries_iff hT', lookup_push, List.mem_cons, mem_entries_iff hT]
  by_cases ha : key a = key u
  · simp only [ha, ↓reduceIte, Option.some.injEq, absent, reduceCtorEq, or_false, eq_comm]
  · have hne : a ≠ u := fun h => ha (congrArg key h)
    simp [ha, hne]

end

end UolaOs.ChainTable
