import Mathlib.Data.List.AList

/-!
# Hashes

Finite maps as lists of entries without repeated keys, and loops over the entries of one that store
into another. The order of the entries is any that the keys may come in.
-/

namespace UolaOs

abbrev Hash (κ υ : Type) := AList fun _ : κ => υ

namespace Hash

variable {κ υ : Type} [DecidableEq κ]

/-- The same entries, in any order. -/
def Same (a b : Hash κ υ) : Prop := ∀ k, a.lookup k = b.lookup k

/-- A loop that stores the entries with a property. -/
theorem lookup_foldl_insert {l : List (Sigma fun _ : κ => υ)} (hl : l.NodupKeys)
    (p : κ → υ → Prop) [∀ k v, Decidable (p k v)] (c : Hash κ υ) (k : κ) :
    (l.foldl (fun c e => if p e.1 e.2 then c.insert e.1 e.2 else c) c).lookup k =
      ((l.dlookup k).filter fun v => decide (p k v)).or (c.lookup k) := by
  induction l generalizing c with
  | nil => rfl
  | cons e l ih =>
    obtain ⟨k', v⟩ := e
    rw [List.foldl_cons, ih (List.nodupKeys_of_nodupKeys_cons hl)]
    by_cases hk : k = k'
    · subst hk
      have hnone : l.dlookup k = none :=
        List.dlookup_eq_none.mpr (List.notMem_keys_of_nodupKeys_cons hl)
      rw [hnone, List.dlookup_cons_eq, Option.filter_none, Option.none_or]
      by_cases hp : p k v
      · rw [if_pos hp, AList.lookup_insert, Option.filter_some, if_pos (decide_eq_true hp)]
        rfl
      · rw [if_neg hp, Option.filter_some, if_neg fun h => hp (of_decide_eq_true h)]
        rfl
    · rw [List.dlookup_cons_ne l ⟨k', v⟩ hk]
      refine congrArg _ ?_
      dsimp only
      split
      · exact AList.lookup_insert_ne hk
      · rfl

/-- A loop over all entries of a hash, from none. -/
theorem lookup_collect (a : Hash κ υ) (p : κ → υ → Prop) [∀ k v, Decidable (p k v)] {k : κ}
    {v : υ} : (a.entries.foldl (fun c e => if p e.1 e.2 then c.insert e.1 e.2 else c)
        (∅ : Hash κ υ)).lookup k = some v ↔ a.lookup k = some v ∧ p k v := by
  rw [lookup_foldl_insert a.nodupKeys, AList.lookup_empty, Option.or_none, ← AList.lookup,
    Option.filter_eq_some_iff]
  exact and_congr_right fun _ => decide_eq_true_iff

/-- A loop that stores all entries. -/
theorem lookup_storeAll (a c : Hash κ υ) (k : κ) :
    (a.entries.foldl (fun c e => c.insert e.1 e.2) c).lookup k = (a.lookup k).or (c.lookup k) := by
  have h := lookup_foldl_insert a.nodupKeys (fun _ _ => True) c k
  have hall : (a.entries.dlookup k).filter (fun _ => true) = a.lookup k := by
    rw [AList.lookup]
    cases a.entries.dlookup k <;> rfl
  simp only [if_true, decide_true, hall] at h
  exact h

/-- A loop that deletes keys. -/
theorem lookup_foldl_erase (ks : List κ) (a : Hash κ υ) (k : κ) :
    (k ∈ ks → (ks.foldl (fun c k => c.erase k) a).lookup k = none) ∧
      (k ∉ ks → (ks.foldl (fun c k => c.erase k) a).lookup k = a.lookup k) := by
  induction ks generalizing a with
  | nil => exact ⟨fun h => absurd h List.not_mem_nil, fun _ => rfl⟩
  | cons k' ks ih =>
    rw [List.foldl_cons]
    obtain ⟨hin, hout⟩ := ih (a.erase k')
    constructor
    · intro hk
      by_cases hks : k ∈ ks
      · exact hin hks
      · obtain rfl := (List.mem_cons.mp hk).resolve_right hks
        rw [hout hks, AList.lookup_erase]
    · intro hk
      obtain ⟨hne, hks⟩ := List.ne_and_not_mem_of_not_mem_cons hk
      rw [hout hks, AList.lookup_erase_ne hne]

theorem mem_keys_iff {a : Hash κ υ} {k : κ} : k ∈ a.keys ↔ ∃ v, a.lookup k = some v := by
  rw [← AList.mem_keys, ← AList.lookup_isSome, Option.isSome_iff_exists]

end Hash

end UolaOs
