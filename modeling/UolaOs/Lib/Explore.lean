import Mathlib.Data.Set.Insert
import Mathlib.Logic.Relation

/-!
# Walks with marks

A walk over a graph that marks what it visits, and does not go where a mark is. `Explores` is what
a part of such a walk has done, so that the parts are put together:

* nothing, one part after the other, and a visit that comes before the walk from its successors;
* `Explores.eq_reach`: from no marks, the whole walk marks what the roots lead to.
-/

namespace UolaOs

variable {α : Type} {edge : α → α → Prop} {roots others marks marks' marks'' : Set α} {x : α}

/-- What edges lead to from the roots. -/
def reach (edge : α → α → Prop) (roots : Set α) : Set α :=
  {y | ∃ x ∈ roots, Relation.ReflTransGen edge x y}

/-- A walk from the roots. -/
structure Explores (edge : α → α → Prop) (roots marks marks' : Set α) : Prop where
  kept : marks ⊆ marks'
  roots_marked : roots ⊆ marks'
  sound : ∀ x ∈ marks', x ∉ marks → x ∈ reach edge roots
  /-- A new mark is left when its successors are marked. -/
  closed : ∀ x ∈ marks', x ∉ marks → ∀ y, edge x y → y ∈ marks'

namespace Explores

theorem nothing (h : roots ⊆ marks) : Explores edge roots marks marks :=
  ⟨fun _ => id, h, fun _ hx hnot => absurd hx hnot, fun _ hx hnot => absurd hx hnot⟩

theorem append (h : Explores edge roots marks marks') (h' : Explores edge others marks' marks'') :
    Explores edge (roots ∪ others) marks marks'' := by
  refine ⟨h.kept.trans h'.kept, ?_, fun x hx hnot => ?_, fun x hx hnot y hy => ?_⟩
  · exact Set.union_subset (h.roots_marked.trans h'.kept) h'.roots_marked
  · by_cases hmid : x ∈ marks'
    · obtain ⟨r, hr, hpath⟩ := h.sound x hmid hnot
      exact ⟨r, .inl hr, hpath⟩
    · obtain ⟨r, hr, hpath⟩ := h'.sound x hx hmid
      exact ⟨r, .inr hr, hpath⟩
  · by_cases hmid : x ∈ marks'
    · exact h'.kept (h.closed x hmid hnot y hy)
    · exact h'.closed x hx hmid y hy

/-- A visit marks, and goes on from the successors. -/
theorem visit (h : Explores edge {y | edge x y} (insert x marks) marks') :
    Explores edge {x} marks marks' := by
  refine ⟨(Set.subset_insert x marks).trans h.kept, ?_, fun y hy hnot => ?_,
    fun y hy hnot z hz => ?_⟩
  · rintro y rfl
    exact h.kept (Set.mem_insert y marks)
  · by_cases hyx : y = x
    · exact ⟨x, rfl, hyx ▸ .refl⟩
    · obtain ⟨r, hr, hpath⟩ := h.sound y hy fun hins => hins.elim hyx hnot
      exact ⟨x, rfl, .head hr hpath⟩
  · by_cases hyx : y = x
    · exact h.roots_marked (hyx ▸ hz : edge x z)
    · exact h.closed y hy (fun hins => hins.elim hyx hnot) z hz

/-- A walk without marks marks what the roots lead to. -/
theorem eq_reach (h : Explores edge roots ∅ marks) : marks = reach edge roots := by
  ext y
  refine ⟨fun hy => h.sound y hy (Set.notMem_empty y), ?_⟩
  rintro ⟨x, hx, hpath⟩
  induction hpath with
  | refl => exact h.roots_marked hx
  | tail _ hstep ih => exact h.closed _ ih (Set.notMem_empty _) _ hstep

end Explores

theorem reach_empty : reach edge ∅ = ∅ := by
  ext y
  exact ⟨fun ⟨x, hx, _⟩ => hx, fun hy => absurd hy (Set.notMem_empty y)⟩

theorem subset_reach : roots ⊆ reach edge roots := fun x hx => ⟨x, hx, .refl⟩

end UolaOs
