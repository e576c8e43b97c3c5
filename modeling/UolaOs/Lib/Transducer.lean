import Mathlib.Data.List.Basic

/-!
# Step by step with an output

`transduce` runs a step over a list and keeps what it gives for each element.

* `transduce_append`, `transduce_flatten`: the run over parts is the run over the whole;
* `transduce_transduce`: a step that takes back another one takes back its runs.
-/

namespace UolaOs

section
variable {σ α β : Type*} (f : σ → α → σ × β)

def transduce : σ → List α → σ × List β
  | s, [] => (s, [])
  | s, a :: as =>
    let r := f s a
    let rs := transduce r.1 as
    (rs.1, r.2 :: rs.2)

/-- The run over one part after the other. -/
def transduceParts : σ → List (List α) → List β
  | _, [] => []
  | s, as :: parts =>
    let r := transduce f s as
    r.2 ++ transduceParts r.1 parts

@[simp] theorem length_transduce (s : σ) (as : List α) :
    (transduce f s as).2.length = as.length := by
  induction as generalizing s with
  | nil => rfl
  | cons a as ih => rw [transduce, List.length_cons, ih, List.length_cons]

theorem transduce_append (s : σ) (as bs : List α) :
    transduce f s (as ++ bs) = ((transduce f (transduce f s as).1 bs).1,
      (transduce f s as).2 ++ (transduce f (transduce f s as).1 bs).2) := by
  induction as generalizing s with
  | nil => rfl
  | cons a as ih => simp only [List.cons_append, transduce, ih]

theorem transduceParts_eq (s : σ) (parts : List (List α)) :
    transduceParts f s parts = (transduce f s parts.flatten).2 := by
  induction parts generalizing s with
  | nil => rfl
  | cons as parts ih => rw [transduceParts, List.flatten_cons, transduce_append, ih]

variable {f} {g : σ → β → σ × α}

/-- With the same state after each step, the second run gives back what the first one got. -/
theorem transduce_transduce (h : ∀ s a, g s (f s a).2 = ((f s a).1, a)) (s : σ) (as : List α) :
    transduce g s (transduce f s as).2 = ((transduce f s as).1, as) := by
  induction as generalizing s with
  | nil => rfl
  | cons a as ih => simp only [transduce, h, ih]

end

end UolaOs
