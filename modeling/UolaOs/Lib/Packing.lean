import Mathlib.Algebra.GroupWithZero.Nat
import Mathlib.Data.List.Basic

/-!
# Packing chains into a bounded area

Chains of items are written one after another into an area of `cap` units. Each chain
is cut at the first item that does not fit any more, and the next chain goes on with
what room is left:

* `packed_sublist`, `total_packed_le`: what is written is a part of the items, in order,
  and fits;
* `packed_eq_iff`: nothing is lost exactly when everything fits together.
-/

namespace UolaOs.Packing

variable {α : Type} (size : α → Nat)

def total (l : List α) : Nat := (l.map size).sum

/-- The items of a chain before the first one that does not fit. -/
def fitting (cap : Nat) : List α → List α
  | [] => []
  | a :: c => if size a ≤ cap then a :: fitting (cap - size a) c else []

/-- What is written of a list of chains. -/
def packed (cap : Nat) : List (List α) → List α
  | [] => []
  | c :: cs => fitting size cap c ++ packed (cap - total size (fitting size cap c)) cs

@[simp] theorem total_nil : total size ([] : List α) = 0 := rfl

@[simp] theorem total_cons (a : α) (l : List α) : total size (a :: l) = size a + total size l := by
  simp [total]

@[simp] theorem total_append (l l' : List α) :
    total size (l ++ l') = total size l + total size l' := by
  simp [total]

theorem total_perm {l l' : List α} (h : l.Perm l') : total size l = total size l' :=
  (h.map size).sum_nat

theorem le_total_of_mem {a : α} {l : List α} (h : a ∈ l) : size a ≤ total size l := by
  obtain ⟨s, t, rfl⟩ := List.append_of_mem h
  rw [total_append, total_cons]
  omega

theorem total_fitting_le (cap : Nat) (c : List α) : total size (fitting size cap c) ≤ cap := by
  induction c generalizing cap with
  | nil => exact Nat.zero_le _
  | cons a c ih =>
    unfold fitting
    split
    · have := ih (cap - size a)
      rw [total_cons]
      omega
    · exact Nat.zero_le _

theorem fitting_sublist (cap : Nat) (c : List α) : (fitting size cap c).Sublist c := by
  induction c generalizing cap with
  | nil => exact .slnil
  | cons a c ih =>
    unfold fitting
    split
    · exact (ih _).cons_cons a
    · exact List.nil_sublist _

variable {size} in
theorem fitting_eq_self {cap : Nat} {c : List α} (h : total size c ≤ cap) :
    fitting size cap c = c := by
  induction c generalizing cap with
  | nil => rfl
  | cons a c ih =>
    rw [total_cons] at h
    rw [fitting, if_pos (by omega), ih (by omega)]

theorem packed_sublist (cap : Nat) (cs : List (List α)) :
    (packed size cap cs).Sublist cs.flatten := by
  induction cs generalizing cap with
  | nil => exact .slnil
  | cons c cs ih => exact (fitting_sublist size cap c).append (ih _)

theorem total_packed_le (cap : Nat) (cs : List (List α)) :
    total size (packed size cap cs) ≤ cap := by
  induction cs generalizing cap with
  | nil => exact Nat.zero_le _
  | cons c cs ih =>
    have := ih (cap - total size (fitting size cap c))
    have := total_fitting_le size cap c
    rw [packed, total_append]
    omega

variable {size} in
/-- Nothing is lost exactly when everything fits together. -/
theorem packed_eq_iff {cap : Nat} {cs : List (List α)} :
    packed size cap cs = cs.flatten ↔ total size cs.flatten ≤ cap := by
  constructor
  · intro h
    rw [← h]
    exact total_packed_le size cap cs
  · intro h
    induction cs generalizing cap with
    | nil => rfl
    | cons c cs ih =>
      rw [List.flatten_cons, total_append] at h
      rw [packed, fitting_eq_self (by omega), ih (by omega), List.flatten_cons]

end UolaOs.Packing
