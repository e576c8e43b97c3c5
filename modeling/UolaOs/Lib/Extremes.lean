import Mathlib.Data.List.MinMax
import Mathlib.Order.Lattice

/-!
# Running extremes

Loops over a list that keep the largest or the smallest value so far.

* `foldl_greatest`, `foldl_least`: what such a loop leaves;
* `next_scan`: both in a row find the next value above one of the list.
-/

namespace UolaOs

section
variable {ι α : Type} [LinearOrder α] (f : ι → α)

/-- A loop that keeps the largest value. -/
def greatest (is : List ι) (m : α) : α := is.foldl (fun m i => if m < f i then f i else m) m

/-- A loop that keeps the smallest of some values. -/
def least (p : ι → Prop) [DecidablePred p] (is : List ι) (m : α) : α :=
  is.foldl (fun m i => if p i ∧ f i < m then f i else m) m

/-- The smallest value above `top`, if there is one, else `top`. -/
def next (as : List α) (top : α) : α := ((as.filter fun a => decide (top < a)).min?).getD top

variable {f} {p : ι → Prop} [DecidablePred p] {is : List ι} {m top : α} {as : List α}

theorem greatest_spec (is : List ι) (m : α) :
    m ≤ greatest f is m ∧ (∀ i ∈ is, f i ≤ greatest f is m) ∧
      (greatest f is m = m ∨ ∃ i ∈ is, greatest f is m = f i) := by
  induction is generalizing m with
  | nil => exact ⟨le_refl m, fun i hi => absurd hi List.not_mem_nil, .inl rfl⟩
  | cons i is ih =>
    obtain ⟨hstart, hall, hfound⟩ := ih (if m < f i then f i else m)
    have hround : m ≤ (if m < f i then f i else m) ∧ f i ≤ (if m < f i then f i else m) := by
      split
      next hlt => exact ⟨hlt.le, le_refl _⟩
      next hle => exact ⟨le_refl _, not_lt.mp hle⟩
    refine ⟨hround.1.trans hstart, fun j hj => ?_, ?_⟩
    · rcases List.mem_cons.mp hj with rfl | hj
      · exact hround.2.trans hstart
      · exact hall j hj
    · rcases hfound with heq | ⟨j, hj, heq⟩
      · change greatest f is _ = m ∨ ∃ j ∈ i :: is, greatest f is _ = f j
        rw [heq]
        split
        · exact .inr ⟨i, List.mem_cons_self, rfl⟩
        · exact .inl rfl
      · exact .inr ⟨j, List.mem_cons_of_mem i hj, heq⟩

theorem least_spec (is : List ι) (m : α) :
    least f p is m ≤ m ∧ (∀ i ∈ is, p i → least f p is m ≤ f i) ∧
      (least f p is m = m ∨ ∃ i ∈ is, p i ∧ least f p is m = f i) := by
  induction is generalizing m with
  | nil => exact ⟨le_refl m, fun i hi => absurd hi List.not_mem_nil, .inl rfl⟩
  | cons i is ih =>
    obtain ⟨hstart, hall, hfound⟩ := ih (if p i ∧ f i < m then f i else m)
    have hround : (if p i ∧ f i < m then f i else m) ≤ m ∧
        (p i → (if p i ∧ f i < m then f i else m) ≤ f i) := by
      split
      next h => exact ⟨h.2.le, fun _ => le_refl _⟩
      next h => exact ⟨le_refl _, fun hp => not_lt.mp fun hlt => h ⟨hp, hlt⟩⟩
    refine ⟨hstart.trans hround.1, fun j hj hp => ?_, ?_⟩
    · rcases List.mem_cons.mp hj with rfl | hj
      · exact hstart.trans (hround.2 hp)
      · exact hall j hj hp
    · rcases hfound with heq | ⟨j, hj, hp, heq⟩
      · change least f p is _ = m ∨ ∃ j ∈ i :: is, p j ∧ least f p is _ = f j
        rw [heq]
        split
        next h => exact .inr ⟨i, List.mem_cons_self, h.1, rfl⟩
        · exact .inl rfl
      · exact .inr ⟨j, List.mem_cons_of_mem i hj, hp, heq⟩

theorem next_eq {a : α} (hmem : a ∈ as) (hlt : top < a) (hmin : ∀ b ∈ as, top < b → a ≤ b) :
    next as top = a := by
  have hfilter : (as.filter fun a => decide (top < a)).min? = some a := by
    rw [List.min?_eq_some_iff]
    refine ⟨List.mem_filter.mpr ⟨hmem, decide_eq_true hlt⟩, fun b hb => ?_⟩
    obtain ⟨hb, hgt⟩ := List.mem_filter.mp hb
    exact hmin b hb (of_decide_eq_true hgt)
  rw [next, hfilter]
  rfl

theorem next_of_le (h : ∀ a ∈ as, a ≤ top) : next as top = top := by
  have hnil : (as.filter fun a => decide (top < a)) = [] := by
    rw [List.filter_eq_nil_iff]
    intro a ha hgt
    exact absurd (of_decide_eq_true hgt) (not_lt.mpr (h a ha))
  rw [next, hnil]
  rfl

theorem le_next (as : List α) (top : α) : top ≤ next as top := by
  rw [next]
  cases h : (as.filter fun a => decide (top < a)).min? with
  | none => exact le_refl top
  | some a =>
    have hmem := (List.min?_eq_some_iff.mp h).1
    exact (of_decide_eq_true (List.mem_filter.mp hmem).2).le

/-- **The next value.** The largest value, and then the smallest above `top`. -/
theorem next_scan (hm : m ≤ top) (htop : ∃ i ∈ is, f i = top) :
    least f (fun i => top < f i) is (greatest f is m) = next (is.map f) top := by
  obtain ⟨hstart, hall, hfound⟩ := greatest_spec (f := f) is m
  obtain ⟨hle, hmin, hend⟩ :=
    least_spec (f := f) (p := fun i => top < f i) is (greatest f is m)
  by_cases habove : ∃ i ∈ is, top < f i
  · obtain ⟨i, hi, hgt⟩ := habove
    have hlarge : top < greatest f is m := lt_of_lt_of_le hgt (hall i hi)
    have hmem : ∃ j ∈ is, top < f j ∧
        least f (fun i => top < f i) is (greatest f is m) = f j := by
      rcases hend with heq | h
      · rcases hfound with hfirst | ⟨j, hj, hj'⟩
        · exact absurd hm (not_le.mpr (hfirst ▸ hlarge))
        · exact ⟨j, hj, hj' ▸ hlarge, heq.trans hj'⟩
      · exact h
    obtain ⟨j, hj, hgt, heq⟩ := hmem
    rw [heq]
    refine (next_eq (List.mem_map_of_mem hj) hgt fun b hb hb' => ?_).symm
    obtain ⟨k, hk, rfl⟩ := List.mem_map.mp hb
    exact heq ▸ hmin k hk hb'
  · have hbelow (i : ι) (hi : i ∈ is) : f i ≤ top := not_lt.mp fun hgt => habove ⟨i, hi, hgt⟩
    have hlast : greatest f is m = top := by
      obtain ⟨i, hi, rfl⟩ := htop
      refine le_antisymm ?_ (hall i hi)
      rcases hfound with heq | ⟨j, hj, heq⟩
      · exact heq.le.trans hm
      · exact heq.le.trans (hbelow j hj)
    have hnext : next (is.map f) top = top := by
      refine next_of_le fun a ha => ?_
      obtain ⟨i, hi, rfl⟩ := List.mem_map.mp ha
      exact hbelow i hi
    rw [hnext]
    rcases hend with heq | ⟨i, hi, hgt, -⟩
    · exact heq.trans hlast
    · exact absurd hgt (not_lt.mpr (hbelow i hi))

end

end UolaOs
