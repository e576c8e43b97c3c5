/-!
# Runs

The states that the steps of a system lead to, and the rule for what holds of all of them.
-/

namespace UolaOs

/-- The states that steps lead to from a first one. -/
inductive Reaches {σ ι : Type} (start : σ → Prop) (step : σ → ι → σ → Prop) : σ → Prop
  | start {s : σ} : start s → Reaches start step s
  | next {s t : σ} {i : ι} : Reaches start step s → step s i t → Reaches start step t

namespace Reaches

variable {σ ι : Type} {start : σ → Prop} {step step' : σ → ι → σ → Prop} {s : σ}

theorem invariant {I : σ → Prop} (first : ∀ s, start s → I s)
    (kept : ∀ s i t, I s → step s i t → I t) (h : Reaches start step s) : I s := by
  induction h with
  | start h => exact first _ h
  | next _ h ih => exact kept _ _ _ ih h

theorem mono (sub : ∀ s i t, step s i t → step' s i t) (h : Reaches start step s) :
    Reaches start step' s := by
  induction h with
  | start h => exact .start h
  | next _ h ih => exact .next ih (sub _ _ _ h)

/-- A run of a step function. -/
theorem run {f : σ → ι → Option σ} {is : List ι} {t : σ}
    (h : Reaches start (fun s i t => f s i = some t) s) (hrun : is.foldlM f s = some t) :
    Reaches start (fun s i t => f s i = some t) t := by
  induction is generalizing s with
  | nil =>
    obtain rfl := Option.some.inj hrun
    exact h
  | cons i is ih =>
    obtain ⟨u, hu, hrest⟩ := Option.bind_eq_some_iff.mp hrun
    exact ih (h.next hu) hrest

/-- A run from a first state whose end has a property. -/
theorem exists_run {f : σ → ι → Option σ} {is : List ι} {p : σ → Bool} (h : start s)
    (hp : (is.foldlM f s).any p = true) :
    ∃ t, Reaches start (fun s i t => f s i = some t) t ∧ p t = true := by
  cases hrun : is.foldlM f s with
  | none =>
    rw [hrun] at hp
    cases hp
  | some t =>
    rw [hrun] at hp
    exact ⟨t, run (.start h) hrun, hp⟩

end Reaches

end UolaOs
