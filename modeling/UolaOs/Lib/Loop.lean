import Mathlib.Data.Set.Finite.Basic
import Mathlib.Logic.Relation
import Mathlib.Order.RelClasses

/-!
# Loops that follow links

A loop whose rounds fail, stop, or go on at another position.

* `acc_iff_no_cycle`: with finitely many links, the walks from a position end when no position
  that they reach comes back to itself;
* `Follows.ends_iff`: the loop then ends without a failure, when each round on the way is sound.
-/

namespace UolaOs

section
variable {α : Type} {link : α → α → Prop} {a : α}

/-- Walks from `a` end. -/
abbrev Ends (link : α → α → Prop) (a : α) : Prop := Acc (fun y x => link x y) a

theorem Ends.reached {b : α} (h : Ends link a) (hab : Relation.ReflTransGen link a b) :
    Ends link b := by
  induction hab with
  | refl => exact h
  | tail _ hlink ih => exact ih.inv hlink

theorem Ends.no_cycle (h : Ends link a) : ¬ Relation.TransGen link a a := by
  induction h with
  | intro a _ ih =>
    intro hcycle
    obtain ⟨b, hab, hba⟩ := Relation.TransGen.head'_iff.mp hcycle
    exact ih b hab (Relation.TransGen.tail' hba hab)

/-- A walk that ends stops somewhere. -/
theorem Ends.exists_stop (h : Ends link a) :
    ∃ b, Relation.ReflTransGen link a b ∧ ∀ c, ¬ link b c := by
  induction h with
  | intro a _ ih =>
    by_cases ha : ∃ b, link a b
    · obtain ⟨b, hab⟩ := ha
      obtain ⟨c, hbc, hstop⟩ := ih b hab
      exact ⟨c, .head hab hbc, hstop⟩
    · exact ⟨a, .refl, fun b hab => ha ⟨b, hab⟩⟩

/-- Where each position has one link at most, a walk passes all that it visits before it stops. -/
theorem visited_before_stop (hlink : Relator.RightUnique link) {b c : α}
    (hab : Relation.ReflTransGen link a b) (hb : ∀ d, ¬ link b d)
    (hac : Relation.ReflTransGen link a c) : Relation.ReflTransGen link c b := by
  rcases Relation.ReflTransGen.total_of_right_unique hlink hab hac with hbc | hcb
  · obtain rfl | ⟨d, hbd, -⟩ := hbc.cases_head
    · exact .refl
    · exact absurd hbd (hb d)
  · exact hcb

theorem acc_iff_no_cycle (hfin : {x | ∃ y, link x y}.Finite) :
    Ends link a ↔ ∀ b, Relation.ReflTransGen link a b → ¬ Relation.TransGen link b b := by
  refine ⟨fun h b hab => (h.reached hab).no_cycle, fun hno => ?_⟩
  -- on the way every position that has a link comes after finitely many others
  let way := {x // (∃ y, link x y) ∧ Relation.ReflTransGen link a x}
  have : Finite way := (hfin.subset fun x hx => hx.1).to_subtype
  let later : way → way → Prop := fun y x => Relation.TransGen link x.1 y.1
  have : IsTrans way later := ⟨fun _ _ _ hxy hyz => hyz.trans hxy⟩
  have : Std.Irrefl later := ⟨fun x => hno x.1 x.2.2⟩
  have hwf : WellFounded later := Finite.wellFounded_of_trans_of_irrefl later
  have hends (x : way) : Ends link x.1 := by
    induction x using hwf.induction with
    | _ x ih =>
      refine ⟨_, fun y hxy => ?_⟩
      by_cases hy : ∃ z, link y z
      · exact ih ⟨y, hy, x.2.2.tail hxy⟩ (.single hxy)
      · exact ⟨_, fun z hyz => absurd ⟨z, hyz⟩ hy⟩
  by_cases ha : ∃ y, link a y
  · exact hends ⟨a, ha, .refl⟩
  · exact ⟨_, fun y hay => absurd ⟨y, hay⟩ ha⟩

end

/-- What a round of a loop does, unless it fails. -/
inductive Round (α σ : Type) where
  | stop (s : σ)
  | next (a : α) (s : σ)

section
variable {α σ : Type} (round : α → σ → Option (Round α σ))

/-- At most `fuel` rounds. -/
def loop : Nat → α → σ → Option σ
  | 0, _, _ => none
  | fuel + 1, a, s =>
    match round a s with
    | none => none
    | some (.stop s) => some s
    | some (.next a s) => loop fuel a s

theorem loop_mono {round : α → σ → Option (Round α σ)} {fuel fuel' : Nat} (hle : fuel ≤ fuel')
    {a : α} {s t : σ} (h : loop round fuel a s = some t) : loop round fuel' a s = some t := by
  induction fuel generalizing fuel' a s with
  | zero => cases h
  | succ fuel ih =>
    obtain ⟨fuel', rfl⟩ : ∃ n, fuel' = n + 1 := ⟨fuel' - 1, by omega⟩
    rw [loop] at h ⊢
    cases hround : round a s with
    | none =>
      rw [hround] at h
      cases h
    | some r =>
      rw [hround] at h
      cases r with
      | stop u => exact h
      | next b u => exact ih (by omega) h

section
variable {round : α → σ → Option (Round α σ)} {a b : α} {s t : σ}

theorem loop_stop (h : round a s = some (.stop t)) : loop round 1 a s = some t := by
  rw [loop, h]

theorem loop_next (h : round a s = some (.next b t)) (fuel : Nat) :
    loop round (fuel + 1) a s = loop round fuel b t := by
  rw [loop, h]

/-- A loop ends with one result at most. -/
theorem loop_unique {fuel fuel' : Nat} {u : σ} (h : loop round fuel a s = some t)
    (h' : loop round fuel' a s = some u) : t = u := by
  have hmax := loop_mono (Nat.le_max_left fuel fuel') h
  rw [loop_mono (Nat.le_max_right fuel fuel') h'] at hmax
  exact (Option.some.inj hmax).symm

end

/-- A loop that goes on along links, from a position to the next, and does not fail where it is
sound. -/
structure Follows (link : α → α → Prop) (sound : α → Prop) : Prop where
  safe : ∀ a s, (round a s).isSome = true ↔ sound a
  links : ∀ a s b t, round a s = some (.next b t) → link a b
  stops : ∀ a s t, round a s = some (.stop t) → ∀ b, ¬ link a b
  unique : ∀ a b c, link a b → link a c → b = c

end

namespace Follows

variable {α σ : Type} {round : α → σ → Option (Round α σ)} {link : α → α → Prop} {sound : α → Prop}

theorem ends {fuel : Nat} {a : α} {s t : σ} (h : Follows round link sound)
    (hrun : loop round fuel a s = some t) :
    Ends link a ∧ ∀ b, Relation.ReflTransGen link a b → sound b := by
  induction fuel generalizing a s with
  | zero => cases hrun
  | succ fuel ih =>
    have hsafe := h.safe a s
    have hlinks := h.links a s
    have hstops := h.stops a s
    rw [loop] at hrun
    cases hround : round a s with
    | none =>
      rw [hround] at hrun
      cases hrun
    | some r =>
      rw [hround] at hrun hsafe hlinks hstops
      have hhere : sound a := hsafe.mp rfl
      cases r with
      | stop u =>
        have hnone := hstops u rfl
        refine ⟨⟨_, fun b hab => absurd hab (hnone b)⟩, fun b hab => ?_⟩
        obtain rfl | ⟨c, hac, -⟩ := hab.cases_head
        · exact hhere
        · exact absurd hac (hnone c)
      | next c u =>
        have hac := hlinks c u rfl
        obtain ⟨hends, hsound⟩ := ih hrun
        refine ⟨⟨_, fun b hab => h.unique a b c hab hac ▸ hends⟩, fun b hab => ?_⟩
        obtain rfl | ⟨d, had, hdb⟩ := hab.cases_head
        · exact hhere
        · exact hsound b (h.unique a d c had hac ▸ hdb)

theorem runs {a : α} (h : Follows round link sound) (hends : Ends link a)
    (hsound : ∀ b, Relation.ReflTransGen link a b → sound b) (s : σ) :
    ∃ fuel t, loop round fuel a s = some t := by
  induction hends generalizing s with
  | intro a _ ih =>
    obtain ⟨r, hround⟩ := Option.isSome_iff_exists.mp ((h.safe a s).mpr (hsound a .refl))
    cases r with
    | stop u =>
      refine ⟨1, u, ?_⟩
      rw [loop, hround]
    | next b u =>
      have hab := h.links a s b u hround
      obtain ⟨fuel, t, hrun⟩ := ih b hab (fun c hbc => hsound c (.head hab hbc)) u
      refine ⟨fuel + 1, t, ?_⟩
      rw [loop, hround]
      exact hrun

/-- **When a loop ends** without a failure. -/
theorem ends_iff (h : Follows round link sound) (hfin : {x | ∃ y, link x y}.Finite) (a : α) (s :
    σ) :
    (∃ fuel t, loop round fuel a s = some t) ↔
      (∀ b, Relation.ReflTransGen link a b → ¬ Relation.TransGen link b b) ∧
        ∀ b, Relation.ReflTransGen link a b → sound b := by
  rw [← acc_iff_no_cycle hfin]
  constructor
  · rintro ⟨fuel, t, hrun⟩
    exact h.ends hrun
  · rintro ⟨hends, hsound⟩
    exact h.runs hends hsound s

end Follows

end UolaOs
