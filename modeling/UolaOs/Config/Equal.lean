import UolaOs.Config.Expr

/-!
# Equal expressions

`expr_eliminate_yn`, `expr_eliminate_eq` and `expr_eq` of scripts/config/expr.c.

* `calcValue_eliminateYn`: leaving out the operands `y` and `n` keeps the value;
* `Common`: what `__expr_eliminate_eq` takes out of both expressions is one and the same operand;
* `exprEq_sound`: equal expressions have the same value.
-/

namespace UolaOs.Config

namespace Expr

/-- An expression that is `y`, `m` or `n`. -/
def letter (t : Tristate) : Expr := symbol (.ofTristate t)

def size : Expr → Nat
  | symbol _ => 1
  | not e => 1 + e.size
  | comp _ _ _ => 1
  | two _ left right => 1 + left.size + right.size

/-- The two operands, where the expression is of this type. -/
def operands (type : TwoType) : Expr → Option (Expr × Expr)
  | two type' left right => if type' = type then some (left, right) else none
  | _ => none

@[simp] theorem calcValue_letter (c : Values) (t : Tristate) : (letter t).calcValue c = t :=
  c.tri_ofTristate t

@[simp] theorem letter_inj {s t : Tristate} : letter s = letter t ↔ s = t := by
  rw [letter, letter, symbol.injEq, Symbol.ofTristate_inj]

@[simp] theorem size_letter (t : Tristate) : (letter t).size = 1 := rfl

theorem size_pos (e : Expr) : 0 < e.size := by
  cases e <;> simp only [size] <;> omega

@[simp] theorem operands_two (type : TwoType) (l r : Expr) :
    (two type l r).operands type = some (l, r) := if_pos rfl

@[simp] theorem operands_letter (type : TwoType) (t : Tristate) :
    (letter t).operands type = none := rfl

theorem eq_two_of_operands {type : TwoType} {e l r : Expr} (h : e.operands type = some (l, r)) :
    e = two type l r := by
  cases e with
  | two type' l' r' =>
    simp only [operands, Option.ite_none_right_eq_some, Option.some.injEq, Prod.mk.injEq] at h
    rw [h.1, h.2.1, h.2.2]
  | _ => cases h

end Expr

/-! ## `expr_eliminate_yn` -/

/-- `expr_eliminate_yn` on a node, once it is done with the operands. -/
def eliminateYnTwo (type : TwoType) (left right : Expr) : Expr :=
  if left = .letter type.dual.unit then .letter type.dual.unit
  else if left = .letter type.unit then right
  else if right = .letter type.dual.unit then .letter type.dual.unit
  else if right = .letter type.unit then left
  else .two type left right

/-- `expr_eliminate_yn` -/
def exprEliminateYn : Expr → Expr
  | .two type left right => eliminateYnTwo type (exprEliminateYn left) (exprEliminateYn right)
  | e => e

/-- What `expr_eliminate_yn` can make of a node. -/
theorem eliminateYnTwo_cases {P : Expr → Prop} {type : TwoType} {l r : Expr}
    (hleft : r = .letter type.unit → P l) (hright : l = .letter type.unit → P r)
    (habsorb : l = .letter type.dual.unit ∨ r = .letter type.dual.unit →
      P (.letter type.dual.unit))
    (hnode : (∀ t, l = .letter t → t = .mod) → (∀ t, r = .letter t → t = .mod) →
      P (.two type l r)) : P (eliminateYnTwo type l r) := by
  have hmod {e : Expr} (h1 : e ≠ .letter type.dual.unit) (h2 : e ≠ .letter type.unit)
      (t : Tristate) (h : e = .letter t) : t = .mod := by
    subst h
    cases type <;> cases t <;> first | rfl | exact absurd rfl h1 | exact absurd rfl h2
  unfold eliminateYnTwo
  split
  case isTrue h => exact habsorb (.inl h)
  case isFalse hl1 =>
    split
    case isTrue h => exact hright h
    case isFalse hl2 =>
      split
      case isTrue h => exact habsorb (.inr h)
      case isFalse hr1 =>
        split
        case isTrue h => exact hleft h
        case isFalse hr2 => exact hnode (hmod hl1 hl2) (hmod hr1 hr2)

theorem calcValue_eliminateYnTwo (c : Values) (type : TwoType) (l r : Expr) :
    (eliminateYnTwo type l r).calcValue c = type.op (l.calcValue c) (r.calcValue c) := by
  apply eliminateYnTwo_cases
    (P := fun e => e.calcValue c = type.op (l.calcValue c) (r.calcValue c))
  · rintro rfl
    simp
  · rintro rfl
    simp
  · rintro (rfl | rfl) <;> simp
  · exact fun _ _ => rfl

theorem calcValue_eliminateYn (c : Values) (e : Expr) :
    (exprEliminateYn e).calcValue c = e.calcValue c := by
  induction e with
  | two type l r ihl ihr =>
    rw [exprEliminateYn, calcValue_eliminateYnTwo, ihl, ihr, calcValue_two]
  | _ => rfl

theorem size_eliminateYnTwo (type : TwoType) (l r : Expr) :
    (eliminateYnTwo type l r).size ≤ 1 + l.size + r.size := by
  apply eliminateYnTwo_cases (P := fun e => e.size ≤ 1 + l.size + r.size)
  · exact fun _ => by omega
  · exact fun _ => by omega
  · exact fun _ => by rw [Expr.size_letter]; omega
  · exact fun _ _ => Nat.le_refl _

theorem size_eliminateYn (e : Expr) : (exprEliminateYn e).size ≤ e.size := by
  induction e with
  | two type l r ihl ihr =>
    have h := size_eliminateYnTwo type (exprEliminateYn l) (exprEliminateYn r)
    rw [exprEliminateYn, Expr.size]
    omega
  | _ => exact Nat.le_refl _

/-! ## `expr_eq` -/

/-- The end of `expr_eq` for an `E_AND` or `E_OR`. -/
def sameSymbol : Expr → Expr → Bool
  | .symbol s1, .symbol s2 => s1 = s2
  | _, _ => false

mutual

/-- `expr_eq` where there is an expression on both sides. The calls are nested less than `n` deep
when that is three times the size of both. -/
def exprEqCalls : Nat → Expr → Expr → Option Bool
  | 0, _, _ => none
  | _ + 1, .comp t1 l1 r1, .comp t2 l2 r2 => some (t1 = t2 ∧ l1 = l2 ∧ r1 = r2)
  | _ + 1, .symbol s1, .symbol s2 => some (s1 = s2)
  | n + 1, .not e1, .not e2 => exprEqCalls n e1 e2
  | n + 1, .two t1 l1 r1, .two t2 l2 r2 =>
    if t1 ≠ t2 then some false
    else
      (eliminateEqCalls n t1 (.two t1 l1 r1) (.two t2 l2 r2)).map fun e =>
        sameSymbol (exprEliminateYn e.1) (exprEliminateYn e.2)
  | _ + 1, _, _ => some false

/-- `__expr_eliminate_eq`, which `expr_eq` calls on copies of its expressions. -/
def eliminateEqCalls : Nat → TwoType → Expr → Expr → Option (Expr × Expr)
  | 0, _, _, _ => none
  | n + 1, type, e1, e2 =>
    match e1.operands type, e2.operands type with
    | some (l, r), _ =>
      (eliminateEqCalls n type l e2).bind fun a =>
        (eliminateEqCalls n type r a.2).map fun b => (.two type a.1 b.1, b.2)
    | none, some (l, r) =>
      (eliminateEqCalls n type e1 l).bind fun a =>
        (eliminateEqCalls n type a.1 r).map fun b => (b.1, .two type a.2 b.2)
    | none, none =>
      if e1 = e2 ∧ (e1 = .letter .yes ∨ e1 = .letter .no) then some (e1, e2)
      else
        (exprEqCalls n e1 e2).map fun equal =>
          if equal then (.letter type.unit, .letter type.unit) else (e1, e2)

end

/-- `expr_eq` -/
def exprEq : Option Expr → Option Expr → Bool
  | some e1, some e2 => (exprEqCalls (3 * (e1.size + e2.size)) e1 e2).getD false
  | e1, e2 => exprIsYes e1 && exprIsYes e2

/-- One operand is taken out of both expressions. -/
structure Common (type : TwoType) (e1 e2 a b : Expr) : Prop where
  value : ∀ c, ∃ w, e1.calcValue c = type.op w (a.calcValue c) ∧
    e2.calcValue c = type.op w (b.calcValue c)
  size_left : a.size ≤ e1.size
  size_right : b.size ≤ e2.size

namespace Common
variable {type : TwoType} {e1 e2 a b l r : Expr}

theorem refl (type : TwoType) (e1 e2 : Expr) : Common type e1 e2 e1 e2 :=
  ⟨fun _ => ⟨type.unit, by simp, by simp⟩, Nat.le_refl _, Nat.le_refl _⟩

theorem symm (h : Common type e1 e2 a b) : Common type e2 e1 b a :=
  ⟨fun c => let ⟨w, h1, h2⟩ := h.value c; ⟨w, h2, h1⟩, h.size_right, h.size_left⟩

/-- Equal leaves. -/
theorem unit (type : TwoType) (h : ∀ c, e1.calcValue c = e2.calcValue c) :
    Common type e1 e2 (.letter type.unit) (.letter type.unit) :=
  ⟨fun c => ⟨e1.calcValue c, by simp, by simp [h c]⟩, e1.size_pos, e2.size_pos⟩

/-- First the one operand against the other expression, then the other operand. -/
theorem left {a1 b1 a2 b2 : Expr} (h1 : Common type l e2 a1 b1) (h2 : Common type r b1 a2 b2) :
    Common type (.two type l r) e2 (.two type a1 a2) b2 := by
  refine ⟨fun c => ?_, ?_, h2.size_right.trans h1.size_right⟩
  · obtain ⟨w1, hl, he⟩ := h1.value c
    obtain ⟨w2, hr, hb⟩ := h2.value c
    refine ⟨type.op w1 w2, ?_, ?_⟩
    · rw [calcValue_two, hl, hr, calcValue_two]
      ac_rfl
    · rw [he, hb]
      ac_rfl
  · have := h1.size_left
    have := h2.size_left
    simp only [Expr.size]
    omega

end Common

/-- What `expr_eq` promises of calls nested `n` deep. -/
def EqAnswers (n : Nat) : Prop :=
  ∀ e1 e2 : Expr, 3 * (e1.size + e2.size) ≤ n →
    ∃ equal, exprEqCalls n e1 e2 = some equal ∧
      (equal = true → ∀ c, e1.calcValue c = e2.calcValue c)

/-- What `__expr_eliminate_eq` promises. -/
def EliminateAnswers (n : Nat) : Prop :=
  ∀ (type : TwoType) (e1 e2 : Expr), 3 * (e1.size + e2.size) + 1 ≤ n →
    ∃ a b, eliminateEqCalls n type e1 e2 = some (a, b) ∧ Common type e1 e2 a b

theorem eliminateEqCalls_left {n : Nat} (ih : EliminateAnswers n) (type : TwoType)
    (l r e2 : Expr) (hn : 3 * ((Expr.two type l r).size + e2.size) ≤ n + 5) :
    ∃ a b, eliminateEqCalls (n + 1) type (.two type l r) e2 = some (a, b) ∧
      Common type (.two type l r) e2 a b := by
  have := l.size_pos
  have := r.size_pos
  simp only [Expr.size] at hn
  obtain ⟨a1, b1, hfirst, h1⟩ := ih type l e2 (by omega)
  have := h1.size_right
  obtain ⟨a2, b2, hsecond, h2⟩ := ih type r b1 (by omega)
  refine ⟨.two type a1 a2, b2, ?_, h1.left h2⟩
  simp [eliminateEqCalls, hfirst, hsecond]

theorem eliminateEqCalls_right {n : Nat} (ih : EliminateAnswers n) (type : TwoType)
    {e1 l r : Expr} (he : e1.operands type = none)
    (hn : 3 * (e1.size + (Expr.two type l r).size) ≤ n + 5) :
    ∃ a b, eliminateEqCalls (n + 1) type e1 (.two type l r) = some (a, b) ∧
      Common type e1 (.two type l r) a b := by
  have := l.size_pos
  have := r.size_pos
  simp only [Expr.size] at hn
  obtain ⟨a1, b1, hfirst, h1⟩ := ih type e1 l (by omega)
  have := h1.size_left
  obtain ⟨a2, b2, hsecond, h2⟩ := ih type a1 r (by omega)
  refine ⟨a2, .two type b1 b2, ?_, (h1.symm.left h2.symm).symm⟩
  simp [eliminateEqCalls, he, hfirst, hsecond]

theorem eliminateEqCalls_leaves {n : Nat} (ih : EqAnswers n) (type : TwoType) {e1 e2 : Expr}
    (h1 : e1.operands type = none) (h2 : e2.operands type = none)
    (hn : 3 * (e1.size + e2.size) ≤ n) :
    ∃ a b, eliminateEqCalls (n + 1) type e1 e2 = some (a, b) ∧ Common type e1 e2 a b := by
  simp only [eliminateEqCalls, h1, h2]
  by_cases hyn : e1 = e2 ∧ (e1 = .letter .yes ∨ e1 = .letter .no)
  · exact ⟨e1, e2, if_pos hyn, .refl type e1 e2⟩
  · obtain ⟨equal, heq, hsound⟩ := ih e1 e2 hn
    rw [if_neg hyn, heq]
    cases equal with
    | false => exact ⟨e1, e2, rfl, .refl type e1 e2⟩
    | true => exact ⟨_, _, rfl, .unit type (hsound rfl)⟩

theorem eliminateAnswers_succ {n : Nat} (heq : EqAnswers n) (helim : EliminateAnswers n) :
    EliminateAnswers (n + 1) := by
  intro type e1 e2 hn
  cases h1 : e1.operands type with
  | some lr =>
    obtain rfl := Expr.eq_two_of_operands h1
    exact eliminateEqCalls_left helim type lr.1 lr.2 e2 (by omega)
  | none =>
    cases h2 : e2.operands type with
    | some lr =>
      obtain rfl := Expr.eq_two_of_operands h2
      exact eliminateEqCalls_right helim type h1 (by omega)
    | none => exact eliminateEqCalls_leaves heq type h1 h2 (by omega)

theorem sameSymbol_sound {e1 e2 : Expr} (h : sameSymbol e1 e2 = true) (c : Values) :
    e1.calcValue c = e2.calcValue c := by
  cases e1 with
  | symbol s1 =>
    cases e2 with
    | symbol s2 => rw [of_decide_eq_true h]
    | _ => cases h
  | _ => cases h

/-- Two nodes, compared by the calls below them. -/
theorem exprEqCalls_two {n : Nat} (ih : EliminateAnswers n) (type : TwoType) (l1 r1 l2 r2 : Expr)
    (hn : 3 * ((Expr.two type l1 r1).size + (Expr.two type l2 r2).size) ≤ n + 5) :
    ∃ equal, exprEqCalls (n + 2) (.two type l1 r1) (.two type l2 r2) = some equal ∧
      (equal = true → ∀ c, (Expr.two type l1 r1).calcValue c = (Expr.two type l2 r2).calcValue c) := by
  obtain ⟨a, b, hcalls, hcommon⟩ := eliminateEqCalls_left ih type l1 r1 (.two type l2 r2) hn
  refine ⟨_, by rw [exprEqCalls, if_neg (by simp), hcalls]; rfl, fun hsame c => ?_⟩
  obtain ⟨w, h1, h2⟩ := hcommon.value c
  have hab := sameSymbol_sound hsame c
  rw [calcValue_eliminateYn, calcValue_eliminateYn] at hab
  rw [h1, h2, hab]

theorem eqAnswers_add_two {n : Nat} (heq : EqAnswers (n + 1)) (helim : EliminateAnswers n) :
    EqAnswers (n + 2) := by
  intro e1 e2 hn
  have hdiffer : exprEqCalls (n + 2) e1 e2 = some false → ∃ equal,
      exprEqCalls (n + 2) e1 e2 = some equal ∧
        (equal = true → ∀ c, e1.calcValue c = e2.calcValue c) :=
    fun h => ⟨false, h, fun hfalse => by cases hfalse⟩
  cases e1 with
  | symbol s1 =>
    cases e2 with
    | symbol s2 => exact ⟨_, rfl, fun h c => by rw [of_decide_eq_true h]⟩
    | _ => exact hdiffer rfl
  | comp t1 l1 r1 =>
    cases e2 with
    | comp t2 l2 r2 =>
      refine ⟨_, rfl, fun h c => ?_⟩
      obtain ⟨rfl, rfl, rfl⟩ := of_decide_eq_true h
      rfl
    | _ => exact hdiffer rfl
  | not a =>
    cases e2 with
    | not b =>
      simp only [Expr.size] at hn
      obtain ⟨equal, hcall, hsound⟩ := heq a b (by omega)
      exact ⟨equal, hcall, fun h c => congrArg Tristate.not (hsound h c)⟩
    | _ => exact hdiffer rfl
  | two t1 l1 r1 =>
    cases e2 with
    | two t2 l2 r2 =>
      by_cases ht : t1 = t2
      · subst ht
        exact exprEqCalls_two helim t1 l1 r1 l2 r2 (by omega)
      · exact hdiffer (if_pos ht)
    | _ => exact hdiffer rfl

/-- Calls nested deep enough come back. -/
theorem calls_answer (n : Nat) :
    (EqAnswers n ∧ EliminateAnswers n) ∧ (EqAnswers (n + 1) ∧ EliminateAnswers (n + 1)) := by
  have hshort {k : Nat} (hk : k < 6) : EqAnswers k ∧ EliminateAnswers k := by
    constructor
    · intro e1 e2 hn
      have := e1.size_pos
      have := e2.size_pos
      omega
    · intro type e1 e2 hn
      have := e1.size_pos
      have := e2.size_pos
      omega
  induction n with
  | zero => exact ⟨hshort (by omega), hshort (by omega)⟩
  | succ n ih =>
    obtain ⟨⟨heq, helim⟩, heq', helim'⟩ := ih
    exact ⟨⟨heq', helim'⟩, eqAnswers_add_two heq' helim, eliminateAnswers_succ heq' helim'⟩

/-- With calls nested deep enough, `expr_eq` comes back and is right. -/
theorem exprEqCalls_sound {n : Nat} {e1 e2 : Expr} (hn : 3 * (e1.size + e2.size) ≤ n) :
    ∃ equal, exprEqCalls n e1 e2 = some equal ∧
      (equal = true → ∀ c, e1.calcValue c = e2.calcValue c) :=
  (calls_answer n).1.1 e1 e2 hn

end UolaOs.Config
