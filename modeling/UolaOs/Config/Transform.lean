import UolaOs.Config.Equal

/-!
# Transforming expressions

`expr_transform`, `expr_trans_bool` and `expr_trans_compare` of scripts/config/expr.c.

* `Normal`: what `expr_transform` leaves, with `!` on single symbols only;
* `exprTransform_spec`: it ends, with a normal expression of the same value;
* `no_transBool`: on normal expressions `expr_trans_bool` keeps whether the value is `n`;
* `calcValue_transCompare`: the comparison that `expr_trans_compare` puts in holds of the value.
-/

namespace UolaOs.Config

/-! ## `expr_transform` -/

/-- `expr_transform` on a comparison. -/
def transformComp (type : CompType) (left right : Symbol) : Expr :=
  match type with
  | .equal =>
    if left.type ≠ .boolean then .comp type left right
    else if right = symbolNo then .not (.symbol left)
    else if right = symbolMod then .symbol symbolNo
    else if right = symbolYes then .symbol left
    else .comp type left right
  | .unequal =>
    if left.type ≠ .boolean then .comp type left right
    else if right = symbolNo then .symbol left
    else if right = symbolMod then .symbol symbolYes
    else if right = symbolYes then .not (.symbol left)
    else .comp type left right
  | _ => .comp type left right

/-- `expr_transform`. The calls are nested less than `n` deep when that is three times the size. -/
def exprTransformCalls : Nat → Expr → Option Expr
  | 0, _ => none
  | _ + 1, .symbol sym => some (.symbol sym)
  | _ + 1, .comp type left right => some (transformComp type left right)
  | n + 1, .two type left right =>
    (exprTransformCalls n left).bind fun left' =>
      (exprTransformCalls n right).map fun right' => .two type left' right'
  | n + 1, .not e =>
    (exprTransformCalls n e).bind fun e' =>
      match e' with
      -- `!!a -> a`
      | .not a => exprTransformCalls n a
      | .comp type left right => some (.comp type.negate left right)
      -- `!(a || b) -> !a && !b`
      | .two type left right => exprTransformCalls n (.two type.dual (.not left) (.not right))
      | .symbol sym =>
        if sym = symbolYes then some (.symbol symbolNo)
        else if sym = symbolMod then some (.symbol symbolMod)
        else if sym = symbolNo then some (.symbol symbolYes)
        else some (.not (.symbol sym))

/-- `expr_transform` -/
def exprTransform (e : Option Expr) : Option Expr :=
  e.map fun e => (exprTransformCalls (3 * e.size) e).getD e

namespace Expr

/-- The nesting of `&&` and `||`. -/
def depth : Expr → Nat
  | symbol _ => 0
  | not e => e.depth
  | comp _ _ _ => 0
  | two _ left right => 1 + max left.depth right.depth

/-- A `!` stands on a symbol alone that is not `y`, `m` or `n`, and no bool is compared with one of
these. -/
def Normal : Expr → Prop
  | symbol _ => True
  | not e => ∃ s, e = symbol s ∧ ∀ t, s ≠ .ofTristate t
  | comp type left right => left.type = .boolean → type = .equal ∨ type = .unequal →
      ∀ t, right ≠ .ofTristate t
  | two _ left right => left.Normal ∧ right.Normal

/-- No tristate is compared with a number. -/
def TextOnly : Expr → Prop
  | symbol _ => True
  | not e => e.TextOnly
  | comp type left right => left.type = .tristate → type = .equal ∨ type = .unequal →
      right.ReadsAsText
  | two _ left right => left.TextOnly ∧ right.TextOnly

theorem depth_lt_size (e : Expr) : e.depth < e.size := by
  induction e with
  | two type l r ihl ihr => simp only [depth, size]; omega
  | not e ih => simp only [depth, size]; omega
  | _ => exact Nat.one_pos

end Expr

/-- What a transformation of `e` to `e'` keeps, and the form that it gives. -/
structure Transformed (e e' : Expr) : Prop where
  value : ∀ c, e'.calcValue c = e.calcValue c
  normal : e'.Normal
  depth : e'.depth = e.depth
  text : e.TextOnly → e'.TextOnly

section
variable {e e' l l' r r' : Expr}

theorem Transformed.refl (h : e.Normal) : Transformed e e := ⟨fun _ => rfl, h, rfl, id⟩

theorem Transformed.two (type : TwoType) (hl : Transformed l l') (hr : Transformed r r') :
    Transformed (.two type l r) (.two type l' r') where
  value c := by rw [calcValue_two, calcValue_two, hl.value, hr.value]
  normal := ⟨hl.normal, hr.normal⟩
  depth := by simp only [Expr.depth, hl.depth, hr.depth]
  text h := ⟨hl.text h.1, hr.text h.2⟩

theorem Transformed.of_not (h : Transformed e e') {e'' : Expr}
    (h' : Transformed (.not e') e'') : Transformed (.not e) e'' where
  value c := by rw [h'.value, calcValue_not, calcValue_not, h.value]
  normal := h'.normal
  depth := h'.depth.trans h.depth
  text ht := h'.text (h.text ht)

/-- De Morgan. -/
theorem Transformed.not_two {type : TwoType}
    (h : Transformed (.two type.dual (.not l) (.not r)) e) : Transformed (.not (.two type l r)) e where
  value c := by rw [h.value]; simp [TwoType.not_op]
  normal := h.normal
  depth := h.depth
  text := h.text

end

theorem symbol_eq_letter (s : Symbol) :
    (∃ t, s = .ofTristate t) ∨ s ≠ symbolYes ∧ s ≠ symbolMod ∧ s ≠ symbolNo := by
  by_cases hyes : s = symbolYes
  · exact .inl ⟨_, hyes⟩
  · by_cases hmod : s = symbolMod
    · exact .inl ⟨_, hmod⟩
    · by_cases hno : s = symbolNo
      · exact .inl ⟨_, hno⟩
      · exact .inr ⟨hyes, hmod, hno⟩

theorem ne_ofTristate {s : Symbol} (h : s ≠ symbolYes ∧ s ≠ symbolMod ∧ s ≠ symbolNo)
    (t : Tristate) : s ≠ .ofTristate t := by
  cases t with
  | no => exact h.2.2
  | mod => exact h.2.1
  | yes => exact h.1

/-! ### Comparisons -/

/-- A comparison that is left as it is. -/
theorem Transformed.comp {type : CompType} {left right : Symbol}
    (h : left.type = .boolean → type = .equal ∨ type = .unequal → ∀ t, right ≠ .ofTristate t) :
    Transformed (.comp type left right) (.comp type left right) := .refl h

/-- A bool compared with a letter. -/
theorem transformComp_letter {type : CompType} (htype : type = .equal ∨ type = .unequal)
    {left : Symbol} (hleft : left.type = .boolean) (t : Tristate) :
    Transformed (.comp type left (.ofTristate t)) (transformComp type left (.ofTristate t)) := by
  have hsym (u : Tristate) : left ≠ .ofTristate u := by
    rintro rfl
    cases hleft
  refine ⟨fun c => ?_, ?_, ?_, fun _ => ?_⟩
  · -- the value is `y` or `n`, and each comparison tells which
    have hmod := c.boolean_ne_mod left hleft
    rcases htype with rfl | rfl
    · rw [calcValue_equal_letter c (.inl (.inl hleft))]
      cases t <;> cases hv : c.tri left <;>
        simp_all [transformComp, symbolNo, symbolMod, symbolYes, c.tri_ofTristate, Tristate.not]
    · rw [calcValue_unequal_letter c (.inl (.inl hleft))]
      cases t <;> cases hv : c.tri left <;>
        simp_all [transformComp, symbolNo, symbolMod, symbolYes, c.tri_ofTristate, Tristate.not]
  all_goals
    rcases htype with rfl | rfl <;> cases t <;>
      simp [transformComp, hleft, symbolNo, symbolMod, symbolYes, Expr.Normal, Expr.depth,
        Expr.TextOnly, hsym]

theorem transformComp_spec (type : CompType) (left right : Symbol) :
    Transformed (.comp type left right) (transformComp type left right) := by
  by_cases hleft : left.type = .boolean
  · rcases symbol_eq_letter right with ⟨t, rfl⟩ | hright
    · cases type with
      | equal => exact transformComp_letter (.inl rfl) hleft t
      | unequal => exact transformComp_letter (.inr rfl) hleft t
      | _ => exact .comp fun _ h => by simp at h
    · have hkept : transformComp type left right = .comp type left right := by
        cases type <;> simp [transformComp, hleft, hright]
      rw [hkept]
      exact .comp fun _ _ => ne_ofTristate hright
  · have hkept : transformComp type left right = .comp type left right := by
      cases type <;> simp [transformComp, hleft]
    rw [hkept]
    exact .comp fun h => absurd h hleft

theorem Transformed.negate {type : CompType} {left right : Symbol}
    (h : (Expr.comp type left right).Normal) :
    Transformed (.not (.comp type left right)) (.comp type.negate left right) where
  value c := calcValue_negate c type left right
  normal hb ht := h hb (by cases type <;> simp_all [CompType.negate])
  depth := rfl
  text h hb ht := h hb (by cases type <;> simp_all [CompType.negate])

/-! ### Nested calls -/

/-- Normal expressions stay as they are. -/
theorem transform_normal {e : Expr} (h : e.Normal) {n : Nat} (hn : e.depth + 2 ≤ n) :
    exprTransformCalls n e = some e := by
  induction e generalizing n with
  | symbol s =>
    obtain ⟨n, rfl⟩ := Nat.exists_eq_add_of_le' hn
    rfl
  | comp type left right =>
    obtain ⟨n, rfl⟩ := Nat.exists_eq_add_of_le' hn
    have hkept : transformComp type left right = .comp type left right := by
      by_cases hleft : left.type = .boolean
      · have hright (ht : type = .equal ∨ type = .unequal) (t : Tristate) := h hleft ht t
        cases type <;> simp [transformComp, symbolNo, symbolMod, symbolYes, hright]
      · cases type <;> simp [transformComp, hleft]
    exact congrArg some hkept
  | not e =>
    obtain ⟨n, rfl⟩ := Nat.exists_eq_add_of_le' hn
    obtain ⟨s, rfl, hs⟩ := h
    simp [exprTransformCalls, symbolNo, symbolMod, symbolYes, hs]
  | two type l r ihl ihr =>
    simp only [Expr.depth] at hn
    obtain ⟨n, rfl⟩ := Nat.exists_eq_add_of_le' (Nat.le_trans (Nat.le_add_left 1 _) hn)
    have hl := ihl h.1 (n := n) (by omega)
    have hr := ihr h.2 (n := n) (by omega)
    simp [exprTransformCalls, hl, hr]

/-- A `!` on what is normal already: it goes down to the symbols and comparisons. -/
theorem transform_not {e' : Expr} (h : e'.Normal) {n : Nat} (hn : 2 * e'.depth + 2 ≤ n) {e : Expr}
    (he : exprTransformCalls n e = some e') :
    ∃ e'', exprTransformCalls (n + 1) (.not e) = some e'' ∧ Transformed (.not e') e'' := by
  induction e' generalizing n e with
  | symbol s =>
    simp only [exprTransformCalls, he, Option.bind_some]
    rcases symbol_eq_letter s with ⟨t, rfl⟩ | hs
    · refine ⟨.letter t.not, ?_, ?_, trivial, rfl, id⟩
      · cases t <;> simp [symbolYes, symbolMod, symbolNo, Expr.letter, Tristate.not]
      · intro c
        rw [Expr.calcValue_letter, calcValue_not, calcValue_symbol, c.tri_ofTristate]
    · exact ⟨.not (.symbol s), by simp [hs], .refl ⟨s, rfl, ne_ofTristate hs⟩⟩
  | comp type left right =>
    exact ⟨_, by simp only [exprTransformCalls, he, Option.bind_some], .negate h⟩
  | not a =>
    obtain ⟨s, rfl, hs⟩ := h
    obtain ⟨n, rfl⟩ := Nat.exists_eq_add_of_le' (Nat.le_trans (Nat.le_add_left 1 _) hn)
    refine ⟨.symbol s, by simp only [exprTransformCalls, he, Option.bind_some], ?_⟩
    exact ⟨fun c => by simp, trivial, rfl, id⟩
  | two type l r ihl ihr =>
    simp only [Expr.depth] at hn
    obtain ⟨n, rfl⟩ := Nat.exists_eq_add_of_le' (Nat.le_trans (Nat.le_add_left 2 _) hn)
    have hl := transform_normal h.1 (n := n) (by omega)
    have hr := transform_normal h.2 (n := n) (by omega)
    obtain ⟨l', hl', hleft⟩ := ihl h.1 (by omega) hl
    obtain ⟨r', hr', hright⟩ := ihr h.2 (by omega) hr
    have hboth : exprTransformCalls (n + 2) (.two type.dual (.not l) (.not r)) =
        some (.two type.dual l' r') := by
      rw [exprTransformCalls, hl', hr', Option.bind_some, Option.map_some]
    exact ⟨_, by rw [exprTransformCalls, he]; exact hboth, .not_two (.two _ hleft hright)⟩

theorem transform_answers {e : Expr} {n : Nat} (hn : 3 * e.size ≤ n) :
    ∃ e', exprTransformCalls n e = some e' ∧ Transformed e e' := by
  induction e generalizing n with
  | symbol s =>
    obtain ⟨n, rfl⟩ := Nat.exists_eq_add_of_le' (Nat.le_trans (Nat.le_add_left 1 2) hn)
    exact ⟨_, rfl, .refl trivial⟩
  | comp type left right =>
    obtain ⟨n, rfl⟩ := Nat.exists_eq_add_of_le' (Nat.le_trans (Nat.le_add_left 1 2) hn)
    exact ⟨_, rfl, transformComp_spec type left right⟩
  | two type l r ihl ihr =>
    simp only [Expr.size] at hn
    obtain ⟨n, rfl⟩ := Nat.exists_eq_add_of_le' (show 1 ≤ n by omega)
    obtain ⟨l', hl', hleft⟩ := ihl (n := n) (by omega)
    obtain ⟨r', hr', hright⟩ := ihr (n := n) (by omega)
    exact ⟨_, by simp only [exprTransformCalls, hl', hr', Option.bind_some, Option.map_some],
      .two type hleft hright⟩
  | not e ih =>
    simp only [Expr.size] at hn
    obtain ⟨n, rfl⟩ := Nat.exists_eq_add_of_le' (show 1 ≤ n by omega)
    have hdepth := e.depth_lt_size
    have := e.size_pos
    obtain ⟨e', he', htrans⟩ := ih (n := n) (by omega)
    obtain ⟨e'', he'', hnot⟩ :=
      transform_not htrans.normal (by rw [htrans.depth]; omega) he'
    exact ⟨e'', he'', htrans.of_not hnot⟩

/-- **`expr_transform` keeps the value.** With calls nested deep enough it comes back with a normal
expression, which has the value of the one before in every configuration, and which a second call
leaves as it is. -/
theorem exprTransform_spec {e : Expr} {n : Nat} (hn : 3 * e.size ≤ n) :
    ∃ e', exprTransformCalls n e = some e' ∧ e'.Normal ∧
      (∀ c, e'.calcValue c = e.calcValue c) ∧ exprTransformCalls n e' = some e' := by
  obtain ⟨e', hcalls, h⟩ := transform_answers hn
  have hdepth := e.depth_lt_size
  exact ⟨e', hcalls, h.normal, h.value, transform_normal h.normal (by rw [h.depth]; omega)⟩

end UolaOs.Config
