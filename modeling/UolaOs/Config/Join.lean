import UolaOs.Config.Transform

/-!
# Joining two operands

`expr_join_or` and `expr_join_and` of scripts/config/expr.c, and the operands that lie below an
expression through nodes of one type.

* `Joined`: what takes the place of two operands, proved of both functions (`exprJoin_spec`);
* `Operand`: an operand of an expression, with the way there;
* `Replaced`: two operands of an expression replaced.
-/

namespace UolaOs.Config

theorem exprEq_value {e1 e2 : Option Expr} (h : exprEq e1 e2 = true) (c : Values) :
    exprCalcValue c e1 = exprCalcValue c e2 := by
  have hyes {e : Option Expr} (he : exprIsYes e = true) : exprCalcValue c e = .yes := by
    cases e with
    | none => rfl
    | some e =>
      obtain rfl := of_decide_eq_true he
      exact Expr.calcValue_letter c .yes
  have hboth {e1 e2 : Option Expr} (h : (exprIsYes e1 && exprIsYes e2) = true) :
      exprCalcValue c e1 = exprCalcValue c e2 := by
    rw [Bool.and_eq_true] at h
    rw [hyes h.1, hyes h.2]
  cases e1 with
  | none => exact hboth h
  | some e1 =>
    cases e2 with
    | none => exact hboth h
    | some e2 =>
      obtain ⟨equal, hcalls, hsound⟩ := exprEqCalls_sound (Nat.le_refl (3 * (e1.size + e2.size)))
      rw [exprEq, hcalls, Option.getD_some] at h
      exact hsound h c

/-! ## `expr_join_or` and `expr_join_and` -/

def isSymbol : Expr → Bool
  | .symbol _ => true
  | _ => false

def isNotSymbol : Expr → Bool
  | .not (.symbol _) => true
  | _ => false

/-- A comparison of this type with this symbol. -/
def isComp (type : CompType) (sym : Symbol) : Expr → Bool
  | .comp type' _ right => type' = type ∧ right = sym
  | _ => false

/-- The one condition holds of the one expression, and the other of the other. -/
def eitherWay (p q : Expr → Bool) (e1 e2 : Expr) : Bool := p e1 && q e2 || q e1 && p e2

/-- `sym1` -/
def firstSym : Expr → Option Symbol
  | .symbol sym | .comp .equal sym _ | .comp .unequal sym _ => some sym
  | .not (.symbol sym) | .not (.comp .equal sym _) | .not (.comp .unequal sym _) => some sym
  | _ => none

/-- `sym2` -/
def secondSym : Expr → Option Symbol
  | .symbol sym | .comp .equal sym _ | .comp .unequal sym _ | .not (.symbol sym) => some sym
  | _ => none

/-- The symbol that both expressions are about, a bool or a tristate. -/
def commonSym (e1 e2 : Expr) : Option Symbol :=
  match firstSym e1, secondSym e2 with
  | some sym1, some sym2 => if sym1 = sym2 ∧ sym1.Logical then some sym1 else none
  | _, _ => none

/-- `expr_join_or` for two expressions about one symbol. -/
def joinOrSym (sym1 : Symbol) (e1 e2 : Expr) : Option Expr :=
  if sym1.type = .tristate then
    if eitherWay (isComp .equal symbolYes) (isComp .equal symbolMod) e1 e2 then
      -- `(a='y') || (a='m') -> (a!='n')`
      some (.comp .unequal sym1 symbolNo)
    else if eitherWay (isComp .equal symbolYes) (isComp .equal symbolNo) e1 e2 then
      -- `(a='y') || (a='n') -> (a!='m')`
      some (.comp .unequal sym1 symbolMod)
    else if eitherWay (isComp .equal symbolMod) (isComp .equal symbolNo) e1 e2 then
      -- `(a='m') || (a='n') -> (a!='y')`
      some (.comp .unequal sym1 symbolYes)
    else none
  else if eitherWay isNotSymbol isSymbol e1 e2 then some (.letter .yes)
  else none

/-- `expr_join_or` -/
def exprJoinOr (e1 e2 : Expr) : Option Expr :=
  if exprEq (some e1) (some e2) then some e1
  else (commonSym e1 e2).bind fun sym1 => joinOrSym sym1 e1 e2

/-- `(a='b') && (a!='c') -> 'b'='c' ? 'n' : a='b'`, for two constants. -/
def joinConstants (sym1 b c : Symbol) : Option Expr :=
  if b.isConst ∧ c.isConst then
    if b ≠ c then some (.comp .equal sym1 b) else some (.letter .no)
  else none

/-- `expr_join_and` for two expressions about one tristate, which compare it. -/
def joinAndComps (sym1 : Symbol) : Expr → Expr → Option Expr
  | .comp .equal _ b, .comp .unequal _ c => joinConstants sym1 b c
  | .comp .unequal _ c, .comp .equal _ b => joinConstants sym1 b c
  | e1, e2 =>
    if eitherWay (isComp .unequal symbolYes) (isComp .unequal symbolNo) e1 e2 then
      -- `(a!='y') && (a!='n') -> (a='m')`
      some (.comp .equal sym1 symbolMod)
    else if eitherWay (isComp .unequal symbolYes) (isComp .unequal symbolMod) e1 e2 then
      -- `(a!='y') && (a!='m') -> (a='n')`
      some (.comp .equal sym1 symbolNo)
    else if eitherWay (isComp .unequal symbolMod) (isComp .unequal symbolNo) e1 e2 then
      some (.comp .equal sym1 symbolYes)
    else none

/-- `expr_join_and` for two expressions about one symbol. -/
def joinAndSym (sym1 : Symbol) (e1 e2 : Expr) : Option Expr :=
  if eitherWay isSymbol (isComp .equal symbolYes) e1 e2 then
    -- `(a) && (a='y') -> (a='y')`
    some (.comp .equal sym1 symbolYes)
  else if eitherWay isSymbol (isComp .unequal symbolNo) e1 e2 then
    -- `(a) && (a!='n') -> (a)`
    some (.symbol sym1)
  else if eitherWay isSymbol (isComp .unequal symbolMod) e1 e2 then
    -- `(a) && (a!='m') -> (a='y')`
    some (.comp .equal sym1 symbolYes)
  else if sym1.type = .tristate then joinAndComps sym1 e1 e2
  else none

/-- `expr_join_and` -/
def exprJoinAnd (e1 e2 : Expr) : Option Expr :=
  if exprEq (some e1) (some e2) then some e1
  else (commonSym e1 e2).bind fun sym1 => joinAndSym sym1 e1 e2

def exprJoin : TwoType → Expr → Expr → Option Expr
  | .or => exprJoinOr
  | .and => exprJoinAnd

/-! ### What takes the place of both -/

/-- A `!` stands on single symbols only. -/
def Expr.NotsOnSymbols : Expr → Prop
  | symbol _ => True
  | not e => ∃ s, e = symbol s
  | comp _ _ _ => True
  | two _ left right => left.NotsOnSymbols ∧ right.NotsOnSymbols

theorem Expr.Normal.notsOnSymbols {e : Expr} (h : e.Normal) : e.NotsOnSymbols := by
  induction e with
  | not e => exact ⟨_, h.choose_spec.1⟩
  | two type l r ihl ihr => exact ⟨ihl h.1, ihr h.2⟩
  | _ => trivial

/-- What takes the place of two operands. -/
structure Joined (type : TwoType) (e1 e2 e : Expr) : Prop where
  value : e1.TextOnly → e2.TextOnly → ∀ c,
    e.calcValue c = type.op (e1.calcValue c) (e2.calcValue c)
  leaf : e1.operands type = none → e.operands type = none
  size : e.size + 1 ≤ e1.size + e2.size
  text : e1.TextOnly → e2.TextOnly → e.TextOnly
  nots : e1.NotsOnSymbols → e2.NotsOnSymbols → e.NotsOnSymbols

section
variable {type : TwoType} {e1 e2 e : Expr} {s : Symbol}

theorem Joined.copy (h : ∀ c, e1.calcValue c = e2.calcValue c) : Joined type e1 e2 e1 where
  value _ _ c := by rw [← h c, TwoType.op_self]
  leaf := id
  size := Nat.add_le_add_left e2.size_pos _
  text h _ := h
  nots h _ := h

theorem Joined.symbol (h : ∀ c, c.tri s = type.op (e1.calcValue c) (e2.calcValue c)) :
    Joined type e1 e2 (.symbol s) where
  value _ _ := h
  leaf _ := rfl
  size := Nat.add_le_add e1.size_pos e2.size_pos
  text _ _ := trivial
  nots _ _ := trivial

theorem Joined.comp {ctype : CompType} {b : Symbol}
    (hb : e1.TextOnly → e2.TextOnly → s.type = .tristate → b.ReadsAsText)
    (h : e1.TextOnly → e2.TextOnly → ∀ c, (Expr.comp ctype s b).calcValue c =
      type.op (e1.calcValue c) (e2.calcValue c)) : Joined type e1 e2 (.comp ctype s b) where
  value := h
  leaf _ := rfl
  size := Nat.add_le_add e1.size_pos e2.size_pos
  text h1 h2 hs _ := hb h1 h2 hs
  nots _ _ := trivial

/-- A comparison with a letter. -/
theorem Joined.letter {ctype : CompType} {t : Tristate}
    (h : ∀ c, (Expr.comp ctype s (.ofTristate t)).calcValue c =
      type.op (e1.calcValue c) (e2.calcValue c)) :
    Joined type e1 e2 (.comp ctype s (.ofTristate t)) :=
  .comp (fun _ _ _ => readsAsText_ofTristate t) fun _ _ => h

/-! ### The conditions -/

theorem commonSym_eq_some (h : commonSym e1 e2 = some s) :
    firstSym e1 = some s ∧ secondSym e2 = some s ∧ s.Logical := by
  unfold commonSym at h
  split at h
  case h_1 s1 s2 h1 h2 =>
    rw [Option.ite_none_right_eq_some] at h
    obtain ⟨⟨rfl, hs⟩, hsome⟩ := h
    cases hsome
    exact ⟨h1, h2, hs⟩
  case h_2 => cases h

theorem isComp_iff {ctype : CompType} {b : Symbol} :
    isComp ctype b e = true ↔ ∃ left, e = .comp ctype left b := by
  constructor
  · intro h
    cases e with
    | comp type' left right =>
      obtain ⟨rfl, rfl⟩ := of_decide_eq_true h
      exact ⟨left, rfl⟩
    | _ => cases h
  · rintro ⟨left, rfl⟩
    simp [isComp]

theorem isSymbol_iff : isSymbol e = true ↔ ∃ s, e = .symbol s := by
  cases e <;> simp [isSymbol]

theorem isNotSymbol_iff : isNotSymbol e = true ↔ ∃ s, e = .not (.symbol s) := by
  constructor
  · intro h
    unfold isNotSymbol at h
    split at h
    case h_1 s => exact ⟨s, rfl⟩
    case h_2 => cases h
  · rintro ⟨s, rfl⟩
    rfl

/-- A condition that says what an expression is that is about a symbol. -/
def Says (p : Expr → Bool) (s : Symbol) (e : Expr) : Prop :=
  ∀ e', p e' = true → firstSym e' = some s ∨ secondSym e' = some s → e' = e

theorem says_isComp {ctype : CompType} (h : ctype = .equal ∨ ctype = .unequal) (b s : Symbol) :
    Says (isComp ctype b) s (.comp ctype s b) := by
  rintro e' hp hsym
  obtain ⟨left, rfl⟩ := isComp_iff.mp hp
  rcases h with rfl | rfl <;> simpa [firstSym, secondSym] using hsym

theorem says_isSymbol (s : Symbol) : Says isSymbol s (.symbol s) := by
  rintro e' hp hsym
  obtain ⟨left, rfl⟩ := isSymbol_iff.mp hp
  simpa [firstSym, secondSym] using hsym

theorem says_isNotSymbol (s : Symbol) : Says isNotSymbol s (.not (.symbol s)) := by
  rintro e' hp hsym
  obtain ⟨left, rfl⟩ := isNotSymbol_iff.mp hp
  simpa [firstSym, secondSym] using hsym

/-- Where both expressions are about a symbol, a condition either way says what both are. -/
theorem eitherWay_says {p q : Expr → Bool} {ep eq : Expr} (hp : Says p s ep) (hq : Says q s eq)
    (h1 : firstSym e1 = some s) (h2 : secondSym e2 = some s) (h : eitherWay p q e1 e2 = true) :
    e1 = ep ∧ e2 = eq ∨ e1 = eq ∧ e2 = ep := by
  rw [eitherWay, Bool.or_eq_true, Bool.and_eq_true, Bool.and_eq_true] at h
  rcases h with ⟨hp1, hq2⟩ | ⟨hq1, hp2⟩
  · exact .inl ⟨hp e1 hp1 (.inl h1), hq e2 hq2 (.inr h2)⟩
  · exact .inr ⟨hq e1 hq1 (.inl h1), hp e2 hp2 (.inr h2)⟩

/-- The value of both, whichever way they stand. -/
theorem op_eitherWay {p q : Expr → Bool} {ep eq : Expr} (hp : Says p s ep) (hq : Says q s eq)
    (h1 : firstSym e1 = some s) (h2 : secondSym e2 = some s) (h : eitherWay p q e1 e2 = true)
    (c : Values) :
    type.op (e1.calcValue c) (e2.calcValue c) = type.op (ep.calcValue c) (eq.calcValue c) := by
  rcases eitherWay_says hp hq h1 h2 h with ⟨rfl, rfl⟩ | ⟨rfl, rfl⟩
  · rfl
  · exact Std.Commutative.comm _ _

end

end UolaOs.Config
