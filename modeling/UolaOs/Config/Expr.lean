import UolaOs.Lib.Numeral

/-!
# Dependency expressions

The expressions of scripts/config, and what they evaluate to. Two pointers to a symbol are equal
when the symbols are: a constant is found by its name, any other symbol by its address.

* `Values`: what `sym_calc_value` leaves in the symbols;
* `Expr.calcValue`: `expr_calc_value`;
* `calcValue_equal_letter`: what a symbol compared with `y`, `m` or `n` gives.
-/

namespace UolaOs.Config

inductive Tristate where
  | no
  | mod
  | yes
  deriving DecidableEq

namespace Tristate

def toNat : Tristate → Nat
  | no => 0
  | mod => 1
  | yes => 2

/-- `EXPR_OR` -/
def or (dep1 dep2 : Tristate) : Tristate := if dep1.toNat > dep2.toNat then dep1 else dep2

/-- `EXPR_AND` -/
def and (dep1 dep2 : Tristate) : Tristate := if dep1.toNat < dep2.toNat then dep1 else dep2

/-- `EXPR_NOT` -/
def not : Tristate → Tristate
  | no => yes
  | mod => mod
  | yes => no

def letter : Tristate → UInt8
  | no => 110
  | mod => 109
  | yes => 121

def ofBool (b : Bool) : Tristate := if b then yes else no

@[simp] theorem ofBool_true : ofBool true = yes := rfl
@[simp] theorem ofBool_false : ofBool false = no := rfl

@[simp] theorem not_not (t : Tristate) : t.not.not = t := by cases t <;> rfl

theorem not_ofBool (b : Bool) : (ofBool b).not = ofBool (!b) := by cases b <;> rfl

theorem letter_injective {s t : Tristate} (h : s.letter = t.letter) : s = t := by
  cases s <;> cases t <;> first | rfl | exact absurd h (by decide)

end Tristate

/-! ## Symbols -/

inductive SymbolType where
  | unknown
  | boolean
  | tristate
  | int
  | hex
  | string
  deriving DecidableEq

/-- A symbol: a constant of `sym_lookup(name, SYMBOL_CONST)`, or one that a `config` or `choice`
entry makes. -/
inductive Symbol where
  | const (name : Bytes)
  | entry (addr : Nat) (type : SymbolType)
  deriving DecidableEq

namespace Symbol

def type : Symbol → SymbolType
  | const _ => .unknown
  | entry _ type => type

/-- `SYMBOL_CONST` -/
def isConst : Symbol → Bool
  | const _ => true
  | entry _ _ => false

/-- `symbol_yes`, `symbol_mod` and `symbol_no` -/
def ofTristate (t : Tristate) : Symbol := const [t.letter]

/-- A bool or a tristate. -/
def Logical (s : Symbol) : Prop := s.type = .boolean ∨ s.type = .tristate

instance (s : Symbol) : Decidable s.Logical :=
  inferInstanceAs (Decidable (s.type = .boolean ∨ s.type = .tristate))

@[simp] theorem type_ofTristate (t : Tristate) : (ofTristate t).type = .unknown := rfl

@[simp] theorem isConst_ofTristate (t : Tristate) : (ofTristate t).isConst = true := rfl

theorem not_logical_const (name : Bytes) : ¬ (const name).Logical := by
  rintro (h | h) <;> cases h

@[simp] theorem ofTristate_inj {s t : Tristate} : ofTristate s = ofTristate t ↔ s = t := by
  refine ⟨fun h => ?_, congrArg ofTristate⟩
  injection h with h
  injection h with h
  exact Tristate.letter_injective h

end Symbol

def symbolYes : Symbol := .ofTristate .yes
def symbolMod : Symbol := .ofTristate .mod
def symbolNo : Symbol := .ofTristate .no

/-- The values of all symbols once `sym_calc_value` is done with them. A bool is not `m`, and
without modules no tristate is. -/
structure Values where
  tri : Symbol → Tristate
  val : Symbol → Bytes
  modulesSym : Symbol
  tri_ofTristate : ∀ t, tri (.ofTristate t) = t
  val_const : ∀ name, val (.const name) = name
  boolean_ne_mod : ∀ s, s.type = .boolean → tri s ≠ .mod
  modules_of_mod : ∀ s, s.type = .tristate → tri s = .mod → tri modulesSym ≠ .no

/-- `sym_get_string_value` -/
def Values.symGetStringValue (c : Values) (sym : Symbol) : Bytes :=
  if sym.Logical then
    match c.tri sym with
    | .no => [Tristate.no.letter]
    | .mod => if c.tri c.modulesSym = .no then [Tristate.no.letter] else [Tristate.mod.letter]
    | .yes => [Tristate.yes.letter]
  else c.val sym

theorem Values.stringValue_logical (c : Values) {s : Symbol} (h : s.Logical) :
    c.symGetStringValue s = [(c.tri s).letter] := by
  rw [symGetStringValue, if_pos h]
  cases htri : c.tri s with
  | no => rfl
  | yes => rfl
  | mod =>
    rcases h with h | h
    · exact absurd htri (c.boolean_ne_mod s h)
    · exact if_neg (c.modules_of_mod s h htri)

theorem Values.stringValue_const (c : Values) (name : Bytes) :
    c.symGetStringValue (.const name) = name := by
  rw [symGetStringValue, if_neg (Symbol.not_logical_const name), c.val_const]

/-! ## Expressions -/

/-- `E_EQUAL` to `E_GEQ` -/
inductive CompType where
  | equal
  | unequal
  | lth
  | leq
  | gth
  | geq
  deriving DecidableEq

/-- `E_OR` and `E_AND` -/
inductive TwoType where
  | or
  | and
  deriving DecidableEq

/-- `struct expr`, for the expressions of a dependency. -/
inductive Expr where
  | symbol (sym : Symbol)
  | not (e : Expr)
  | comp (type : CompType) (left right : Symbol)
  | two (type : TwoType) (left right : Expr)
  deriving DecidableEq

/-- `expr_alloc_and`, where no expression stands for `y`. -/
def exprAllocAnd : Option Expr → Option Expr → Option Expr
  | none, e2 => e2
  | some e1, none => some e1
  | some e1, some e2 => some (.two .and e1 e2)

def exprIsYes : Option Expr → Bool
  | none => true
  | some e => e = .symbol symbolYes

/-! ## Comparing strings -/

/-- The sign of what `strcmp` gives. -/
def strcmp : Bytes → Bytes → Int
  | [], [] => 0
  | [], _ :: _ => -1
  | _ :: _, [] => 1
  | a :: s, b :: t => if a = b then strcmp s t else if a < b then -1 else 1

@[simp] theorem strcmp_eq_zero {s t : Bytes} : strcmp s t = 0 ↔ s = t := by
  induction s generalizing t with
  | nil => cases t <;> simp [strcmp]
  | cons a s ih =>
    cases t with
    | nil => simp [strcmp]
    | cons b t =>
      by_cases hab : a = b
      · simp [strcmp, hab, ih]
      · by_cases hlt : a < b <;> simp [strcmp, hab, hlt]

/-- `enum string_value_kind`, with the `union string_value` that goes with it. -/
inductive StringValue where
  | string
  | signed (s : Int)
  | unsigned (u : Nat)
  deriving DecidableEq

/-- `val.u` -/
def StringValue.u : StringValue → Nat
  | string => 0
  | signed s => (s % 2 ^ 64).toNat
  | unsigned u => u

/-- `val.s`, which is read of two signed values only. -/
def StringValue.s : StringValue → Int
  | signed s => s
  | _ => 0

/-- What `strtoll` and `strtoull` read of a string that is a number as a whole: whether it has a
sign, and the digits behind that. -/
def wholeNumber (base : Nat) (str : Bytes) : Option (Bool × Nat) :=
  let signed := takeSign (str.dropWhile isSpace)
  let based := takeBase base signed.2
  let digits := takeDigits based.1 based.2
  if digits = [] ∨ digits.length ≠ based.2.length then none
  else some (signed.1, Nat.ofDigits based.1 digits.reverse)

def strtoll (base : Nat) (str : Bytes) : StringValue :=
  match wholeNumber base str with
  | none => .string
  | some (true, n) => if n ≤ 2 ^ 63 then .signed (-n) else .string
  | some (false, n) => if n < 2 ^ 63 then .signed n else .string

def strtoull (base : Nat) (str : Bytes) : StringValue :=
  match wholeNumber base str with
  | none => .string
  | some (negative, n) =>
    if 2 ^ 64 ≤ n then .string
    else .unsigned (if negative then (2 ^ 64 - n) % 2 ^ 64 else n)

/-- `expr_parse_string`. A number out of range sets `errno`. -/
def exprParseString (str : Bytes) : SymbolType → StringValue
  | .boolean | .tristate =>
    .signed (if str = [110] then 0 else if str = [109] then 1 else if str = [121] then 2 else -1)
  | .int => strtoll 10 str
  | .hex => strtoull 16 str
  | .unknown | .string => strtoll 0 str

/-- The sign of the difference. -/
def ordering (a b : Int) : Int := (if b < a then 1 else 0) - (if a < b then 1 else 0)

/-- The comparison of `expr_calc_value`. -/
def Values.compare (c : Values) (left right : Symbol) : Int :=
  let str1 := c.symGetStringValue left
  let str2 := c.symGetStringValue right
  let parsed (str : Bytes) (sym : Symbol) :=
    if left.type ≠ .string ∨ right.type ≠ .string then exprParseString str sym.type else .string
  match parsed str1 left, parsed str2 right with
  | .string, _ | _, .string => strcmp str1 str2
  | .signed s1, .signed s2 => ordering s1 s2
  | lval, rval => ordering lval.u rval.u

/-! ## `expr_calc_value` -/

/-- Whether a comparison holds, for the sign of the difference. -/
def CompType.holds : CompType → Int → Bool
  | equal, res => res = 0
  | unequal, res => res ≠ 0
  | lth, res => res < 0
  | leq, res => res ≤ 0
  | gth, res => res > 0
  | geq, res => res ≥ 0

/-- The operation of an `E_OR` or `E_AND`. -/
def TwoType.op : TwoType → Tristate → Tristate → Tristate
  | or => Tristate.or
  | and => Tristate.and

/-- `expr_calc_value` -/
def Expr.calcValue (c : Values) : Expr → Tristate
  | symbol sym => c.tri sym
  | not e => (e.calcValue c).not
  | comp type left right => .ofBool (type.holds (c.compare left right))
  | two type left right => type.op (left.calcValue c) (right.calcValue c)

def exprCalcValue (c : Values) : Option Expr → Tristate
  | none => .yes
  | some e => e.calcValue c

@[simp] theorem calcValue_symbol (c : Values) (s : Symbol) :
    (Expr.symbol s).calcValue c = c.tri s := rfl

@[simp] theorem calcValue_not (c : Values) (e : Expr) :
    (Expr.not e).calcValue c = (e.calcValue c).not := rfl

@[simp] theorem calcValue_two (c : Values) (type : TwoType) (l r : Expr) :
    (Expr.two type l r).calcValue c = type.op (l.calcValue c) (r.calcValue c) := rfl

@[simp] theorem exprCalcValue_some (c : Values) (e : Expr) :
    exprCalcValue c (some e) = e.calcValue c := rfl

@[simp] theorem exprCalcValue_none (c : Values) : exprCalcValue c none = .yes := rfl

/-! ## The two operations -/

namespace TwoType

/-- The other operation. -/
def dual : TwoType → TwoType
  | or => and
  | and => or

/-- The operand that can be left out. -/
def unit : TwoType → Tristate
  | or => .no
  | and => .yes

variable (t : TwoType) (a b : Tristate)

@[simp] theorem op_unit : t.op a t.unit = a := by cases t <;> cases a <;> rfl

@[simp] theorem unit_op : t.op t.unit a = a := by cases t <;> cases a <;> rfl

@[simp] theorem op_absorb : t.op a t.dual.unit = t.dual.unit := by cases t <;> cases a <;> rfl

@[simp] theorem absorb_op : t.op t.dual.unit a = t.dual.unit := by cases t <;> cases a <;> rfl

@[simp] theorem op_self : t.op a a = a := by cases t <;> cases a <;> rfl

theorem unit_ne_absorb : t.unit ≠ t.dual.unit := by cases t <;> decide

@[simp] theorem dual_dual : t.dual.dual = t := by cases t <;> rfl

theorem not_op : (t.op a b).not = t.dual.op a.not b.not := by
  cases t <;> cases a <;> cases b <;> rfl

instance : Std.Commutative t.op := ⟨fun a b => by cases t <;> cases a <;> cases b <;> rfl⟩

instance : Std.Associative t.op :=
  ⟨fun a b c => by cases t <;> cases a <;> cases b <;> cases c <;> rfl⟩

end TwoType

theorem exprCalcValue_allocAnd (c : Values) (e1 e2 : Option Expr) :
    exprCalcValue c (exprAllocAnd e1 e2) = (exprCalcValue c e1).and (exprCalcValue c e2) := by
  cases e1 with
  | none => exact (TwoType.unit_op .and _).symm
  | some e1 =>
    cases e2 with
    | none => exact (TwoType.op_unit .and _).symm
    | some e2 => rfl

/-! ## Comparisons with constants -/

namespace CompType

/-- The comparison that holds when this one does not. -/
def negate : CompType → CompType
  | equal => unequal
  | unequal => equal
  | lth => geq
  | leq => gth
  | gth => leq
  | geq => lth

theorem holds_negate (type : CompType) (res : Int) : type.negate.holds res = !type.holds res := by
  cases type <;> simp only [negate, holds, ← decide_not] <;>
    exact decide_eq_decide.mpr (by omega)

end CompType

theorem calcValue_negate (c : Values) (type : CompType) (l r : Symbol) :
    (Expr.comp type.negate l r).calcValue c = ((Expr.comp type l r).calcValue c).not := by
  simp only [Expr.calcValue, CompType.holds_negate, Tristate.not_ofBool]

/-- A constant that a tristate is compared with as a text, and not as a number. -/
def Symbol.ReadsAsText (s : Symbol) : Prop :=
  ∀ name, s = .const name → exprParseString name .unknown = .string

theorem readsAsText_ofTristate (t : Tristate) : (Symbol.ofTristate t).ReadsAsText := by
  rintro name h
  injection h with h
  subst h
  cases t <;> decide

theorem compare_const (c : Values) {s : Symbol} (hs : s.Logical) {name : Bytes}
    (hname : (Symbol.const name).ReadsAsText) :
    c.compare s (.const name) = 0 ↔ name = [(c.tri s).letter] := by
  have hparse : exprParseString name .unknown = .string := hname name rfl
  have hstring : (Symbol.const name).type ≠ .string := nofun
  have hright : (Symbol.const name).type = .unknown := rfl
  simp only [Values.compare, hright, hparse, c.stringValue_logical hs, c.stringValue_const]
  simp only [ne_eq, reduceCtorEq, not_false_eq_true, or_true, ite_true]
  split <;> first | exact strcmp_eq_zero.trans eq_comm | simp_all

/-- A symbol that can be an operand: a bool, a tristate, or `y`, `m` or `n`. -/
def Symbol.Operand (s : Symbol) : Prop := s.Logical ∨ ∃ t, s = .ofTristate t

theorem compare_letter (c : Values) {s : Symbol} (hs : s.Operand) (t : Tristate) :
    c.compare s (.ofTristate t) = 0 ↔ c.tri s = t := by
  rcases hs with hs | ⟨u, rfl⟩
  · rw [Symbol.ofTristate, compare_const c hs (readsAsText_ofTristate t), List.cons_eq_cons]
    exact ⟨fun h => (Tristate.letter_injective h.1).symm, fun h => h ▸ ⟨rfl, rfl⟩⟩
  · have hparse : exprParseString [u.letter] .unknown = .string :=
      readsAsText_ofTristate u _ rfl
    have hcompare : c.compare (.ofTristate u) (.ofTristate t) = strcmp [u.letter] [t.letter] := by
      simp [Values.compare, Symbol.ofTristate, c.stringValue_const, Symbol.type, hparse]
    rw [hcompare, strcmp_eq_zero, List.cons_eq_cons, c.tri_ofTristate]
    exact ⟨fun h => Tristate.letter_injective h.1, fun h => h ▸ ⟨rfl, rfl⟩⟩

/-- An operand compared with a letter. -/
theorem calcValue_equal_letter (c : Values) {s : Symbol} (hs : s.Operand) (t : Tristate) :
    (Expr.comp .equal s (.ofTristate t)).calcValue c = .ofBool (c.tri s = t) := by
  simp only [Expr.calcValue, CompType.holds, compare_letter c hs]

theorem calcValue_unequal_letter (c : Values) {s : Symbol} (hs : s.Operand) (t : Tristate) :
    (Expr.comp .unequal s (.ofTristate t)).calcValue c = .ofBool (c.tri s ≠ t) := by
  have h : (Expr.comp .unequal s (.ofTristate t)).calcValue c = _ :=
    calcValue_negate c .equal s (.ofTristate t)
  rw [h, calcValue_equal_letter c hs, Tristate.not_ofBool, decide_not]

end UolaOs.Config
