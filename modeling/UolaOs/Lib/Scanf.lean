import UolaOs.Lib.Numeral

/-!
# Formatted input

`scanf` reads a text by directives as the C library does; `Value` is what a conversion stores. The
lemmas read one directive from a text that begins with what it matches.
-/

namespace UolaOs

inductive Directive where
  /-- Any amount of white space. -/
  | space
  | lit (c : UInt8)
  /-- `%s` -/
  | str
  /-- `%x` -/
  | hex

inductive Value where
  | str (bs : Bytes)
  | num (n : Nat)
  deriving DecidableEq

/-- `%x`: the number, and what follows it. -/
def takeHex (s : Bytes) : Option (Nat × Bytes) :=
  let digits := takeDigits 16 (takeBase 16 (takeSign s).2).2
  if digits = [] then none
  else some (strtoul (2 ^ 64 - 1) 16 s % 2 ^ 32,
    (takeBase 16 (takeSign s).2).2.drop digits.length)

/-- The values up to the first directive that does not match, and what is left of the input. -/
def scanf : List Directive → Bytes → List Value × Bytes
  | [], s => ([], s)
  | .space :: ds, s => scanf ds (s.dropWhile isSpace)
  | .lit c :: ds, s =>
    match s with
    | [] => ([], [])
    | b :: rest => if b = c then scanf ds rest else ([], s)
  | .str :: ds, s =>
    let s := s.dropWhile isSpace
    let word := s.takeWhile fun b => !isSpace b
    if word = [] then ([], s)
    else
      let r := scanf ds (s.drop word.length)
      (.str word :: r.1, r.2)
  | .hex :: ds, s =>
    match takeHex (s.dropWhile isSpace) with
    | none => ([], s)
    | some (n, rest) =>
      let r := scanf ds rest
      (.num n :: r.1, r.2)

section
variable {ds : List Directive} {s word rest : Bytes} {n : Nat}

/-- The text of a format. -/
def lits (t : Bytes) : List Directive := t.map .lit

theorem scanf_lits (t : Bytes) (ds : List Directive) (s : Bytes) :
    scanf (lits t ++ ds) (t ++ s) = scanf ds s := by
  induction t with
  | nil => rfl
  | cons c t ih =>
    rw [lits, List.map_cons, List.cons_append, List.cons_append, scanf, if_pos rfl]
    exact ih

/-- The text begins with no white space. -/
def Solid (s : Bytes) : Prop := s.dropWhile isSpace = s

theorem solid_cons {b : UInt8} (h : isSpace b = false) (s : Bytes) : Solid (b :: s) :=
  List.dropWhile_cons_of_neg (by rw [h]; decide)

theorem scanf_space (h : Solid s) : scanf (.space :: ds) (0x20 :: s) = scanf ds s := by
  rw [scanf, List.dropWhile_cons_of_pos (by decide), h]

theorem scanf_spaces {t : Bytes} (ht : ∀ b ∈ t, isSpace b = true) (h : Solid s) :
    scanf (.space :: ds) (t ++ s) = scanf ds s := by
  rw [scanf, List.dropWhile_append_of_pos ht, h]

theorem scanf_str (hne : word ≠ []) (hword : ∀ b ∈ word, isSpace b = false) (rest : Bytes) :
    scanf (.str :: ds) (word ++ 0x20 :: rest) =
      (.str word :: (scanf ds (0x20 :: rest)).1, (scanf ds (0x20 :: rest)).2) := by
  have hsolid : (word ++ 0x20 :: rest).dropWhile isSpace = word ++ 0x20 :: rest := by
    cases word with
    | nil => exact absurd rfl hne
    | cons b word => exact solid_cons (hword b List.mem_cons_self) _
  have htake : (word ++ 0x20 :: rest).takeWhile (fun b => !isSpace b) = word := by
    rw [List.takeWhile_append_of_pos fun b hb => by rw [hword b hb]; rfl,
      List.takeWhile_cons_of_neg (by decide), List.append_nil]
  rw [scanf, hsolid]
  dsimp only
  rw [htake, if_neg hne, List.drop_left]

/-- A digit is no white space, no sign and no `x`. -/
theorem digitChar_plain (upper : Bool) {d : Nat} (h : d < 16) :
    isSpace (digitChar upper d) = false ∧ digitChar upper d ≠ 45 ∧ digitChar upper d ≠ 43 ∧
      digitChar upper d ≠ 120 ∧ digitChar upper d ≠ 88 := by
  interval_cases d <;> cases upper <;> decide

/-- Reading back a number with more than one digit. -/
theorem scanf_hex {width : Nat} (hn : n < 2 ^ 32) (hwidth : 1 < width)
    (hrest : takeDigits 16 rest = []) :
    scanf (.hex :: ds) (hexPadded false width n ++ rest) =
      (.num n :: (scanf ds rest).1, (scanf ds rest).2) := by
  have hlen := le_length_hexPadded false width n
  have hdigits : takeDigits 16 (hexPadded false width n ++ rest) = hexDigits width n :=
    takeDigits_hexPadded hrest
  have hcount : (hexDigits width n).length = (hexPadded false width n).length :=
    length_hexDigits false width n
  have hplain (c : UInt8) (hc : c ∈ hexPadded false width n) :
      isSpace c = false ∧ c ≠ 45 ∧ c ≠ 43 ∧ c ≠ 120 ∧ c ≠ 88 := by
    obtain ⟨d, hd, rfl⟩ := digit_of_mem_hexPadded hc
    exact digitChar_plain false hd
  obtain ⟨x, y, tail, htext⟩ : ∃ x y tail, hexPadded false width n = x :: y :: tail := by
    match h : hexPadded false width n with
    | [] => rw [h] at hlen; exact absurd hlen (by rw [List.length_nil]; omega)
    | [_] => rw [h] at hlen; exact absurd hlen (by rw [List.length_singleton]; omega)
    | x :: y :: tail => exact ⟨x, y, tail, rfl⟩
  obtain ⟨hspace, hminus, hplus, -, -⟩ := hplain x (htext ▸ List.mem_cons_self)
  obtain ⟨-, -, -, hx, hX⟩ := hplain y (htext ▸ List.mem_cons_of_mem _ List.mem_cons_self)
  have hsolid : (hexPadded false width n ++ rest).dropWhile isSpace =
      hexPadded false width n ++ rest := by
    rw [htext]
    exact solid_cons hspace _
  have hsign : takeSign (hexPadded false width n ++ rest) =
      (false, hexPadded false width n ++ rest) := by
    rw [htext, List.cons_append, takeSign, if_neg hminus, if_neg hplus]
  have hbase : takeBase 16 (hexPadded false width n ++ rest) =
      (16, hexPadded false width n ++ rest) := by
    rw [htext, List.cons_append, List.cons_append, takeBase, if_neg, if_neg (by decide)]
    rintro ⟨-, h | h, -⟩
    · exact hx h
    · exact hX h
  have hvalue : strtoul (2 ^ 64 - 1) 16 (hexPadded false width n ++ rest) = n := by
    simp only [strtoul, hsolid, hsign, hbase, hdigits, ofDigits_hexDigits, Bool.false_eq_true,
      ↓reduceIte]
    exact if_neg (by omega)
  have hhex : takeHex (hexPadded false width n ++ rest) = some (n, rest) := by
    rw [takeHex, hsign, hbase, hdigits, hvalue, Nat.mod_eq_of_lt hn, if_neg, hcount, List.drop_left]
    intro hnil
    rw [hnil] at hcount
    rw [← hcount, List.length_nil] at hlen
    omega
  rw [scanf, hsolid, hhex]

end

end UolaOs
