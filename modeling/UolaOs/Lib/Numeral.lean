import UolaOs.Lib.Bytes
import Mathlib.Data.Nat.Digits.Lemmas
import Mathlib.Tactic.IntervalCases

/-!
# Numbers as text

`hexPadded` is what `printf` writes for `%0Nx` and `%0NX`, `strtoul` the C library
function of that name. `strtoul_hexPadded` says that one reads back the other.
-/

namespace UolaOs

def digitChar (upper : Bool) (d : Nat) : UInt8 :=
  UInt8.ofNat (if d < 10 then 48 + d else if upper then 55 + d else 87 + d)

/-- `n` in base sixteen with at least `width` digits. -/
def hexPadded (upper : Bool) (width n : Nat) : Bytes :=
  let ds := Nat.digits 16 n
  (ds ++ List.replicate (width - ds.length) 0).reverse.map (digitChar upper)

def isSpace (c : UInt8) : Bool := c = 32 || (9 ≤ c && c ≤ 13)

def digitValue (c : UInt8) : Option Nat :=
  if 48 ≤ c ∧ c ≤ 57 then some (c.toNat - 48)
  else if 97 ≤ c ∧ c ≤ 122 then some (c.toNat - 87)
  else if 65 ≤ c ∧ c ≤ 90 then some (c.toNat - 55)
  else none

/-- The digits a number in this base starts with. -/
def takeDigits (base : Nat) : Bytes → List Nat
  | [] => []
  | c :: s =>
    match digitValue c with
    | some d => if d < base then d :: takeDigits base s else []
    | none => []

def takeSign : Bytes → Bool × Bytes
  | [] => (false, [])
  | c :: s => if c = 45 then (true, s) else if c = 43 then (false, s) else (false, c :: s)

/-- The base to read in, and what follows its prefix. -/
def takeBase (base : Nat) : Bytes → Nat × Bytes
  | z :: x :: s =>
    if z = 48 ∧ (x = 120 ∨ x = 88) ∧ (base = 0 ∨ base = 16) then (16, s)
    else (if base = 0 then (if z = 48 then 8 else 10) else base, z :: x :: s)
  | s => (if base = 0 then 10 else base, s)

/-- `strtoul` where the largest `unsigned long` is `max`. -/
def strtoul (max base : Nat) (s : Bytes) : Nat :=
  let signed := takeSign (s.dropWhile isSpace)
  let based := takeBase base signed.2
  let n := Nat.ofDigits based.1 (takeDigits based.1 based.2).reverse
  if n > max then max else if signed.1 then (max + 1 - n) % (max + 1) else n

theorem digitValue_digitChar (upper : Bool) {d : Nat} (h : d < 16) :
    digitValue (digitChar upper d) = some d := by
  interval_cases d <;> cases upper <;> rfl

theorem digitChar_ne_zero (upper : Bool) {d : Nat} (h : d < 16) : digitChar upper d ≠ 0 := by
  interval_cases d <;> cases upper <;> decide

theorem lt_of_mem_hexDigits {width n d : Nat}
    (h : d ∈ (Nat.digits 16 n ++ List.replicate (width - (Nat.digits 16 n).length) 0).reverse) :
    d < 16 := by
  rw [List.mem_reverse, List.mem_append] at h
  rcases h with h | h
  · exact Nat.digits_lt_base (by decide) h
  · rw [List.eq_of_mem_replicate h]
    decide

theorem digit_of_mem_hexPadded {upper : Bool} {width n : Nat} {c : UInt8}
    (h : c ∈ hexPadded upper width n) : ∃ d < 16, c = digitChar upper d := by
  obtain ⟨d, hd, rfl⟩ := List.mem_map.mp h
  exact ⟨d, lt_of_mem_hexDigits hd, rfl⟩

theorem length_hexPadded_le {upper : Bool} {width n : Nat} (h : n < 16 ^ width) :
    (hexPadded upper width n).length = width := by
  have short : (Nat.digits 16 n).length ≤ width := by
    rcases Nat.eq_zero_or_pos n with rfl | hn
    · simp
    · by_contra hlt
      have := Nat.base_pow_length_digits_le 16 n (by decide) (by omega)
      have := Nat.pow_le_pow_right (n := 16) (by decide) (Nat.lt_of_not_le hlt)
      rw [Nat.pow_succ] at this
      omega
  simp only [hexPadded, List.length_map, List.length_reverse, List.length_append,
    List.length_replicate]
  omega

theorem takeDigits_map_append {upper : Bool} {ds : List Nat} (hd : ∀ d ∈ ds, d < 16)
    {rest : Bytes} (hr : takeDigits 16 rest = []) :
    takeDigits 16 (ds.map (digitChar upper) ++ rest) = ds := by
  induction ds with
  | nil => exact hr
  | cons d ds ih =>
    have hd' : d < 16 := hd d (by simp)
    simp [takeDigits, digitValue_digitChar upper hd', hd',
      ih fun e he => hd e (List.mem_cons_of_mem d he)]

/-- The digits of `hexPadded`. -/
def hexDigits (width n : Nat) : List Nat :=
  (Nat.digits 16 n ++ List.replicate (width - (Nat.digits 16 n).length) 0).reverse

theorem takeDigits_hexPadded {upper : Bool} {width n : Nat} {rest : Bytes}
    (hr : takeDigits 16 rest = []) :
    takeDigits 16 (hexPadded upper width n ++ rest) = hexDigits width n :=
  takeDigits_map_append (fun _ => lt_of_mem_hexDigits) hr

theorem ofDigits_hexDigits (width n : Nat) : Nat.ofDigits 16 (hexDigits width n).reverse = n := by
  rw [hexDigits, List.reverse_reverse, Nat.ofDigits_append_replicate_zero, Nat.ofDigits_digits]

theorem length_hexDigits (upper : Bool) (width n : Nat) :
    (hexDigits width n).length = (hexPadded upper width n).length :=
  (List.length_map _).symm

theorem le_length_hexPadded (upper : Bool) (width n : Nat) :
    width ≤ (hexPadded upper width n).length := by
  rw [← length_hexDigits, hexDigits, List.length_reverse, List.length_append, List.length_replicate]
  omega

/-- Reading a `0x` number back from the start of a text. -/
theorem strtoul_hexPadded {max n : Nat} (upper : Bool) (width : Nat) (hn : n ≤ max)
    {rest : Bytes} (hr : takeDigits 16 rest = []) :
    strtoul max 16 (48 :: 120 :: (hexPadded upper width n ++ rest)) = n := by
  have spaces : (48 :: 120 :: (hexPadded upper width n ++ rest)).dropWhile isSpace =
      48 :: 120 :: (hexPadded upper width n ++ rest) :=
    List.dropWhile_cons_of_neg (by decide)
  have sign : takeSign (48 :: 120 :: (hexPadded upper width n ++ rest)) =
      (false, 48 :: 120 :: (hexPadded upper width n ++ rest)) := rfl
  have base : takeBase 16 (48 :: 120 :: (hexPadded upper width n ++ rest)) =
      (16, hexPadded upper width n ++ rest) := rfl
  simp only [strtoul, spaces, sign, base, takeDigits_hexPadded hr, ofDigits_hexDigits,
    Bool.false_eq_true, ↓reduceIte]
  exact if_neg (Nat.not_lt_of_le hn)

end UolaOs
