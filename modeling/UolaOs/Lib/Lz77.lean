import Mathlib.Data.List.Basic

/-!
# Copying from what was written

The tokens of Lempel and Ziv over any alphabet: a value as it is, or a copy of what is `offset`
back, which may overlap what it writes.

* `copyBack_take`: a copy of values that were compared extends a prefix of the data.
-/

namespace UolaOs

section
variable {α : Type}

/-- `length` values from `offset` back, one at a time. -/
def copyBack (out : List α) (offset : Nat) : Nat → List α
  | 0 => out
  | length + 1 =>
    match out[out.length - offset]? with
    | some a => copyBack (out ++ [a]) offset length
    | none => out

inductive Token (α : Type) where
  | literal (a : α)
  | copy (offset length : Nat)

namespace Token

def size : Token α → Nat
  | literal _ => 1
  | copy _ length => length

/-- The token says what the data have at `pos`. -/
def Fits (data : List α) (pos : Nat) : Token α → Prop
  | literal a => data[pos]? = some a
  | copy offset length =>
    0 < offset ∧ offset ≤ pos ∧ pos + length ≤ data.length ∧
      ∀ k < length, data[pos - offset + k]? = data[pos + k]?

end Token

variable {data : List α} {pos offset length : Nat}

theorem take_succ_of_getElem? {a : α} (h : data[pos]? = some a) :
    data.take pos ++ [a] = data.take (pos + 1) := by
  rw [List.take_add_one, h, Option.toList_some]

theorem copyBack_take (hpos : 0 < offset) (hle : offset ≤ pos) (hend : pos + length ≤ data.length)
    (hsame : ∀ k < length, data[pos - offset + k]? = data[pos + k]?) :
    copyBack (data.take pos) offset length = data.take (pos + length) := by
  induction length generalizing pos with
  | zero => rfl
  | succ length ih =>
    have hlen : (data.take pos).length = pos := List.length_take_of_le (by omega)
    have hlt : pos < data.length := by omega
    have hfirst : (data.take pos)[pos - offset]? = some data[pos] := by
      rw [List.getElem?_take_of_lt (by omega)]
      have hzero := hsame 0 (by omega)
      rw [Nat.add_zero, Nat.add_zero, List.getElem?_eq_getElem hlt] at hzero
      exact hzero
    have hnext : copyBack (data.take (pos + 1)) offset length =
        data.take (pos + 1 + length) := ih (by omega) (by omega) fun k hk => by
      have hk := hsame (k + 1) (by omega)
      have hback : pos + 1 - offset + k = pos - offset + (k + 1) := by omega
      rw [hback, hk]
      congr 1
      omega
    rw [copyBack, hlen, hfirst]
    dsimp only
    rw [take_succ_of_getElem? (List.getElem?_eq_getElem hlt), hnext]
    congr 1
    omega

end

end UolaOs
