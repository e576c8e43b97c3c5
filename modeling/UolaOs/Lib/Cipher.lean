import Mathlib.Data.List.GetD
import UolaOs.Lib.Bytes

/-!
# Stream ciphers

`next` makes a byte of the key stream. `crypt` runs it over a text and `cryptAt` over memory,
where source and target may overlap; `cryptAt_eq` says when that is the same.
-/

namespace UolaOs

section
variable {σ : Type} (next : σ → UInt8 × σ)

def crypt : σ → Bytes → Bytes
  | _, [] => []
  | s, b :: bs => (b ^^^ (next s).1) :: crypt (next s).2 bs

/-- One byte after the other from `src` to `dst`. -/
def cryptAt : σ → Bytes → Nat → Nat → Nat → Bytes
  | _, m, _, _, 0 => m
  | s, m, src, dst, n + 1 =>
    cryptAt (next s).2 (m.set dst (m.getD src 0 ^^^ (next s).1)) (src + 1) (dst + 1) n

@[simp] theorem length_crypt (s : σ) (bs : Bytes) : (crypt next s bs).length = bs.length := by
  induction bs generalizing s with
  | nil => rfl
  | cons b bs ih => rw [crypt, List.length_cons, ih, List.length_cons]

theorem crypt_crypt (s : σ) (bs : Bytes) : crypt next s (crypt next s bs) = bs := by
  induction bs generalizing s with
  | nil => rfl
  | cons b bs ih => rw [crypt, crypt, ih, UInt8.xor_assoc, UInt8.xor_self, UInt8.xor_zero]

theorem load_succ {m : Bytes} {off : Nat} (h : off < m.length) (n : Nat) :
    load m off (n + 1) = m.getD off 0 :: load m (off + 1) n := by
  rw [load, List.drop_eq_getElem_cons h, List.take_succ_cons, List.getD_eq_getElem _ _ h, load]

theorem poke_cons {m : Bytes} {off : Nat} (h : off < m.length) (b : UInt8) (bs : Bytes) :
    poke m off (b :: bs) = poke (m.set off b) (off + 1) bs := by
  have htake : (m.set off b).take (off + 1) = m.take off ++ [b] := by
    rw [List.take_add_one, List.take_set_of_le (Nat.le_refl _), List.getElem?_set_self h]
    rfl
  rw [poke, poke, htake, List.drop_set_of_lt (by omega), List.length_set, List.length_cons,
    List.append_assoc, List.append_assoc, List.append_assoc, List.singleton_append,
    List.cons_append, Nat.add_right_comm, Nat.add_assoc]

/-- The source may overlap the target when it does not start before it. -/
theorem cryptAt_eq {m : Bytes} {src dst n : Nat} (s : σ) (hle : dst ≤ src)
    (hm : src + n ≤ m.length) :
    cryptAt next s m src dst n = poke m dst (crypt next s (load m src n)) := by
  induction n generalizing s m src dst with
  | zero => simp [cryptAt, load, crypt, poke]
  | succ n ih =>
    have hsrc : load (m.set dst (m.getD src 0 ^^^ (next s).1)) (src + 1) n = load m (src + 1) n := by
      rw [load, load, List.drop_set_of_lt (by omega)]
    rw [cryptAt, ih _ (by omega) (by rw [List.length_set]; omega), hsrc, load_succ (by omega),
      crypt, poke_cons (by omega)]

end

end UolaOs
