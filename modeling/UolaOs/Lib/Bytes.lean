import Mathlib.Data.List.Basic
import Mathlib.Tactic.Ring

/-!
# Byte strings

* `leBytes`, `leNat` and `Endian`: fixed-width words in either byte order;
* `load` and `poke`: a memory area as a list of bytes, of fixed length;
* `roundUp`: the next multiple of an alignment.
-/

namespace UolaOs

abbrev Bytes := List UInt8

/-! ## Words -/

/-- The `k` low bytes of `n`, least significant first. -/
def leBytes : Nat → Nat → Bytes
  | 0, _ => []
  | k + 1, n => UInt8.ofNat n :: leBytes k (n / 256)

def leNat : Bytes → Nat
  | [] => 0
  | b :: bs => b.toNat + 256 * leNat bs

@[simp] theorem length_leBytes (k n : Nat) : (leBytes k n).length = k := by
  induction k generalizing n with
  | zero => rfl
  | succ k ih => simp [leBytes, ih]

theorem leNat_leBytes (k n : Nat) : leNat (leBytes k n) = n % 256 ^ k := by
  induction k generalizing n with
  | zero => simp [leBytes, leNat, Nat.mod_one]
  | succ k ih =>
    have low : (UInt8.ofNat n).toNat = n % 256 := by simp
    rw [leBytes, leNat, ih, low, Nat.pow_succ, Nat.mul_comm (256 ^ k) 256, Nat.mod_mul]

theorem leNat_lt (bs : Bytes) : leNat bs < 256 ^ bs.length := by
  induction bs with
  | nil => simp [leNat]
  | cons b bs ih =>
    have hb := b.toNat_lt
    rw [leNat, List.length_cons, Nat.pow_succ]
    omega

theorem leBytes_leNat (bs : Bytes) : leBytes bs.length (leNat bs) = bs := by
  induction bs with
  | nil => rfl
  | cons b bs ih =>
    have hlow : UInt8.ofNat (b.toNat + 256 * leNat bs) = b := by
      apply UInt8.toNat_inj.mp
      rw [UInt8.toNat_ofNat']
      have := b.toNat_lt
      omega
    have hhigh : (b.toNat + 256 * leNat bs) / 256 = leNat bs := by
      have := b.toNat_lt
      omega
    rw [List.length_cons, leNat, leBytes, hlow, hhigh, ih]

inductive Endian where
  | little
  | big
  deriving DecidableEq, Repr

/-- The `k` bytes a host of this byte order stores for `n`. -/
def Endian.put (e : Endian) (k n : Nat) : Bytes :=
  match e with
  | .little => leBytes k n
  | .big => (leBytes k n).reverse

def Endian.get (e : Endian) (bs : Bytes) : Nat :=
  match e with
  | .little => leNat bs
  | .big => leNat bs.reverse

@[simp] theorem Endian.length_put (e : Endian) (k n : Nat) : (e.put k n).length = k := by
  cases e <;> simp [Endian.put]

theorem Endian.get_put (e : Endian) (k n : Nat) : e.get (e.put k n) = n % 256 ^ k := by
  cases e <;> simp [Endian.put, Endian.get, leNat_leBytes]

theorem Endian.get_put_of_lt (e : Endian) {k n : Nat} (h : n < 256 ^ k) :
    e.get (e.put k n) = n := by
  rw [e.get_put, Nat.mod_eq_of_lt h]

theorem Endian.put_get (e : Endian) {k : Nat} {bs : Bytes} (h : bs.length = k) : e.put k
    (e.get bs) = bs := by
  subst h
  cases e with
  | little => exact leBytes_leNat bs
  | big =>
    have := leBytes_leNat bs.reverse
    rw [List.length_reverse] at this
    rw [Endian.put, Endian.get, this, List.reverse_reverse]

theorem Endian.get_eq_iff (e : Endian) {k n : Nat} {bs : Bytes} (h : bs.length = k)
    (hn : n < 256 ^ k) : e.get bs = n ↔ bs = e.put k n := by
  constructor
  · rintro rfl
    exact (e.put_get h).symm
  · rintro rfl
    exact e.get_put_of_lt hn

/-! ## Memory areas -/

/-- The `n` bytes from offset `off` on. -/
def load (m : Bytes) (off n : Nat) : Bytes := (m.drop off).take n

/-- Store `bs` at offset `off`. The area keeps its length: what would land past
its end is lost. -/
def poke (m : Bytes) (off : Nat) (bs : Bytes) : Bytes :=
  (m.take off ++ bs ++ m.drop (off + bs.length)).take m.length

@[simp] theorem length_poke (m : Bytes) (off : Nat) (bs : Bytes) :
    (poke m off bs).length = m.length := by
  simp only [poke, List.length_take, List.length_append, List.length_drop]
  omega

theorem poke_eq_append {m : Bytes} {off : Nat} {bs : Bytes}
    (h : off + bs.length ≤ m.length) :
    poke m off bs = m.take off ++ bs ++ m.drop (off + bs.length) := by
  apply List.take_of_length_le
  simp only [List.length_append, List.length_take, List.length_drop]
  omega

/-- Storing right after a known part `p` of the area. -/
theorem poke_append {p d bs : Bytes} {off : Nat} (hp : p.length = off)
    (hb : bs.length ≤ d.length) :
    poke (p ++ d) off bs = p ++ (bs ++ d.drop bs.length) := by
  subst hp
  rw [poke_eq_append (by simp; omega), List.take_left, ← List.drop_drop, List.drop_left,
    List.append_assoc]

/-- Storing one string right behind another. -/
theorem poke_behind {m a b : Bytes} {off : Nat} (h : off + a.length + b.length ≤ m.length) :
    poke (poke m off a) (off + a.length) b = poke m off (a ++ b) := by
  have hfront : (m.take off ++ a).length = off + a.length := by
    rw [List.length_append, List.length_take_of_le (by omega)]
  have hrest : b.length ≤ (m.drop (off + a.length)).length := by
    rw [List.length_drop]
    omega
  have ha : poke m off a = m.take off ++ a ++ m.drop (off + a.length) := poke_eq_append (by omega)
  rw [ha, poke_append hfront hrest, poke_eq_append (by rw [List.length_append]; omega),
    List.drop_drop, List.length_append]
  simp only [List.append_assoc, Nat.add_assoc]

@[simp] theorem take_poke_of_le {m bs : Bytes} {off n : Nat} (h : n ≤ off)
    (hm : off + bs.length ≤ m.length) : (poke m off bs).take n = m.take n := by
  rw [poke_eq_append hm, List.append_assoc, List.take_append_of_le_length, List.take_take,
    Nat.min_eq_left h]
  simp only [List.length_take]
  omega

theorem load_append_right {a b : Bytes} {off n : Nat} (ha : a.length = off) :
    load (a ++ b) off n = b.take n := by
  subst ha
  simp [load]

theorem poke_zero {a b bs : Bytes} (h : bs.length = a.length) : poke (a ++ b) 0 bs = bs ++ b := by
  rw [poke_eq_append (by rw [List.length_append]; omega), List.take_zero, List.nil_append,
    Nat.zero_add, h, List.drop_left]

theorem load_zero (a b : Bytes) : load (a ++ b) 0 a.length = a := by
  rw [load, List.drop_zero, List.take_left]

theorem split_load (buf : Bytes) (off n : Nat) :
    buf = buf.take off ++ (load buf off n ++ buf.drop (off + n)) := by
  rw [load, ← List.drop_drop, List.take_append_drop, List.take_append_drop]

theorem load_eq_of_take {a b : Bytes} {off n : Nat} (h : a.take (off + n) = b.take (off + n)) :
    load a off n = load b off n := by
  rw [load, load, List.take_drop, List.take_drop, h]

theorem load_poke {m bs : Bytes} {off n : Nat} (hm : off + bs.length ≤ m.length)
    (hn : n ≤ bs.length) : load (poke m off bs) off n = bs.take n := by
  rw [poke_eq_append hm, List.append_assoc,
    load_append_right (List.length_take_of_le (by omega)), List.take_append_of_le_length hn]

theorem load_poke_self {m bs : Bytes} {off : Nat} (hm : off + bs.length ≤ m.length) :
    load (poke m off bs) off bs.length = bs := by
  rw [load_poke hm (Nat.le_refl _), List.take_length]

theorem getElem?_load {off n i : Nat} (hlo : off ≤ i) (hhi : i < off + n) (m : Bytes) :
    (load m off n)[i - off]? = m[i]? := by
  rw [load, List.getElem?_take_of_lt (by omega), List.getElem?_drop, Nat.add_sub_cancel' hlo]

theorem length_load {m : Bytes} {off n : Nat} (h : off + n ≤ m.length) :
    (load m off n).length = n := by
  rw [load, List.length_take, List.length_drop]
  omega

theorem load_load {m : Bytes} {off n i k : Nat} (h : i + k ≤ n) :
    load (load m off n) i k = load m (off + i) k := by
  rw [load, load, load, List.drop_take, List.take_take, Nat.min_eq_left (by omega), List.drop_drop]

theorem drop_eq_load {m : Bytes} {n : Nat} (h : m.length = n) (off : Nat) :
    m.drop off = load m off (n - off) := by
  rw [load, List.take_of_length_le]
  rw [List.length_drop, h]

theorem load_front {m : Bytes} {off n k : Nat} (h : k ≤ n) :
    load (load m off n) 0 k = load m off k := load_load (by omega)

theorem load_add (m : Bytes) (off a b : Nat) :
    load m off (a + b) = load m off a ++ load m (off + a) b := by
  rw [load, List.take_add, List.drop_drop, load, load]

/-- What lies outside of what is stored stays as it was. -/
theorem getElem?_poke {m bs : Bytes} {off : Nat} (hm : off + bs.length ≤ m.length) (i : Nat) :
    (poke m off bs)[i]? = if off ≤ i ∧ i < off + bs.length then bs[i - off]? else m[i]? := by
  have htake : (m.take off).length = off := List.length_take_of_le (by omega)
  rw [poke_eq_append hm]
  split
  · rename_i h
    rw [List.append_assoc, List.getElem?_append_right (by omega), htake,
      List.getElem?_append_left (by omega)]
  · rename_i h
    by_cases hlt : i < off
    · rw [List.append_assoc, List.getElem?_append_left (by omega), List.getElem?_take_of_lt hlt]
    · have hlen : (m.take off ++ bs).length = off + bs.length := by
        rw [List.length_append, htake]
      rw [List.getElem?_append_right (by omega), hlen, List.getElem?_drop]
      congr 1
      omega

theorem load_congr {a b : Bytes} {off n : Nat}
    (h : ∀ i, off ≤ i → i < off + n → a[i]? = b[i]?) : load a off n = load b off n := by
  apply List.ext_getElem?
  intro i
  rw [load, load, List.getElem?_take, List.getElem?_take, List.getElem?_drop, List.getElem?_drop]
  split
  · exact h (off + i) (by omega) (by omega)
  · rfl

theorem load_eq_replicate {m : Bytes} {b : UInt8} {off n : Nat}
    (h : ∀ i, off ≤ i → i < off + n → m[i]? = some b) : load m off n = List.replicate n b := by
  apply List.ext_getElem?
  intro i
  rw [load, List.getElem?_take, List.getElem?_drop, List.getElem?_replicate]
  split
  · exact h (off + i) (by omega) (by omega)
  · rfl

theorem load_poke_of_disjoint {m bs : Bytes} {p off n : Nat} (hm : p + bs.length ≤ m.length)
    (h : off + n ≤ p ∨ p + bs.length ≤ off) : load (poke m p bs) off n = load m off n :=
  load_congr fun i h₁ h₂ => by rw [getElem?_poke hm, if_neg (by omega)]

/-! ## Words in memory -/

/-- The little-endian word at the offset `off`. -/
def word (m : Bytes) (off : Nat) : UInt32 := UInt32.ofNat (Endian.little.get (load m off 4))

def half (m : Bytes) (off : Nat) : UInt16 := UInt16.ofNat (Endian.little.get (load m off 2))

section
variable {m rest : Bytes} {p : Nat}

theorem word_eq {x : Nat} (h : load m p 4 = Endian.little.put 4 x) (hx : x < 2 ^ 32) :
    (word m p).toNat = x := by
  rw [word, h, Endian.get_put_of_lt _ hx, UInt32.toNat_ofNat_of_lt' hx]

/-- Reading a word, and what is behind it. -/
theorem word_next {x : UInt32} (h : m.drop p = Endian.little.put 4 x.toNat ++ rest) :
    word m p = x ∧ m.drop (p + 4) = rest := by
  constructor
  · rw [word, load, h, List.take_left' (Endian.length_put _ _ _),
      Endian.get_put_of_lt _ x.toNat_lt, UInt32.ofNat_toNat]
  · rw [← List.drop_drop, h, List.drop_left' (Endian.length_put _ _ _)]

theorem half_next {x : UInt16} (h : m.drop p = Endian.little.put 2 x.toNat ++ rest) :
    half m p = x ∧ m.drop (p + 2) = rest := by
  constructor
  · rw [half, load, h, List.take_left' (Endian.length_put _ _ _),
      Endian.get_put_of_lt _ x.toNat_lt, UInt16.ofNat_toNat]
  · rw [← List.drop_drop, h, List.drop_left' (Endian.length_put _ _ _)]

end

/-! ## Alignment -/

/-- `x` rounded up to a multiple of `y`. -/
def roundUp (x y : Nat) : Nat := (x + (y - 1)) / y * y

theorem dvd_roundUp (x y : Nat) : y ∣ roundUp x y := Nat.dvd_mul_left y _

theorem le_roundUp (x : Nat) {y : Nat} (hy : 0 < y) : x ≤ roundUp x y := by
  have := Nat.div_add_mod (x + (y - 1)) y
  have := Nat.mod_lt (x + (y - 1)) hy
  rw [roundUp, Nat.mul_comm]
  omega

theorem roundUp_lt (x : Nat) {y : Nat} (hy : 0 < y) : roundUp x y < x + y := by
  have := Nat.div_mul_le_self (x + (y - 1)) y
  rw [roundUp]
  omega

/-- The least multiple of `y` not below `x`. -/
theorem roundUp_le_iff {x y m : Nat} (hy : 0 < y) (hm : y ∣ m) : roundUp x y ≤ m ↔ x ≤ m := by
  constructor
  · exact Nat.le_trans (le_roundUp x hy)
  · intro h
    obtain ⟨k, rfl⟩ := hm
    obtain ⟨j, hj⟩ := dvd_roundUp x y
    have hlt := roundUp_lt x hy
    rw [hj] at hlt ⊢
    apply Nat.mul_le_mul_left
    by_contra hk
    have hjk : k + 1 ≤ j := by omega
    have := Nat.mul_le_mul_left y hjk
    rw [Nat.mul_succ] at this
    omega

theorem roundUp_of_dvd {x y : Nat} (hy : 0 < y) (h : y ∣ x) : roundUp x y = x :=
  Nat.le_antisymm ((roundUp_le_iff hy h).mpr (Nat.le_refl x)) (le_roundUp x hy)

/-- Rounding as the tools do it. -/
theorem add_rest_eq_roundUp (x : Nat) {y : Nat} (hy : 0 < y) :
    x + (if x % y ≠ 0 then y - x % y else 0) = roundUp x y := by
  have hdiv := Nat.div_add_mod x y
  have hlt := Nat.mod_lt x hy
  have hnext := Nat.mul_add_one y (x / y)
  split
  · have hq : (x + (y - 1)) / y = x / y + 1 := by
      apply Nat.div_eq_of_lt_le <;> rw [Nat.mul_comm, Nat.mul_add_one] <;> omega
    rw [roundUp, hq, Nat.add_mul, Nat.mul_comm]
    omega
  · rw [roundUp_of_dvd hy (Nat.dvd_of_mod_eq_zero (by omega)), Nat.add_zero]

end UolaOs
