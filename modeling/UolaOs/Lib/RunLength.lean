import UolaOs.Lib.Bytes

/-!
# Runs

* `PrefixCode`: words of which none is the front of another; a string is split into words and a
  rest that is shorter than any word in one way;
* `Run`: a byte that is repeated, or bytes that are copied, behind a signed byte for the length;
* `front_cases`: what a string can begin with.
-/

namespace UolaOs

/-! ## Prefix codes -/

structure PrefixCode (α β : Type) where
  encode : α → List β
  /-- Every word is longer. -/
  short : Nat
  short_lt : ∀ a : α, short < (encode a).length
  cancel : ∀ (a b : α) (l m : List β), encode a ++ l = encode b ++ m → a = b ∧ l = m

namespace PrefixCode

variable {α β : Type} (c : PrefixCode α β) {l : List β} {xs : List α}

def encodeAll (xs : List α) : List β := xs.flatMap c.encode

/-- The words that a string consists of, but for a short rest. -/
def Splits (l : List β) (xs : List α) : Prop :=
  ∃ rest, l = c.encodeAll xs ++ rest ∧ rest.length ≤ c.short

variable {c}

theorem encodeAll_cons (x : α) (xs : List α) :
    c.encodeAll (x :: xs) = c.encode x ++ c.encodeAll xs := List.flatMap_cons

theorem splits_short (h : l.length ≤ c.short) : c.Splits l xs ↔ xs = [] := by
  constructor
  · rintro ⟨rest, rfl, -⟩
    cases xs with
    | nil => rfl
    | cons x xs =>
      have := c.short_lt x
      simp only [encodeAll_cons, List.length_append] at h
      omega
  · rintro rfl
    exact ⟨l, rfl, h⟩

theorem splits_word (x : α) : c.Splits (c.encode x ++ l) xs ↔ ∃ ys, xs = x :: ys ∧ c.Splits l ys :=
    by
  constructor
  · rintro ⟨rest, heq, hrest⟩
    cases xs with
    | nil =>
      have := c.short_lt x
      have := congrArg List.length heq
      simp only [encodeAll, List.flatMap_nil, List.nil_append, List.length_append] at this
      omega
    | cons y ys =>
      rw [encodeAll_cons, List.append_assoc] at heq
      obtain ⟨rfl, hl⟩ := c.cancel _ _ _ _ heq
      exact ⟨ys, rfl, rest, hl, hrest⟩
  · rintro ⟨ys, rfl, rest, rfl, hrest⟩
    exact ⟨rest, by rw [encodeAll_cons, List.append_assoc], hrest⟩

/-- A string that is not short and does not begin with a word has no words. -/
theorem not_splits (h : c.short < l.length) (hno : ∀ x m, l ≠ c.encode x ++ m) :
    ¬ c.Splits l xs := by
  rintro ⟨rest, rfl, hrest⟩
  cases xs with
  | nil => exact absurd h (Nat.not_lt.mpr hrest)
  | cons x xs => exact hno x (c.encodeAll xs ++ rest) (by rw [encodeAll_cons, List.append_assoc])

theorem Splits.unique {ys : List α} (hx : c.Splits l xs) (hy : c.Splits l ys) : xs = ys := by
  induction xs generalizing l ys with
  | nil =>
    obtain ⟨rest, rfl, hrest⟩ := hx
    exact ((splits_short hrest).mp hy).symm
  | cons x xs ih =>
    obtain ⟨rest, rfl, hrest⟩ := hx
    rw [encodeAll_cons, List.append_assoc] at hy
    obtain ⟨zs, rfl, hzs⟩ := (splits_word x).mp hy
    rw [ih ⟨rest, rfl, hrest⟩ hzs]

end PrefixCode

/-! ## Runs -/

inductive Run where
  | repeated (n : Fin 128) (b : UInt8)
  | copied (bs : Bytes) (pos : 0 < bs.length) (le : bs.length ≤ 128)

namespace Run

def encode : Run → Bytes
  | repeated n b => [UInt8.ofNat n, b]
  | copied bs _ _ => UInt8.ofNat (256 - bs.length) :: bs

def expand : Run → Bytes
  | repeated n b => List.replicate n b
  | copied bs _ _ => bs

/-- The run stands for something. -/
def Positive (r : Run) : Prop := r.expand ≠ []

theorem toNat_copied {n : Nat} (hpos : 0 < n) (hle : n ≤ 128) :
    (UInt8.ofNat (256 - n)).toNat = 256 - n := by
  rw [UInt8.toNat_ofNat']
  omega

theorem toNat_repeated (n : Fin 128) : (UInt8.ofNat n).toNat = n := by
  rw [UInt8.toNat_ofNat']
  omega

/-- A word begins with its length, negative for bytes that are copied. -/
theorem of_encode {r : Run} {m bs : Bytes} {b : UInt8} (h : b :: bs = r.encode ++ m) :
    (b.toNat < 128 ∧ ∃ n c, r = repeated n c ∧ n.val = b.toNat ∧ bs = c :: m) ∨
      (128 ≤ b.toNat ∧ ∃ cs pos le, r = copied cs pos le ∧ cs.length = 256 - b.toNat ∧
        bs = cs ++ m) := by
  cases r with
  | repeated n c =>
    obtain ⟨rfl, rfl⟩ := List.cons.inj h
    rw [toNat_repeated]
    exact .inl ⟨n.isLt, n, c, rfl, rfl, rfl⟩
  | copied cs pos le =>
    obtain ⟨rfl, rfl⟩ := List.cons.inj h
    rw [toNat_copied pos le]
    exact .inr ⟨by omega, cs, pos, le, rfl, by omega, rfl⟩

theorem encode_cancel (r s : Run) (l m : Bytes) (h : r.encode ++ l = s.encode ++ m) :
    r = s ∧ l = m := by
  cases r with
  | repeated n b =>
    rcases @of_encode s m (b :: l) _ h with ⟨-, k, c, rfl, hk, heq⟩ | ⟨hlong, -⟩
    · obtain ⟨rfl, rfl⟩ := List.cons.inj heq
      rw [toNat_repeated] at hk
      exact ⟨by rw [Fin.ext hk], rfl⟩
    · rw [toNat_repeated] at hlong
      omega
  | copied bs pos le =>
    rcases @of_encode s m (bs ++ l) _ h with ⟨hlong, -⟩ | ⟨-, cs, -, -, rfl, hlen, heq⟩
    · rw [toNat_copied pos le] at hlong
      omega
    · rw [toNat_copied pos le] at hlen
      obtain ⟨rfl, rfl⟩ := List.append_inj heq (by omega)
      exact ⟨rfl, rfl⟩

theorem one_lt_length (r : Run) : 1 < r.encode.length := by
  cases r with
  | repeated => exact Nat.one_lt_two
  | copied bs pos _ => exact Nat.succ_lt_succ pos

theorem length_expand_le (r : Run) : r.expand.length ≤ 128 := by
  cases r with
  | repeated n b =>
    rw [expand, List.length_replicate]
    exact n.isLt.le
  | copied bs _ le => exact le

end Run

def runCode : PrefixCode Run UInt8 where
  encode := Run.encode
  short := 1
  short_lt := Run.one_lt_length
  cancel := Run.encode_cancel

def expandAll (rs : List Run) : Bytes := rs.flatMap Run.expand

theorem expandAll_cons (r : Run) (rs : List Run) : expandAll (r :: rs) = r.expand ++ expandAll rs :=
  List.flatMap_cons

/-- A run that its string does not hold to the end. -/
def CutRun : Bytes → Prop
  | [] => True
  | b :: bs => bs.length < if b.toNat < 128 then 1 else 256 - b.toNat

/-- What a string begins with. -/
theorem front_cases (l : Bytes) : (∃ r m, l = Run.encode r ++ m) ∨ CutRun l := by
  match l with
  | [] => exact .inr trivial
  | b :: bs =>
    by_cases hb : b.toNat < 128
    · match bs with
      | [] => exact .inr (by rw [CutRun, if_pos hb]; exact Nat.one_pos)
      | c :: m => exact .inl ⟨.repeated ⟨b.toNat, hb⟩ c, m, by simp [Run.encode]⟩
    · by_cases hlen : bs.length < 256 - b.toNat
      · exact .inr (by rw [CutRun, if_neg hb]; exact hlen)
      · have htake : (bs.take (256 - b.toNat)).length = 256 - b.toNat :=
          List.length_take_of_le (Nat.le_of_not_lt hlen)
        have hlt := b.toNat_lt
        refine .inl ⟨.copied (bs.take (256 - b.toNat)) (by omega) (by omega),
          bs.drop (256 - b.toNat), ?_⟩
        rw [Run.encode, htake, Nat.sub_sub_self hlt.le, UInt8.ofNat_toNat, List.cons_append,
          List.take_append_drop]

theorem CutRun.ne_encode {l : Bytes} (h : CutRun l) (r : Run) (m : Bytes) : l ≠ r.encode ++ m := by
  intro heq
  cases l with
  | nil =>
    have := r.one_lt_length
    have := congrArg List.length heq
    simp only [List.length_nil, List.length_append] at this
    omega
  | cons b bs =>
    rw [CutRun] at h
    rcases Run.of_encode heq with ⟨hb, n, c, -, -, rfl⟩ | ⟨hb, cs, -, -, -, hlen, rfl⟩
    · rw [if_pos hb, List.length_cons] at h
      omega
    · rw [if_neg (Nat.not_lt.mpr hb), List.length_append] at h
      omega

end UolaOs
