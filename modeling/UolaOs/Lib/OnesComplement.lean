import UolaOs.Lib.Bytes

/-!
# Ones' complement sums

`onesAdd` adds with the carry brought around, up to `m`; `onesSum` is the sum of the words of 16
bits of a text, high byte first, with a zero behind a last byte that is alone.

* `onesAdd_onesFix`: the word that takes a sum to a wanted one, and the sum that no word gives;
* `onesFrom_eq`, `onesSum_append`: sums that go on from others;
* `onesSum_complement`: a word that is the complement of the sum takes it to all ones;
* `onesSum_eq_zero`: the sum is zero for zeros only.
-/

namespace UolaOs

section
variable {m a b c : Nat}

def onesAdd (m a b : Nat) : Nat := if m < a + b then a + b - m else a + b

/-- What is between a sum and a wanted one. -/
def onesFix (m a c : Nat) : Nat := if a ≤ c then c - a else c + m - a

theorem onesAdd_le (ha : a ≤ m) (hb : b ≤ m) : onesAdd m a b ≤ m := by
  rw [onesAdd]
  split_ifs <;> omega

theorem onesAdd_eq_zero : onesAdd m a b = 0 ↔ a = 0 ∧ b = 0 := by
  rw [onesAdd]
  split_ifs <;> omega

theorem onesAdd_zero (ha : a ≤ m) : onesAdd m a 0 = a := by
  rw [onesAdd]
  split_ifs <;> omega

theorem zero_onesAdd (ha : a ≤ m) : onesAdd m 0 a = a := by
  rw [onesAdd]
  split_ifs <;> omega

theorem onesAdd_comm (m a b : Nat) : onesAdd m a b = onesAdd m b a := by
  rw [onesAdd, onesAdd, Nat.add_comm]

theorem onesAdd_assoc (ha : a ≤ m) (hb : b ≤ m) (hc : c ≤ m) :
    onesAdd m (onesAdd m a b) c = onesAdd m a (onesAdd m b c) := by
  rw [onesAdd, onesAdd, onesAdd, onesAdd]
  split_ifs <;> omega

theorem onesFix_le (ha : a ≤ m) (hc : c ≤ m) : onesFix m a c ≤ m := by
  rw [onesFix]
  split_ifs <;> omega

/-- A sum that is not zero stays so: it comes to `m` instead. -/
theorem onesAdd_onesFix (ha : a ≤ m) (hc : c ≤ m) :
    onesAdd m a (onesFix m a c) = if c = 0 ∧ a ≠ 0 then m else c := by
  rw [onesAdd, onesFix]
  split_ifs <;> omega

end

/-! ## Words of bytes -/

/-- A byte behind a sum and the high byte that waits for its low one. -/
def onesByte (s : Nat × Option UInt8) (b : UInt8) : Nat × Option UInt8 :=
  match s.2 with
  | none => (s.1, some b)
  | some a => (onesAdd 0xffff s.1 (256 * a.toNat + b.toNat), none)

def onesEnd (s : Nat × Option UInt8) : Nat :=
  match s.2 with
  | none => s.1
  | some a => onesAdd 0xffff s.1 (256 * a.toNat)

def onesSum (bs : Bytes) : Nat := onesEnd (bs.foldl onesByte (0, none))

section
variable {s : Nat × Option UInt8} {bs : Bytes}

theorem word_le (a b : UInt8) : 256 * a.toNat + b.toNat ≤ 0xffff := by
  have ha := a.toNat_lt
  have hb := b.toNat_lt
  omega

theorem onesByte_le (h : s.1 ≤ 0xffff) (b : UInt8) : (onesByte s b).1 ≤ 0xffff := by
  obtain ⟨sum, waiting⟩ := s
  cases waiting with
  | none => exact h
  | some a => exact onesAdd_le h (word_le a b)

theorem foldl_onesByte_le (h : s.1 ≤ 0xffff) : (bs.foldl onesByte s).1 ≤ 0xffff := by
  induction bs generalizing s with
  | nil => exact h
  | cons b bs ih => exact ih (onesByte_le h b)

/-- No byte waits behind whole words. -/
theorem foldl_onesByte_waiting (h : s.2.isSome = decide (bs.length % 2 = 1)) :
    (bs.foldl onesByte s).2 = none := by
  induction bs generalizing s with
  | nil => exact Option.isNone_iff_eq_none.mp (Option.isSome_eq_false_iff.mp h)
  | cons b bs ih =>
    refine ih ?_
    rw [List.length_cons] at h
    obtain ⟨sum, waiting⟩ := s
    cases waiting with
    | none =>
      have hodd := of_decide_eq_false h.symm
      exact (decide_eq_true (by omega)).symm
    | some a =>
      have hodd := of_decide_eq_true h.symm
      exact (decide_eq_false (by omega)).symm

theorem onesSum_le (bs : Bytes) : onesSum bs ≤ 0xffff := by
  have h := @foldl_onesByte_le (0, none) bs (Nat.zero_le _)
  rw [onesSum, onesEnd]
  generalize bs.foldl onesByte (0, none) = s at h
  obtain ⟨sum, waiting⟩ := s
  cases waiting with
  | none => exact h
  | some a => exact onesAdd_le h (word_le a 0)

/-- One more word. -/
theorem onesSum_word (h : bs.length % 2 = 0) (a b : UInt8) :
    onesSum (bs ++ [a, b]) = onesAdd 0xffff (onesSum bs) (256 * a.toNat + b.toNat) := by
  have hnone := @foldl_onesByte_waiting (0, none) bs (decide_eq_false (by omega)).symm
  rw [onesSum, onesSum, List.foldl_append]
  generalize bs.foldl onesByte (0, none) = s at hnone
  obtain ⟨sum, waiting⟩ := s
  subst hnone
  rfl

/-! ## Sums that go on -/

/-- The sum from `s` on. -/
def onesFrom (s : Nat) (bs : Bytes) : Nat := onesEnd (bs.foldl onesByte (s, none))

theorem onesFrom_word (n : Nat) (a b : UInt8) :
    onesFrom n (a :: b :: bs) = onesFrom (onesAdd 0xffff n (256 * a.toNat + b.toNat)) bs := rfl

/-- What is in front of the bytes is added. -/
theorem onesFrom_eq {n : Nat} (hn : n ≤ 0xffff) :
    ∀ bs : Bytes, onesFrom n bs = onesAdd 0xffff n (onesSum bs)
  | [] => (onesAdd_zero hn).symm
  | [a] => by
    have hle : 256 * a.toNat ≤ 0xffff := word_le a 0
    show onesAdd 0xffff n (256 * a.toNat) = onesAdd 0xffff n (onesAdd 0xffff 0 (256 * a.toNat))
    rw [zero_onesAdd hle]
  | a :: b :: bs => by
    have hle := word_le a b
    have hsum : onesSum (a :: b :: bs) = onesFrom (onesAdd 0xffff 0 (256 * a.toNat + b.toNat)) bs := rfl
    rw [onesFrom_word, onesFrom_eq (onesAdd_le hn hle) bs, hsum, zero_onesAdd hle,
      onesFrom_eq hle bs, onesAdd_assoc hn hle (onesSum_le bs)]

theorem onesSum_append {as : Bytes} (h : as.length % 2 = 0) (bs : Bytes) :
    onesSum (as ++ bs) = onesAdd 0xffff (onesSum as) (onesSum bs) := by
  have hnone := @foldl_onesByte_waiting (0, none) as (decide_eq_false (by omega)).symm
  have hle := onesSum_le as
  rw [onesSum] at hle ⊢
  rw [onesSum, List.foldl_append]
  generalize as.foldl onesByte (0, none) = s at hnone hle ⊢
  obtain ⟨sum, waiting⟩ := s
  subst hnone
  exact onesFrom_eq hle bs

theorem onesSum_pair (a b : UInt8) : onesSum [a, b] = 256 * a.toNat + b.toNat :=
  zero_onesAdd (word_le a b)

/-- The complement of a sum, in the place of zeros behind whole words. -/
theorem onesSum_complement {as cs : Bytes} {a b : UInt8} {n : Nat} (hn : n ≤ 0xffff)
    (h : as.length % 2 = 0) (hab : 256 * a.toNat + b.toNat =
      0xffff - onesAdd 0xffff n (onesSum (as ++ [0, 0] ++ cs))) :
    onesAdd 0xffff n (onesSum (as ++ [a, b] ++ cs)) = 0xffff := by
  have heven (x y : UInt8) : (as ++ [x, y]).length % 2 = 0 := by
    rw [List.length_append, List.length_cons, List.length_singleton]
    omega
  have ha := onesSum_le as
  have hc := onesSum_le cs
  have hw := word_le a b
  rw [onesSum_append (heven 0 0), onesSum_append h, onesSum_pair] at hab
  rw [onesSum_append (heven a b), onesSum_append h, onesSum_pair]
  have hzero : 256 * (0 : UInt8).toNat + (0 : UInt8).toNat = 0 := rfl
  rw [hzero, onesAdd_zero ha] at hab
  -- the word comes last
  rw [onesAdd_assoc ha hw hc, onesAdd_comm _ (256 * a.toNat + b.toNat), ← onesAdd_assoc ha hc hw,
    ← onesAdd_assoc hn (onesAdd_le ha hc) hw]
  have hle := onesAdd_le hn (onesAdd_le ha hc)
  rw [onesAdd, hab]
  split_ifs <;> omega

/-- Nothing but zeros so far. -/
def OnesZero (s : Nat × Option UInt8) : Prop := s.1 = 0 ∧ ∀ a ∈ s.2, a = 0

theorem onesZero_onesByte (b : UInt8) : OnesZero (onesByte s b) ↔ OnesZero s ∧ b = 0 := by
  have hzero (c : UInt8) : c.toNat = 0 ↔ c = 0 := @UInt8.toNat_inj _ 0
  obtain ⟨sum, waiting⟩ := s
  cases waiting with
  | none => simp [OnesZero, onesByte]
  | some a =>
    have hword : 256 * a.toNat + b.toNat = 0 ↔ a = 0 ∧ b = 0 := by
      rw [← hzero a, ← hzero b]
      omega
    simp only [OnesZero, onesByte, onesAdd_eq_zero, hword, Option.mem_def, Option.some.injEq,
      forall_eq', reduceCtorEq, false_implies, implies_true, and_true, and_assoc]

theorem onesZero_foldl : OnesZero (bs.foldl onesByte s) ↔ OnesZero s ∧ ∀ b ∈ bs, b = 0 := by
  induction bs generalizing s with
  | nil => simp
  | cons b bs ih =>
    rw [List.foldl_cons, ih, onesZero_onesByte, and_assoc, List.forall_mem_cons]

theorem onesSum_eq_zero : onesSum bs = 0 ↔ ∀ b ∈ bs, b = 0 := by
  have hend (s : Nat × Option UInt8) : onesEnd s = 0 ↔ OnesZero s := by
    obtain ⟨sum, waiting⟩ := s
    cases waiting with
    | none => simp [OnesZero, onesEnd]
    | some a =>
      have hzero : a.toNat = 0 ↔ a = 0 := @UInt8.toNat_inj _ 0
      simp [OnesZero, onesEnd, onesAdd_eq_zero, hzero]
  rw [onesSum, hend, onesZero_foldl]
  exact ⟨fun h => h.2, fun h => ⟨⟨rfl, fun _ hnone => by cases hnone⟩, h⟩⟩

end

end UolaOs
