import UolaOs.Lib.Bytes

/-!
# Hashing block by block

`f` takes a block of `n` bytes into the chaining value. `feed` gives it bytes one by one, with the
bytes of a block that is not full yet beside the chaining value; `blocks` gives it whole blocks.
-/

namespace UolaOs

section
variable {σ : Type} (f : σ → Bytes → σ) (n : Nat)

def feedByte (x : σ × Bytes) (b : UInt8) : σ × Bytes :=
  if x.2.length + 1 = n then (f x.1 (x.2 ++ [b]), []) else (x.1, x.2 ++ [b])

def feed (x : σ × Bytes) (bs : Bytes) : σ × Bytes := bs.foldl (feedByte f n) x

def blocks : Nat → σ → Bytes → σ
  | 0, s, _ => s
  | k + 1, s, bs => blocks k (f s (bs.take n)) (bs.drop n)

variable {f n} {x : σ × Bytes} {bs : Bytes}

theorem feed_append (x : σ × Bytes) (a b : Bytes) :
    feed f n x (a ++ b) = feed f n (feed f n x a) b := List.foldl_append

/-- The block does not get full. -/
theorem feed_short (h : x.2.length + bs.length < n) : feed f n x bs = (x.1, x.2 ++ bs) := by
  induction bs generalizing x with
  | nil => simp [feed]
  | cons b bs ih =>
    rw [List.length_cons] at h
    have hstep : feedByte f n x b = (x.1, x.2 ++ [b]) := if_neg (by omega)
    have hnext : (x.1, x.2 ++ [b]).2.length + bs.length < n := by
      simp only [List.length_append, List.length_singleton]
      omega
    rw [feed, List.foldl_cons, hstep]
    exact (ih hnext).trans (by rw [List.append_assoc, List.singleton_append])

/-- The bytes fill the block. -/
theorem feed_fill (hb : bs ≠ []) (h : x.2.length + bs.length = n) :
    feed f n x bs = (f x.1 (x.2 ++ bs), []) := by
  rcases List.eq_nil_or_concat bs with rfl | ⟨bs, b, rfl⟩
  · exact absurd rfl hb
  · rw [List.concat_eq_append] at h ⊢
    rw [List.length_append, List.length_singleton] at h
    have hshort : feed f n x bs = (x.1, x.2 ++ bs) := feed_short (by omega)
    rw [feed_append, hshort]
    have hfull : (x.1, x.2 ++ bs).2.length + 1 = n := by
      rw [List.length_append]
      omega
    exact (if_pos hfull).trans (by rw [List.append_assoc])

theorem feed_block {s : σ} (hn : 0 < n) (h : bs.length = n) :
    feed f n (s, []) bs = (f s bs, []) := by
  rw [feed_fill (List.ne_nil_of_length_pos (by omega)) (by simpa using h), List.nil_append]

theorem feed_blocks {s : σ} {k : Nat} (hn : 0 < n) (h : bs.length = k * n) :
    feed f n (s, []) bs = (blocks f n k s bs, []) := by
  induction k generalizing s bs with
  | zero =>
    rw [Nat.zero_mul] at h
    rw [List.length_eq_zero_iff.mp h]
    rfl
  | succ k ih =>
    rw [Nat.succ_mul] at h
    have hsplit : bs = bs.take n ++ bs.drop n := (List.take_append_drop n bs).symm
    rw [hsplit, feed_append, feed_block hn (List.length_take_of_le (by omega)),
      ih (by rw [List.length_drop]; omega), blocks, ← hsplit]

/-- Bytes past the last block do not matter. -/
theorem blocks_take (k : Nat) (s : σ) (bs : Bytes) : blocks f n k s (bs.take (k * n)) = blocks f n k s bs := by
  induction k generalizing s bs with
  | zero => rfl
  | succ k ih =>
    rw [blocks, blocks, List.take_take, Nat.succ_mul, Nat.min_eq_left (Nat.le_add_left _ _),
      List.drop_take, Nat.add_sub_cancel, ih]

/-- What waits is shorter than a block. -/
theorem feed_waiting (hx : x.2.length < n) :
    (feed f n x bs).2.length = (x.2.length + bs.length) % n := by
  induction bs generalizing x with
  | nil => exact (Nat.mod_eq_of_lt hx).symm
  | cons b bs ih =>
    rw [feed, List.foldl_cons, List.length_cons]
    by_cases hfull : x.2.length + 1 = n
    · have hstep : feedByte f n x b = (f x.1 (x.2 ++ [b]), []) := if_pos hfull
      have hmod : x.2.length + (bs.length + 1) = bs.length + n := by omega
      rw [hstep, hmod, Nat.add_mod_right]
      exact (ih (by dsimp only [List.length_nil]; omega)).trans (by rw [List.length_nil, Nat.zero_add])
    · have hstep : feedByte f n x b = (x.1, x.2 ++ [b]) := if_neg hfull
      have hlen : (x.1, x.2 ++ [b]).2.length = x.2.length + 1 := by simp
      rw [hstep]
      exact (ih (by omega)).trans (by rw [hlen]; congr 1; omega)

end

end UolaOs
