import UolaOs.Lib.Bytes

/-!
# Block by block in place

`mapBlocks` puts `f` of each of the first blocks of `n` bytes where the block was.

* `mapBlocks_append`: what is behind the blocks stays;
* `mapBlocks_mapBlocks`: blocks that are encrypted and decrypted.
-/

namespace UolaOs

section
variable (f g : Bytes → Bytes) (n : Nat)

def mapBlocks : Nat → Bytes → Bytes
  | 0, bs => bs
  | k + 1, bs => f (bs.take n) ++ mapBlocks k (bs.drop n)

variable {f g n} {k : Nat} {a b bs : Bytes}

theorem mapBlocks_append (h : k * n ≤ a.length) (b : Bytes) :
    mapBlocks f n k (a ++ b) = mapBlocks f n k a ++ b := by
  induction k generalizing a with
  | zero => rfl
  | succ k ih =>
    rw [Nat.succ_mul] at h
    rw [mapBlocks, mapBlocks, List.take_append_of_le_length (by omega),
      List.drop_append_of_le_length (by omega), ih (by rw [List.length_drop]; omega),
      List.append_assoc]

theorem length_mapBlocks (hf : ∀ b, b.length = n → (f b).length = n) (h : k * n ≤ bs.length) :
    (mapBlocks f n k bs).length = bs.length := by
  induction k generalizing bs with
  | zero => rfl
  | succ k ih =>
    rw [Nat.succ_mul] at h
    have htake := hf (bs.take n) (List.length_take_of_le (by omega))
    rw [mapBlocks, List.length_append, htake, ih (by rw [List.length_drop]; omega),
      List.length_drop]
    omega

/-- **There and back.** -/
theorem mapBlocks_mapBlocks (hf : ∀ b, b.length = n → (f b).length = n)
    (hg : ∀ b, b.length = n → g (f b) = b) (h : k * n ≤ bs.length) :
    mapBlocks g n k (mapBlocks f n k bs) = bs := by
  induction k generalizing bs with
  | zero => rfl
  | succ k ih =>
    rw [Nat.succ_mul] at h
    have hlen : (bs.take n).length = n := List.length_take_of_le (by omega)
    rw [mapBlocks, mapBlocks, List.take_left' (hf _ hlen), List.drop_left' (hf _ hlen), hg _ hlen,
      ih (by rw [List.length_drop]; omega), List.take_append_drop]

end

end UolaOs
