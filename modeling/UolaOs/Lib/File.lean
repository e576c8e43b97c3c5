import UolaOs.Lib.Bytes

/-!
# Files with a position

A `File` is a regular file that is open for reading and writing. Reading stops at the end; writing
past the end fills the gap with zeros. `copyChunks` is the loop that reads a buffer at a time, and
`alignLength` what the image tools pad with.
-/

namespace UolaOs

structure File where
  data : Bytes
  pos : Nat

namespace File

/-- `fopen` with `w+` -/
def create : File := ⟨[], 0⟩

/-- `fseek` with `SEEK_SET` -/
def seek (f : File) (pos : Nat) : File := { f with pos := pos }

/-- `fread` of up to `n` bytes -/
def read (f : File) (n : Nat) : Bytes × File :=
  (load f.data f.pos n, { f with pos := f.pos + (load f.data f.pos n).length })

/-- `fwrite` -/
def write (f : File) (bs : Bytes) : File :=
  if bs = [] then f
  else
    { data := (f.data ++ List.replicate (f.pos - f.data.length) 0).take f.pos ++ bs ++
        f.data.drop (f.pos + bs.length)
      pos := f.pos + bs.length }

section
variable {f : File} {a b d bs : Bytes}

@[simp] theorem write_nil (f : File) : f.write [] = f := if_pos rfl

/-- Writing over the front. -/
theorem write_front (h : a.length = bs.length) : (⟨a ++ b, 0⟩ : File).write bs = ⟨bs ++ b,
    bs.length⟩ := by
  rw [write]
  split
  · rename_i hnil
    subst hnil
    rw [List.length_eq_zero_iff.mp h]
    rfl
  · simp [← h]

/-- Writing at the end. -/
theorem write_end (d bs : Bytes) : (⟨d, d.length⟩ : File).write bs = ⟨d ++ bs, (d ++ bs).length⟩ :=
    by
  rw [write]
  split
  · rename_i hnil
    rw [hnil, List.append_nil]
  · simp

/-- Writing to an empty file behind a gap. -/
theorem write_gap {n : Nat} (h : bs ≠ []) :
    (⟨[], n⟩ : File).write bs = ⟨List.replicate n 0 ++ bs, n + bs.length⟩ := by
  rw [write, if_neg h]
  simp

/-- What is written is there. -/
theorem load_write (f : File) (bs : Bytes) : load (f.write bs).data f.pos bs.length = bs := by
  rw [write]
  split
  · rename_i hnil
    rw [hnil, load, List.length_nil, List.take_zero]
  · have hfront : ((f.data ++ List.replicate (f.pos - f.data.length) 0).take f.pos).length =
      f.pos := by
      rw [List.length_take, List.length_append, List.length_replicate]
      omega
    rw [List.append_assoc, load_append_right hfront, List.take_left]

theorem length_write (h : bs ≠ []) :
    (f.write bs).data.length = max f.data.length (f.pos + bs.length) := by
  rw [write, if_neg h]
  simp only [List.length_append, List.length_take, List.length_replicate, List.length_drop]
  omega

/-- The rest of what the file held stays. -/
theorem getElem?_write {i : Nat} (hi : i < f.data.length)
    (hout : i < f.pos ∨ f.pos + bs.length ≤ i) : (f.write bs).data[i]? = f.data[i]? := by
  rw [write]
  split
  · rfl
  have hfront : ((f.data ++ List.replicate (f.pos - f.data.length) 0).take f.pos).length = f.pos :=
      by
    rw [List.length_take, List.length_append, List.length_replicate]
    omega
  rcases hout with hlt | hge
  · rw [List.append_assoc, List.getElem?_append_left (by omega), List.getElem?_take_of_lt hlt,
      List.getElem?_append_left hi]
  · have hmid : ((f.data ++ List.replicate (f.pos - f.data.length) 0).take f.pos ++ bs).length =
        f.pos + bs.length := by
      rw [List.length_append, hfront]
    rw [List.getElem?_append_right (by omega), hmid, List.getElem?_drop]
    congr 1
    omega

theorem getElem?_write_at {i : Nat} (hlo : f.pos ≤ i) (hhi : i < f.pos + bs.length) :
    (f.write bs).data[i]? = bs[i - f.pos]? := by
  rw [← getElem?_load hlo hhi, load_write]

/-- What a file begins with survives a write if both agree where they meet. -/
theorem load_write_front_iff (h : load f.data 0 a.length = a) :
    load (f.write bs).data 0 a.length = a ↔
      ∀ i, f.pos ≤ i → i < a.length → i < f.pos + bs.length → a[i]? = bs[i - f.pos]? := by
  have hget (i : Nat) (hi : i < a.length) (m : Bytes) : (load m 0 a.length)[i]? = m[i]? :=
    getElem?_load (Nat.zero_le i) (by omega) m
  have hlen : a.length ≤ f.data.length := by
    have hlength := congrArg List.length h
    rw [load, List.length_take, List.length_drop] at hlength
    omega
  constructor
  · intro hw i hlo hi hhi
    have hkept := hget i hi (f.write bs).data
    rw [hw] at hkept
    rw [hkept, getElem?_write_at hlo hhi]
  · intro hall
    conv_rhs => rw [← h]
    refine load_congr fun i _ hi => ?_
    rw [Nat.zero_add] at hi
    by_cases hin : f.pos ≤ i ∧ i < f.pos + bs.length
    · have hfront := hget i hi f.data
      rw [h] at hfront
      rw [getElem?_write_at hin.1 hin.2, ← hall i hin.1 hi hin.2, hfront]
    · exact getElem?_write (by omega) (by omega)

/-- Two writes in a row. -/
theorem write_append (f : File) (a b : Bytes) : (f.write a).write b = f.write (a ++ b) := by
  by_cases ha : a = []
  · rw [ha, write_nil, List.nil_append]
  by_cases hb : b = []
  · rw [hb, write_nil, List.append_nil]
  have hfront : ((f.data ++ List.replicate (f.pos - f.data.length) 0).take f.pos).length = f.pos :=
      by
    rw [List.length_take, List.length_append, List.length_replicate]
    omega
  have hmid : ((f.data ++ List.replicate (f.pos - f.data.length) 0).take f.pos ++ a).length =
      f.pos + a.length := by
    rw [List.length_append, hfront]
  have hlen := length_write (f := f) ha
  have hpos : (f.write a).pos = f.pos + a.length := by
    rw [write, if_neg ha]
  have hdata : (f.write a).data =
      ((f.data ++ List.replicate (f.pos - f.data.length) 0).take f.pos ++
      a) ++ f.data.drop (f.pos + a.length) := by
    rw [write, if_neg ha]
  have hgap : f.pos + a.length - (f.write a).data.length = 0 := by omega
  rw [write, if_neg hb, hpos, hgap, List.replicate_zero, List.append_nil, hdata, ← hmid,
    List.take_left, ← List.drop_drop, List.drop_left, List.drop_drop, hmid, write,
    if_neg (List.append_ne_nil_of_left_ne_nil ha b), List.length_append, List.append_assoc _ a b,
    Nat.add_assoc]

/-- The file is at its end, behind `n` bytes that are left out. It is empty before the first
byte. -/
def Behind (n : Nat) (f : File) (body : Bytes) : Prop :=
  f = ⟨List.replicate n 0 ++ body, n + body.length⟩ ∨ body = [] ∧ f = ⟨[], n⟩

theorem Behind.start (n : Nat) : Behind n (create.seek n) [] := .inr ⟨rfl, rfl⟩

theorem Behind.write {n : Nat} {body : Bytes} (h : Behind n f body) (bs : Bytes) :
    Behind n (f.write bs) (body ++ bs) := by
  rcases h with rfl | ⟨rfl, rfl⟩
  · left
    have hend := write_end (List.replicate n 0 ++ body) bs
    rw [List.length_append, List.length_replicate] at hend
    rw [hend]
    simp only [List.append_assoc, List.length_append, List.length_replicate]
  · by_cases hnil : bs = []
    · right
      rw [hnil, write_nil]
      exact ⟨rfl, rfl⟩
    · left
      rw [write_gap hnil, List.nil_append]

end

end File

/-! ## Copying a buffer at a time -/

section
variable {σ : Type}

/-- The rounds of a loop that hands over `size` bytes at a time; `fuel` bounds them. -/
def chunkRounds (size : Nat) (g : σ → Bytes → σ) : Nat → σ → Bytes → σ
  | 0, s, _ => s
  | fuel + 1, s, bs =>
    if bs = [] then s else chunkRounds size g fuel (g s (bs.take size)) (bs.drop size)

/-- All of `bs`. There are no more rounds than bytes. -/
def copyChunks (size : Nat) (g : σ → Bytes → σ) (s : σ) (bs : Bytes) : σ :=
  chunkRounds size g bs.length s bs

variable {size : Nat} {g : σ → Bytes → σ}

theorem chunkRounds_induction {P : σ → Bytes → Prop} (hsize : 0 < size)
    (hg : ∀ s a b, P s a → b ≠ [] → b.length ≤ size → P (g s b) (a ++ b)) {fuel : Nat} {s : σ}
    {a bs : Bytes} (hs : P s a) (hfuel : bs.length ≤ fuel) :
    P (chunkRounds size g fuel s bs) (a ++ bs) := by
  induction fuel generalizing s a bs with
  | zero =>
    rw [List.length_eq_zero_iff.mp (Nat.le_zero.mp hfuel), List.append_nil]
    exact hs
  | succ fuel ih =>
    rw [chunkRounds]
    split
    · rename_i hnil
      rw [hnil, List.append_nil]
      exact hs
    · rename_i hne
      have hpos := List.length_pos_of_ne_nil hne
      have htake : bs.take size ≠ [] := by
        apply List.ne_nil_of_length_pos
        rw [List.length_take]
        omega
      have hrest : (bs.drop size).length ≤ fuel := by
        rw [List.length_drop]
        omega
      have hnext := ih (hg s a (bs.take size) hs htake (List.length_take_le _ _)) hrest
      rwa [List.append_assoc, List.take_append_drop] at hnext

/-- What holds of all that was handed over. -/
theorem copyChunks_induction {P : σ → Bytes → Prop} (hsize : 0 < size)
    (hg : ∀ s a b, P s a → b ≠ [] → b.length ≤ size → P (g s b) (a ++ b)) {s : σ} {a bs : Bytes}
    (hs : P s a) : P (copyChunks size g s bs) (a ++ bs) :=
  chunkRounds_induction hsize hg hs (Nat.le_refl _)

/-- In a piece or in several is the same. -/
theorem copyChunks_eq (hsize : 0 < size) (hnil : ∀ s, g s [] = s)
    (hg : ∀ s a b, g (g s a) b = g s (a ++ b)) (s : σ) (bs : Bytes) :
    copyChunks size g s bs = g s bs := by
  have h : copyChunks size g s bs = g s ([] ++ bs) :=
    copyChunks_induction (P := fun t a => t = g s a) hsize
      (fun t a b ht _ _ => by rw [ht, hg]) (hnil s).symm
  rwa [List.nil_append] at h

end

section
variable {σ : Type} {write : σ → Bytes → σ} {P : σ → Bytes → Prop}

/-- A file is appended as its chunks are. -/
theorem copyChunks_append {size : Nat} (hsize : 0 < size)
    (hwrite : ∀ s a b, P s a → P (write s b) (a ++ b)) {s : σ} {a : Bytes} (hs : P s a)
    (bs : Bytes) : P (copyChunks size write s bs) (a ++ bs) :=
  copyChunks_induction hsize (fun s a b h _ _ => hwrite s a b h) hs

end

/-! ## Padding -/

/-- The number of zeros up to the next multiple of a power of two. -/
def alignLength (curr_offset alignment : Nat) : Nat :=
  if curr_offset &&& (alignment - 1) ≠ 0 then alignment - curr_offset % alignment else 0

theorem alignLength_two_pow (n k : Nat) : alignLength n (2 ^ k) = roundUp n (2 ^ k) - n := by
  rw [alignLength, Nat.and_two_pow_sub_one_eq_mod,
    ← add_rest_eq_roundUp n (Nat.two_pow_pos k), Nat.add_sub_cancel_left]

theorem dvd_add_alignLength (n k : Nat) : 2 ^ k ∣ n + alignLength n (2 ^ k) := by
  rw [alignLength_two_pow, Nat.add_sub_cancel' (le_roundUp n (Nat.two_pow_pos k))]
  exact dvd_roundUp n _

end UolaOs
