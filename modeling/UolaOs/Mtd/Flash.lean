import UolaOs.Lib.Bytes

/-!
# Flash devices

What package/system/mtd relies on of the kernel's MTD devices: erase blocks of `es` bytes,
a mark on bad blocks, erasing, programming and a file position.
-/

namespace UolaOs.Mtd

/-- The bytes of a device. -/
abbrev Flash := Nat → UInt8

/-- A device of `blocks` erase blocks. `bad` is what MEMGETBADBLOCK answers, `erasable` whether
MEMERASE succeeds; it refuses the blocks marked bad. -/
structure Device where
  nand : Bool
  blocks : Nat
  bad : Nat → Bool
  erasable : Nat → Bool
  refuses : ∀ i, bad i = true → erasable i = false

section
variable (d : Device) (es : Nat)

/-- MEMGETBADBLOCK; `none` past the end of the device. -/
def Device.getBadBlock (offset : Nat) : Option Bool :=
  if offset / es < d.blocks then some (d.bad (offset / es)) else none

/-- MEMERASE of one block; `none` when it fails. -/
def Device.erase (start : Nat) (flash : Flash) : Option Flash :=
  if start % es = 0 ∧ start / es < d.blocks ∧ d.erasable (start / es) then
    some fun a => if start ≤ a ∧ a < start + es then 0xff else flash a
  else none

/-- `lseek(fd, delta, SEEK_CUR)`: it fails past the end and leaves the position. -/
def Device.seekCur (pos delta : Nat) : Nat :=
  if pos + delta ≤ d.blocks * es then pos + delta else pos

/-- `lseek(fd, offset, SEEK_SET)` right after opening. -/
def Device.seekSet (offset : Nat) : Nat := if offset ≤ d.blocks * es then offset else 0

end

/-- Programming only clears bits. -/
def program (flash : Flash) (pos : Nat) (data : Bytes) : Flash := fun a =>
  if pos ≤ a ∧ a < pos + data.length then flash a &&& data.getD (a - pos) 0 else flash a

/-- The contents of block `i`. -/
def blockAt (es : Nat) (flash : Flash) (i : Nat) : Bytes :=
  (List.range es).map fun j => flash (i * es + j)

@[simp] theorem length_blockAt (es : Nat) (flash : Flash) (i : Nat) :
    (blockAt es flash i).length = es := by
  simp [blockAt]

/-- A block erased and then programmed. -/
def stamp (es : Nat) (flash : Flash) (i : Nat) (data : Bytes) : Flash :=
  program (fun a => if i * es ≤ a ∧ a < i * es + es then 0xff else flash a) (i * es) data

section
variable {es : Nat} {flash : Flash} {data : Bytes}

theorem stamp_other {i a : Nat} (hd : data.length = es) (h : ¬ (i * es ≤ a ∧ a < i * es + es)) :
    stamp es flash i data a = flash a := by
  rw [stamp, program, hd, if_neg h, if_neg h]

theorem blockAt_stamp_self {i : Nat} (hd : data.length = es) :
    blockAt es (stamp es flash i data) i = data := by
  have same {j : Nat} (hj : j < es) :
      stamp es flash i data (i * es + j) = data.getD j 0 := by
    have inside : i * es ≤ i * es + j ∧ i * es + j < i * es + es := ⟨by omega, by omega⟩
    rw [stamp, program, hd, if_pos inside, if_pos inside, Nat.add_sub_cancel_left]
    exact UInt8.neg_one_and
  apply List.ext_getElem (by simp [hd])
  intro j hj hj'
  simp only [blockAt, List.getElem_map, List.getElem_range]
  rw [same (by omega)]
  simp [hj']

theorem block_disjoint {i k a : Nat} (h : i ≠ k) (ha : i * es ≤ a ∧ a < i * es + es) :
    ¬ (k * es ≤ a ∧ a < k * es + es) := by
  intro hk
  rcases Nat.lt_or_gt_of_ne h with hlt | hgt
  · have := Nat.mul_le_mul_right es hlt
    rw [Nat.succ_mul] at this
    omega
  · have := Nat.mul_le_mul_right es hgt
    rw [Nat.succ_mul] at this
    omega

theorem blockAt_stamp_ne {i k : Nat} (hd : data.length = es) (h : i ≠ k) :
    blockAt es (stamp es flash k data) i = blockAt es flash i := by
  apply List.map_congr_left
  intro j hj
  have := List.mem_range.mp hj
  exact stamp_other hd (block_disjoint h ⟨by omega, by omega⟩)

end

/-! ## Writing a list of blocks -/

/-- Blocks of data put one after another into the blocks of a list, until one of the lists
ends. -/
def writeBlocks (es : Nat) (flash : Flash) : List Nat → List Bytes → Flash
  | i :: is, b :: bs => writeBlocks es (stamp es flash i b) is bs
  | _, _ => flash

section
variable {es : Nat} {flash : Flash}

theorem blockAt_writeBlocks_ne {is : List Nat} {bs : List Bytes} {k : Nat}
    (hb : ∀ b ∈ bs, b.length = es) (hk : k ∉ is) :
    blockAt es (writeBlocks es flash is bs) k = blockAt es flash k := by
  induction is generalizing flash bs with
  | nil => cases bs <;> rfl
  | cons i is ih =>
    cases bs with
    | nil => rfl
    | cons b bs =>
      rw [writeBlocks, ih (fun c hc => hb c (List.mem_cons_of_mem b hc))
        (fun h => hk (List.mem_cons_of_mem i h))]
      exact blockAt_stamp_ne (hb b List.mem_cons_self) fun h => hk (h ▸ List.mem_cons_self)

/-- The first blocks hold the data. -/
theorem map_blockAt_writeBlocks {is : List Nat} {bs : List Bytes} (hb : ∀ b ∈ bs, b.length = es)
    (hd : is.Nodup) :
    (is.map (blockAt es (writeBlocks es flash is bs))).take bs.length = bs.take is.length := by
  induction is generalizing flash bs with
  | nil => cases bs <;> rfl
  | cons i is ih =>
    cases bs with
    | nil => rfl
    | cons b bs =>
      obtain ⟨hi, hd⟩ := List.nodup_cons.mp hd
      have hb' : ∀ c ∈ bs, c.length = es := fun c hc => hb c (List.mem_cons_of_mem b hc)
      rw [writeBlocks, List.map_cons, List.length_cons, List.length_cons, List.take_succ_cons,
        List.take_succ_cons, ih hb' hd, blockAt_writeBlocks_ne hb' hi,
        blockAt_stamp_self (hb b List.mem_cons_self)]

/-- A byte outside the listed blocks keeps its value. -/
theorem writeBlocks_other {is : List Nat} {bs : List Bytes} {a : Nat}
    (hb : ∀ b ∈ bs, b.length = es) (ha : ∀ i ∈ is, ¬ (i * es ≤ a ∧ a < i * es + es)) :
    writeBlocks es flash is bs a = flash a := by
  induction is generalizing flash bs with
  | nil => cases bs <;> rfl
  | cons i is ih =>
    cases bs with
    | nil => rfl
    | cons b bs =>
      rw [writeBlocks, ih (fun c hc => hb c (List.mem_cons_of_mem b hc))
        (fun k hk => ha k (List.mem_cons_of_mem i hk))]
      exact stamp_other (hb b List.mem_cons_self) (ha i List.mem_cons_self)

end

/-! ## The image -/

/-- An image cut into erase blocks, the last one filled up with 0xff. -/
def padded (es : Nat) (image : Bytes) : List Bytes :=
  if _h : es = 0 ∨ image = [] then []
  else (image.take es ++ List.replicate (es - image.length) 0xff) :: padded es (image.drop es)
termination_by image.length
decreasing_by
  have := List.length_pos_iff.mpr (fun h => _h (.inr h))
  rw [List.length_drop]
  omega

theorem padded_nil (es : Nat) : padded es [] = [] := by
  rw [padded, dif_pos (.inr rfl)]

theorem padded_of_ne {es : Nat} {image : Bytes} (hes : 0 < es) (h : image ≠ []) :
    padded es image =
      (image.take es ++ List.replicate (es - image.length) 0xff) :: padded es (image.drop es) := by
  rw [padded, dif_neg]
  rintro (rfl | rfl)
  · omega
  · exact h rfl

/-- A whole block in front. -/
theorem padded_block {es : Nat} {block image : Bytes} (hes : 0 < es) (hb : block.length = es) :
    padded es (block ++ image) = block :: padded es image := by
  have hne : block ++ image ≠ [] := by
    intro h
    rw [(List.append_eq_nil_iff.mp h).1] at hb
    exact hes.ne hb
  have full : es - (block ++ image).length = 0 := by
    rw [List.length_append]
    omega
  rw [padded_of_ne hes hne, full, List.replicate_zero, List.append_nil, List.take_left' hb,
    List.drop_left' hb]

theorem length_of_mem_padded {es : Nat} (hes : 0 < es) {image b : Bytes}
    (hb : b ∈ padded es image) : b.length = es := by
  induction hn : image.length using Nat.strongRecOn generalizing image with
  | ind n ih =>
    by_cases h : image = []
    · rw [h, padded_nil] at hb
      cases hb
    · have pos := List.length_pos_iff.mpr h
      rw [padded_of_ne hes h] at hb
      rcases List.mem_cons.mp hb with rfl | hb
      · simp only [List.length_append, List.length_take, List.length_replicate]
        omega
      · exact ih (image.drop es).length (by rw [List.length_drop]; omega) hb rfl

end UolaOs.Mtd
