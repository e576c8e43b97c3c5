import UolaOs.Mtd.Write
import Mathlib.Data.List.Nodup

/-!
# Where the blocks of an image land

One device, seen block by block: `stopIndex` is where the erase loop gives up, `usableFrom`
lists the blocks it erases on the way.

* `run_clean`: without skipped blocks in hand from another device, the pending blocks go one
  after another into the usable blocks;
* `run_dirty`: with skipped blocks in hand the first write takes bytes from behind the buffer.
-/

namespace UolaOs.Mtd

section
variable (d : Device) (P : Nat)

/-- The blocks the erase loop skips: `mtd_block_is_bad` asks NAND devices only. -/
def Device.marked (i : Nat) : Bool := d.nand && d.bad i

/-- Whether the block `P` blocks after index `i` can be erased. -/
def Device.takes (i : Nat) : Bool := decide (P + i < d.blocks) && d.erasable (P + i)

/-- The first index that is neither skipped nor erased. -/
def Device.stopIndex : Nat :=
  ((List.range d.blocks).find? fun i => !d.marked i && !d.takes P i).getD d.blocks

/-- Whether the loop ends there with a failed erase. Past the end of a NAND device it is the
question for the mark that fails. -/
def Device.leaves : Bool := !(d.nand && d.stopIndex P == d.blocks)

/-- The indices from `m` on whose blocks are erased. -/
def Device.usableFrom (m : Nat) : List Nat :=
  (List.range' m (d.stopIndex P - m)).filter fun i => !d.marked i

end

section
variable {d : Device} {P : Nat}

theorem stopIndex_le : d.stopIndex P ≤ d.blocks := by
  unfold Device.stopIndex
  cases h : (List.range d.blocks).find? fun i => !d.marked i && !d.takes P i with
  | none => exact Nat.le_refl _
  | some i => exact Nat.le_of_lt (List.mem_range.mp (List.mem_of_find?_eq_some h))

/-- Before the stop every index is skipped or erased. -/
theorem takes_of_lt {i : Nat} (hi : i < d.stopIndex P) (hm : d.marked i = false) :
    d.takes P i = true := by
  unfold Device.stopIndex at hi
  cases h : (List.range d.blocks).find? fun i => !d.marked i && !d.takes P i with
  | none =>
    rw [h] at hi
    have := List.find?_eq_none.mp h i (List.mem_range.mpr hi)
    simpa [hm] using this
  | some k =>
    rw [h] at hi
    have := (List.find?_range_eq_some.mp h).2.2 i hi
    simpa [hm] using this

theorem fails_at_stop (h : d.stopIndex P < d.blocks) :
    d.marked (d.stopIndex P) = false ∧ d.takes P (d.stopIndex P) = false := by
  unfold Device.stopIndex at h ⊢
  cases hk : (List.range d.blocks).find? fun i => !d.marked i && !d.takes P i with
  | none =>
    rw [hk] at h
    exact absurd h (Nat.lt_irrefl _)
  | some k => simpa using List.find?_some hk

theorem usableFrom_stop : d.usableFrom P (d.stopIndex P) = [] := by
  simp [Device.usableFrom]

theorem usableFrom_skip {m : Nat} (hm : m < d.stopIndex P) (h : d.marked m = true) :
    d.usableFrom P m = d.usableFrom P (m + 1) := by
  have count : d.stopIndex P - m = (d.stopIndex P - (m + 1)) + 1 := by omega
  rw [Device.usableFrom, count, List.range'_succ, List.filter_cons_of_neg (by simp [h])]
  rfl

theorem usableFrom_erase {m : Nat} (hm : m < d.stopIndex P) (h : d.marked m = false) :
    d.usableFrom P m = m :: d.usableFrom P (m + 1) := by
  have count : d.stopIndex P - m = (d.stopIndex P - (m + 1)) + 1 := by omega
  rw [Device.usableFrom, count, List.range'_succ, List.filter_cons_of_pos (by simp [h])]
  rfl

theorem mem_usableFrom {m i : Nat} :
    i ∈ d.usableFrom P m ↔ m ≤ i ∧ i < d.stopIndex P ∧ d.marked i = false := by
  rw [Device.usableFrom, List.mem_filter, List.mem_range'_1]
  simp only [Bool.not_eq_true']
  constructor
  · rintro ⟨⟨h₁, h₂⟩, h₃⟩
    exact ⟨h₁, by omega, h₃⟩
  · rintro ⟨h₁, h₂, h₃⟩
    exact ⟨⟨h₁, by omega⟩, h₃⟩

theorem usableFrom_zero :
    d.usableFrom P 0 = (List.range (d.stopIndex P)).filter fun k => !d.marked k := by
  rw [Device.usableFrom, Nat.sub_zero, List.range_eq_range']

theorem usableFrom_lt {m i : Nat} (h : i ∈ d.usableFrom P m) : P + i < d.blocks := by
  obtain ⟨-, hi, hm⟩ := mem_usableFrom.mp h
  have := takes_of_lt hi hm
  simp only [Device.takes, Bool.and_eq_true, decide_eq_true_eq] at this
  exact this.1

theorem usableFrom_nodup (m : Nat) : (d.usableFrom P m).Nodup :=
  List.Nodup.filter _ (List.nodup_range' 1)

theorem length_usableFrom_le (m : Nat) :
    (d.usableFrom P m).length ≤ d.stopIndex P - m := by
  have := List.length_filter_le (fun i => !d.marked i) (List.range' m (d.stopIndex P - m))
  rwa [List.length_range'] at this

/-! ## The calls at one index -/

variable {es : Nat} (hes : 0 < es)
include hes

theorem mtdBlockIsBad_marked {m : Nat} (hm : m < d.stopIndex P) (h : d.marked m = true) :
    mtdBlockIsBad d es (m * es) = some true := by
  have := Nat.lt_of_lt_of_le hm stopIndex_le
  simp only [Device.marked, Bool.and_eq_true] at h
  simp [mtdBlockIsBad, Device.getBadBlock, Nat.mul_div_cancel _ hes, this, h]

theorem mtdBlockIsBad_unmarked {m : Nat} (hm : m < d.blocks) (h : d.marked m = false) :
    mtdBlockIsBad d es (m * es) = some false := by
  cases hn : d.nand with
  | false => simp [mtdBlockIsBad, hn]
  | true =>
    have hbad : d.bad m = false := by simpa [Device.marked, hn] using h
    simp [mtdBlockIsBad, hn, Device.getBadBlock, Nat.mul_div_cancel _ hes, hm, hbad]

theorem mtdEraseBlock_eq (m : Nat) (flash : Flash) :
    mtdEraseBlock d es (m * es + P * es) flash =
      if d.takes P m then
        some fun a => if (P + m) * es ≤ a ∧ a < (P + m) * es + es then 0xff else flash a
      else none := by
  have start : m * es + P * es = (P + m) * es := by rw [← Nat.add_mul, Nat.add_comm]
  simp [mtdEraseBlock, Device.erase, start, Nat.mul_div_cancel _ hes, Device.takes]

/-- The end of a NAND device. -/
theorem mtdBlockIsBad_stuck (h : d.leaves P = false) :
    mtdBlockIsBad d es (d.stopIndex P * es) = none := by
  simp only [Device.leaves, Bool.not_eq_false', Bool.and_eq_true, beq_iff_eq] at h
  simp [mtdBlockIsBad, h, Device.getBadBlock, Nat.mul_div_cancel _ hes]

/-- A failed erase. -/
theorem erase_fails (h : d.leaves P = true) (flash : Flash) :
    mtdBlockIsBad d es (d.stopIndex P * es) = some false ∧
    mtdEraseBlock d es (d.stopIndex P * es + P * es) flash = none := by
  rcases Nat.lt_or_ge (d.stopIndex P) d.blocks with hlt | hge
  · obtain ⟨hm, ht⟩ := fails_at_stop hlt
    refine ⟨mtdBlockIsBad_unmarked hes hlt hm, ?_⟩
    rw [mtdEraseBlock_eq hes, ht]
    rfl
  · have stop : d.stopIndex P = d.blocks := Nat.le_antisymm stopIndex_le hge
    have nor : d.nand = false := by simpa [Device.leaves, stop] using h
    refine ⟨by simp [mtdBlockIsBad, nor], ?_⟩
    have out : d.takes P (d.stopIndex P) = false := by simp [Device.takes, stop]
    rw [mtdEraseBlock_eq hes, out]
    rfl

end

/-! ## The loops, one turn at a time -/

section
variable {d : Device} {es P : Nat} {beyond : Nat → UInt8} {next : Bool}

/-- The rest of a turn of the main loop after the erase loop. -/
def afterErase (d : Device) (es part_offset : Nat) (beyond : Nat → UInt8) (next : Bool)
    (fuel : Nat) : Erased → Loop
  | .exit => .exit
  | .failed st => if next then .resume (flushBuffer d es beyond st) else .exit
  | .ready st =>
    match writeFd d es beyond st.buf.length st with
    | (_, none) => .exit
    | (st', some count) =>
      if count < st.buf.length then .exit
      else
        writeLoop d es part_offset beyond next fuel
          { st' with w := st'.w + st.buf.length, buf := [], offset := 0 }

theorem writeLoop_empty {fuel : Nat} {st : St} (hb : st.buf = []) (hi : st.image = []) :
    writeLoop d es (P * es) beyond next (fuel + 1) st = .done st := by
  have same : fillBuffer es st = st := by
    cases st
    simp_all [fillBuffer]
  rw [writeLoop, same]
  simp [hb]

/-- A turn with data left: the buffer holds the next block. -/
theorem writeLoop_enter {fuel : Nat} {st : St} (hes : 0 < es) (hb : st.buf.length ≤ es)
    (hne : st.buf ++ st.image ≠ []) :
    ∃ b image, b.length = es ∧ padded es (st.buf ++ st.image) = b :: padded es image ∧
      image.length < (st.buf ++ st.image).length ∧
      writeLoop d es (P * es) beyond next (fuel + 1) st =
        afterErase d es (P * es) beyond next fuel
          (eraseLoop d es (P * es) (d.blocks + 1) { st with buf := b, image := image }) := by
  let filled := st.buf ++ st.image.take (es - st.buf.length)
  have first : filled = (st.buf ++ st.image).take es := by
    rw [List.take_append, List.take_of_length_le hb]
  have rest : st.image.drop (es - st.buf.length) = (st.buf ++ st.image).drop es := by
    rw [List.drop_append, List.drop_of_length_le hb, List.nil_append]
  have pos : 0 < (st.buf ++ st.image).length := List.length_pos_iff.mpr hne
  have size : filled.length = min es (st.buf ++ st.image).length := by
    rw [first, List.length_take]
  have gap : es - filled.length = es - (st.buf ++ st.image).length := by omega
  refine ⟨filled ++ List.replicate (es - filled.length) 0xff,
    st.image.drop (es - st.buf.length), ?_, ?_, ?_, ?_⟩
  · rw [List.length_append, List.length_replicate]
    omega
  · rw [padded_of_ne hes hne, gap, ← first, ← rest]
  · rw [rest, List.length_drop]
    omega
  · have full : ¬ (fillBuffer es st).buf.length = 0 := by
      change ¬ filled.length = 0
      omega
    rw [writeLoop]
    simp only [full, ↓reduceIte]
    rfl

variable {fuel : Nat} {st : St} {m : Nat}

/-- The state after a skipped block. -/
def St.skipBlock (d : Device) (es m : Nat) (st : St) : St :=
  { st with
    skip_bad_blocks := st.skip_bad_blocks + es
    e := (m + 1) * es
    pos := d.seekCur es st.pos es }

/-- The state after the block of index `m` has been erased. -/
def St.eraseBlock (es P m : Nat) (st : St) : St :=
  { st with
    flash := fun a => if (P + m) * es ≤ a ∧ a < (P + m) * es + es then 0xff else st.flash a
    e := (m + 1) * es
    touched := ((P + m) * es, es) :: st.touched }

/-- The state after the buffer has been written to block `p`. -/
def St.writeBlock (es : Nat) (beyond : Nat → UInt8) (p : Nat) (st : St) : St :=
  { st with
    flash := program st.flash (p * es) (sourceBytes es beyond st es)
    pos := (p + 1) * es
    w := st.w + es
    offset := 0
    buf := []
    touched := (p * es, es) :: st.touched
    overread := st.overread || decide (0 < st.offset) }

theorem eraseLoop_ready
    (h : ¬ st.w + st.buf.length + st.skip_bad_blocks > st.e) :
    eraseLoop d es (P * es) (fuel + 1) st = .ready st := by
  rw [eraseLoop, if_neg h]

theorem eraseLoop_skip (hes : 0 < es) (he : st.e = m * es)
    (h : st.w + st.buf.length + st.skip_bad_blocks > st.e) (hm : m < d.stopIndex P)
    (hmark : d.marked m = true) :
    eraseLoop d es (P * es) (fuel + 1) st =
      eraseLoop d es (P * es) fuel (st.skipBlock d es m) := by
  have next : st.e + es = (m + 1) * es := by rw [he, Nat.succ_mul]
  rw [eraseLoop, if_pos h, he, mtdBlockIsBad_marked hes hm hmark]
  simp only [← he, next, St.skipBlock]

theorem eraseLoop_erase (hes : 0 < es) (he : st.e = m * es)
    (h : st.w + st.buf.length + st.skip_bad_blocks > st.e) (hm : m < d.stopIndex P)
    (hmark : d.marked m = false) :
    eraseLoop d es (P * es) (fuel + 1) st =
      eraseLoop d es (P * es) fuel (st.eraseBlock es P m) := by
  have next : st.e + es = (m + 1) * es := by rw [he, Nat.succ_mul]
  have start : st.e + P * es = (P + m) * es := by rw [he, ← Nat.add_mul, Nat.add_comm]
  have unmarked : mtdBlockIsBad d es st.e = some false := by
    rw [he]
    exact mtdBlockIsBad_unmarked hes (Nat.lt_of_lt_of_le hm stopIndex_le) hmark
  have erased := mtdEraseBlock_eq (d := d) (P := P) hes m st.flash
  rw [takes_of_lt hm hmark, if_pos rfl, ← he, start] at erased
  rw [eraseLoop, if_pos h, unmarked]
  simp only [next, start, erased, St.eraseBlock]

theorem eraseLoop_stop (hes : 0 < es) (he : st.e = d.stopIndex P * es)
    (h : st.w + st.buf.length + st.skip_bad_blocks > st.e) :
    eraseLoop d es (P * es) (fuel + 1) st = if d.leaves P then .failed st else .exit := by
  rw [eraseLoop, if_pos h, he]
  cases hl : d.leaves P with
  | false => simp [mtdBlockIsBad_stuck hes hl]
  | true =>
    obtain ⟨good, fail⟩ := erase_fails hes hl st.flash
    simp [good, fail]

/-- A full buffer written to a block of the device. -/
theorem writeFd_block {p : Nat} (hes : 0 < es) (hpos : st.pos = p * es) (hp : p < d.blocks) :
    writeFd d es beyond es st =
      ({ st with
         flash := program st.flash (p * es) (sourceBytes es beyond st es)
         pos := (p + 1) * es
         touched := (p * es, es) :: st.touched
         overread := st.overread || decide (0 < st.offset) }, some es) := by
  have room : (p + 1) * es ≤ d.blocks * es := Nat.mul_le_mul_right es hp
  have after : (p + 1) * es = p * es + es := Nat.succ_mul p es
  have inside : ¬ d.blocks * es ≤ p * es := by omega
  have count : min es (d.blocks * es - p * es) = es := by omega
  have excess : decide (es < st.offset + es) = decide (0 < st.offset) := by
    apply decide_eq_decide.mpr
    omega
  simp only [writeFd, hpos, inside, ↓reduceIte, count, excess, after]

theorem sourceBytes_buf (hbuf : st.buf.length = es) (hoff : st.offset = 0) :
    sourceBytes es beyond st es = st.buf := by
  apply List.ext_getElem (by simp [sourceBytes, hbuf])
  intro j hj hj'
  have inside : j < es := by omega
  simp [sourceBytes, hoff, inside, hj']

/-- The write that follows the erase loop, and the turn after it. -/
theorem afterErase_ready {p g : Nat} (hes : 0 < es) (hbuf : st.buf.length = es)
    (hpos : st.pos = p * es) (hp : p < d.blocks) :
    afterErase d es (P * es) beyond next g (.ready st) =
      writeLoop d es (P * es) beyond next g (st.writeBlock es beyond p) := by
  simp only [afterErase, hbuf, writeFd_block hes hpos hp, Nat.lt_irrefl, ↓reduceIte,
    St.writeBlock]

end

/-! ## A run without skipped blocks in hand -/

/-- The state before index `m`, with `r` blocks written and `s` skipped on this device. -/
structure Clean (d : Device) (es P m r s : Nat) (st : St) : Prop where
  e : st.e = m * es
  w : st.w = r * es
  skip : st.skip_bad_blocks = s * es
  index : m = r + s
  offset : st.offset = 0
  overread : st.overread = false
  pos : d.usableFrom P m ≠ [] → st.pos = (P + m) * es
  touched : ∀ t ∈ st.touched, ∃ i, P ≤ i ∧ i < d.blocks ∧ d.bad i = false ∧ t = (i * es, es)

/-- What becomes of `data` on a device whose usable indices are `gs`. -/
inductive CleanEnd (d : Device) (es P : Nat) (beyond : Nat → UInt8) (next : Bool) (gs : List Nat)
    (data : List Bytes) (flash : Flash) (r : Nat) : Loop → Prop
  | done (st : St) (fits : data.length ≤ gs.length)
      (written : st.flash = writeBlocks es flash (gs.map (P + ·)) data)
      (overread : st.overread = false)
      (touched : ∀ t ∈ st.touched,
        ∃ i, P ≤ i ∧ i < d.blocks ∧ d.bad i = false ∧ t = (i * es, es)) :
      CleanEnd d es P beyond next gs data flash r (.done st)
  | exit (short : gs.length < data.length) (stuck : d.leaves P = false) :
      CleanEnd d es P beyond next gs data flash r .exit
  | left (st : St) (short : gs.length < data.length) (leaves : d.leaves P = true)
      (written : st.flash = writeBlocks es flash (gs.map (P + ·)) data)
      (clean : Clean d es P (d.stopIndex P) (r + gs.length)
        (d.stopIndex P - (r + gs.length)) st)
      (full : st.buf.length = es)
      (pending : st.buf :: padded es st.image = data.drop gs.length) :
      CleanEnd d es P beyond next gs data flash r
        (if next then .resume (flushBuffer d es beyond st) else .exit)

theorem writeBlocks_nil (es : Nat) (flash : Flash) (is : List Nat) :
    writeBlocks es flash is [] = flash := by
  cases is <;> rfl

theorem CleanEnd.cons {d : Device} {es P : Nat} {beyond : Nat → UInt8} {next : Bool}
    {gs : List Nat} {data : List Bytes} {flash : Flash} {r i : Nat} {b : Bytes} {res : Loop}
    (h : CleanEnd d es P beyond next gs data (stamp es flash (P + i) b) (r + 1) res) :
    CleanEnd d es P beyond next (i :: gs) (b :: data) flash r res := by
  cases h with
  | done st fits written overread touched =>
    exact .done st (Nat.succ_le_succ fits) written overread touched
  | exit short stuck => exact .exit (Nat.succ_lt_succ short) stuck
  | left st short leaves written clean full pending =>
    have count : r + (i :: gs).length = r + 1 + gs.length := by
      rw [List.length_cons]
      omega
    exact .left st (Nat.succ_lt_succ short) leaves written (count ▸ clean) full pending

section
variable {d : Device} {es P : Nat} {beyond : Nat → UInt8} {next : Bool}

theorem takes_good {m : Nat} (h : d.takes P m = true) :
    P + m < d.blocks ∧ d.bad (P + m) = false := by
  simp only [Device.takes, Bool.and_eq_true, decide_eq_true_eq] at h
  refine ⟨h.1, ?_⟩
  cases hb : d.bad (P + m) with
  | false => rfl
  | true =>
    have := d.refuses _ hb
    rw [this] at h
    exact absurd h.2 (by decide)

theorem Clean.more {m r s : Nat} {st : St} (hes : 0 < es) (clean : Clean d es P m r s st)
    (hbuf : st.buf.length = es) : st.w + st.buf.length + st.skip_bad_blocks > st.e := by
  rw [clean.w, clean.skip, clean.e, clean.index, hbuf, Nat.add_mul]
  omega

theorem Clean.skip_next {m r s : Nat} {st : St} (clean : Clean d es P m r s st)
    (hm : m < d.stopIndex P) (hmark : d.marked m = true) :
    Clean d es P (m + 1) r (s + 1) (st.skipBlock d es m) where
  e := rfl
  w := clean.w
  skip := by
    rw [Nat.succ_mul, ← clean.skip]
    rfl
  index := by rw [clean.index]; omega
  offset := clean.offset
  overread := clean.overread
  pos := by
    intro hne
    obtain ⟨i, hi⟩ := List.exists_mem_of_ne_nil _ hne
    have later := (mem_usableFrom.mp hi).1
    have inside := usableFrom_lt hi
    rw [← usableFrom_skip hm hmark] at hne
    have room : (P + m + 1) * es ≤ d.blocks * es := Nat.mul_le_mul_right es (by omega)
    rw [Nat.succ_mul] at room
    rw [St.skipBlock, clean.pos hne, Device.seekCur, if_pos room]
    exact (Nat.succ_mul _ _).symm
  touched := clean.touched

/-- A block erased and written. -/
theorem Clean.write_next {m r s : Nat} {st : St} (clean : Clean d es P m r s st)
    (hgood : P + m < d.blocks ∧ d.bad (P + m) = false) {image buf : Bytes} :
    Clean d es P (m + 1) (r + 1) s
      { (st.eraseBlock es P m).writeBlock es beyond (P + m) with buf := buf, image := image } where
  e := rfl
  w := by
    rw [Nat.succ_mul, ← clean.w]
    rfl
  skip := clean.skip
  index := by rw [clean.index]; omega
  offset := rfl
  overread := by simp [St.writeBlock, St.eraseBlock, clean.overread, clean.offset]
  pos := fun _ => rfl
  touched := by
    have new : ∃ i, P ≤ i ∧ i < d.blocks ∧ d.bad i = false ∧ ((P + m) * es, es) = (i * es, es) :=
      ⟨P + m, by omega, hgood.1, hgood.2, rfl⟩
    intro t ht
    rcases List.mem_cons.mp ht with rfl | ht
    · exact new
    rcases List.mem_cons.mp ht with rfl | ht
    · exact new
    · exact clean.touched t ht

/-- The pending blocks go one after another into the usable blocks. -/
theorem run_clean (hes : 0 < es) (j : Nat) : ∀ {m r s f g : Nat} {st : St},
    m + j = d.stopIndex P → Clean d es P m r s st → st.buf.length = es → j < f →
    st.image.length < g →
    CleanEnd d es P beyond next (d.usableFrom P m) (st.buf :: padded es st.image) st.flash r
      (afterErase d es (P * es) beyond next g (eraseLoop d es (P * es) f st)) := by
  induction j with
  | zero =>
    intro m r s f g st hj clean hbuf hf hg
    obtain ⟨f, rfl⟩ := Nat.exists_eq_succ_of_ne_zero (Nat.ne_of_gt hf)
    obtain rfl : m = d.stopIndex P := by omega
    rw [eraseLoop_stop hes clean.e (clean.more hes hbuf), usableFrom_stop]
    have short : ([] : List Nat).length < (st.buf :: padded es st.image).length := by simp
    cases hl : d.leaves P with
    | false => exact .exit short hl
    | true =>
      have skipped : d.stopIndex P - (r + ([] : List Nat).length) = s := by
        rw [clean.index]
        simp
      exact .left st short hl rfl (skipped.symm ▸ clean) hbuf rfl
  | succ j ih =>
    intro m r s f g st hj clean hbuf hf hg
    have hm : m < d.stopIndex P := by omega
    obtain ⟨f, rfl⟩ := Nat.exists_eq_succ_of_ne_zero (show f ≠ 0 by omega)
    cases hmark : d.marked m with
    | true =>
      rw [eraseLoop_skip hes clean.e (clean.more hes hbuf) hm hmark, usableFrom_skip hm hmark]
      exact ih (by omega) (clean.skip_next hm hmark) hbuf (by omega) hg
    | false =>
      obtain ⟨f, rfl⟩ := Nat.exists_eq_succ_of_ne_zero (show f ≠ 0 by omega)
      have hgood := takes_good (takes_of_lt hm hmark)
      have hne : d.usableFrom P m ≠ [] := by
        rw [usableFrom_erase hm hmark]
        exact List.cons_ne_nil _ _
      have enough : ¬ st.w + st.buf.length + st.skip_bad_blocks > (m + 1) * es := by
        rw [clean.w, clean.skip, clean.index, hbuf, Nat.succ_mul, Nat.add_mul]
        omega
      have hbuf₁ : (st.eraseBlock es P m).buf.length = es := hbuf
      have hpos₁ : (st.eraseBlock es P m).pos = (P + m) * es := clean.pos hne
      have stamped : ((st.eraseBlock es P m).writeBlock es beyond (P + m)).flash =
          stamp es st.flash (P + m) st.buf := by
        rw [St.writeBlock, sourceBytes_buf hbuf₁ clean.offset]
        rfl
      rw [eraseLoop_erase hes clean.e (clean.more hes hbuf) hm hmark, eraseLoop_ready enough,
        afterErase_ready hes hbuf₁ hpos₁ hgood.1, usableFrom_erase hm hmark]
      apply CleanEnd.cons
      rw [← stamped]
      obtain ⟨g, rfl⟩ := Nat.exists_eq_succ_of_ne_zero (show g ≠ 0 by omega)
      have empty : ((st.eraseBlock es P m).writeBlock es beyond (P + m)).buf = [] := rfl
      have next₁ : ∀ {image buf : Bytes}, Clean d es P (m + 1) (r + 1) s
          { (st.eraseBlock es P m).writeBlock es beyond (P + m) with buf := buf, image := image } :=
        clean.write_next hgood
      by_cases hi : st.image = []
      · have none : ((st.eraseBlock es P m).writeBlock es beyond (P + m)).image = [] := hi
        rw [writeLoop_empty empty none, hi, padded_nil]
        exact .done _ (Nat.zero_le _) (writeBlocks_nil es _ _).symm next₁.overread next₁.touched
      · obtain ⟨b, image, hb, hpad, hlen, enter⟩ := writeLoop_enter (d := d) (P := P) hes
          (show ((st.eraseBlock es P m).writeBlock es beyond (P + m)).buf.length ≤ es from
            Nat.zero_le _)
          (show ((st.eraseBlock es P m).writeBlock es beyond (P + m)).buf ++
            ((st.eraseBlock es P m).writeBlock es beyond (P + m)).image ≠ [] from hi)
        have hpad : padded es st.image = b :: padded es image := hpad
        have hlen : image.length < st.image.length := hlen
        have bound : d.stopIndex P ≤ d.blocks := stopIndex_le
        have fuel : image.length < g := by
          have := Nat.lt_succ_iff.mp hg
          omega
        rw [enter, hpad]
        exact ih (by omega) next₁ hb (by omega) fuel

/-- The main loop on a device that has just been opened. -/
theorem device_clean (hes : 0 < es) {st : St} (clean : Clean d es P 0 0 0 st)
    (hbuf : st.buf.length ≤ es) :
    CleanEnd d es P beyond next (d.usableFrom P 0) (padded es (st.buf ++ st.image)) st.flash 0
      (writeLoop d es (P * es) beyond next (st.buf.length + st.image.length + 1) st) := by
  by_cases hne : st.buf ++ st.image = []
  · obtain ⟨hb, hi⟩ := List.append_eq_nil_iff.mp hne
    rw [writeLoop_empty hb hi, hne, padded_nil]
    exact .done st (Nat.zero_le _) (writeBlocks_nil es _ _).symm clean.overread clean.touched
  · obtain ⟨b, image, hb, hpad, hlen, enter⟩ := writeLoop_enter (d := d) (P := P) hes hbuf hne
    have bound : d.stopIndex P ≤ d.blocks := stopIndex_le
    rw [List.length_append] at hlen
    have filled : Clean d es P 0 0 0 { st with buf := b, image := image } :=
      ⟨clean.e, clean.w, clean.skip, clean.index, clean.offset, clean.overread, clean.pos,
        clean.touched⟩
    rw [enter, hpad]
    exact run_clean hes (d.stopIndex P) (Nat.zero_add _) filled hb (by omega) hlen

/-- A freshly opened device. -/
theorem clean_start {st : St} (he : st.e = 0) (hw : st.w = 0) (hs : st.skip_bad_blocks = 0)
    (ho : st.offset = 0) (hr : st.overread = false) (hp : st.pos = d.seekSet es (P * es))
    (ht : st.touched = []) : Clean d es P 0 0 0 st where
  e := by rw [he, Nat.zero_mul]
  w := by rw [hw, Nat.zero_mul]
  skip := by rw [hs, Nat.zero_mul]
  index := rfl
  offset := ho
  overread := hr
  pos := by
    intro hne
    obtain ⟨i, hi⟩ := List.exists_mem_of_ne_nil _ hne
    have inside := usableFrom_lt hi
    have room : P * es ≤ d.blocks * es := Nat.mul_le_mul_right es (by omega)
    rw [hp, Device.seekSet, if_pos room, Nat.add_zero]
  touched := by
    rw [ht]
    intro t h
    cases h

end

end UolaOs.Mtd
