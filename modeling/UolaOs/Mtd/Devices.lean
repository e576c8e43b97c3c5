import UolaOs.Mtd.Placement

/-!
# Writing across several devices

`mtdWrite_devices_iff`: the counter of skipped bad blocks is not reset when the next device is
opened. The image is in place exactly when no device is left with skipped blocks in hand.
-/

namespace UolaOs.Mtd

/-- The good blocks of a device: the code takes the first erase that fails for its end, and
these are the blocks before it that are not marked bad. -/
def Device.goodBlocks (d : Device) : List Nat := d.usableFrom 0 0

/-- Where no block can be erased any more after the first erase that fails, these are all the
good blocks of the device. -/
theorem goodBlocks_eq {d : Device}
    (last : ∀ i < d.blocks, d.stopIndex 0 ≤ i → d.marked i = false → d.erasable i = false) :
    d.goodBlocks = (List.range d.blocks).filter fun i => !d.marked i && d.erasable i := by
  have bound : d.stopIndex 0 ≤ d.blocks := stopIndex_le
  obtain ⟨j, hj⟩ := Nat.exists_eq_add_of_le bound
  have front : ((List.range (d.stopIndex 0)).filter fun i => !d.marked i && d.erasable i) =
      (List.range (d.stopIndex 0)).filter fun i => !d.marked i := by
    apply List.filter_congr
    intro i hi
    cases hm : d.marked i with
    | true => simp
    | false =>
      have takes := takes_of_lt (List.mem_range.mp hi) hm
      simp only [Device.takes, Nat.zero_add, Bool.and_eq_true] at takes
      simp [takes.2]
  have rest : ((List.range j).map (d.stopIndex 0 + ·)).filter
      (fun i => !d.marked i && d.erasable i) = [] := by
    rw [List.filter_eq_nil_iff]
    intro i hi
    obtain ⟨l, hl, rfl⟩ := List.mem_map.mp hi
    have hl := List.mem_range.mp hl
    cases hm : d.marked (d.stopIndex 0 + l) with
    | true => simp
    | false => simp [last _ (by omega) (by omega) hm]
  rw [hj, List.range_add, List.filter_append, front, rest, List.append_nil, Device.goodBlocks,
    usableFrom_zero]

/-- The marked blocks before the end. -/
def Device.skipped (d : Device) : Nat := d.stopIndex 0 - d.goodBlocks.length

/-- What the good blocks of the devices hold, one device after the other. -/
def goodContents (es : Nat) : List Opened → List (Flash × List (Nat × Nat)) → List Bytes
  | o :: os, f :: fs => o.device.goodBlocks.map (blockAt es f.1) ++ goodContents es os fs
  | _, _ => []

/-- Whether the devices have room for `n` blocks. With `k` skipped blocks in hand, each device
loses its first `k` good blocks to erasing ahead, and its marked blocks are added to them. -/
def Returns : List Device → Nat → Nat → Prop
  | [], _, _ => False
  | d :: ds, n, k =>
    n + k ≤ d.goodBlocks.length ∨
      d.leaves 0 = true ∧ Returns ds (n - (d.goodBlocks.length - k)) (k + d.skipped)

/-- No device that is left has a marked block before the block whose erase failed. -/
def CleanSwitches : List Device → Nat → Prop
  | [], _ => True
  | d :: ds, n =>
    n ≤ d.goodBlocks.length ∨ d.skipped = 0 ∧ CleanSwitches ds (n - d.goodBlocks.length)

/-! ## A run with skipped blocks in hand -/

/-- The state before index `m`, with `c` more blocks to be erased ahead of the next write. -/
structure Dirty (es m r s c : Nat) (st : St) : Prop where
  e : st.e = m * es
  w : st.w = r * es
  skip : st.skip_bad_blocks = s * es
  index : m + c = r + s
  pos : ∃ p ≤ m, st.pos = p * es
  behind : st.overread = true ∨ es ≤ st.offset

/-- What becomes of `n` pending blocks on a device with `g` usable blocks. -/
inductive DirtyEnd (d : Device) (es : Nat) (beyond : Nat → UInt8) (next : Bool) (g n r c : Nat) :
    Loop → Prop
  | done (st : St) (fits : n + c ≤ g) (overread : st.overread = true) :
      DirtyEnd d es beyond next g n r c (.done st)
  | exit (short : g < n + c) (stuck : d.leaves 0 = false) :
      DirtyEnd d es beyond next g n r c .exit
  | left (st : St) (s : Nat) (short : g < n + c) (leaves : d.leaves 0 = true)
      (dirty : Dirty es (d.stopIndex 0) (r + (g - c)) s (c - g) st) (full : st.buf.length = es)
      (pending : (padded es st.image).length + 1 = n - (g - c)) :
      DirtyEnd d es beyond next g n r c
        (if next then .resume (flushBuffer d es beyond st) else .exit)

section
variable {d : Device} {es : Nat} {beyond : Nat → UInt8} {next : Bool}

/-- One block erased ahead. -/
theorem DirtyEnd.ahead {g n r c : Nat} {res : Loop} (h : DirtyEnd d es beyond next g n r c res) :
    DirtyEnd d es beyond next (g + 1) n r (c + 1) res := by
  have written : g + 1 - (c + 1) = g - c := by omega
  have owed : c + 1 - (g + 1) = c - g := by omega
  cases h with
  | done st fits overread => exact .done st (by omega) overread
  | exit short stuck => exact .exit (by omega) stuck
  | left st s short leaves dirty full pending =>
    exact .left st s (by omega) leaves (by rwa [written, owed]) full (by rwa [written])

/-- One block written. -/
theorem DirtyEnd.write {g n r : Nat} {res : Loop}
    (h : DirtyEnd d es beyond next g n (r + 1) 0 res) :
    DirtyEnd d es beyond next (g + 1) (n + 1) r 0 res := by
  have written : r + 1 + (g - 0) = r + (g + 1 - 0) := by omega
  have owed : 0 - g = 0 - (g + 1) := by omega
  have rest : n - (g - 0) = n + 1 - (g + 1 - 0) := by omega
  cases h with
  | done st fits overread => exact .done st (by omega) overread
  | exit short stuck => exact .exit (by omega) stuck
  | left st s short leaves dirty full pending =>
    exact .left st s (by omega) leaves (by rwa [written, owed] at dirty) full (by rwa [rest] at pending)

theorem run_dirty (hes : 0 < es) (j : Nat) : ∀ {m r s c f g : Nat} {st : St},
    m + j = d.stopIndex 0 → Dirty es m r s c st → st.buf.length = es → j < f →
    st.image.length < g →
    DirtyEnd d es beyond next (d.usableFrom 0 m).length ((padded es st.image).length + 1) r c
      (afterErase d es (0 * es) beyond next g (eraseLoop d es (0 * es) f st)) := by
  have more {m r s c : Nat} {st : St} (dirty : Dirty es m r s c st) (hbuf : st.buf.length = es) :
      st.w + st.buf.length + st.skip_bad_blocks > st.e := by
    have total := congrArg (· * es) dirty.index
    simp only [Nat.add_mul] at total
    rw [dirty.w, dirty.skip, dirty.e, hbuf]
    omega
  induction j with
  | zero =>
    intro m r s c f g st hj dirty hbuf hf hg
    obtain ⟨f, rfl⟩ := Nat.exists_eq_succ_of_ne_zero (Nat.ne_of_gt hf)
    obtain rfl : m = d.stopIndex 0 := by omega
    rw [eraseLoop_stop hes dirty.e (more dirty hbuf), usableFrom_stop]
    cases hl : d.leaves 0 with
    | false => exact .exit (by rw [List.length_nil]; omega) hl
    | true =>
      refine .left st s (by rw [List.length_nil]; omega) hl ?_ hbuf ?_
      · simpa using dirty
      · simp
  | succ j ih =>
    intro m r s c f g st hj dirty hbuf hf hg
    have hm : m < d.stopIndex 0 := by omega
    have inside : m < d.blocks := Nat.lt_of_lt_of_le hm stopIndex_le
    obtain ⟨p, hp, hpos⟩ := dirty.pos
    obtain ⟨f, rfl⟩ := Nat.exists_eq_succ_of_ne_zero (show f ≠ 0 by omega)
    cases hmark : d.marked m with
    | true =>
      rw [eraseLoop_skip hes dirty.e (more dirty hbuf) hm hmark, usableFrom_skip hm hmark]
      have room : (p + 1) * es ≤ d.blocks * es := Nat.mul_le_mul_right es (by omega)
      have after : d.seekCur es st.pos es = (p + 1) * es := by
        rw [Nat.succ_mul] at room ⊢
        rw [hpos, Device.seekCur, if_pos room]
      have dirty₁ : Dirty es (m + 1) r (s + 1) c (st.skipBlock d es m) :=
        { e := rfl, w := dirty.w, index := by have := dirty.index; omega
          skip := by rw [Nat.succ_mul, ← dirty.skip]; rfl
          pos := ⟨p + 1, by omega, after⟩, behind := dirty.behind }
      exact ih (by omega) dirty₁ hbuf (by omega) hg
    | false =>
      rw [eraseLoop_erase hes dirty.e (more dirty hbuf) hm hmark, usableFrom_erase hm hmark,
        List.length_cons]
      cases c with
      | succ c =>
        have dirty₁ : Dirty es (m + 1) r s c (st.eraseBlock es 0 m) :=
          { e := rfl, w := dirty.w, skip := dirty.skip, index := by have := dirty.index; omega
            pos := ⟨p, by omega, hpos⟩, behind := dirty.behind }
        exact (ih (by omega) dirty₁ hbuf (by omega) hg).ahead
      | zero =>
        obtain ⟨f, rfl⟩ := Nat.exists_eq_succ_of_ne_zero (show f ≠ 0 by omega)
        have hindex := dirty.index
        have enough : ¬ st.w + st.buf.length + st.skip_bad_blocks > (m + 1) * es := by
          have total := congrArg (· * es) hindex
          simp only [Nat.add_mul] at total
          rw [dirty.w, dirty.skip, hbuf, Nat.succ_mul]
          omega
        have hbuf₁ : (st.eraseBlock es 0 m).buf.length = es := hbuf
        have hpos₁ : (st.eraseBlock es 0 m).pos = p * es := hpos
        rw [eraseLoop_ready enough, afterErase_ready hes hbuf₁ hpos₁ (by omega)]
        apply DirtyEnd.write
        obtain ⟨g, rfl⟩ := Nat.exists_eq_succ_of_ne_zero (show g ≠ 0 by omega)
        -- The bytes just written lie behind the buffer.
        have excess : (st.overread || decide (0 < st.offset)) = true := by
          rcases dirty.behind with h | h
          · simp [h]
          · simp [Nat.lt_of_lt_of_le hes h]
        have dirty₁ : ∀ {image buf : Bytes}, Dirty es (m + 1) (r + 1) s 0
            { (st.eraseBlock es 0 m).writeBlock es beyond p with buf := buf, image := image } :=
          { e := rfl, skip := dirty.skip, index := by omega
            w := by rw [Nat.succ_mul, ← dirty.w]; rfl
            pos := ⟨p + 1, by omega, rfl⟩, behind := .inl excess }
        have empty : ((st.eraseBlock es 0 m).writeBlock es beyond p).buf = [] := rfl
        by_cases hi : st.image = []
        · have none : ((st.eraseBlock es 0 m).writeBlock es beyond p).image = [] := hi
          rw [writeLoop_empty empty none, hi, padded_nil]
          exact .done _ (Nat.zero_le _) excess
        · obtain ⟨b, image, hb, hpad, hlen, enter⟩ := writeLoop_enter (d := d) (P := 0) hes
            (show ((st.eraseBlock es 0 m).writeBlock es beyond p).buf.length ≤ es from
              Nat.zero_le _)
            (show ((st.eraseBlock es 0 m).writeBlock es beyond p).buf ++
              ((st.eraseBlock es 0 m).writeBlock es beyond p).image ≠ [] from hi)
          have hpad : padded es st.image = b :: padded es image := hpad
          have hlen : image.length < st.image.length := hlen
          have bound : d.stopIndex 0 ≤ d.blocks := stopIndex_le
          have fuel : image.length < g := by
            have := Nat.lt_succ_iff.mp hg
            omega
          rw [enter, hpad, List.length_cons]
          exact ih (by omega) dirty₁ hb (by omega) fuel

/-- What the flush before the next device leaves. -/
theorem flushBuffer_fields (d : Device) (es : Nat) (beyond : Nat → UInt8) (st : St) :
    (flushBuffer d es beyond st).buf = st.buf ∧ (flushBuffer d es beyond st).image = st.image ∧
    (flushBuffer d es beyond st).skip_bad_blocks = st.skip_bad_blocks := by
  unfold flushBuffer writeFd
  split
  · split <;> exact ⟨rfl, rfl, rfl⟩
  · exact ⟨rfl, rfl, rfl⟩

/-- The next write starts behind the buffer when the erase position was ahead. -/
theorem flushBuffer_offset {st : St} (h : st.w < st.e) :
    (flushBuffer d es beyond st).offset = st.e - st.w := by
  rw [flushBuffer, if_pos h]

theorem flushBuffer_same {st : St} (h : ¬ st.w < st.e) : flushBuffer d es beyond st = st := by
  rw [flushBuffer, if_neg h]

theorem Dirty.flush {m r s c : Nat} {st : St} (dirty : Dirty es m r s c st) :
    (flushBuffer d es beyond st).overread = true ∨ es ≤ (flushBuffer d es beyond st).offset := by
  by_cases h : st.w < st.e
  · right
    rw [flushBuffer_offset h, dirty.w, dirty.e, ← Nat.sub_mul]
    rw [dirty.w, dirty.e] at h
    have ahead := Nat.lt_of_mul_lt_mul_right h
    exact Nat.le_mul_of_pos_left es (by omega)
  · rw [flushBuffer_same h]
    exact dirty.behind

end

/-! ## The list of devices -/

section
variable {es : Nat} {beyond : Nat → UInt8}

theorem dirty_start {o : Opened} {st : St} {k : Nat} (hskip : st.skip_bad_blocks = k * es)
    (behind : st.overread = true ∨ es ≤ st.offset) :
    Dirty es 0 0 k k (openDevice es (0 * es) o st) where
  e := (Nat.zero_mul es).symm
  w := (Nat.zero_mul es).symm
  skip := hskip
  index := rfl
  pos := ⟨0, Nat.le_refl 0, by simp [openDevice, Device.seekSet]⟩
  behind := behind

/-- A device opened with skipped blocks in hand. -/
theorem device_dirty (hes : 0 < es) {o : Opened} {next : Bool} {st : St} {k : Nat}
    (hskip : st.skip_bad_blocks = k * es) (hbuf : st.buf.length = es)
    (behind : st.overread = true ∨ es ≤ st.offset) :
    DirtyEnd o.device es beyond next o.device.goodBlocks.length
      ((padded es st.image).length + 1) 0 k
      (writeLoop o.device es (0 * es) beyond next (st.buf.length + st.image.length + 1)
        (openDevice es (0 * es) o st)) := by
  have start : Dirty es 0 0 k k (openDevice es (0 * es) o st) := dirty_start hskip behind
  have hne : st.buf ++ st.image ≠ [] := by
    intro h
    rw [(List.append_eq_nil_iff.mp h).1] at hbuf
    exact hes.ne hbuf
  obtain ⟨b, image, hb, hpad, hlen, enter⟩ := writeLoop_enter (d := o.device) (P := 0)
    hes (show (openDevice es (0 * es) o st).buf.length ≤ es from Nat.le_of_eq hbuf) hne
  have hpad : padded es (st.buf ++ st.image) = b :: padded es image := hpad
  have hlen : image.length < (st.buf ++ st.image).length := hlen
  have same := (List.cons.inj ((padded_block hes hbuf).symm.trans hpad)).2
  have bound : o.device.stopIndex 0 ≤ o.device.blocks := stopIndex_le
  have filled : Dirty es 0 0 k k { openDevice es (0 * es) o st with buf := b, image := image } :=
    ⟨start.e, start.w, start.skip, start.index, start.pos, start.behind⟩
  rw [List.length_append] at hlen
  rw [enter, same]
  exact run_dirty hes (o.device.stopIndex 0) (Nat.zero_add _) filled hb (by omega) hlen

/-- How `writeDevices` goes on with the devices after one that is left. -/
def resumed (es : Nat) (beyond : Nat → UInt8) (os : List Opened) (st : St) : Option Outcome :=
  (writeDevices es (0 * es) beyond os st).map fun out =>
    ⟨(st.flash, st.touched) :: out.devices, out.overread⟩

/-- How it goes on after the work on a device, with `os` left. -/
def goOn (es : Nat) (beyond : Nat → UInt8) (os : List Opened) : Loop → Option Outcome
  | .exit => none
  | .done st => some ⟨(st.flash, st.touched) :: os.map (fun o => (o.flash, [])), st.overread⟩
  | .resume st => resumed es beyond os st

theorem writeDevices_cons (es : Nat) (beyond : Nat → UInt8) (o : Opened) (os : List Opened)
    (st : St) :
    writeDevices es (0 * es) beyond (o :: os) st =
      goOn es beyond os (writeLoop o.device es (0 * es) beyond (!os.isEmpty)
        (st.buf.length + st.image.length + 1) (openDevice es (0 * es) o st)) := by
  rw [writeDevices]
  cases writeLoop o.device es (0 * es) beyond (!os.isEmpty)
    (st.buf.length + st.image.length + 1) (openDevice es (0 * es) o st) <;> rfl

/-- With skipped blocks in hand, bytes from behind the buffer are written. -/
theorem writeDevices_dirty (hes : 0 < es) (os : List Opened) : ∀ {st : St} {k : Nat},
    st.skip_bad_blocks = k * es → st.buf.length = es →
    (st.overread = true ∨ es ≤ st.offset) →
    (Returns (os.map Opened.device) ((padded es st.image).length + 1) k →
      ∃ out, writeDevices es (0 * es) beyond os st = some out ∧ out.overread = true) ∧
    (¬ Returns (os.map Opened.device) ((padded es st.image).length + 1) k →
      writeDevices es (0 * es) beyond os st = none) := by
  induction os with
  | nil => exact fun _ _ _ => ⟨False.elim, fun _ => rfl⟩
  | cons o os ih =>
    intro st k hskip hbuf behind
    have run : DirtyEnd o.device es beyond (!os.isEmpty) o.device.goodBlocks.length
        ((padded es st.image).length + 1) 0 k
        (writeLoop o.device es (0 * es) beyond (!os.isEmpty)
          (st.buf.length + st.image.length + 1) (openDevice es (0 * es) o st)) :=
      device_dirty hes hskip hbuf behind
    rw [writeDevices_cons, List.map_cons, Returns]
    generalize writeLoop o.device es (0 * es) beyond (!os.isEmpty)
      (st.buf.length + st.image.length + 1) (openDevice es (0 * es) o st) = res at run ⊢
    cases run with
    | done st' fits overread =>
      exact ⟨fun _ => ⟨_, rfl, overread⟩, fun h => absurd (.inl fits) h⟩
    | exit short stuck =>
      refine ⟨fun h => ?_, fun _ => rfl⟩
      rcases h with h | ⟨h, -⟩
      · omega
      · rw [stuck] at h
        cases h
    | left st' s short leaves dirty full pending =>
      have count : o.device.goodBlocks.length ≤ o.device.stopIndex 0 := length_usableFrom_le 0
      have hindex := dirty.index
      have hs : s = k + o.device.skipped := by
        rw [Device.skipped]
        omega
      obtain ⟨hbuf', himage', hskip'⟩ := flushBuffer_fields o.device es beyond st'
      cases os with
      | nil =>
        refine ⟨fun h => ?_, fun _ => rfl⟩
        rcases h with h | ⟨-, h⟩
        · omega
        · exact h.elim
      | cons o' os =>
        have carried : (flushBuffer o.device es beyond st').skip_bad_blocks =
            (k + o.device.skipped) * es := by rw [hskip', dirty.skip, hs]
        obtain ⟨returns, exits⟩ := ih carried (by rw [hbuf', full]) dirty.flush
        rw [himage', pending] at returns exits
        refine ⟨fun h => ?_, fun h => ?_⟩
        · rcases h with h | ⟨-, h⟩
          · omega
          · obtain ⟨out, hout, excess⟩ := returns h
            let flushed := flushBuffer o.device es beyond st'
            refine ⟨⟨(flushed.flash, flushed.touched) :: out.devices, out.overread⟩, ?_, excess⟩
            change resumed es beyond (o' :: os) flushed = _
            rw [resumed, hout]
            rfl
        · change resumed es beyond (o' :: os) (flushBuffer o.device es beyond st') = none
          rw [resumed, exits fun h' => h (.inr ⟨leaves, h'⟩)]
          rfl

/-- What the good blocks hold of a device on which the first blocks of the data went. -/
theorem goodBlocks_written {d : Device} {flash : Flash} {data : List Bytes}
    (hdata : ∀ b ∈ data, b.length = es) :
    (d.goodBlocks.map (blockAt es
      (writeBlocks es flash (d.goodBlocks.map (0 + ·)) data))).take data.length =
      data.take d.goodBlocks.length := by
  have same : d.goodBlocks.map (0 + ·) = d.goodBlocks := by simp
  rw [same]
  exact map_blockAt_writeBlocks hdata (usableFrom_nodup 0)

/-- What becomes of `data` on the devices of a list, opened without skipped blocks in hand. -/
structure Spec (es : Nat) (beyond : Nat → UInt8) (os : List Opened) (st : St)
    (data : List Bytes) : Prop where
  returns : Returns (os.map Opened.device) data.length 0 →
    ∃ out, writeDevices es (0 * es) beyond os st = some out ∧
      (CleanSwitches (os.map Opened.device) data.length →
        data <+: goodContents es os out.devices ∧ out.overread = false) ∧
      (¬ CleanSwitches (os.map Opened.device) data.length → out.overread = true)
  exits : ¬ Returns (os.map Opened.device) data.length 0 →
    writeDevices es (0 * es) beyond os st = none

section
variable {o : Opened} {os : List Opened} {st' : St} {data : List Bytes}
  (hdata : ∀ b ∈ data, b.length = es) (short : o.device.goodBlocks.length < data.length)
  (leaves : o.device.leaves 0 = true)
  (clean : Clean o.device es 0 (o.device.stopIndex 0) (0 + o.device.goodBlocks.length)
    (o.device.stopIndex 0 - (0 + o.device.goodBlocks.length)) st')
include short leaves clean

/-- A device left with skipped blocks in hand. -/
theorem left_dirty (beyond : Nat → UInt8) (os : List Opened) (hes : 0 < es) (full : st'.buf.length = es) (hz : o.device.skipped ≠ 0)
    (size : (padded es st'.image).length + 1 = data.length - o.device.goodBlocks.length) :
    (Returns ((o :: os).map Opened.device) data.length 0 → ∃ out,
      resumed es beyond os (flushBuffer o.device es beyond st') = some out ∧
        out.overread = true) ∧
    (¬ Returns ((o :: os).map Opened.device) data.length 0 →
      resumed es beyond os (flushBuffer o.device es beyond st') = none) := by
  have ahead : st'.w < st'.e := by
    rw [clean.w, clean.e, Nat.zero_add]
    rw [Device.skipped] at hz
    exact Nat.mul_lt_mul_of_pos_right (by omega) hes
  obtain ⟨hbuf', himage', hskip'⟩ := flushBuffer_fields o.device es beyond st'
  have carried : (flushBuffer o.device es beyond st').skip_bad_blocks =
      o.device.skipped * es := by rw [hskip', clean.skip, Nat.zero_add, Device.skipped]
  have behind : es ≤ (flushBuffer o.device es beyond st').offset := by
    rw [flushBuffer_offset ahead, clean.w, clean.e, Nat.zero_add, ← Nat.sub_mul]
    rw [Device.skipped] at hz
    exact Nat.le_mul_of_pos_left es (by omega)
  have dirty : _ ∧ (_ → writeDevices es (0 * es) beyond os _ = none) :=
    writeDevices_dirty hes os carried (by rw [hbuf', full]) (.inr behind)
  obtain ⟨returns, exits⟩ := dirty
  rw [himage', size] at returns exits
  rw [List.map_cons, Returns, Nat.sub_zero, Nat.zero_add]
  refine ⟨fun h => ?_, fun h => ?_⟩
  · rcases h with h | ⟨-, h⟩
    · omega
    · obtain ⟨out, hout, excess⟩ := returns h
      let flushed := flushBuffer o.device es beyond st'
      refine ⟨⟨(flushed.flash, flushed.touched) :: out.devices, out.overread⟩, ?_, excess⟩
      rw [resumed, hout]
      rfl
  · rw [resumed, exits fun h' => h (.inr ⟨leaves, h'⟩)]
    rfl

include hdata in
/-- A device left with its blocks written and nothing skipped. -/
theorem left_clean (hz : o.device.skipped = 0)
    (written : st'.flash = writeBlocks es o.flash (o.device.goodBlocks.map (0 + ·)) data)
    (later : Spec es beyond os st' (data.drop o.device.goodBlocks.length)) :
    (Returns ((o :: os).map Opened.device) data.length 0 → ∃ out,
      resumed es beyond os (flushBuffer o.device es beyond st') = some out ∧
      (CleanSwitches ((o :: os).map Opened.device) data.length →
        data <+: goodContents es (o :: os) out.devices ∧ out.overread = false) ∧
      (¬ CleanSwitches ((o :: os).map Opened.device) data.length → out.overread = true)) ∧
    (¬ Returns ((o :: os).map Opened.device) data.length 0 →
      resumed es beyond os (flushBuffer o.device es beyond st') = none) := by
  have count : o.device.goodBlocks.length ≤ o.device.stopIndex 0 := length_usableFrom_le 0
  have level : ¬ st'.w < st'.e := by
    have same : o.device.stopIndex 0 = o.device.goodBlocks.length := by
      rw [Device.skipped] at hz
      omega
    rw [clean.w, clean.e, same, Nat.zero_add]
    exact Nat.lt_irrefl _
  obtain ⟨returns, exits⟩ := later
  rw [List.length_drop] at returns exits
  rw [flushBuffer_same level, List.map_cons, Returns, CleanSwitches, hz, Nat.sub_zero,
    Nat.zero_add]
  refine ⟨fun h => ?_, fun h => ?_⟩
  · obtain ⟨out, hout, placed, excess⟩ := returns (h.resolve_left (by omega)).2
    refine ⟨⟨(st'.flash, st'.touched) :: out.devices, out.overread⟩, ?_, fun h => ?_,
      fun h => excess fun h' => h (.inr ⟨rfl, h'⟩)⟩
    · rw [resumed, hout]
      rfl
    · obtain ⟨⟨tail, htail⟩, excess⟩ := placed (h.resolve_left (by omega)).2
      have front : (o.device.goodBlocks.map (blockAt es (writeBlocks es o.flash
          (o.device.goodBlocks.map (0 + ·)) data))).take data.length = _ := goodBlocks_written hdata
      rw [← written, List.take_of_length_le (by
        rw [List.length_map]
        exact Nat.le_of_lt short)] at front
      refine ⟨⟨tail, ?_⟩, excess⟩
      rw [goodContents, front, ← htail, ← List.append_assoc, List.take_append_drop]
  · rw [resumed, exits fun h' => h (.inr ⟨leaves, h'⟩)]
    rfl

end

/-- A run that has left no skipped blocks behind yet. -/
theorem writeDevices_clean (hes : 0 < es) (os : List Opened) : ∀ {st : St},
    st.skip_bad_blocks = 0 → st.offset = 0 → st.overread = false → st.buf.length ≤ es →
    Spec es beyond os st (padded es (st.buf ++ st.image)) := by
  induction os with
  | nil => exact fun _ _ _ _ => ⟨False.elim, fun _ => rfl⟩
  | cons o os ih =>
    intro st hskip hoff hover hbuf
    have hdata : ∀ b ∈ padded es (st.buf ++ st.image), b.length = es :=
      fun b => length_of_mem_padded hes
    have start : Clean o.device es 0 0 0 0 (openDevice es (0 * es) o st) :=
      clean_start rfl rfl hskip hoff hover rfl rfl
    have run : CleanEnd o.device es 0 beyond (!os.isEmpty) o.device.goodBlocks
        (padded es (st.buf ++ st.image)) o.flash 0
        (writeLoop o.device es (0 * es) beyond (!os.isEmpty)
          (st.buf.length + st.image.length + 1) (openDevice es (0 * es) o st)) :=
      device_clean hes start hbuf
    generalize padded es (st.buf ++ st.image) = data at hdata run ⊢
    have unfolded := writeDevices_cons es beyond o os st
    generalize writeLoop o.device es (0 * es) beyond (!os.isEmpty)
      (st.buf.length + st.image.length + 1) (openDevice es (0 * es) o st) = res at run unfolded
    cases run with
    | done st' fits written overread touched =>
      refine ⟨fun _ => ⟨_, unfolded, fun _ => ⟨?_, overread⟩, fun h => absurd (.inl fits) h⟩,
        fun h => absurd (.inl fits) h⟩
      have front : (o.device.goodBlocks.map (blockAt es (writeBlocks es o.flash
          (o.device.goodBlocks.map (0 + ·)) data))).take data.length = _ := goodBlocks_written hdata
      rw [List.take_of_length_le fits, ← written] at front
      have pre : (o.device.goodBlocks.map (blockAt es st'.flash)).take data.length <+: _ :=
        List.take_prefix _ _
      rw [front] at pre
      exact pre.trans (List.prefix_append _ _)
    | exit short stuck =>
      refine ⟨fun h => ?_, fun _ => unfolded⟩
      have := (h.resolve_left (by omega)).1
      rw [stuck] at this
      cases this
    | left st' short leaves written clean full pending =>
      cases os with
      | nil =>
        refine ⟨fun h => ?_, fun _ => unfolded⟩
        exact (h.resolve_left (by omega)).2.elim
      | cons o' os =>
        have goes : writeDevices es (0 * es) beyond (o :: o' :: os) st =
            resumed es beyond (o' :: os) (flushBuffer o.device es beyond st') := unfolded
        by_cases hz : o.device.skipped = 0
        · have none : st'.skip_bad_blocks = 0 := by
            rw [clean.skip, Nat.zero_add, ← Device.skipped, hz, Nat.zero_mul]
          have later := ih none clean.offset clean.overread (Nat.le_of_eq full)
          rw [padded_block hes full, pending] at later
          obtain ⟨returns, exits⟩ := left_clean hdata short leaves clean hz written later
          exact ⟨goes ▸ returns, goes ▸ exits⟩
        · have size := congrArg List.length pending
          rw [List.length_cons, List.length_drop] at size
          obtain ⟨returns, exits⟩ := left_dirty short leaves clean beyond (o' :: os) hes full hz size
          refine ⟨fun h => ?_, goes ▸ exits⟩
          obtain ⟨out, hout, excess⟩ := returns h
          refine ⟨out, goes.trans hout, fun h => ?_, fun _ => excess⟩
          exact absurd (h.resolve_left (by omega)).1 hz

end

theorem mtdWrite_zero (es : Nat) (beyond : Nat → UInt8) (os : List Opened)
    (buffered image : Bytes) : mtdWrite es 0 beyond os buffered image =
      writeDevices es (0 * es) beyond os
        { flash := fun _ => 0, pos := 0, w := 0, e := 0, skip_bad_blocks := 0, offset := 0
          buf := buffered, image := image, touched := [], overread := false } := by
  rw [Nat.zero_mul]
  rfl

theorem mtdWrite_spec {es : Nat} (hes : 0 < es) (beyond : Nat → UInt8) (os : List Opened)
    {buffered : Bytes} (hb : buffered.length ≤ es) (image : Bytes) :
    let data := padded es (buffered ++ image)
    (Returns (os.map Opened.device) data.length 0 →
      ∃ out, mtdWrite es 0 beyond os buffered image = some out ∧
        (CleanSwitches (os.map Opened.device) data.length →
          data <+: goodContents es os out.devices ∧ out.overread = false) ∧
        (¬ CleanSwitches (os.map Opened.device) data.length → out.overread = true)) ∧
    (¬ Returns (os.map Opened.device) data.length 0 →
      mtdWrite es 0 beyond os buffered image = none) := by
  rw [mtdWrite_zero]
  let st : St :=
    { flash := fun _ => 0, pos := 0, w := 0, e := 0, skip_bad_blocks := 0, offset := 0
      buf := buffered, image := image, touched := [], overread := false }
  have spec : Spec es beyond os st (padded es (st.buf ++ st.image)) :=
    writeDevices_clean hes os rfl rfl rfl hb
  exact ⟨spec.returns, spec.exits⟩

/-- **Several devices.** A run that returns 0 leaves the image in the good blocks, device after
device, and no byte from behind the buffer anywhere, if and only if no device is left with
skipped blocks in hand. -/
theorem mtdWrite_devices_iff (es : Nat) (hes : 0 < es) (beyond : Nat → UInt8) (os : List Opened)
    (buffered image : Bytes) (hb : buffered.length ≤ es) :
    (∀ out, mtdWrite es 0 beyond os buffered image = some out →
      padded es (buffered ++ image) <+: goodContents es os out.devices ∧ out.overread = false) ↔
      (Returns (os.map Opened.device) (padded es (buffered ++ image)).length 0 →
        CleanSwitches (os.map Opened.device) (padded es (buffered ++ image)).length) := by
  obtain ⟨returns, exits⟩ := mtdWrite_spec hes beyond os hb image
  constructor
  · intro placed h
    by_contra unclean
    obtain ⟨out, hout, -, excess⟩ := returns h
    have := (placed out hout).2
    rw [excess unclean] at this
    cases this
  · intro clean out hout
    by_cases h : Returns (os.map Opened.device) (padded es (buffered ++ image)).length 0
    · obtain ⟨out', hout', placed, -⟩ := returns h
      rw [hout'] at hout
      obtain rfl := Option.some.inj hout
      exact placed (clean h)
    · rw [exits h] at hout
      cases hout

/-- A NAND device of three blocks: the first one is bad, the last one cannot be erased. -/
def nandThree : Device where
  nand := true
  blocks := 3
  bad := fun i => i == 0
  erasable := fun i => i == 1
  refuses := by
    intro i hi
    simp only [beq_iff_eq] at hi
    rw [hi]
    rfl

/-- A NOR device of four blocks. -/
def norFour : Device where
  nand := false
  blocks := 4
  bad := fun _ => false
  erasable := fun _ => true
  refuses := by simp

def nandThenNor : List Opened := [⟨nandThree, fun _ => 0xff⟩, ⟨norFour, fun _ => 0xff⟩]

theorem mtdWrite_devices_iff_nandThenNor :
    (∀ out, mtdWrite 0x20000 0 (fun _ => 0) nandThenNor [] [0] = some out →
      padded 0x20000 ([] ++ [0]) <+: goodContents 0x20000 nandThenNor out.devices ∧
        out.overread = false) ↔
      (Returns (nandThenNor.map Opened.device) (padded 0x20000 ([] ++ [0])).length 0 →
        CleanSwitches (nandThenNor.map Opened.device) (padded 0x20000 ([] ++ [0])).length) :=
  mtdWrite_devices_iff 0x20000 (by decide) (fun _ => 0) nandThenNor [] [0] (by decide)

theorem nandThenNor_overread {es : Nat} (hes : 0 < es) {image : Bytes}
    (two : (padded es ([] ++ image)).length = 2) :
    ∃ out, mtdWrite es 0 (fun _ => 0) nandThenNor [] image = some out ∧ out.overread = true := by
  have none : ([] : Bytes).length ≤ es := Nat.zero_le es
  have returns := (mtdWrite_spec hes (fun _ => 0) nandThenNor none image).1
  rw [two] at returns
  have enough : Returns (nandThenNor.map Opened.device) 2 0 := by
    refine .inr ⟨by decide, .inl (by decide)⟩
  have unclean : ¬ CleanSwitches (nandThenNor.map Opened.device) 2 := by
    rintro (h | ⟨h, -⟩)
    · revert h
      decide
    · revert h
      decide
  obtain ⟨out, hout, -, excess⟩ := returns enough
  exact ⟨out, hout, excess unclean⟩

/-- The second block of the image goes to the second device from behind the buffer. -/
theorem mtdWrite_devices_overread :
    ∃ out, mtdWrite 0x20000 0 (fun _ => 0) nandThenNor [] (List.replicate 0x20001 0) = some out ∧
      out.overread = true := by
  refine nandThenNor_overread (by decide) ?_
  have split : List.replicate 0x20001 (0 : UInt8) = List.replicate 0x20000 0 ++ [0] :=
    List.replicate_succ'
  rw [List.nil_append, split, padded_block (by decide) List.length_replicate,
    padded_of_ne (by decide) (List.cons_ne_nil 0 []), List.drop_of_length_le (by decide), padded_nil]
  rfl

/-- The first good block of the second device gets what follows the buffer in memory. -/
example : (mtdWrite 2 0 (fun _ => 0xee) nandThenNor [] [1, 2, 3, 4]).map
    (fun out => (goodContents 2 nandThenNor out.devices).take 2) = some [[1, 2], [0xee, 0xee]] := by
  decide

end UolaOs.Mtd
