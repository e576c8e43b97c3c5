import UolaOs.Lib.FlashArea

/-!
# The boot-count log

`mtd_resetbc` of linksys_bootcount.c. The log has a record in each slot of the partition, up to the
first slot that is erased.

* `scan_spec`: what the loop over the slots finds in a log;
* `BootLog.append`: a record put behind the log;
* `mtdResetbc_iff`: when the count is reset within the page buffer.
-/

namespace UolaOs.Mtd

/-- `BOOTCOUNT_MAGIC` -/
def bootcountMagic : Nat := 0x20110811

/-- `BC_OFFSET_INCREMENT_MIN` -/
def bcOffsetIncrementMin : Nat := 16

/-- `bc_offset_increment` -/
def bcOffsetIncrement (writesize : Nat) : Nat :=
  if writesize < bcOffsetIncrementMin then bcOffsetIncrementMin else writesize

/-- `sizeof(page)` -/
def pageSize : Nat := 2048

section
variable (e : Endian)

/-- `struct bootcounter` at `off`. -/
def bcMagic (m : Bytes) (off : Nat) : Nat := e.get (load m off 4)
def bcCount (m : Bytes) (off : Nat) : Nat := e.get (load m (off + 4) 4)

/-- The loop over the slots from `i` on: the first one that is erased and the last count, or
`none` at an unexpected magic. -/
def scanCounts (m : Bytes) (pitch : Nat) : Nat → Nat → Nat → Option (Nat × Nat)
  | 0, i, last => some (i, last)
  | slots + 1, i, last =>
    let magic := bcMagic e m (i * pitch)
    if magic ≠ bootcountMagic ∧ magic ≠ 0xffffffff then none
    else if magic = 0xffffffff then some (i, last)
    else scanCounts m pitch slots (i + 1) (bcCount e m (i * pitch))

/-- The loop over all slots. -/
def scanLog (m : Bytes) (pitch : Nat) : Option (Nat × Nat) :=
  scanCounts e m pitch (m.length / pitch) 0 0

/-- The page that is written: a record with the count 0, and erased bytes. -/
def zeroRecord (pitch : Nat) : Bytes :=
  e.put 4 bootcountMagic ++ (e.put 4 0 ++ (e.put 4 bootcountMagic ++
    List.replicate (pitch - 12) 0xff))

/-- Whether MEMERASE and the write succeed. -/
structure Works where
  erases : Bool
  writes : Bool

/-- The end of `mtd_resetbc`: the record is put together in the page buffer and written to the
slot `i`. It fails where the page does not fit into the buffer. -/
def writeZero (d : Works) (m : Bytes) (pitch i : Nat) : Option (Int × Bytes) :=
  if pageSize < pitch then none
  else if d.writes then some (0, programAt m (i * pitch) (zeroRecord e pitch))
  else some (-4, m)

/-- `mtd_resetbc` on a partition with the contents `m`: what it returns and leaves there. It is
`none` when a byte is written outside of the page buffer. -/
def mtdResetbc (d : Works) (writesize : Nat) (m : Bytes) : Option (Int × Bytes) :=
  let pitch := bcOffsetIncrement writesize
  match scanLog e m pitch with
  | none => some (-2, m)
  | some (i, last) =>
    if last = 0 then some (0, m)
    else if i = m.length / pitch then
      if d.erases then writeZero e d (eraseAt m 0 m.length) pitch 0 else some (-3, m)
    else writeZero e d m pitch i

end

/-! ## Logs -/

/-- The log of `n` records. -/
structure BootLog (e : Endian) (pitch : Nat) (m : Bytes) (n : Nat) : Prop where
  le : n ≤ m.length / pitch
  record : ∀ i, i < n → bcMagic e m (i * pitch) = bootcountMagic
  erased : ∀ i, n ≤ i → i < m.length / pitch → load m (i * pitch) pitch = List.replicate pitch 0xff

/-- The count of the last record, or 0. -/
def lastCount (e : Endian) (pitch : Nat) (m : Bytes) : Nat → Nat
  | 0 => 0
  | n + 1 => bcCount e m (n * pitch)

section
variable {e : Endian} {d : Works} {m : Bytes} {pitch n i last slots : Nat}

theorem bcMagic_erased (h : load m (i * pitch) pitch = List.replicate pitch 0xff)
    (hpitch : 12 ≤ pitch) : bcMagic e m (i * pitch) = 0xffffffff := by
  have hload : load m (i * pitch) 4 = List.replicate 4 0xff := by
    rw [← load_front (show 4 ≤ pitch by omega), h, load, List.drop_zero, List.take_replicate,
      Nat.min_eq_left (by omega)]
  rw [bcMagic, hload]
  cases e <;> rfl

/-- **The scan.** It stops behind the last record, with its count. -/
theorem scanCounts_spec (h : BootLog e pitch m n) (hpitch : 12 ≤ pitch) (hi : i ≤ n)
    (hslots : i + slots = m.length / pitch) (hlast : last = lastCount e pitch m i) :
    scanCounts e m pitch slots i last = some (n, lastCount e pitch m n) := by
  induction slots generalizing i last with
  | zero =>
    have hle := h.le
    obtain rfl : i = n := by omega
    rw [scanCounts, hlast]
  | succ slots ih =>
    rw [scanCounts]
    rcases Nat.lt_or_eq_of_le hi with hlt | rfl
    · rw [h.record i hlt, if_neg (by decide), if_neg (by decide)]
      exact ih hlt (by omega) rfl
    · rw [bcMagic_erased (h.erased i (Nat.le_refl i) (by omega)) hpitch, if_neg (by decide),
        if_pos rfl, hlast]

theorem scanLog_spec (h : BootLog e pitch m n) (hpitch : 12 ≤ pitch) :
    scanLog e m pitch = some (n, lastCount e pitch m n) :=
  scanCounts_spec h hpitch (Nat.zero_le n) (Nat.zero_add _) rfl

theorem length_zeroRecord (e : Endian) (hpitch : 12 ≤ pitch) :
    (zeroRecord e pitch).length = pitch := by
  simp only [zeroRecord, List.length_append, Endian.length_put, List.length_replicate]
  omega

theorem slot_le (hn : n < m.length / pitch) : n * pitch + pitch ≤ m.length := by
  have hmul := Nat.mul_le_mul_right pitch hn
  rw [Nat.succ_mul] at hmul
  exact Nat.le_trans hmul (Nat.div_mul_le_self _ _)

theorem slot_disjoint (h : i ≠ n) : i * pitch + pitch ≤ n * pitch ∨ n * pitch + pitch ≤ i * pitch := by
  rw [← Nat.succ_mul, ← Nat.succ_mul]
  rcases Nat.lt_or_gt_of_ne h with hlt | hgt
  · exact .inl (Nat.mul_le_mul_right pitch hlt)
  · exact .inr (Nat.mul_le_mul_right pitch hgt)

/-- **A record behind the log.** It has the count 0, and the other slots stay. -/
theorem BootLog.append (h : BootLog e pitch m n) (hpitch : 12 ≤ pitch) (hn : n < m.length / pitch) :
    let m' := programAt m (n * pitch) (zeroRecord e pitch)
    BootLog e pitch m' (n + 1) ∧ lastCount e pitch m' (n + 1) = 0 ∧
      ∀ i, i ≠ n → load m' (i * pitch) pitch = load m (i * pitch) pitch := by
  intro m'
  have hlen := length_zeroRecord e hpitch
  have hfit : n * pitch + (zeroRecord e pitch).length ≤ m.length := by
    rw [hlen]
    exact slot_le hn
  have hpoke : m' = poke m (n * pitch) (zeroRecord e pitch) := by
    refine programAt_blank ?_
    rw [hlen]
    exact h.erased n (Nat.le_refl n) hn
  have hlength : m'.length = m.length := length_programAt _ _ _
  have hother (i : Nat) (hi : i ≠ n) : load m' (i * pitch) pitch = load m (i * pitch) pitch := by
    rw [hpoke, load_poke_of_disjoint hfit (hlen.symm ▸ slot_disjoint hi)]
  have hself : load m' (n * pitch) pitch = zeroRecord e pitch := by
    have hload := load_poke_self hfit
    rwa [hlen, ← hpoke] at hload
  have hmagic : bcMagic e m' (n * pitch) = bootcountMagic := by
    rw [bcMagic, ← load_front (show 4 ≤ pitch by omega), hself, zeroRecord, load, List.drop_zero,
      List.take_left' (Endian.length_put e 4 _), Endian.get_put]
    rfl
  have hcount : bcCount e m' (n * pitch) = 0 := by
    rw [bcCount, ← load_load (show 4 + 4 ≤ pitch by omega), hself, zeroRecord,
      load_append_right (Endian.length_put e 4 _), List.take_left' (Endian.length_put e 4 _),
      Endian.get_put]
    rfl
  refine ⟨⟨?_, fun i hi => ?_, fun i hi hlt => ?_⟩, hcount, hother⟩
  · rw [hlength]
    exact hn
  · rcases Nat.lt_or_eq_of_le (Nat.le_of_lt_succ hi) with hlt | rfl
    · rw [bcMagic, ← load_front (show 4 ≤ pitch by omega), hother i (Nat.ne_of_lt hlt),
        load_front (by omega), ← bcMagic, h.record i hlt]
    · exact hmagic
  · rw [hlength] at hlt
    rw [hother i (by omega), h.erased i (by omega) hlt]

theorem bootLog_erase (e : Endian) (pitch : Nat) (m : Bytes) :
    BootLog e pitch (eraseAt m 0 m.length) 0 := by
  refine ⟨Nat.zero_le _, fun i hi => absurd hi (Nat.not_lt_zero i), fun i _ hi => ?_⟩
  have hslot := slot_le hi
  rw [length_eraseAt] at hslot
  have hall : load (eraseAt m 0 m.length) 0 m.length = List.replicate m.length 0xff :=
    load_eraseAt (Nat.le_of_eq (Nat.zero_add _))
  have hload : load (load (eraseAt m 0 m.length) 0 m.length) (i * pitch) pitch =
      load (eraseAt m 0 m.length) (0 + i * pitch) pitch := load_load hslot
  rw [Nat.zero_add] at hload
  rw [← hload, hall, load, List.drop_replicate, List.take_replicate, Nat.min_eq_left (by omega)]

/-! ## Resetting the count -/

/-- Nothing is written outside of the page buffer, and after a success the log ends with the count
0. The records stay, unless the log was full. -/
def Resets (e : Endian) (d : Works) (writesize : Nat) (m : Bytes) (n : Nat) : Prop :=
  let pitch := bcOffsetIncrement writesize
  ∃ r m', mtdResetbc e d writesize m = some (r, m') ∧
    (r = 0 → (∃ i, scanLog e m' pitch = some (i, 0)) ∧
      ((∀ i, i < n → load m' (i * pitch) pitch = load m (i * pitch) pitch) ∨
        n = m.length / pitch ∧ lastCount e pitch m n ≠ 0))

/-- A page fits into the buffer, or no record is written. -/
def FitsPage (e : Endian) (d : Works) (writesize : Nat) (m : Bytes) (n : Nat) : Prop :=
  writesize ≤ pageSize ∨ lastCount e (bcOffsetIncrement writesize) m n = 0 ∨
    n = m.length / bcOffsetIncrement writesize ∧ d.erases = false

theorem bcOffsetIncrement_spec (writesize : Nat) :
    12 ≤ bcOffsetIncrement writesize ∧
      (bcOffsetIncrement writesize ≤ pageSize ↔ writesize ≤ pageSize) := by
  have hmin : bcOffsetIncrementMin = 16 := rfl
  have hpage : pageSize = 2048 := rfl
  rw [bcOffsetIncrement]
  split
  · omega
  · omega

/-- A record that fits into the page buffer. -/
theorem writeZero_spec (d : Works) (h : BootLog e pitch m n) (hpitch : 12 ≤ pitch)
    (hn : n < m.length / pitch) (hfits : pitch ≤ pageSize) :
    ∃ r m', writeZero e d m pitch n = some (r, m') ∧
      (r = 0 → (∃ i, scanLog e m' pitch = some (i, 0)) ∧
        ∀ i, i < n → load m' (i * pitch) pitch = load m (i * pitch) pitch) := by
  obtain ⟨hlog, hcount, hother⟩ := h.append hpitch hn
  rw [writeZero, if_neg (Nat.not_lt.mpr hfits)]
  by_cases hw : d.writes = true
  · rw [if_pos hw]
    refine ⟨0, _, rfl, fun _ => ⟨⟨n + 1, ?_⟩, fun i hi => hother i (Nat.ne_of_lt hi)⟩⟩
    rw [scanLog_spec hlog hpitch, hcount]
  · rw [if_neg hw]
    exact ⟨-4, m, rfl, fun hr => absurd hr (by decide)⟩

theorem writeZero_none (d : Works) (hbig : ¬ pitch ≤ pageSize) :
    writeZero e d m pitch i = none := if_pos (Nat.lt_of_not_le hbig)

/-- What happens to a log. -/
theorem mtdResetbc_eq {writesize : Nat} (d : Works)
    (h : BootLog e (bcOffsetIncrement writesize) m n) :
    mtdResetbc e d writesize m =
      if lastCount e (bcOffsetIncrement writesize) m n = 0 then some (0, m)
      else if n = m.length / bcOffsetIncrement writesize then
        if d.erases then writeZero e d (eraseAt m 0 m.length) (bcOffsetIncrement writesize) 0
        else some (-3, m)
      else writeZero e d m (bcOffsetIncrement writesize) n := by
  rw [mtdResetbc, scanLog_spec h (bcOffsetIncrement_spec writesize).1]

/-- **Resetting the boot count.** It works on every log exactly if the page of the device fits into
the buffer, or none is written. -/
theorem mtdResetbc_iff {writesize : Nat} (d : Works)
    (h : BootLog e (bcOffsetIncrement writesize) m n) :
    Resets e d writesize m n ↔ FitsPage e d writesize m n := by
  obtain ⟨hpitch, hpage⟩ := bcOffsetIncrement_spec writesize
  have hscan := scanLog_spec h hpitch
  rw [Resets, FitsPage, mtdResetbc_eq d h, ← hpage]
  generalize bcOffsetIncrement writesize = pitch at h hpitch hscan ⊢
  by_cases hzero : lastCount e pitch m n = 0
  · rw [if_pos hzero]
    refine iff_of_true ⟨0, m, rfl, fun _ => ⟨⟨n, ?_⟩, .inl fun i _ => rfl⟩⟩ (.inr (.inl hzero))
    rw [hscan, hzero]
  rw [if_neg hzero]
  by_cases hfull : n = m.length / pitch
  · rw [if_pos hfull]
    cases her : d.erases with
    | false =>
      rw [if_neg Bool.false_ne_true]
      exact iff_of_true ⟨-3, m, rfl, fun hr => absurd hr (by decide)⟩ (.inr (.inr ⟨hfull, rfl⟩))
    | true =>
      rw [if_pos rfl]
      by_cases hfits : pitch ≤ pageSize
      · have hne : n ≠ 0 := by
          rintro rfl
          exact hzero rfl
        obtain ⟨r, m', hrun, hok⟩ := writeZero_spec d (bootLog_erase e pitch m) hpitch
          (by rw [length_eraseAt]; omega) hfits
        exact iff_of_true ⟨r, m', hrun, fun hr => ⟨(hok hr).1, .inr ⟨hfull, hzero⟩⟩⟩ (.inl hfits)
      · rw [writeZero_none d hfits]
        refine iff_of_false (fun ⟨r, m', hrun, _⟩ => by cases hrun) ?_
        rintro (hle | hlast | ⟨-, hoff⟩)
        · exact hfits hle
        · exact hzero hlast
        · cases hoff
  · rw [if_neg hfull]
    by_cases hfits : pitch ≤ pageSize
    · obtain ⟨r, m', hrun, hok⟩ := writeZero_spec d h hpitch (by have := h.le; omega) hfits
      exact iff_of_true ⟨r, m', hrun, fun hr => ⟨(hok hr).1, .inl (hok hr).2⟩⟩ (.inl hfits)
    · rw [writeZero_none d hfits]
      refine iff_of_false (fun ⟨r, m', hrun, _⟩ => by cases hrun) ?_
      rintro (hle | hlast | ⟨hall, -⟩)
      · exact hfits hle
      · exact hzero hlast
      · exact hfull hall

/-- A log of two slots, with a record that has the count 3 in the first. -/
def threeRecord : Bytes := [0x11, 0x08, 0x11, 0x20, 3, 0, 0, 0, 0x11, 0x08, 0x11, 0x20]

def threeBoots (pitch : Nat) : Bytes := threeRecord ++ List.replicate (pitch - 12 + pitch) 0xff

theorem threeBoots_log (pitch : Nat) (hpitch : 12 ≤ pitch) :
    BootLog .little pitch (threeBoots pitch) 1 ∧ lastCount .little pitch (threeBoots pitch) 1 = 3 ∧
      (threeBoots pitch).length / pitch = 2 := by
  have hlen : (threeBoots pitch).length = 2 * pitch := by
    rw [threeBoots, List.length_append, List.length_replicate, threeRecord]
    simp only [List.length_cons, List.length_nil]
    omega
  have hslots : (threeBoots pitch).length / pitch = 2 := by
    rw [hlen, Nat.mul_div_cancel _ (by omega)]
  have hfront (off : Nat) (hoff : off + 4 ≤ 12) :
      load (threeBoots pitch) off 4 = load threeRecord off 4 := by
    refine load_congr fun i _ hi => ?_
    exact List.getElem?_append_left (Nat.lt_of_lt_of_le hi hoff)
  refine ⟨⟨by omega, fun i hi => ?_, fun i hlo hhi => ?_⟩, ?_, hslots⟩
  · obtain rfl : i = 0 := by omega
    rw [bcMagic, Nat.zero_mul, hfront 0 (by decide)]
    decide
  · obtain rfl : i = 1 := by omega
    rw [Nat.one_mul]
    refine load_eq_replicate fun k hk hk' => ?_
    have hrec : threeRecord.length = 12 := rfl
    rw [threeBoots, List.getElem?_append_right (by omega), List.getElem?_replicate,
      if_pos (by omega)]
  · rw [lastCount, bcCount, Nat.zero_mul, hfront (0 + 4) (by decide)]
    decide

/-- The slots of an older device. -/
theorem mtdResetbc_small : Resets .little ⟨true, true⟩ 16 (threeBoots 16) 1 :=
  (mtdResetbc_iff _ (threeBoots_log 16 (by decide)).1).mpr (.inl (by decide))

/-- A device with pages of 4096 bytes. -/
theorem not_mtdResetbc : BootLog .little (bcOffsetIncrement 4096) (threeBoots 4096) 1 ∧
    ¬ Resets .little ⟨true, true⟩ 4096 (threeBoots 4096) 1 := by
  obtain ⟨hlog, hcount, hslots⟩ := threeBoots_log 4096 (by decide)
  refine ⟨hlog, ?_⟩
  rintro ⟨r, m', hrun, -⟩
  have hpitch : bcOffsetIncrement 4096 = 4096 := rfl
  have hbig : ¬ 4096 ≤ pageSize := by decide
  rw [mtdResetbc_eq _ (hpitch.symm ▸ hlog), hpitch, hcount, hslots, if_neg (by decide),
    if_neg (by decide), writeZero_none _ hbig] at hrun
  cases hrun

end

end UolaOs.Mtd
