import UolaOs.Mtd.Placement

/-!
# Writing to one device

`mtdWrite_one_iff`: with a part offset the marks are asked for at the wrong blocks. The image
lands in the good blocks from the offset on exactly when the marks agree.
-/

namespace UolaOs.Mtd

/-- The good blocks from block `P` on. -/
def Device.goodFrom (d : Device) (P : Nat) : List Nat :=
  (List.range' P (d.blocks - P)).filter fun i => !d.bad i

/-- The image is in place: only good blocks from block `P` on have been touched, nothing before
them has changed, and their contents begin with the blocks of the image. -/
structure Placed (d : Device) (es P : Nat) (data : List Bytes) (flash flash' : Flash)
    (touched : List (Nat × Nat)) : Prop where
  good : ∀ t ∈ touched, ∀ a, t.1 ≤ a → a < t.1 + t.2 →
    P * es ≤ a ∧ a / es < d.blocks ∧ d.bad (a / es) = false
  before : ∀ a < P * es, flash' a = flash a
  contents : data <+: (d.goodFrom P).map (blockAt es flash')

/-- How many blocks are usable before index `i`. -/
def Device.usableBelow (d : Device) (i : Nat) : Nat := ((List.range i).filter fun k => !d.marked k).length

/-- If the usable blocks suffice for `n` blocks, then every index that is skipped before the last
of them is written is marked bad `P` blocks later, too. -/
def SkipsAgree (d : Device) (P n : Nat) : Prop :=
  n ≤ (d.usableFrom P 0).length → ∀ i < d.stopIndex P, d.marked i = true → d.usableBelow i < n →
    d.bad (P + i) = true

section
variable {d : Device} {es P : Nat} {beyond : Nat → UInt8} {flash : Flash}

/-- A run on one device. -/
theorem mtdWrite_one (hes : 0 < es) (d : Device) (P : Nat) (beyond : Nat → UInt8) (flash : Flash)
    {buffered : Bytes} (hb : buffered.length ≤ es) (image : Bytes) :
    let data := padded es (buffered ++ image)
    let gs := d.usableFrom P 0
    (gs.length < data.length → mtdWrite es (P * es) beyond [⟨d, flash⟩] buffered image = none) ∧
    (data.length ≤ gs.length → ∃ flash' touched,
      mtdWrite es (P * es) beyond [⟨d, flash⟩] buffered image =
        some ⟨[(flash', touched)], false⟩ ∧
      flash' = writeBlocks es flash (gs.map (P + ·)) data ∧
      ∀ t ∈ touched, ∃ i, P ≤ i ∧ i < d.blocks ∧ d.bad i = false ∧ t = (i * es, es)) := by
  intro data gs
  let st : St :=
    { flash := flash, pos := d.seekSet es (P * es), w := 0, e := 0, skip_bad_blocks := 0
      offset := 0, buf := buffered, image := image, touched := [], overread := false }
  have start : Clean d es P 0 0 0 st := clean_start rfl rfl rfl rfl rfl rfl rfl
  have run : CleanEnd d es P beyond false gs data flash 0
      (writeLoop d es (P * es) beyond false (buffered.length + image.length + 1) st) :=
    device_clean hes start hb
  have opened : openDevice es (P * es) ⟨d, flash⟩
      { flash := fun _ => 0, pos := 0, w := 0, e := 0, skip_bad_blocks := 0, offset := 0
        buf := buffered, image := image, touched := [], overread := false } = st := rfl
  simp only [mtdWrite, writeDevices, opened, List.isEmpty_nil, Bool.not_true, List.map_nil]
  generalize writeLoop d es (P * es) beyond false (buffered.length + image.length + 1) st = res
    at run ⊢
  cases run with
  | done st' fits written excess touched =>
    refine ⟨fun short => absurd fits (Nat.not_le_of_lt short), fun _ => ?_⟩
    exact ⟨st'.flash, st'.touched, by simp [excess], written, touched⟩
  | exit short stuck => exact ⟨fun _ => rfl, fun fits => absurd fits (Nat.not_le_of_lt short)⟩
  | left st' short =>
    exact ⟨fun _ => rfl, fun fits => absurd fits (Nat.not_le_of_lt short)⟩

/-! ## The good blocks and the usable ones -/

theorem usableBelow_mono {i k : Nat} (h : i ≤ k) : d.usableBelow i ≤ d.usableBelow k := by
  obtain ⟨j, rfl⟩ := Nat.exists_eq_add_of_le h
  rw [Device.usableBelow, Device.usableBelow, List.range_add, List.filter_append,
    List.length_append]
  omega

theorem usableBelow_succ {i : Nat} (h : d.marked i = false) :
    d.usableBelow (i + 1) = d.usableBelow i + 1 := by
  simp [Device.usableBelow, List.range_succ, List.filter_append, h]

/-- The first `n` usable indices are all those below some index. -/
theorem take_usable (N n : Nat) (h : n ≤ d.usableBelow N) :
    ∃ K ≤ N, ((List.range N).filter fun k => !d.marked k).take n =
      ((List.range K).filter fun k => !d.marked k) ∧ ∀ i < K, d.usableBelow i < n := by
  induction N with
  | zero => exact ⟨0, Nat.le_refl 0, by simp, by simp⟩
  | succ N ih =>
    by_cases hn : n ≤ d.usableBelow N
    · obtain ⟨K, hK, take, below⟩ := ih hn
      refine ⟨K, by omega, ?_, below⟩
      rw [List.range_succ, List.filter_append, List.take_append_of_le_length hn, take]
    · refine ⟨N + 1, Nat.le_refl _, ?_, fun i hi => ?_⟩
      · refine List.take_of_length_le (Nat.le_trans ?_ (Nat.lt_of_not_le hn))
        rw [List.range_succ, List.filter_append, List.length_append]
        have last : ([N].filter fun k => !d.marked k).length ≤ 1 := List.length_filter_le _ _
        simp only [Device.usableBelow]
        omega
      · have := usableBelow_mono (d := d) (Nat.le_of_lt_succ hi)
        omega

/-- A block that is erased is good. -/
theorem usable_good {i : Nat} (hi : i < d.stopIndex P) (hm : d.marked i = false) :
    P + i < d.blocks ∧ d.bad (P + i) = false := takes_good (takes_of_lt hi hm)

/-- Up to an index below which the marks agree, the good blocks are the usable ones. -/
theorem goodFrom_eq {K : Nat} (hK : K ≤ d.stopIndex P)
    (agree : ∀ i < K, d.marked i = true → d.bad (P + i) = true) (inside : P + K ≤ d.blocks) :
    d.goodFrom P = ((List.range K).filter fun k => !d.marked k).map (P + ·) ++
      (List.range' (P + K) (d.blocks - P - K)).filter fun i => !d.bad i := by
  have same : ((List.range K).filter fun k => !d.marked k) =
      (List.range K).filter fun k => !d.bad (P + k) := by
    apply List.filter_congr
    intro i hi
    have hi := List.mem_range.mp hi
    cases hm : d.marked i with
    | true => rw [agree i hi hm]
    | false => rw [(usable_good (Nat.lt_of_lt_of_le hi hK) hm).2]
  have split : d.blocks - P = K + (d.blocks - P - K) := by omega
  have shifted : List.range' P K = (List.range K).map (P + ·) := by
    rw [List.range_eq_range', List.map_add_range', Nat.add_zero]
  rw [Device.goodFrom, split, ← List.range'_append_1, List.filter_append, shifted,
    List.filter_map, same, ← split]
  rfl

/-- Past the last usable block nothing lies inside the device any more. -/
theorem inside_of_usableBelow {i n : Nat} (hn : n ≤ (d.usableFrom P 0).length)
    (hi : d.usableBelow i < n) : ∃ k, i ≤ k ∧ k < d.stopIndex P ∧ d.marked k = false := by
  by_contra none
  have below : d.usableBelow (d.stopIndex P) ≤ d.usableBelow i := by
    rcases Nat.le_total (d.stopIndex P) i with h | h
    · exact usableBelow_mono h
    · obtain ⟨j, hj⟩ := Nat.exists_eq_add_of_le h
      have nothing : ((List.range j).map (i + ·)).filter (fun k => !d.marked k) = [] := by
        rw [List.filter_eq_nil_iff]
        intro k hk
        obtain ⟨l, hl, rfl⟩ := List.mem_map.mp hk
        have hl := List.mem_range.mp hl
        cases hm : d.marked (i + l) with
        | true => simp
        | false => exact absurd ⟨i + l, by omega, by omega, hm⟩ none
      rw [hj, Device.usableBelow, List.range_add, List.filter_append, nothing, List.append_nil]
      exact Nat.le_refl _
  have total : (d.usableFrom P 0).length = d.usableBelow (d.stopIndex P) := by
    rw [usableFrom_zero, Device.usableBelow]
  omega

/-- With marks that agree the image is in place. -/
theorem placed_of_agree {data : List Bytes} (hdata : ∀ b ∈ data, b.length = es)
    (fits : data.length ≤ (d.usableFrom P 0).length) (agree : SkipsAgree d P data.length) :
    data <+: (d.goodFrom P).map
      (blockAt es (writeBlocks es flash ((d.usableFrom P 0).map (P + ·)) data)) := by
  let gs := (d.usableFrom P 0).map (P + ·)
  have nodup : gs.Nodup := List.Nodup.map (fun _ _ h => Nat.add_left_cancel h) (usableFrom_nodup 0)
  have written : (gs.map (blockAt es (writeBlocks es flash gs data))).take data.length = _ :=
    map_blockAt_writeBlocks hdata nodup
  have size : gs.length = (d.usableFrom P 0).length := List.length_map _
  rw [size, List.take_of_length_le fits] at written
  have total : (d.usableFrom P 0).length = d.usableBelow (d.stopIndex P) := by
    rw [usableFrom_zero, Device.usableBelow]
  obtain ⟨K, hK, take, below⟩ := take_usable (d.stopIndex P) data.length (total ▸ fits)
  rcases Nat.eq_zero_or_pos K with rfl | hpos
  · have none : data.length = 0 := by
      have := congrArg List.length take
      rw [List.length_take, ← usableFrom_zero, Nat.min_eq_left fits] at this
      simpa using this
    rw [List.length_eq_zero_iff.mp none]
    exact List.nil_prefix
  · obtain ⟨k, hk, hks, hkm⟩ := inside_of_usableBelow fits (below (K - 1) (by omega))
    have inside := (usable_good hks hkm).1
    have good := goodFrom_eq hK
      (fun i hi hm => agree fits i (Nat.lt_of_lt_of_le hi hK) hm (below i hi))
      (show P + K ≤ d.blocks by omega)
    change data <+: (d.goodFrom P).map (blockAt es (writeBlocks es flash gs data))
    generalize writeBlocks es flash gs data = flash' at written ⊢
    have front : data = (((List.range K).filter fun k => !d.marked k).map (P + ·)).map
        (blockAt es flash') := by
      rw [← take, ← usableFrom_zero, List.map_take, List.map_take]
      exact written.symm
    rw [good, List.map_append, ← front]
    exact List.prefix_append _ _

/-- A good block that is skipped keeps what it held. -/
theorem agree_of_placed (hes : 0 < es) {data : List Bytes}
    (hdata : ∀ b ∈ data, b.length = es)
    (placed : ∀ flash : Flash, data <+: (d.goodFrom P).map
      (blockAt es (writeBlocks es flash ((d.usableFrom P 0).map (P + ·)) data))) :
    SkipsAgree d P data.length := by
  intro fits i
  induction i using Nat.strongRecOn with
  | ind i ih =>
    intro hi hm hb
    by_contra hgood
    have hgood : d.bad (P + i) = false := by simpa using hgood
    obtain ⟨k, hk, hks, hkm⟩ := inside_of_usableBelow fits hb
    have inside := (usable_good hks hkm).1
    have earlier : ∀ k < i, d.marked k = true → d.bad (P + k) = true := fun k hk hkm =>
      ih k hk (by omega) hkm (Nat.lt_of_le_of_lt (usableBelow_mono (Nat.le_of_lt hk)) hb)
    have good := goodFrom_eq (Nat.le_of_lt hi) earlier (show P + i ≤ d.blocks by omega)
    have count : d.blocks - P - i = (d.blocks - P - i - 1) + 1 := by omega
    rw [count, List.range'_succ, List.filter_cons_of_pos (by simp [hgood])] at good
    -- The block before which the run has gone wrong held something else.
    let want := data[d.usableBelow i]
    let flash : Flash := fun a => if want.getD (a - (P + i) * es) 0 = 0 then 1 else 0
    have fresh : P + i ∉ (d.usableFrom P 0).map (P + ·) := by
      intro h
      obtain ⟨l, hl, heq⟩ := List.mem_map.mp h
      obtain rfl : l = i := Nat.add_left_cancel heq
      rw [(mem_usableFrom.mp hl).2.2] at hm
      cases hm
    have kept : blockAt es (writeBlocks es flash ((d.usableFrom P 0).map (P + ·)) data) (P + i) =
        blockAt es flash (P + i) := blockAt_writeBlocks_ne hdata fresh
    have at_i := (placed flash).getElem hb
    simp only [good, List.map_append, List.map_cons] at at_i
    rw [List.getElem_append_right (by simp [Device.usableBelow])] at at_i
    simp only [List.length_map, Device.usableBelow, Nat.sub_self, List.getElem_cons_zero] at at_i
    rw [kept] at at_i
    have first := congrArg (fun block => block.getD 0 0) at_i
    have start : (blockAt es flash (P + i)).getD 0 0 = flash ((P + i) * es) := by
      simp [blockAt, hes]
    rw [start] at first
    simp only [flash, Nat.sub_self] at first
    split at first
    · rename_i hzero
      exact absurd (hzero.symm.trans first) (by decide)
    · rename_i hne
      exact hne first

end

/-- **One device.** Whatever the device held before, a run that returns 0 leaves the image in
place, if and only if the marks of the blocks it skips agree with those `part_offset` later. -/
theorem mtdWrite_one_iff (d : Device) (es P : Nat) (hes : 0 < es) (beyond : Nat → UInt8)
    (buffered image : Bytes) (hb : buffered.length ≤ es) :
    (∀ (flash : Flash) (out : Outcome),
      mtdWrite es (P * es) beyond [⟨d, flash⟩] buffered image = some out →
      ∃ flash' touched, out.devices = [(flash', touched)] ∧
        Placed d es P (padded es (buffered ++ image)) flash flash' touched) ↔
      SkipsAgree d P (padded es (buffered ++ image)).length := by
  have hdata : ∀ b ∈ padded es (buffered ++ image), b.length = es :=
    fun b => length_of_mem_padded hes
  constructor
  · intro intact
    by_cases fits : (padded es (buffered ++ image)).length ≤ (d.usableFrom P 0).length
    · refine agree_of_placed hes hdata fun flash => ?_
      obtain ⟨flash', touched, run, written, -⟩ :=
        (mtdWrite_one hes d P beyond flash hb image).2 fits
      obtain ⟨flash'', touched'', same, placed⟩ := intact flash _ run
      obtain ⟨rfl, rfl⟩ := Prod.mk.injEq .. ▸ List.singleton_inj.mp same
      exact written ▸ placed.contents
    · exact fun fits' => absurd fits' fits
  · intro agree flash out hout
    obtain ⟨short, done⟩ := mtdWrite_one hes d P beyond flash hb image
    rcases Nat.lt_or_ge (d.usableFrom P 0).length (padded es (buffered ++ image)).length with h | h
    · rw [short h] at hout
      cases hout
    · obtain ⟨flash', touched, run, written, touches⟩ := done h
      rw [run] at hout
      obtain rfl := Option.some.inj hout
      refine ⟨flash', touched, rfl, fun t ht a hl hu => ?_, fun a ha => ?_, ?_⟩
      · obtain ⟨i, hP, hi, hgood, rfl⟩ := touches t ht
        have block : a / es = i := Nat.div_eq_of_lt_le hl (by rw [Nat.succ_mul]; exact hu)
        have := Nat.mul_le_mul_right es hP
        exact ⟨Nat.le_trans this hl, by rw [block]; exact hi, by rw [block]; exact hgood⟩
      · rw [written]
        refine writeBlocks_other hdata fun i hi => ?_
        obtain ⟨k, -, rfl⟩ := List.mem_map.mp hi
        have := Nat.mul_le_mul_right es (Nat.le_add_right P k)
        omega
      · rw [written]
        exact placed_of_agree hdata h agree

/-- A NAND device of four blocks, the first one bad. -/
def nandFour : Device where
  nand := true
  blocks := 4
  bad := fun i => i == 0
  erasable := fun i => i != 0
  refuses := by simp

theorem mtdWrite_one_iff_nandFour :
    (∀ (flash : Flash) (out : Outcome),
      mtdWrite 0x20000 (1 * 0x20000) (fun _ => 0) [⟨nandFour, flash⟩] [] [0] = some out →
      ∃ flash' touched, out.devices = [(flash', touched)] ∧
        Placed nandFour 0x20000 1 (padded 0x20000 ([] ++ [0])) flash flash' touched) ↔
      SkipsAgree nandFour 1 (padded 0x20000 ([] ++ [0])).length :=
  mtdWrite_one_iff nandFour 0x20000 1 (by decide) (fun _ => 0) [] [0] (by decide)

theorem padded_singleton {es : Nat} (hes : 0 < es) (b : UInt8) :
    padded es [b] = [b :: List.replicate (es - 1) 0xff] := by
  obtain ⟨n, rfl⟩ := Nat.exists_eq_succ_of_ne_zero (Nat.ne_of_gt hes)
  rw [padded_of_ne hes (List.cons_ne_nil b []), List.take_succ_cons, List.drop_succ_cons,
    List.take_nil, List.drop_nil, padded_nil]
  rfl

theorem nandFour_misplaced {es : Nat} (hes : 0 < es) :
    ∃ out, mtdWrite es (1 * es) (fun _ => 0) [⟨nandFour, fun _ => 0xff⟩] [] [0] = some out ∧
      ¬ ∃ flash' touched, out.devices = [(flash', touched)] ∧
        Placed nandFour es 1 (padded es [0]) (fun _ => 0xff) flash' touched := by
  have usable : nandFour.usableFrom 1 0 = [1, 2] := by decide
  have good : nandFour.goodFrom 1 = [1, 2, 3] := by decide
  have data := padded_singleton hes 0
  have fits : (padded es ([] ++ [0])).length ≤ (nandFour.usableFrom 1 0).length := by
    rw [List.nil_append, data, usable]
    exact Nat.le_succ 1
  have none : ([] : Bytes).length ≤ es := Nat.zero_le es
  obtain ⟨flash', touched, run, written, -⟩ :=
    (mtdWrite_one hes nandFour 1 (fun _ => 0) (fun _ => 0xff) none [0]).2 fits
  refine ⟨_, run, ?_⟩
  rintro ⟨flash'', touched'', same, placed⟩
  obtain ⟨rfl, rfl⟩ := Prod.mk.injEq .. ▸ List.singleton_inj.mp same
  have kept : blockAt es flash' 1 = blockAt es (fun _ => 0xff) 1 := by
    rw [written]
    refine blockAt_writeBlocks_ne (fun b => length_of_mem_padded hes) ?_
    rw [usable]
    decide
  have first := placed.contents
  rw [data, good, List.map_cons, kept, List.cons_prefix_cons] at first
  have byte := congrArg (fun block => block.getD 0 0) first.1
  simp [blockAt, hes] at byte

/-- The image lands one block too late, behind a good block. -/
theorem mtdWrite_one_misplaced :
    ∃ out, mtdWrite 0x20000 (1 * 0x20000) (fun _ => 0) [⟨nandFour, fun _ => 0xff⟩] [] [0] =
        some out ∧
      ¬ ∃ flash' touched, out.devices = [(flash', touched)] ∧
        Placed nandFour 0x20000 1 (padded 0x20000 [0]) (fun _ => 0xff) flash' touched :=
  nandFour_misplaced (by decide)

end UolaOs.Mtd
