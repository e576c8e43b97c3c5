import UolaOs.Rtl83xx.Command
import UolaOs.Rtl83xx.Family
import Mathlib.Logic.Function.Basic

/-!
# Egress rates of the RTL839x

`rtl839x_set_egress_rate` and `rtl839x_egress_rate_queue_limit` of qos.c. A row of the scheduling
table has 9 words, the last of which has the lowest bits.

* `setEgressRate_spec`: the rate of a port;
* `rates_iff`: the one queue whose rate is written where it belongs.
-/

namespace UolaOs.Rtl83xx.Rates

/-- The words of a row, or the registers `RTL839X_TBL_ACCESS_DATA_2`. -/
abbrev Row := Fin 9 → BitVec 32

structure State where
  /-- The scheduling table. -/
  table : Nat → Row
  data : Row

/-- `rtl839x_exec_tbl2_cmd`; the tables of other types are left out. -/
def execTbl2 (cmd : BitVec 32) (s : State) : State :=
  let row := (cmd &&& 0x3f).toNat
  if cmd &&& 0x200 = 0 ∨ cmd &&& 0xc0 ≠ 0 then s
  else if cmd &&& 0x100 = 0 then { s with data := s.table row }
  else { s with table := Function.update s.table row s.data }

/-- `rtl839x_read_scheduling_table` -/
def readSchedulingTable (port : Nat) (s : State) : State :=
  execTbl2 (0x200 ||| (BitVec.ofNat 32 port &&& 0x3f)) s

/-- `rtl839x_write_scheduling_table` -/
def writeSchedulingTable (port : Nat) (s : State) : State :=
  execTbl2 (0x200 ||| 0x100 ||| (BitVec.ofNat 32 port &&& 0x3f)) s

/-- `sw_w32_mask` on a data register, if it is one of the row. -/
def maskData (clear set : BitVec 32) (i : Int) (s : State) : Option State :=
  if h : 0 ≤ i ∧ i ≤ 8 then
    have hlt : i.toNat < 9 := by omega
    some { s with
      data := Function.update s.data ⟨i.toNat, hlt⟩ ((s.data ⟨i.toNat, hlt⟩ &&& ~~~ clear) ||| set) }
  else none

/-- A shift to the left, which has no meaning from 32 on. -/
def shl (v : BitVec 32) (n : Int) : Option (BitVec 32) :=
  if 0 ≤ n ∧ n < 32 then some (v <<< n.toNat) else none

/-- A shift to the right. -/
def shr (v : BitVec 32) (n : Int) : Option (BitVec 32) :=
  if 0 ≤ n ∧ n < 32 then some (v >>> n.toNat) else none

/-- `priv->cpu_port` -/
def cpuPort : Nat := Family.rtl8390.cpuPort

/-- `rtl839x_set_egress_rate` -/
def setEgressRate (port : Nat) (rate : BitVec 32) (s : State) : BitVec 32 × State :=
  if port ≥ cpuPort then (-1, s)
  else
    let s := readSchedulingTable port s
    let oldRate := ((s.data 7 &&& 0xff) <<< 12) ||| (s.data 8 >>> 20)
    let data := Function.update s.data 7 ((s.data 7 &&& ~~~ 0xff#32) ||| ((rate >>> 12) &&& 0xff))
    let data := Function.update data 8 ((data 8 &&& ~~~ (0xfff#32 <<< 20)) ||| (rate <<< 20))
    (oldRate, writeSchedulingTable port { s with data := data })

/-- `rtl839x_egress_rate_queue_limit`; `none` when a shift or a register is out of range. The shifts
by 5 are a division and a product here. -/
def egressRateQueueLimit (port : Nat) (queue : Int) (rate : BitVec 32) (s : State) :
    Option State := do
  let lsb := 128 + queue * 20
  let lowByte := 8 - lsb / 32
  let startBit := lsb - lowByte * 32
  let highMask ← shr 0xfffff (32 - startBit)
  if port ≥ cpuPort then
    return s
  if queue > 7 then
    return s
  let s := readSchedulingTable port s
  let clear ← shl 0xfffff startBit
  let set ← shl (rate &&& 0xfffff) startBit
  let s ← maskData clear set lowByte s
  if highMask ≠ 0 then
    let high ← shr (rate &&& 0xfffff) (32 - startBit)
    let s ← maskData highMask high (lowByte - 1) s
    return writeSchedulingTable port s
  return writeSchedulingTable port s

/-! ## Fields of a row -/

/-- A bit of a row. -/
def Row.bit (row : Row) (b : Nat) : Prop := b % 32 ∈ row ⟨8 - b / 32, by omega⟩

/-- The 20 bits from `lsb` on are the rate, and the other bits of the row are the old ones. -/
def FieldSet (row row' : Row) (lsb : Nat) (rate : BitVec 20) : Prop :=
  ∀ b < 288, row'.bit b ↔ if lsb ≤ b ∧ b < lsb + 20 then b - lsb ∈ rate else row.bit b

/-- A field of the row of a port is set, and the other rows are the old ones. -/
structure RateSet (s s' : State) (port lsb : Nat) (rate : BitVec 20) : Prop where
  field : FieldSet (s.table port) (s'.table port) lsb rate
  frame : ∀ p, p ≠ port → s'.table p = s.table p

/-- The rate of a port is set, and the one before is returned. -/
structure PortRate (s : State) (port : Nat) (rate : BitVec 20) : Prop where
  set : RateSet s (setEgressRate port (rate.setWidth 32) s).2 port 20 rate
  old : ∀ k, k ∈ (setEgressRate port (rate.setWidth 32) s).1 ↔
    k < 20 ∧ (s.table port).bit (20 + k)

/-- The rate of a queue is set. -/
def QueueRate (s : State) (port : Nat) (queue : Int) (rate : BitVec 20) : Prop :=
  ∃ s', egressRateQueueLimit port queue (rate.setWidth 32) s = some s' ∧
    RateSet s s' port (128 + 20 * queue.toNat) rate

section
variable {s : State} {port : Nat} {rate : BitVec 20} {row : Row}

/-! ## Table access -/

theorem lt_rows (h : port < cpuPort) : port < 2 ^ 6 := Nat.lt_trans h (by decide)

theorem readSchedulingTable_eq (h : port < cpuPort) :
    readSchedulingTable port s = { s with data := s.table port } := by
  have hrow := @command_index 0x200 0x3f port 6 rfl (by decide) (by decide) (lt_rows h)
  rw [readSchedulingTable, execTbl2, command_flags (by decide), command_flags (by decide),
    command_flags (by decide), hrow]
  rfl

theorem writeSchedulingTable_eq (h : port < cpuPort) :
    writeSchedulingTable port s = { s with table := Function.update s.table port s.data } := by
  have hrow := @command_index (0x200 ||| 0x100) 0x3f port 6 rfl (by decide) (by decide)
    (lt_rows h)
  rw [writeSchedulingTable, execTbl2, command_flags (by decide), command_flags (by decide),
    command_flags (by decide), hrow]
  rfl

/-! ## A field in two words -/

theorem mem_rate {k : Nat} : k ∈ rate.setWidth 32 ↔ k ∈ rate := by
  rw [mem_setWidth]
  refine and_iff_right_of_imp fun h => ?_
  have hlt := lt_of_mem_mask h
  omega

/-- The low 12 bits of a rate are at the end of a word. -/
theorem mem_low {w : BitVec 32} {v : BitVec 32} {k : Nat} (hv : ∀ k < 12, k ∈ v ↔ k ∈ rate) :
    k ∈ (w &&& ~~~ (0xfff#32 <<< 20)) ||| (v <<< 20) ↔
      k ∈ w ∧ k < 20 ∨ 20 ≤ k ∧ k < 32 ∧ k - 20 ∈ rate := by
  have hones : k ∈ 0xfff#32 <<< 20 ↔ 20 ≤ k ∧ k < 32 := by
    rw [mem_shiftLeft]
    refine and_congr_right fun hle => and_iff_left_of_imp fun hlt => ?_
    exact (mem_ones (n := 12)).mpr ⟨by omega, by omega⟩
  rw [mem_or, mem_and_not, hones, mem_shiftLeft]
  refine or_congr (and_congr_right fun hk => ?_)
    (and_congr_right fun hle => and_congr_right fun hlt => hv _ (by omega))
  have hlt := lt_of_mem_mask hk
  omega

/-- The high 8 bits of a rate are at the start of a word. -/
theorem mem_high {w : BitVec 32} {v : BitVec 32} {k : Nat} (hv : ∀ k < 8, k ∈ v ↔ 12 + k ∈ rate)
    (hlt : ∀ k, k ∈ v → k < 8) :
    k ∈ (w &&& ~~~ 0xff#32) ||| v ↔ k ∈ w ∧ 8 ≤ k ∨ k < 8 ∧ 12 + k ∈ rate := by
  have hones : k ∈ 0xff#32 ↔ k < 8 :=
    (mem_ones (n := 8)).trans (and_iff_right_of_imp fun h => Nat.lt_trans h (by decide))
  rw [mem_or, mem_and_not, hones, Nat.not_lt]
  refine or_congr Iff.rfl ⟨fun h => ⟨hlt _ h, (hv _ (hlt _ h)).mp h⟩, fun h => (hv _ h.1).mpr h.2⟩

/-- A field from bit 20 of a word on. -/
theorem fieldSet_torn {row' : Row} {low high : Fin 9} (hnext : high.val + 1 = low.val)
    (hlow : ∀ k, k ∈ row' low ↔ k ∈ row low ∧ k < 20 ∨ 20 ≤ k ∧ k < 32 ∧ k - 20 ∈ rate)
    (hhigh : ∀ k, k ∈ row' high ↔ k ∈ row high ∧ 8 ≤ k ∨ k < 8 ∧ 12 + k ∈ rate)
    (hother : ∀ i, i ≠ low → i ≠ high → row' i = row i) :
    FieldSet row row' (32 * (8 - low.val) + 20) rate := by
  intro b hb
  have hword : 8 - b / 32 < 9 := by omega
  obtain ⟨low, hl⟩ := low
  obtain ⟨high, hh⟩ := high
  dsimp only at hnext hlow hhigh hother ⊢
  rw [Row.bit, Row.bit]
  by_cases h1 : 8 - b / 32 = low
  · have hin : 32 * (8 - low) + 20 ≤ b ∧ b < 32 * (8 - low) + 20 + 20 ↔ 20 ≤ b % 32 := by omega
    have hmod : b % 32 < 32 := Nat.mod_lt _ (by decide)
    subst h1
    rw [hlow]
    by_cases h20 : 20 ≤ b % 32
    · have hsub : b - (32 * (8 - (8 - b / 32)) + 20) = b % 32 - 20 := by omega
      rw [if_pos (hin.mpr h20), hsub]
      simp only [h20, hmod, Nat.not_lt.mpr h20, and_false, true_and, false_or]
    · rw [if_neg (mt hin.mp h20)]
      simp only [h20, Nat.not_le.mp h20, and_true, false_and, or_false]
  · by_cases h2 : 8 - b / 32 = high
    · have hin : 32 * (8 - low) + 20 ≤ b ∧ b < 32 * (8 - low) + 20 + 20 ↔ b % 32 < 8 := by omega
      subst h2
      rw [hhigh]
      by_cases h8 : b % 32 < 8
      · have hsub : b - (32 * (8 - low) + 20) = 12 + b % 32 := by omega
        rw [if_pos (hin.mpr h8), hsub]
        simp only [h8, Nat.not_le.mpr h8, and_false, true_and, false_or]
      · rw [if_neg (mt hin.mp h8)]
        simp only [h8, Nat.not_lt.mp h8, and_true, false_and, or_false]
    · have hout : ¬ (32 * (8 - low) + 20 ≤ b ∧ b < 32 * (8 - low) + 20 + 20) := by omega
      rw [if_neg hout, hother _ (fun h => h1 (congrArg Fin.val h)) (fun h => h2 (congrArg Fin.val h))]

/-- The row with a new rate from bit 20 of the word `low` on. -/
def torn (row : Row) (low high : Fin 9) (vlow vhigh : BitVec 32) : Row :=
  Function.update
    (Function.update row low ((row low &&& ~~~ (0xfff#32 <<< 20)) ||| (vlow <<< 20)))
    high ((row high &&& ~~~ 0xff#32) ||| vhigh)

theorem fieldSet_update (low : Fin 9) {high : Fin 9} {vlow vhigh : BitVec 32}
    (hnext : high.val + 1 = low.val)
    (hlow : ∀ k < 12, k ∈ vlow ↔ k ∈ rate) (hhigh : ∀ k < 8, k ∈ vhigh ↔ 12 + k ∈ rate)
    (hlt : ∀ k, k ∈ vhigh → k < 8) :
    FieldSet row (torn row low high vlow vhigh) (32 * (8 - low.val) + 20) rate := by
  have hne : low ≠ high := fun h => by
    rw [h] at hnext
    omega
  refine fieldSet_torn hnext (fun k => ?_) (fun k => ?_) fun i hil hih => ?_
  · rw [torn, Function.update_of_ne hne, Function.update_self]
    exact mem_low hlow
  · rw [torn, Function.update_self]
    exact mem_high hhigh hlt
  · rw [torn, Function.update_of_ne hih, Function.update_of_ne hil]

theorem mem_rate_high {k : Nat} :
    k ∈ (rate.setWidth 32 >>> 12) &&& 0xff ↔ k < 8 ∧ 12 + k ∈ rate := by
  rw [mem_and, mem_shiftRight, mem_rate, and_comm]
  refine and_congr_left fun _ => (mem_ones (n := 8)).trans ?_
  exact and_iff_right_of_imp fun h => Nat.lt_trans h (by decide)

/-- `rtl839x_set_egress_rate` -/
theorem setEgressRate_eq (h : port < cpuPort) :
    setEgressRate port (rate.setWidth 32) s =
      (((s.table port 7 &&& 0xff) <<< 12) ||| (s.table port 8 >>> 20),
        { table := Function.update s.table port
            (torn (s.table port) 8 7 (rate.setWidth 32) ((rate.setWidth 32 >>> 12) &&& 0xff))
          data := torn (s.table port) 8 7 (rate.setWidth 32)
            ((rate.setWidth 32 >>> 12) &&& 0xff) }) := by
  have hne : (8 : Fin 9) ≠ 7 := by decide
  rw [setEgressRate, if_neg (Nat.not_le.mpr h), readSchedulingTable_eq h, torn]
  dsimp only
  rw [writeSchedulingTable_eq h, Function.update_of_ne hne, Function.update_comm hne]

theorem rateSet_update {s' : State} {row' : Row} {lsb : Nat}
    (htable : s'.table = Function.update s.table port row')
    (h : FieldSet (s.table port) row' lsb rate) : RateSet s s' port lsb rate := by
  refine ⟨?_, fun p hp => ?_⟩
  · rw [htable, Function.update_self]
    exact h
  · rw [htable, Function.update_of_ne hp]

/-- The rate of a port. -/
theorem setEgressRate_spec (h : port < cpuPort) : PortRate s port rate := by
  refine ⟨?_, fun k => ?_⟩
  · rw [setEgressRate_eq h]
    exact rateSet_update rfl (fieldSet_update 8 rfl (fun k _ => mem_rate)
      (fun k hk => mem_rate_high.trans (and_iff_right hk)) fun k hk => (mem_rate_high.mp hk).1)
  · rw [setEgressRate_eq h, mem_or, mem_shiftLeft, mem_and, mem_shiftRight, Row.bit]
    have hbyte : k - 12 ∈ (0xff : BitVec 32) ↔ k - 12 < 8 :=
      (mem_ones (n := 8)).trans (and_iff_right_of_imp fun h => Nat.lt_trans h (by decide))
    rw [hbyte]
    rcases Nat.lt_or_ge k 12 with hk | hk
    · have hword : 8 - (20 + k) / 32 = 8 := by omega
      have hmod : (20 + k) % 32 = 20 + k := by omega
      have hlt : k < 20 := by omega
      simp only [hword, hmod, hlt, Nat.not_le.mpr hk, true_and, false_and, false_or]
      rfl
    · have hout : ¬ 20 + k ∈ s.table port 8 := fun hmem => by
        have hlt := lt_of_mem_mask hmem
        omega
      rw [or_iff_left hout]
      constructor
      · rintro ⟨-, -, hmem, h8⟩
        have hword : 8 - (20 + k) / 32 = 7 := by omega
        have hmod : (20 + k) % 32 = k - 12 := by omega
        refine ⟨by omega, ?_⟩
        simp only [hword, hmod]
        exact hmem
      · rintro ⟨h20, hmem⟩
        have hword : 8 - (20 + k) / 32 = 7 := by omega
        have hmod : (20 + k) % 32 = k - 12 := by omega
        simp only [hword, hmod] at hmem
        exact ⟨hk, by omega, hmem, by omega⟩

/-! ## Queues -/

/-- The shift for the high part is out of range for every other queue. -/
theorem egressRateQueueLimit_none {queue : Int} {r : BitVec 32} (h0 : 0 ≤ queue) (h7 : queue ≤ 7)
    (h1 : queue ≠ 1) : egressRateQueueLimit port queue r s = none := by
  have hshift : shr 0xfffff (32 - (128 + queue * 20 - (8 - (128 + queue * 20) / 32) * 32)) =
      none := by
    obtain rfl | rfl | rfl | rfl | rfl | rfl | rfl : queue = 0 ∨ queue = 2 ∨ queue = 3 ∨
      queue = 4 ∨ queue = 5 ∨ queue = 6 ∨ queue = 7 := by omega
    all_goals rfl
  rw [egressRateQueueLimit]
  dsimp only
  rw [hshift]
  rfl

theorem egressRateQueueLimit_eq (h : port < cpuPort) :
    egressRateQueueLimit port 1 (rate.setWidth 32) s =
      some { table := Function.update s.table port
              (torn (s.table port) 4 3 (rate.setWidth 32 &&& 0xfffff)
                ((rate.setWidth 32 &&& 0xfffff) >>> 12))
             data := torn (s.table port) 4 3 (rate.setWidth 32 &&& 0xfffff)
                ((rate.setWidth 32 &&& 0xfffff) >>> 12) } := by
  have hclear : 0xfffff#32 <<< 20 = 0xfff#32 <<< 20 := by decide
  -- the shifts by 20 and by 12 and the words 4 and 3 are those of the queue
  show (if port ≥ cpuPort then some s else
    (maskData (0xfffff#32 <<< 20) ((rate.setWidth 32 &&& 0xfffff) <<< 20) 4
      (readSchedulingTable port s)).bind fun s =>
        (maskData 0xff ((rate.setWidth 32 &&& 0xfffff) >>> 12) 3 s).bind fun s =>
          some (writeSchedulingTable port s)) = _
  rw [if_neg (Nat.not_le.mpr h), readSchedulingTable_eq h, hclear, torn]
  show some (writeSchedulingTable port { table := s.table, data := Function.update _ 3 _ }) = _
  rw [writeSchedulingTable_eq h]
  rfl

theorem mem_twenty {k : Nat} : k ∈ rate.setWidth 32 &&& 0xfffff ↔ k ∈ rate := by
  rw [mem_and, mem_rate]
  refine and_iff_left_of_imp fun h => (mem_ones (n := 20)).mpr ?_
  have hlt := lt_of_mem_mask h
  omega

/-- **Rates of queues.** A queue other than 1 has a shift that is out of range. -/
theorem rates_iff (h : port < cpuPort) {queue : Int} (h0 : 0 ≤ queue) (h7 : queue ≤ 7) :
    QueueRate s port queue rate ∧ PortRate s port rate ↔ queue = 1 := by
  rw [and_iff_left (setEgressRate_spec h)]
  constructor
  · rintro ⟨s', hs, -⟩
    by_contra h1
    rw [egressRateQueueLimit_none h0 h7 h1] at hs
    cases hs
  · rintro rfl
    refine ⟨_, egressRateQueueLimit_eq h, rateSet_update rfl ?_⟩
    refine fieldSet_update 4 rfl (fun k _ => mem_twenty) (fun k _ => ?_) fun k hk => ?_
    · rw [mem_shiftRight, mem_twenty]
    · rw [mem_shiftRight, mem_twenty] at hk
      have hlt := lt_of_mem_mask hk
      omega

end

/-- A table of zeros. -/
def blank : State := ⟨fun _ _ => 0, fun _ => 0⟩

theorem rates_queue1 : QueueRate blank 3 1 625 ∧ PortRate blank 3 625 :=
  (rates_iff (by decide) (by decide) (by decide)).mpr rfl

/-- The rate of queue 2 is shifted by 72. -/
theorem not_queueRate : ¬ QueueRate blank 3 2 625 := by
  rintro ⟨s', hs, -⟩
  rw [egressRateQueueLimit_none (by decide) (by decide) (by decide)] at hs
  cases hs

end UolaOs.Rtl83xx.Rates
