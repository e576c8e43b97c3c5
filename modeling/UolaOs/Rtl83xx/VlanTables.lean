import UolaOs.Rtl83xx.Command
import UolaOs.Rtl83xx.Regs
import UolaOs.Rtl83xx.Vlan

/-!
# VLAN tables of the RTL839x

`rtl839x_vlan_tables_read`, `rtl839x_vlan_set_tagged` and `rtl839x_vlan_set_untagged` of rtl839x.c,
with tables that are accessed as the descriptors of common.c say.

* `rtlTableRead_eq`, `rtlTableWrite_eq`: what commands do that are made from a descriptor;
* `readsBack_iff`: when what is read is what was written.
-/

namespace UolaOs.Rtl83xx.VlanTables

open UolaOs.Rtl83xx.Vlan (VlanInfo)

/-- `struct table_reg` -/
structure TableReg where
  addr : Nat
  data : Nat
  maxData : Nat
  cBit : Nat
  tBit : Nat
  rmode : Bool

/-- `RTL8390_TBL_0` -/
def tbl0 : TableReg := ⟨0x1190, 0x1194, 17, 15, 12, false⟩

/-- `RTL8390_TBL_1` -/
def tbl1 : TableReg := ⟨0x6b80, 0x6b84, 4, 14, 12, false⟩

/-- The words of a row. -/
abbrev Row := Nat → BitVec 32

structure State where
  regs : Regs
  /-- The rows by control register, table type and index. -/
  rows : Nat → Nat → Nat → Row

/-- `BIT` -/
def bit (n : Nat) : BitVec 32 := BitVec.twoPow 32 n

/-- A row in the data registers. -/
def loadRow (d : TableReg) (row : Row) (r : Regs) : Regs := fun a =>
  if d.data ≤ a ∧ a < d.data + 4 * d.maxData ∧ (a - d.data) % 4 = 0 then row ((a - d.data) / 4)
  else r a

/-- The data registers in a row. -/
def storeRow (d : TableReg) (row : Row) (r : Regs) : Row := fun i =>
  if i < d.maxData then r (d.data + 4 * i) else row i

/-- What a command does that is written to the control register of a table. -/
def access (d : TableReg) (cmd : BitVec 32) (s : State) : State :=
  let idx := (cmd &&& (bit d.tBit - 1)).toNat
  let tbl := ((cmd >>> d.tBit) &&& (bit (d.cBit - d.tBit) - 1)).toNat
  let row := s.rows d.addr tbl idx
  if cmd &&& bit (d.cBit + 1) = 0 then s
  else if decide (cmd &&& bit d.cBit ≠ 0) = d.rmode then
    { s with regs := loadRow d row s.regs }
  else
    { s with rows := Function.update s.rows d.addr (Function.update (s.rows d.addr) tbl
        (Function.update (s.rows d.addr tbl) idx (storeRow d row s.regs))) }

/-- `rtl_table_read`, for the table that `rtl_table_get` returned. -/
def rtlTableRead (d : TableReg) (tbl idx : Nat) (s : State) : State :=
  let cmd := if d.rmode = true then bit d.cBit else 0
  access d (cmd ||| (bit (d.cBit + 1) ||| (BitVec.ofNat 32 tbl <<< d.tBit) |||
    (BitVec.ofNat 32 idx &&& (bit d.tBit - 1)))) s

/-- `rtl_table_write` -/
def rtlTableWrite (d : TableReg) (tbl idx : Nat) (s : State) : State :=
  let cmd := if d.rmode = true then 0 else bit d.cBit
  access d (cmd ||| (bit (d.cBit + 1) ||| (BitVec.ofNat 32 tbl <<< d.tBit) |||
    (BitVec.ofNat 32 idx &&& (bit d.tBit - 1)))) s

/-- `rtl839x_exec_tbl0_cmd`; the table is not busy after its command. -/
def execTbl0Cmd (cmd : BitVec 32) (s : State) : State := access tbl0 cmd s

/-- `rtl839x_exec_tbl1_cmd` -/
def execTbl1Cmd (cmd : BitVec 32) (s : State) : State := access tbl1 cmd s

/-- `RTL838X_TBL_ACCESS_DATA_0` -/
def rtl838xTblAccessData0 (idx : Nat) : Nat := 0x6918 + idx * 4

/-- `RTL838X_TBL_ACCESS_DATA_1` -/
def rtl838xTblAccessData1 (idx : Nat) : Nat := 0xa4cc + idx * 4

/-- `RTL839X_TBL_ACCESS_DATA_0` -/
def rtl839xTblAccessData0 (idx : Nat) : Nat := 0x1194 + idx * 4

/-- `RTL839X_TBL_ACCESS_DATA_1` -/
def rtl839xTblAccessData1 (idx : Nat) : Nat := 0x6b84 + idx * 4

/-- `rtl839x_set_port_reg_be` -/
def setPortRegBe (set : BitVec 64) (reg : Nat) (r : Regs) : Regs :=
  swW32 (set.setWidth 32) (reg + 4) (swW32 ((set >>> 32).setWidth 32) reg r)

/-- `rtl839x_vlan_tables_read` -/
def vlanTablesRead (vlan : Nat) (s : State) : VlanInfo × State :=
  let s := execTbl0Cmd (bit 16 ||| (BitVec.ofNat 32 vlan &&& 0xfff)) s
  let u := s.regs (rtl839xTblAccessData0 1)
  let v := ((s.regs (rtl839xTblAccessData0 0)).setWidth 64 <<< 32) ||| u.setWidth 64
  let w := s.regs (rtl839xTblAccessData0 2)
  let t := execTbl1Cmd (bit 15 ||| (BitVec.ofNat 32 vlan &&& 0xfff)) s
  let x := ((t.regs (rtl839xTblAccessData1 0)).setWidth 64 <<< 32) |||
    (t.regs (rtl839xTblAccessData1 1)).setWidth 64
  ({ taggedPorts := v >>> 11
     profileId := ((w >>> 30) ||| ((u &&& 1) <<< 2)).setWidth 8
     hashMcFid := decide (u &&& 2 ≠ 0)
     hashUcFid := decide (u &&& 4 ≠ 0)
     fid := ((u >>> 3) &&& 0xff).setWidth 8
     untaggedPorts := x >>> 11 }, t)

/-- The first two words of a row that `rtl839x_vlan_set_tagged` makes. -/
def taggedWords (info : VlanInfo) : BitVec 64 :=
  let v := info.taggedPorts <<< 11
  let v := v ||| (info.profileId >>> 2).setWidth 64
  let v := v ||| if info.hashMcFid = true then 2 else 0
  let v := v ||| if info.hashUcFid = true then 4 else 0
  v ||| ((info.fid.setWidth 32 <<< 3).setWidth 64)

/-- `rtl839x_vlan_set_tagged` -/
def vlanSetTagged (vlan : Nat) (info : VlanInfo) (s : State) : State :=
  let r := setPortRegBe (taggedWords info) (rtl838xTblAccessData0 0) s.regs
  let r := swW32 (info.profileId.setWidth 32 <<< 30) (rtl838xTblAccessData0 2) r
  execTbl0Cmd (bit 16 ||| bit 15 ||| (BitVec.ofNat 32 vlan &&& 0xfff)) { s with regs := r }

/-- `rtl839x_vlan_set_untagged` -/
def vlanSetUntagged (vlan : Nat) (portmask : BitVec 64) (s : State) : State :=
  execTbl1Cmd (bit 16 ||| bit 15 ||| (BitVec.ofNat 32 vlan &&& 0xfff))
    { s with regs := setPortRegBe (portmask <<< 11) (rtl838xTblAccessData1 0) s.regs }

section
variable {d : TableReg} {s : State} {flags : BitVec 32} {idx vlan : Nat}

/-! ## Commands -/

/-- A command for a table of type 0 reads its row into the registers, or writes it. -/
theorem access_eq (ht : d.tBit = 12) (hexec : flags &&& bit (d.cBit + 1) ≠ 0)
    (hlow : flags &&& 0xfff = 0) (htype : (flags >>> 12) &&& (bit (d.cBit - 12) - 1) = 0)
    (hidx : idx < 2 ^ 12) (hbits : 0xfff &&& bit (d.cBit + 1) = 0 ∧ 0xfff &&& bit d.cBit = 0) :
    access d (flags ||| (BitVec.ofNat 32 idx &&& 0xfff)) s =
      if decide (flags &&& bit d.cBit ≠ 0) = d.rmode then
        { s with regs := loadRow d (s.rows d.addr 0 idx) s.regs }
      else
        { s with rows := Function.update s.rows d.addr (Function.update (s.rows d.addr) 0
            (Function.update (s.rows d.addr 0) idx
              (storeRow d (s.rows d.addr 0 idx) s.regs))) } := by
  have hones : bit 12 - 1 = (0xfff : BitVec 32) := by decide
  have hrow := @command_index flags 0xfff idx 12 rfl hlow (by decide) hidx
  have hshift := @command_ushiftRight flags 0xfff idx 12 rfl
  rw [access, ht, hones, hrow, hshift, htype, command_flags hbits.1, command_flags hbits.2,
    if_neg hexec]
  rfl

/-- A table that is read by a command without the bit of a write. -/
structure IsTable (d : TableReg) : Prop where
  tBit : d.tBit = 12
  rmode : d.rmode = false
  cBit : d.cBit = 14 ∨ d.cBit = 15

theorem isTable_tbl0 : IsTable tbl0 := ⟨rfl, rfl, .inr rfl⟩

theorem isTable_tbl1 : IsTable tbl1 := ⟨rfl, rfl, .inl rfl⟩

/-- `rtl_table_read` -/
theorem rtlTableRead_eq (hd : IsTable d) (hidx : idx < 2 ^ 12) :
    rtlTableRead d 0 idx s = { s with regs := loadRow d (s.rows d.addr 0 idx) s.regs } := by
  have hones : bit 12 - 1 = (0xfff : BitVec 32) := by decide
  obtain ⟨ht, hr, hc⟩ := hd
  rw [rtlTableRead, ht, hr, if_neg (by decide), hones, ← BitVec.or_assoc]
  rcases hc with hc | hc
  · rw [access_eq ht (by rw [hc]; decide) (by rw [hc]; decide) (by rw [hc]; decide) hidx
      (by rw [hc]; decide), if_pos (by rw [hr, hc]; decide)]
  · rw [access_eq ht (by rw [hc]; decide) (by rw [hc]; decide) (by rw [hc]; decide) hidx
      (by rw [hc]; decide), if_pos (by rw [hr, hc]; decide)]

/-- `rtl_table_write` -/
theorem rtlTableWrite_eq (hd : IsTable d) (hidx : idx < 2 ^ 12) :
    rtlTableWrite d 0 idx s =
      { s with rows := Function.update s.rows d.addr (Function.update (s.rows d.addr) 0
          (Function.update (s.rows d.addr 0) idx (storeRow d (s.rows d.addr 0 idx) s.regs))) } := by
  have hones : bit 12 - 1 = (0xfff : BitVec 32) := by decide
  obtain ⟨ht, hr, hc⟩ := hd
  rw [rtlTableWrite, ht, hr, if_neg (by decide), hones, ← BitVec.or_assoc]
  rcases hc with hc | hc
  · rw [access_eq ht (by rw [hc]; decide) (by rw [hc]; decide) (by rw [hc]; decide) hidx
      (by rw [hc]; decide), if_neg (by rw [hr, hc]; decide)]
  · rw [access_eq ht (by rw [hc]; decide) (by rw [hc]; decide) (by rw [hc]; decide) hidx
      (by rw [hc]; decide), if_neg (by rw [hr, hc]; decide)]

/-! ## A row -/

/-- Two words of a row. -/
def pair (high low : BitVec 32) : BitVec 64 := (high.setWidth 64 <<< 32) ||| low.setWidth 64

/-- What is read from the two rows of a VLAN. -/
def rowInfo (row0 row1 : Row) : VlanInfo where
  taggedPorts := pair (row0 0) (row0 1) >>> 11
  profileId := ((row0 2 >>> 30) ||| ((row0 1 &&& 1) <<< 2)).setWidth 8
  hashMcFid := decide (row0 1 &&& 2 ≠ 0)
  hashUcFid := decide (row0 1 &&& 4 ≠ 0)
  fid := ((row0 1 >>> 3) &&& 0xff).setWidth 8
  untaggedPorts := pair (row1 0) (row1 1) >>> 11

theorem loadRow_of_lt {r : Regs} {row : Row} {i : Nat} (h : i < d.maxData) :
    loadRow d row r (d.data + 4 * i) = row i := by
  rw [loadRow, if_pos (by omega), Nat.add_sub_cancel_left, Nat.mul_div_cancel_left _ (by decide)]

theorem loadRow_outside {r : Regs} {row : Row} {a : Nat}
    (h : a < d.data ∨ d.data + 4 * d.maxData ≤ a) : loadRow d row r a = r a := by
  rw [loadRow, if_neg (by omega)]

/-- `rtl839x_vlan_tables_read` -/
theorem vlanTablesRead_eq (hv : vlan < 2 ^ 12) :
    (vlanTablesRead vlan s).1 = rowInfo (s.rows tbl0.addr 0 vlan) (s.rows tbl1.addr 0 vlan) ∧
      (vlanTablesRead vlan s).2.rows = s.rows := by
  have h0 (s : State) : execTbl0Cmd (bit 16 ||| (BitVec.ofNat 32 vlan &&& 0xfff)) s =
      { s with regs := loadRow tbl0 (s.rows tbl0.addr 0 vlan) s.regs } := by
    rw [execTbl0Cmd, access_eq rfl (by decide) (by decide) (by decide) hv (by decide),
      if_pos (by decide)]
  have h1 (s : State) : execTbl1Cmd (bit 15 ||| (BitVec.ofNat 32 vlan &&& 0xfff)) s =
      { s with regs := loadRow tbl1 (s.rows tbl1.addr 0 vlan) s.regs } := by
    rw [execTbl1Cmd, access_eq rfl (by decide) (by decide) (by decide) hv (by decide),
      if_pos (by decide)]
  rw [vlanTablesRead, h0]
  dsimp only
  rw [h1]
  exact ⟨rfl, rfl⟩

theorem mem_pair {high low : BitVec 32} {i : Nat} :
    i ∈ pair high low ↔ 32 ≤ i ∧ i < 64 ∧ i - 32 ∈ high ∨ i ∈ low := by
  rw [pair, mem_or, mem_shiftLeft, mem_setWidth, mem_setWidth]
  constructor
  · rintro (⟨hle, hlt, -, hmem⟩ | ⟨-, hmem⟩)
    · exact .inl ⟨hle, hlt, hmem⟩
    · exact .inr hmem
  · rintro (⟨hle, hlt, hmem⟩ | hmem)
    · exact .inl ⟨hle, hlt, by omega, hmem⟩
    · have hlt := lt_of_mem_mask hmem
      exact .inr ⟨by omega, hmem⟩

theorem mem_pair_low {high low : BitVec 32} {i : Nat} (hi : i < 32) :
    i ∈ pair high low ↔ i ∈ low := by
  rw [mem_pair]
  refine or_iff_right fun h => ?_
  omega

/-- The values are in their fields. -/
structure InWidths (info : VlanInfo) : Prop where
  tagged : ∀ i, i ∈ info.taggedPorts → i < 53
  untagged : ∀ i, i ∈ info.untaggedPorts → i < 53
  profile : ∀ i, i ∈ info.profileId → i < 3

variable {info : VlanInfo}

theorem mem_taggedWords (h : InWidths info) {i : Nat} :
    i ∈ taggedWords info ↔ 11 ≤ i ∧ i - 11 ∈ info.taggedPorts ∨ i = 0 ∧ 2 ∈ info.profileId ∨
      i = 1 ∧ info.hashMcFid = true ∨ i = 2 ∧ info.hashUcFid = true ∨
        3 ≤ i ∧ i - 3 ∈ info.fid := by
  have hflag (b : Bool) (n : Nat) (hn : n < 64) :
      i ∈ (if b = true then BitVec.twoPow 64 n else 0) ↔ i = n ∧ b = true := by
    cases b with
    | true => rw [if_pos rfl, mem_twoPow, and_iff_left hn, and_iff_left rfl]
    | false =>
      rw [if_neg (by decide)]
      exact ⟨fun h => absurd h not_mem_zero, fun h => absurd h.2 (by decide)⟩
  have htagged : i ∈ info.taggedPorts <<< 11 ↔ 11 ≤ i ∧ i - 11 ∈ info.taggedPorts := by
    rw [mem_shiftLeft]
    refine and_congr_right fun _ => and_iff_right_of_imp fun hmem => ?_
    have hlt := h.tagged _ hmem
    omega
  have hprofile : i ∈ (info.profileId >>> 2).setWidth 64 ↔ i = 0 ∧ 2 ∈ info.profileId := by
    rw [mem_setWidth, mem_shiftRight]
    constructor
    · rintro ⟨-, hmem⟩
      have hlt := h.profile _ hmem
      obtain rfl : i = 0 := by omega
      exact ⟨rfl, hmem⟩
    · rintro ⟨rfl, hmem⟩
      exact ⟨by decide, hmem⟩
  have hfid : i ∈ (info.fid.setWidth 32 <<< 3).setWidth 64 ↔ 3 ≤ i ∧ i - 3 ∈ info.fid := by
    rw [mem_setWidth, mem_shiftLeft, mem_setWidth]
    constructor
    · rintro ⟨-, hle, -, -, hmem⟩
      exact ⟨hle, hmem⟩
    · rintro ⟨hle, hmem⟩
      have hlt := lt_of_mem_mask hmem
      exact ⟨by omega, hle, by omega, by omega, hmem⟩
  have hmc := hflag info.hashMcFid 1 (by decide)
  have huc := hflag info.hashUcFid 2 (by decide)
  have h2 : (2 : BitVec 64) = BitVec.twoPow 64 1 := by decide
  have h4 : (4 : BitVec 64) = BitVec.twoPow 64 2 := by decide
  rw [taggedWords, h2, h4]
  simp only [mem_or, htagged, hprofile, hmc, huc, hfid, or_assoc]

/-- The words of table 0 that stand for `info`. -/
theorem pair_eq_taggedWords_iff (h : InWidths info) {high low : BitVec 32} :
    pair high low = taggedWords info ↔
      (∀ i, 11 + i ∈ pair high low ↔ i ∈ info.taggedPorts) ∧ (0 ∈ low ↔ 2 ∈ info.profileId) ∧
        (1 ∈ low ↔ info.hashMcFid = true) ∧ (2 ∈ low ↔ info.hashUcFid = true) ∧
          ∀ i < 8, 3 + i ∈ low ↔ i ∈ info.fid := by
  have hpair {i : Nat} (hi : i < 32) := @mem_pair_low high low i hi
  have hfid (i : Nat) (hmem : i ∈ info.fid) : i < 8 := lt_of_mem_mask hmem
  constructor
  · intro heq
    have hmem (i : Nat) := heq ▸ @mem_taggedWords info h i
    refine ⟨fun i => ?_, ?_, ?_, ?_, fun i hi => ?_⟩
    · rw [heq, mem_taggedWords h, Nat.add_sub_cancel_left]
      constructor
      · rintro (⟨-, hi⟩ | ⟨h0, -⟩ | ⟨h1, -⟩ | ⟨h2, -⟩ | ⟨-, hi⟩)
        · exact hi
        · omega
        · omega
        · omega
        · have hlt := hfid _ hi
          omega
      · exact fun hi => .inl ⟨Nat.le_add_right _ _, hi⟩
    · rw [← hpair (by decide), heq, mem_taggedWords h]
      simp
    · rw [← hpair (by decide), heq, mem_taggedWords h]
      simp
    · rw [← hpair (by decide), heq, mem_taggedWords h]
      simp
    · rw [← hpair (by omega), heq, mem_taggedWords h, Nat.add_sub_cancel_left]
      constructor
      · rintro (⟨h11, -⟩ | ⟨h0, -⟩ | ⟨h1, -⟩ | ⟨h2, -⟩ | ⟨-, hi⟩)
        · omega
        · omega
        · omega
        · omega
        · exact hi
      · exact fun hi => .inr (.inr (.inr (.inr ⟨Nat.le_add_right _ _, hi⟩)))
  · rintro ⟨ht, hp, hmc, huc, hf⟩
    refine mask_ext fun i => ?_
    rw [mem_taggedWords h]
    rcases Nat.lt_or_ge i 11 with hlt | hge
    · rw [hpair (by omega)]
      have hnot : ¬ 11 ≤ i := Nat.not_le.mpr hlt
      simp only [hnot, false_and, false_or]
      obtain rfl | rfl | rfl | h3 : i = 0 ∨ i = 1 ∨ i = 2 ∨ 3 ≤ i := by omega
      · simpa using hp
      · simpa using hmc
      · simpa using huc
      · have hsub : 3 + (i - 3) = i := by omega
        have hbit := hf (i - 3) (by omega)
        rw [hsub] at hbit
        have h0 : i ≠ 0 := by omega
        have h1 : i ≠ 1 := by omega
        have h2 : i ≠ 2 := by omega
        simp only [h0, h1, h2, h3, true_and, false_and, false_or, hbit]
    · have hsub : 11 + (i - 11) = i := by omega
      have hbit := ht (i - 11)
      rw [hsub] at hbit
      have h0 : i ≠ 0 := by omega
      have h1 : i ≠ 1 := by omega
      have h2 : i ≠ 2 := by omega
      have hout : ¬ (3 ≤ i ∧ i - 3 ∈ info.fid) := fun hin => by
        have hlt := hfid _ hin.2
        omega
      simp only [h0, h1, h2, hge, hout, true_and, false_and, or_false, hbit]

/-- The rows that are read as `info`. -/
structure Holds (high low last : BitVec 32) (high1 low1 : BitVec 32) (info : VlanInfo) : Prop where
  words : pair high low = taggedWords info
  profile : last >>> 30 = (info.profileId &&& 3).setWidth 32
  untagged : pair high1 low1 >>> 11 = info.untaggedPorts

theorem rowInfo_eq_iff (h : InWidths info) {row0 row1 : Row} :
    rowInfo row0 row1 = info ↔ Holds (row0 0) (row0 1) (row0 2) (row1 0) (row1 1) info := by
  obtain ⟨untagged, tagged, profile, mc, uc, fid⟩ := info
  have hflag (b : Bool) (n : Nat) (w : BitVec 32) :
      decide (w &&& BitVec.twoPow 32 n ≠ 0) = b ↔ (n ∈ w ↔ b = true) := by
    rw [Bool.eq_iff_iff, decide_eq_true_iff, and_twoPow_ne_zero]
  have htagged : pair (row0 0) (row0 1) >>> 11 = tagged ↔
      ∀ i, 11 + i ∈ pair (row0 0) (row0 1) ↔ i ∈ tagged := by
    constructor
    · rintro rfl i
      rw [mem_shiftRight]
    · exact fun hall => mask_ext fun i => by rw [mem_shiftRight, hall]
  have hfid : ((row0 1 >>> 3) &&& 0xff).setWidth 8 = fid ↔
      ∀ i < 8, 3 + i ∈ row0 1 ↔ i ∈ fid := by
    have hmem (i : Nat) : i ∈ ((row0 1 >>> 3) &&& 0xff).setWidth 8 ↔ i < 8 ∧ 3 + i ∈ row0 1 := by
      rw [mem_setWidth, mem_and, mem_shiftRight]
      refine and_congr_right fun hi => and_iff_left ?_
      exact (mem_ones (n := 8)).mpr ⟨by omega, hi⟩
    constructor
    · rintro rfl i hi
      rw [hmem, and_iff_right hi]
    · refine fun hall => mask_ext fun i => ?_
      rw [hmem]
      exact ⟨fun hi => (hall i hi.1).mp hi.2,
        fun hi => ⟨lt_of_mem_mask hi, (hall i (lt_of_mem_mask hi)).mpr hi⟩⟩
  have hprofile : ((row0 2 >>> 30) ||| ((row0 1 &&& 1) <<< 2)).setWidth 8 = profile ↔
      row0 2 >>> 30 = (profile &&& 3).setWidth 32 ∧ (0 ∈ row0 1 ↔ 2 ∈ profile) := by
    have hone (i : Nat) : i ∈ (row0 1 &&& 1) <<< 2 ↔ i = 2 ∧ 0 ∈ row0 1 := by
      rw [mem_shiftLeft, mem_and]
      constructor
      · rintro ⟨hle, -, hmem, hbit⟩
        have hlt := ((mem_ones (n := 1)).mp hbit).2
        obtain rfl : i = 2 := by omega
        exact ⟨rfl, hmem⟩
      · rintro ⟨rfl, hmem⟩
        exact ⟨by decide, by decide, hmem, by decide⟩
    have hhigh (i : Nat) (hi : i ∈ row0 2 >>> 30) : i < 2 := by
      have hlt := lt_of_mem_mask (mem_shiftRight.mp hi)
      omega
    have hlow (i : Nat) : i ∈ (profile &&& 3).setWidth 32 ↔ i < 2 ∧ i ∈ profile := by
      rw [mem_setWidth, mem_and]
      constructor
      · rintro ⟨-, hmem, h3⟩
        exact ⟨((mem_ones (n := 2)).mp h3).2, hmem⟩
      · rintro ⟨hi, hmem⟩
        exact ⟨by omega, hmem, (mem_ones (n := 2)).mpr ⟨by omega, hi⟩⟩
    have hmem (i : Nat) : i ∈ ((row0 2 >>> 30) ||| ((row0 1 &&& 1) <<< 2)).setWidth 8 ↔
        i ∈ row0 2 >>> 30 ∨ i = 2 ∧ 0 ∈ row0 1 := by
      rw [mem_setWidth, mem_or, hone]
      refine and_iff_right_of_imp ?_
      rintro (hi | ⟨rfl, -⟩)
      · exact Nat.lt_trans (hhigh i hi) (by decide)
      · decide
    constructor
    · rintro rfl
      refine ⟨mask_ext fun i => ?_, ?_⟩
      · rw [hlow, hmem]
        constructor
        · exact fun hi => ⟨hhigh i hi, .inl hi⟩
        · rintro ⟨hi, hmem | ⟨rfl, -⟩⟩
          · exact hmem
          · exact absurd hi (by decide)
      · rw [hmem]
        exact ⟨fun h0 => .inr ⟨rfl, h0⟩, fun h2 => h2.elim (fun hi => absurd (hhigh 2 hi) (by decide))
          And.right⟩
    · rintro ⟨hw, h0⟩
      refine mask_ext fun i => ?_
      rw [hmem, hw, hlow, h0]
      constructor
      · rintro (⟨-, hi⟩ | ⟨rfl, hi⟩)
        · exact hi
        · exact hi
      · intro hi
        have hlt : i < 3 := h.profile i hi
        rcases Nat.lt_or_ge i 2 with h2 | h2
        · exact .inl ⟨h2, hi⟩
        · obtain rfl : i = 2 := by omega
          exact .inr ⟨rfl, hi⟩
  have h2 : (2 : BitVec 32) = BitVec.twoPow 32 1 := by decide
  have h4 : (4 : BitVec 32) = BitVec.twoPow 32 2 := by decide
  rw [rowInfo, VlanInfo.mk.injEq, htagged, hprofile, hfid, h2, h4, hflag, hflag]
  constructor
  · rintro ⟨hu, ht, ⟨hw, hp⟩, hmc, huc, hf⟩
    exact ⟨(pair_eq_taggedWords_iff h).mpr ⟨ht, hp, hmc, huc, hf⟩, hw, hu⟩
  · rintro ⟨hwords, hw, hu⟩
    obtain ⟨ht, hp, hmc, huc, hf⟩ := (pair_eq_taggedWords_iff h).mp hwords
    exact ⟨hu, ht, ⟨hw, hp⟩, hmc, huc, hf⟩

/-! ## Writes -/

/-- After both calls. -/
def written (vlan : Nat) (info : VlanInfo) (s : State) : State :=
  vlanSetTagged vlan info (vlanSetUntagged vlan info.untaggedPorts s)

theorem setPortRegBe_of_ne {r : Regs} {v : BitVec 64} {reg a : Nat} (h : a ≠ reg ∧ a ≠ reg + 4) :
    setPortRegBe v reg r a = r a := by
  rw [setPortRegBe, swW32_of_ne h.2, swW32_of_ne h.1]

/-- `rtl839x_vlan_set_untagged` reads the row. -/
theorem vlanSetUntagged_eq (hv : vlan < 2 ^ 12) {mask : BitVec 64} :
    (vlanSetUntagged vlan mask s).rows = s.rows ∧
      ∀ a, a < 0x6b84 → (vlanSetUntagged vlan mask s).regs a = s.regs a := by
  rw [vlanSetUntagged, execTbl1Cmd, access_eq rfl (by decide) (by decide) (by decide) hv (by decide),
    if_pos (by decide)]
  refine ⟨rfl, fun a ha => ?_⟩
  have hreg : rtl838xTblAccessData1 0 = 0xa4cc := rfl
  dsimp only
  rw [loadRow_outside (.inl ha), setPortRegBe_of_ne (by omega)]

/-- `rtl839x_vlan_set_tagged` writes what the registers of the RTL839x have. -/
theorem vlanSetTagged_eq (hv : vlan < 2 ^ 12) :
    (∀ i < 17, (vlanSetTagged vlan info s).rows tbl0.addr 0 vlan i =
      s.regs (rtl839xTblAccessData0 i)) ∧
      ∀ addr tbl idx, ¬ (addr = tbl0.addr ∧ tbl = 0 ∧ idx = vlan) →
        (vlanSetTagged vlan info s).rows addr tbl idx = s.rows addr tbl idx := by
  rw [vlanSetTagged, execTbl0Cmd, access_eq rfl (by decide) (by decide) (by decide) hv (by decide),
    if_neg (by decide)]
  refine ⟨fun i hi => ?_, fun addr tbl idx hne => ?_⟩
  · dsimp only
    have hreg : tbl0.data + 4 * i = rtl839xTblAccessData0 i := by
      rw [rtl839xTblAccessData0, Nat.mul_comm]
      rfl
    have h0 : rtl838xTblAccessData0 0 = 0x6918 := rfl
    have h2 : rtl838xTblAccessData0 2 = 0x6920 := rfl
    have hdata : rtl839xTblAccessData0 i = 0x1194 + i * 4 := rfl
    have hmax : i < tbl0.maxData := hi
    rw [Function.update_self, Function.update_self, Function.update_self, storeRow, if_pos hmax,
      hreg, swW32_of_ne (by omega), setPortRegBe_of_ne (by omega)]
  · dsimp only
    by_cases ha : addr = tbl0.addr
    · subst ha
      by_cases ht : tbl = 0
      · subst ht
        have hi : idx ≠ vlan := fun hi => hne ⟨rfl, rfl, hi⟩
        rw [Function.update_self, Function.update_self, Function.update_of_ne hi]
      · rw [Function.update_self, Function.update_of_ne ht]
    · rw [Function.update_of_ne ha]

/-- What is read is what was written, and the other rows of both tables are the old ones. -/
structure ReadsBack (vlan : Nat) (info : VlanInfo) (s : State) : Prop where
  values : (vlanTablesRead vlan (written vlan info s)).1 = info
  frame : ∀ d, d = tbl0 ∨ d = tbl1 → ∀ tbl idx, tbl ≠ 0 ∨ idx ≠ vlan →
    (vlanTablesRead vlan (written vlan info s)).2.rows d.addr tbl idx = s.rows d.addr tbl idx

/-- **VLAN tables.** What is read is what was written exactly if the data registers of table 0 and
the row of table 1 have had it before. -/
theorem readsBack_iff (h : InWidths info) (hv : vlan < 2 ^ 12) :
    ReadsBack vlan info s ↔
      Holds (s.regs (rtl839xTblAccessData0 0)) (s.regs (rtl839xTblAccessData0 1))
        (s.regs (rtl839xTblAccessData0 2)) (s.rows tbl1.addr 0 vlan 0) (s.rows tbl1.addr 0 vlan 1)
        info := by
  obtain ⟨hrows, hregs⟩ := @vlanSetUntagged_eq s vlan hv info.untaggedPorts
  obtain ⟨hnew, hold⟩ := @vlanSetTagged_eq (vlanSetUntagged vlan info.untaggedPorts s) vlan info hv
  have hstale (i : Nat) (hi : i < 17) :
      (written vlan info s).rows tbl0.addr 0 vlan i = s.regs (rtl839xTblAccessData0 i) := by
    have hdata : rtl839xTblAccessData0 i = 0x1194 + i * 4 := rfl
    exact (hnew i hi).trans (hregs _ (by omega))
  have hkept : (written vlan info s).rows tbl1.addr 0 vlan = s.rows tbl1.addr 0 vlan := by
    have haddr : tbl1.addr ≠ tbl0.addr := by decide
    rw [written, hold _ _ _ fun hsame => haddr hsame.1, hrows]
  obtain ⟨hread, hframe⟩ := @vlanTablesRead_eq (written vlan info s) vlan hv
  have hvalues : (vlanTablesRead vlan (written vlan info s)).1 = info ↔
      Holds (s.regs (rtl839xTblAccessData0 0)) (s.regs (rtl839xTblAccessData0 1))
        (s.regs (rtl839xTblAccessData0 2)) (s.rows tbl1.addr 0 vlan 0)
        (s.rows tbl1.addr 0 vlan 1) info := by
    rw [hread, rowInfo_eq_iff h, hstale 0 (by decide), hstale 1 (by decide), hstale 2 (by decide),
      hkept]
  rw [← hvalues]
  refine ⟨ReadsBack.values, fun hval => ⟨hval, fun d _ tbl idx hne => ?_⟩⟩
  rw [hframe, written, hold _ _ _ fun hsame => by omega, hrows]

end

/-- VLAN 5 with port 0 as a tagged port. -/
def portZero : VlanInfo := ⟨0, 1, 0, false, false, 0⟩

def blank : State := ⟨fun _ => 0, fun _ _ _ _ => 0⟩

theorem inWidths_portZero : InWidths portZero := by
  have hone (i : Nat) (h : i ∈ portZero.taggedPorts) : i < 1 := ((mem_ones (n := 1)).mp h).2
  exact ⟨fun i h => Nat.lt_trans (hone i h) (by decide), fun i h => absurd h not_mem_zero,
    fun i h => absurd h not_mem_zero⟩

/-- The registers have the row already. -/
theorem readsBack_stale :
    ReadsBack 5 portZero ⟨fun a => if a = 0x1198 then 0x800 else 0, fun _ _ _ _ => 0⟩ :=
  (readsBack_iff inWidths_portZero (by decide)).mpr ⟨by decide, by decide, by decide⟩

/-- The row of zeros that is in the registers is written. -/
theorem not_readsBack : InWidths portZero ∧ ¬ ReadsBack 5 portZero blank := by
  refine ⟨inWidths_portZero, fun h => ?_⟩
  have htagged := congrArg VlanInfo.taggedPorts h.values
  exact absurd htagged (by decide)

end UolaOs.Rtl83xx.VlanTables
