import Mathlib.Logic.Function.Basic
import UolaOs.Lib.Mask
import UolaOs.Lib.Reaches

/-!
# VLANs of the B53 switches

The VLAN configuration of b53_common.c, and `b53_apply`, which writes it to the switch. Accesses to
registers succeed, and a VLAN table operation ends at once. The control registers are left out.

* `apply_mirrors`: when the VLAN table and the default tags are what is configured.
-/

namespace UolaOs.B53

/-- `is5325`, `is5365`, and the others. -/
inductive Family where
  | bcm5325
  | bcm5365
  | other
  deriving DecidableEq

/-- `-EINVAL` -/
def einval : Int := -22

/-- What `b53_switch_init` finds out. -/
structure Chip where
  family : Family
  coreRev : Nat
  /-- The ports that `b53_for_each_port` goes over, out of `B53_N_PORTS`. -/
  enabledPorts : BitVec 9

/-- `sw_dev.vlans` -/
def Chip.vlans (b : Chip) : Nat :=
  match b.family with
  | .bcm5325 => 16
  | .bcm5365 => 256
  | .other => 4096

/-- `struct b53_vlan` -/
structure Vlan where
  members : BitVec 9
  untag : BitVec 9
  deriving DecidableEq

/-! ## The switch -/

/-- The registers of VLANs, and the VLAN table. -/
structure Hw where
  table : Nat → BitVec 32
  /-- `B53_VLAN_WRITE_25` and `B53_VLAN_WRITE_65` -/
  vlanWrite : BitVec 32
  /-- `vta_regs[1]` -/
  vtIndex : BitVec 16
  /-- `vta_regs[2]` -/
  vtEntry : BitVec 32
  /-- `B53_VLAN_PORT_DEF_TAG` -/
  defTag : Nat → BitVec 16

/-- `VTA_RW_STATE_WR | VTA_RW_OP_EN` -/
def vtaWrite : BitVec 16 := 0x3000

def vtaCmdWrite : BitVec 8 := 0
def vtaCmdClear : BitVec 8 := 2
def vtaStartCmd : BitVec 8 := 0x80

/-- The switch stores the written entry at the index, below `vlans`. -/
def Hw.tableAccess (b : Chip) (v : BitVec 16) (hw : Hw) : Hw :=
  if v &&& vtaWrite = vtaWrite then
    { hw with table := Function.update hw.table (v.toNat % b.vlans) hw.vlanWrite }
  else hw

/-- The switch does an operation on the table. -/
def Hw.vtAccess (v : BitVec 8) (hw : Hw) : Hw :=
  if v = vtaStartCmd ||| vtaCmdWrite then
    { hw with table := Function.update hw.table hw.vtIndex.toNat hw.vtEntry }
  else if v = vtaStartCmd ||| vtaCmdClear then { hw with table := fun _ => 0 }
  else hw

/-! ## The driver -/

/-- `struct b53_device`, and its switch. -/
structure Dev where
  enableVlan : Bool
  allowVid4095 : Bool
  vlans : Nat → Vlan
  pvid : Nat → BitVec 12
  hw : Hw

/-- `b53_do_vlan_op` -/
def doVlanOp (op : BitVec 8) (hw : Hw) : Hw := hw.vtAccess (vtaStartCmd ||| op)

/-- `entry` of `b53_set_vlan_entry`; that of a BCM5365 has 16 bits. -/
def vlanEntry (b : Chip) (vid : Nat) (members untag : BitVec 9) : BitVec 32 :=
  match b.family with
  | .bcm5325 =>
    if members ≠ 0 then
      let entry := (untag.setWidth 32 &&& 0x3f) <<< 6 ||| members.setWidth 32
      if b.coreRev ≥ 3 then entry ||| (BitVec.twoPow 32 24 ||| BitVec.ofNat 32 vid <<< 12)
      else entry ||| BitVec.twoPow 32 20
    else 0
  | .bcm5365 =>
    if members ≠ 0 then
      ((untag.setWidth 32 &&& 0x1f) <<< 7 ||| members.setWidth 32 |||
        BitVec.twoPow 32 14).setWidth 16 |>.setWidth 32
    else 0
  | .other => untag.setWidth 32 <<< 9 ||| members.setWidth 32

/-- `b53_set_vlan_entry` -/
def setVlanEntry (b : Chip) (vid : Nat) (members untag : BitVec 9) (hw : Hw) : Hw :=
  match b.family with
  | .other =>
    doVlanOp vtaCmdWrite { hw with
      vtIndex := BitVec.ofNat 16 vid
      vtEntry := vlanEntry b vid members untag }
  | _ =>
    { hw with vlanWrite := vlanEntry b vid members untag }.tableAccess b
      (BitVec.ofNat 16 vid ||| vtaWrite)

/-- Clear all VLAN entries. -/
def clearEntries (b : Chip) (hw : Hw) : Hw :=
  match b.family with
  | .other => doVlanOp vtaCmdClear hw
  | _ => (List.range' 1 (b.vlans - 1)).foldl (fun hw i => setVlanEntry b i 0 0 hw) hw

/-- A round of the loop that fills the VLAN table. -/
def fillEntry (b : Chip) (vlans : Nat → Vlan) (hw : Hw) (i : Nat) : Hw :=
  if (vlans i).members = 0 then hw
  else setVlanEntry b i (vlans i).members (vlans i).untag hw

/-- A loop of `b53_for_each_port` over the default tags. -/
def setDefTags (b : Chip) (tag : Nat → BitVec 16) (hw : Hw) : Hw :=
  (List.range 9).foldl (fun hw i =>
    if i ∈ b.enabledPorts then { hw with defTag := Function.update hw.defTag i (tag i) } else hw) hw

/-- `b53_apply` -/
def apply (b : Chip) (s : Dev) : Dev :=
  let hw := clearEntries b s.hw
  if s.enableVlan = true then
    let hw := (List.range b.vlans).foldl (fillEntry b s.vlans) hw
    { s with hw := setDefTags b (fun i => (s.pvid i).setWidth 16) hw }
  else { s with hw := setDefTags b (fun _ => 1) hw }

/-- `b53_port_set_pvid` -/
def portSetPvid (b : Chip) (port : Nat) (val : Int) (s : Dev) : Int × Dev :=
  if val > 15 ∧ b.family = .bcm5325 then (einval, s)
  else if val = 4095 ∧ s.allowVid4095 = false then (einval, s)
  else (0, { s with pvid := Function.update s.pvid port (BitVec.ofInt 12 val) })

/-- A port of a list, and whether it is tagged. -/
structure SwitchPort where
  id : Nat
  tagged : Bool

/-- A round of the loop of `b53_vlan_set_ports`. -/
def addPort (portVlan : Nat) (s : Dev) (p : SwitchPort) : Dev :=
  let vlan := s.vlans portVlan
  let vlan := { vlan with members := vlan.members ||| BitVec.twoPow 9 p.id }
  if p.tagged = true then { s with vlans := Function.update s.vlans portVlan vlan }
  else
    { s with
      vlans := Function.update s.vlans portVlan
        { vlan with untag := vlan.untag ||| BitVec.twoPow 9 p.id }
      pvid := Function.update s.pvid p.id (BitVec.ofNat 12 portVlan) }

/-- `b53_vlan_set_ports` -/
def vlanSetPorts (b : Chip) (portVlan : Nat) (ports : List SwitchPort) (s : Dev) : Int × Dev :=
  if portVlan = 0 ∧ b.family = .other then (einval, s)
  else if portVlan = 4095 ∧ s.allowVid4095 = false then (einval, s)
  else
    let s := ports.foldl (addPort portVlan)
      { s with vlans := Function.update s.vlans portVlan ⟨0, 0⟩ }
    let vlan := s.vlans portVlan
    -- ignore disabled ports
    (0, { s with
      vlans := Function.update s.vlans portVlan
        ⟨vlan.members &&& b.enabledPorts, vlan.untag &&& b.enabledPorts⟩ })

/-! ## Runs -/

/-- The calls of swconfig. -/
inductive Call where
  | vlanSetPorts (portVlan : Nat) (ports : List SwitchPort)
  | portSetPvid (port : Nat) (val : Int)
  | setVlanEnable (i : BitVec 32)
  | set4095Enable (i : BitVec 32)
  | apply

def step (b : Chip) (s : Dev) : Call → Dev
  | .vlanSetPorts portVlan ports => (vlanSetPorts b portVlan ports s).2
  | .portSetPvid port val => (portSetPvid b port val s).2
  | .setVlanEnable i => { s with enableVlan := i.getLsbD 0 }
  | .set4095Enable i => { s with allowVid4095 := i.getLsbD 0 }
  | .apply => apply b s

/-- After `b53_global_reset_switch`. The VLAN table is what it was. -/
def Start (s : Dev) : Prop :=
  s.enableVlan = false ∧ s.allowVid4095 = false ∧ (∀ i, s.vlans i = ⟨0, 0⟩) ∧ ∀ i, s.pvid i = 0

/-- The states that calls lead to. -/
def Reachable (b : Chip) : Dev → Prop := Reaches Start fun s c t => step b s c = t

/-! ## What the table says -/

/-- The ports of an entry. One that is not valid has none. -/
def decode (b : Chip) (entry : BitVec 32) : Vlan :=
  match b.family with
  | .bcm5325 =>
    if (if b.coreRev ≥ 3 then 24 else 20) ∈ entry then
      ⟨(entry.setWidth 6).setWidth 9, ((entry >>> 6).setWidth 6).setWidth 9⟩
    else ⟨0, 0⟩
  | .bcm5365 =>
    if 14 ∈ entry then ⟨(entry.setWidth 6).setWidth 9, ((entry >>> 7).setWidth 5).setWidth 9⟩
    else ⟨0, 0⟩
  | .other => ⟨entry.setWidth 9, (entry >>> 9).setWidth 9⟩

/-- **The switch is configured.** -/
structure Mirrors (b : Chip) (s : Dev) : Prop where
  table : ∀ i < b.vlans, decode b (s.hw.table i) = s.vlans i
  defTag : ∀ i ∈ b.enabledPorts, s.hw.defTag i = (s.pvid i).setWidth 16

/-- The ports of a VLAN fit the fields of its entry. -/
def Fits (b : Chip) (v : Vlan) : Prop :=
  match b.family with
  | .bcm5325 => ∀ i ∈ v.members, i < 6
  | .bcm5365 => (∀ i ∈ v.members, i < 6) ∧ 5 ∉ v.untag
  | .other => True

/-- When `b53_apply` does what it is for. -/
def Holds (b : Chip) (s : Dev) : Prop :=
  (b.family ≠ .other → (s.vlans 0).members = 0 → decode b (s.hw.table 0) = ⟨0, 0⟩) ∧
    ∀ i < b.vlans, Fits b (s.vlans i)

/-! ## Entries -/

section
variable {b : Chip} {m u : BitVec 9} {vid i n : Nat} {v : Vlan}

/-- A decoded VLAN, by its ports. -/
theorem vlan_eq_iff {x y : BitVec 9} :
    (⟨x, y⟩ : Vlan) = ⟨m, u⟩ ↔ (∀ i, i ∈ x ↔ i ∈ m) ∧ ∀ i, i ∈ y ↔ i ∈ u := by
  rw [Vlan.mk.injEq]
  exact and_congr ⟨fun h i => h ▸ Iff.rfl, mask_ext⟩ ⟨fun h i => h ▸ Iff.rfl, mask_ext⟩

/-- An entry with `n` bits for the members, and `k` bits for the untagged ones behind them. -/
def HasFields (m u : BitVec 9) (n k : Nat) (entry : BitVec 32) : Prop :=
  ∀ i < n + k, i ∈ entry ↔ (n ≤ i ∧ i - n ∈ u) ∨ i ∈ m

theorem hasFields_entry {n k : Nat} (hn : n + k ≤ 32) :
    HasFields m u n k ((u.setWidth 32 &&& BitVec.ofNat 32 (2 ^ k - 1)) <<< n ||| m.setWidth 32) :=
      by
  intro i hi
  rw [mem_or, mem_shiftLeft, mem_and, mem_setWidth, mem_setWidth, mem_ones]
  have hlt : i < 32 ∧ i - n < 32 := by omega
  have hlt' : n ≤ i → i - n < k := by omega
  tauto

theorem HasFields.or {n k : Nat} {entry x : BitVec 32} (h : HasFields m u n k entry)
    (hx : ∀ i ∈ x, n + k ≤ i) : HasFields m u n k (entry ||| x) := by
  intro i hi
  rw [mem_or, h i hi, or_iff_left fun hmem => absurd (hx i hmem) (Nat.not_le.mpr hi)]

/-- The fields say what they were given, if that fits. -/
theorem HasFields.decode {n k : Nat} {entry : BitVec 32} (h : HasFields m u n k entry)
    (hn : 6 ≤ n) (hk : k ≤ 9) :
    (⟨(entry.setWidth 6).setWidth 9, ((entry >>> n).setWidth k).setWidth 9⟩ : Vlan) = ⟨m, u⟩ ↔
      (∀ i ∈ m, i < 6) ∧ ∀ i ∈ u, i < k := by
  rw [vlan_eq_iff]
  have hmembers (i : Nat) :
      i ∈ (entry.setWidth 6).setWidth 9 ↔ i ∈ m ∧ i < 6 := by
    rw [mem_setWidth, mem_setWidth]
    have hi : i < 6 → (i ∈ entry ↔ i ∈ m) := fun hi => by
      rw [h i (by omega), or_iff_right fun hall => absurd hall.1 (by omega)]
    have hlt : i < 6 → i < 9 := by omega
    tauto
  constructor
  · rintro ⟨hm, hu⟩
    have hlow (i : Nat) (hi : i ∈ m) : i < 6 := ((hmembers i).mp ((hm i).mpr hi)).2
    refine ⟨hlow, fun i hi => ?_⟩
    have hmem := (hu i).mpr hi
    rw [mem_setWidth, mem_setWidth] at hmem
    exact hmem.2.1
  · rintro ⟨hm, hu⟩
    refine ⟨fun i => ?_, fun i => ?_⟩
    · rw [hmembers]
      exact and_iff_left_of_imp (hm i)
    · rw [mem_setWidth, mem_setWidth, mem_shiftRight]
      have hi : i < k → (n + i ∈ entry ↔ i ∈ u) := fun hi => by
        have hnot : n + i ∉ m := fun hmem => absurd (hm _ hmem) (by omega)
        rw [h _ (by omega), or_iff_left hnot, Nat.add_sub_cancel_left,
          and_iff_right (Nat.le_add_right n i)]
      have hlt : i < k → i < 9 := by omega
      have hk' := hu i
      tauto

theorem decode_vlanEntry (hm : m ≠ 0) (hsub : ∀ i ∈ u, i ∈ m) :
    decode b (vlanEntry b vid m u) = ⟨m, u⟩ ↔ Fits b ⟨m, u⟩ := by
  rw [decode, vlanEntry, Fits]
  cases b.family with
  | bcm5325 =>
    dsimp only
    rw [if_pos hm]
    have hfields := hasFields_entry (m := m) (u := u) (n := 6) (k := 6) (by decide)
    have hfits : (∀ i ∈ m, i < 6) ∧ (∀ i ∈ u, i < 6) ↔ ∀ i ∈ m, i < 6 :=
      and_iff_left_of_imp fun h i hi => h i (hsub i hi)
    by_cases hrev : b.coreRev ≥ 3
    · rw [if_pos hrev, if_pos hrev]
      have hhigh := hfields.or (x := BitVec.twoPow 32 24 ||| BitVec.ofNat 32 vid <<< 12) ?_
      · rw [if_pos, ← hfits]
        · exact hhigh.decode (by decide) (by decide)
        · refine mem_or.mpr (.inr (mem_or.mpr (.inl ?_)))
          exact mem_twoPow.mpr ⟨rfl, by decide⟩
      · intro i hi
        rw [mem_or, mem_twoPow, mem_shiftLeft] at hi
        omega
    · rw [if_neg hrev, if_neg hrev]
      have hhigh := hfields.or (x := BitVec.twoPow 32 20) ?_
      · rw [if_pos, ← hfits]
        · exact hhigh.decode (by decide) (by decide)
        · rw [mem_or, mem_twoPow]
          exact .inr ⟨rfl, by decide⟩
      · intro i hi
        rw [mem_twoPow] at hi
        omega
  | bcm5365 =>
    dsimp only
    rw [if_pos hm]
    have hfields := (hasFields_entry (m := m) (u := u) (n := 7) (k := 5) (by decide)).or
      (x := BitVec.twoPow 32 14) ?_
    · rw [if_pos, HasFields.decode (m := m) (u := u) _ (by decide) (by decide)]
      · refine and_congr_right fun hlow => ⟨fun h h5 => absurd (h 5 h5) (by decide),
        fun h i hi => ?_⟩
        have hlt := hlow i (hsub i hi)
        have hne : i ≠ 5 := fun h5 => h (h5 ▸ hi)
        omega
      · intro i hi
        rw [mem_setWidth, mem_setWidth, ← hfields i hi]
        have hlt : i < 16 ∧ i < 32 := by omega
        tauto
      · rw [mem_setWidth, mem_setWidth, mem_or, mem_twoPow]
        exact ⟨by decide, by decide, .inr ⟨rfl, by decide⟩⟩
    · intro i hi
      rw [mem_twoPow] at hi
      omega
  | other =>
    dsimp only
    rw [iff_true, vlan_eq_iff]
    refine ⟨fun i => ?_, fun i => ?_⟩
    · rw [mem_setWidth, mem_or, mem_shiftLeft, mem_setWidth, mem_setWidth]
      constructor
      · rintro ⟨hlow, ⟨hhigh, -⟩ | ⟨-, hi⟩⟩
        · omega
        · exact hi
      · intro hi
        have hlt := lt_of_mem_mask hi
        exact ⟨hlt, .inr ⟨by omega, hi⟩⟩
    · rw [mem_setWidth, mem_shiftRight, mem_or, mem_shiftLeft, mem_setWidth, mem_setWidth,
        Nat.add_sub_cancel_left]
      constructor
      · rintro ⟨-, ⟨-, -, -, hi⟩ | ⟨-, hi⟩⟩
        · exact hi
        · have hlt := lt_of_mem_mask hi
          omega
      · intro hi
        have hlt := lt_of_mem_mask hi
        exact ⟨hlt, .inl ⟨Nat.le_add_right 9 i, by omega, by omega, hi⟩⟩

theorem fits_zero : Fits b ⟨0, 0⟩ := by
  rw [Fits]
  cases b.family with
  | bcm5325 => exact fun i hi => absurd hi not_mem_zero
  | bcm5365 => exact ⟨fun i hi => absurd hi not_mem_zero, not_mem_zero⟩
  | other => trivial

theorem decode_zero : decode b 0 = ⟨0, 0⟩ := by
  rw [decode]
  cases b.family with
  | bcm5325 => exact if_neg not_mem_zero
  | bcm5365 => exact if_neg not_mem_zero
  | other => rfl

/-! ## The table -/

variable {hw : Hw} {s t : Dev}

theorem index_eq (h : vid < 4096) : (BitVec.ofNat 16 vid).toNat = vid := by
  rw [BitVec.toNat_ofNat]
  exact Nat.mod_eq_of_lt (by omega)

/-- A write access to the table, for an old switch. -/
theorem tableAccess_eq (hvid : vid < b.vlans) (hold : b.family ≠ .other) :
    hw.tableAccess b (BitVec.ofNat 16 vid ||| vtaWrite) =
      { hw with table := Function.update hw.table vid hw.vlanWrite } := by
  have hbits : ∀ vid < 256, (BitVec.ofNat 16 vid ||| vtaWrite) &&& vtaWrite = vtaWrite ∧
      (BitVec.ofNat 16 vid ||| vtaWrite).toNat % 256 = vid := by
    decide +kernel
  rw [Chip.vlans] at hvid
  rw [Hw.tableAccess, Chip.vlans]
  cases hfamily : b.family with
  | bcm5325 =>
    rw [hfamily] at hvid
    dsimp only at hvid
    obtain ⟨hwrite, hindex⟩ := hbits vid (by omega)
    have hlow : (BitVec.ofNat 16 vid ||| vtaWrite).toNat % 16 = vid := by omega
    rw [if_pos hwrite]
    exact congrArg (fun i => { hw with table := Function.update hw.table i hw.vlanWrite }) hlow
  | bcm5365 =>
    rw [hfamily] at hvid
    obtain ⟨hwrite, hindex⟩ := hbits vid hvid
    rw [if_pos hwrite]
    exact congrArg (fun i => { hw with table := Function.update hw.table i hw.vlanWrite }) hindex
  | other => exact absurd hfamily hold

theorem setVlanEntry_spec (hvid : vid < b.vlans) :
    (setVlanEntry b vid m u hw).table =
        Function.update hw.table vid (vlanEntry b vid m u) ∧
      (setVlanEntry b vid m u hw).defTag = hw.defTag := by
  rw [setVlanEntry]
  cases hfamily : b.family with
  | bcm5325 =>
    dsimp only
    rw [tableAccess_eq hvid (by rw [hfamily]; decide)]
    exact ⟨rfl, rfl⟩
  | bcm5365 =>
    dsimp only
    rw [tableAccess_eq hvid (by rw [hfamily]; decide)]
    exact ⟨rfl, rfl⟩
  | other =>
    rw [Chip.vlans, hfamily] at hvid
    refine ⟨?_, rfl⟩
    show Function.update hw.table (BitVec.ofNat 16 vid).toNat _ = _
    rw [index_eq hvid]

theorem vlanEntry_zero (hold : b.family ≠ .other) : vlanEntry b vid 0 0 = 0 := by
  rw [vlanEntry]
  cases hfamily : b.family with
  | bcm5325 => rfl
  | bcm5365 => rfl
  | other => exact absurd hfamily hold

/-- The loop that clears the entries of an old switch goes over all but the first. -/
theorem clearLoop_table (hold : b.family ≠ .other) (hn : n ≤ b.vlans - 1) :
    ((List.range' 1 n).foldl (fun hw i => setVlanEntry b i 0 0 hw) hw).table i =
      if 1 ≤ i ∧ i < 1 + n then 0 else hw.table i := by
  induction n with
  | zero => rw [if_neg (by omega)]; rfl
  | succ n ih =>
    rw [List.range'_1_concat, List.foldl_append, List.foldl_cons, List.foldl_nil,
      (setVlanEntry_spec (by omega)).1, vlanEntry_zero hold]
    by_cases hi : i = 1 + n
    · rw [hi, Function.update_self, if_pos (by omega)]
    · rw [Function.update_of_ne hi, ih (by omega)]
      by_cases hin : 1 ≤ i ∧ i < 1 + n
      · rw [if_pos hin, if_pos (by omega)]
      · rw [if_neg hin, if_neg (by omega)]

theorem clearEntries_table (hi : i < b.vlans) :
    (clearEntries b hw).table i = if b.family ≠ .other ∧ i = 0 then hw.table 0 else 0 := by
  rw [clearEntries]
  cases hfamily : b.family with
  | other =>
    rw [if_neg fun h => h.1 rfl]
    rfl
  | bcm5325 =>
    have hold : b.family ≠ .other := by rw [hfamily]; decide
    dsimp only
    rw [clearLoop_table hold (Nat.le_refl _)]
    by_cases h0 : i = 0
    · rw [if_neg (by omega), if_pos ⟨by decide, h0⟩, h0]
    · rw [if_pos (by omega), if_neg fun h => h0 h.2]
  | bcm5365 =>
    have hold : b.family ≠ .other := by rw [hfamily]; decide
    dsimp only
    rw [clearLoop_table hold (Nat.le_refl _)]
    by_cases h0 : i = 0
    · rw [if_neg (by omega), if_pos ⟨by decide, h0⟩, h0]
    · rw [if_pos (by omega), if_neg fun h => h0 h.2]

theorem fillLoop_table {vlans : Nat → Vlan} (hn : n ≤ b.vlans) :
    ((List.range n).foldl (fillEntry b vlans) hw).table i =
      if i < n ∧ (vlans i).members ≠ 0 then vlanEntry b i (vlans i).members (vlans i).untag
      else hw.table i := by
  induction n with
  | zero => rw [if_neg (by omega)]; rfl
  | succ n ih =>
    rw [List.range_succ, List.foldl_append, List.foldl_cons, List.foldl_nil, fillEntry]
    by_cases hskip : (vlans n).members = 0
    · rw [if_pos hskip, ih (by omega)]
      by_cases hin : i < n ∧ (vlans i).members ≠ 0
      · rw [if_pos hin, if_pos ⟨by omega, hin.2⟩]
      · rw [if_neg hin, if_neg]
        rintro ⟨hlt, hne⟩
        obtain rfl | hlt := Nat.eq_or_lt_of_le (Nat.lt_succ_iff.mp hlt)
        · exact hne hskip
        · exact hin ⟨hlt, hne⟩
    · rw [if_neg hskip, (setVlanEntry_spec (by omega)).1]
      by_cases hi : i = n
      · rw [hi, Function.update_self, if_pos ⟨Nat.lt_succ_self n, hskip⟩]
      · rw [Function.update_of_ne hi, ih (by omega)]
        have hiff : i < n ∧ (vlans i).members ≠ 0 ↔ i < n + 1 ∧ (vlans i).members ≠ 0 :=
          and_congr_left' (by omega)
        simp only [hiff]

theorem setDefTags_spec {tag : Nat → BitVec 16} :
    (setDefTags b tag hw).table = hw.table ∧
      ∀ i ∈ b.enabledPorts, (setDefTags b tag hw).defTag i = tag i := by
  have hloop (n : Nat) : ((List.range n).foldl (fun hw i =>
      if i ∈ b.enabledPorts then { hw with defTag := Function.update hw.defTag i (tag i) } else hw)
        hw).table = hw.table ∧ ∀ i < n, i ∈ b.enabledPorts → ((List.range n).foldl (fun hw i =>
      if i ∈ b.enabledPorts then { hw with defTag := Function.update hw.defTag i (tag i) } else hw)
        hw).defTag i = tag i := by
    induction n with
    | zero => exact ⟨rfl, fun i hi => absurd hi (Nat.not_lt_zero i)⟩
    | succ n ih =>
      rw [List.range_succ, List.foldl_append, List.foldl_cons, List.foldl_nil]
      by_cases hin : n ∈ b.enabledPorts
      · rw [if_pos hin]
        refine ⟨ih.1, fun i hi hmem => ?_⟩
        dsimp only
        by_cases heq : i = n
        · rw [heq, Function.update_self]
        · rw [Function.update_of_ne heq]
          exact ih.2 i (by omega) hmem
      · rw [if_neg hin]
        refine ⟨ih.1, fun i hi hmem => ih.2 i ?_ hmem⟩
        have hne : i ≠ n := fun heq => hin (heq ▸ hmem)
        omega
  exact ⟨(hloop 9).1, fun i hi => (hloop 9).2 i (lt_of_mem_mask hi) hi⟩

/-! ## Runs -/

/-- The untagged ports of a VLAN are members of it. -/
def Inv (s : Dev) : Prop := ∀ i, ∀ p ∈ (s.vlans i).untag, p ∈ (s.vlans i).members

theorem Inv.update {k : Nat} (h : Inv s) (hv : ∀ p ∈ v.untag, p ∈ v.members)
    (ht : t.vlans = Function.update s.vlans k v) : Inv t := by
  intro i
  rw [ht]
  by_cases hi : i = k
  · rw [hi, Function.update_self]
    exact hv
  · rw [Function.update_of_ne hi]
    exact h i

theorem Inv.addPort {k : Nat} {p : SwitchPort} (h : Inv s) : Inv (addPort k s p) := by
  rw [B53.addPort]
  dsimp only
  split
  · exact h.update
      (v := ⟨(s.vlans k).members ||| BitVec.twoPow 9 p.id, (s.vlans k).untag⟩)
      (fun q hq => mem_or.mpr (.inl (h k q hq))) rfl
  · exact h.update
      (v := ⟨(s.vlans k).members ||| BitVec.twoPow 9 p.id,
        (s.vlans k).untag ||| BitVec.twoPow 9 p.id⟩)
      (fun q hq => mem_or.mpr ((mem_or.mp hq).imp_left (h k q))) rfl

theorem Inv.vlanSetPorts {k : Nat} {ports : List SwitchPort} (h : Inv s) :
    Inv (vlanSetPorts b k ports s).2 := by
  rw [B53.vlanSetPorts]
  split
  · exact h
  · split
    · exact h
    · have hstart : Inv { s with vlans := Function.update s.vlans k ⟨0, 0⟩ } :=
        h.update (fun q hq => absurd hq not_mem_zero) rfl
      have hloop : Inv (ports.foldl (B53.addPort k)
          { s with vlans := Function.update s.vlans k ⟨0, 0⟩ }) := by
        generalize ({ s with vlans := Function.update s.vlans k ⟨0, 0⟩ } : Dev) = u at hstart ⊢
        induction ports generalizing u with
        | nil => exact hstart
        | cons p ports ih => exact ih _ hstart.addPort
      exact hloop.update (fun q hq => mem_and.mpr ((mem_and.mp hq).imp_left (hloop k q))) rfl

theorem inv_of_reachable (h : Reachable b s) : Inv s := by
  refine Reaches.invariant (I := Inv) (fun s hs i p hp => ?_) (fun s c t hi hc => ?_) h
  · rw [hs.2.2.1 i] at hp
    exact absurd hp not_mem_zero
  · subst hc
    cases c with
    | vlanSetPorts k ports => exact hi.vlanSetPorts
    | portSetPvid port val =>
      show Inv (portSetPvid b port val s).2
      rw [portSetPvid]
      split
      · exact hi
      · split
        · exact hi
        · exact hi
    | setVlanEnable i => exact hi
    | set4095Enable i => exact hi
    | apply =>
      show Inv (apply b s)
      rw [apply]
      dsimp only
      split
      · exact hi
      · exact hi

/-- The table after `b53_apply` with VLANs. -/
theorem apply_table (hon : s.enableVlan = true) (hi : i < b.vlans) :
    (apply b s).hw.table i =
      if (s.vlans i).members ≠ 0 then vlanEntry b i (s.vlans i).members (s.vlans i).untag
      else if b.family ≠ .other ∧ i = 0 then s.hw.table 0 else 0 := by
  rw [apply]
  dsimp only
  rw [if_pos hon]
  dsimp only
  rw [setDefTags_spec.1, fillLoop_table (Nat.le_refl _), clearEntries_table hi]
  exact if_congr (and_iff_right hi) rfl rfl

/-- **Configuration.** In every run, `b53_apply` with VLANs makes the switch what is configured,
exactly if what is configured fits, and the first entry of an old switch is written or is empty
already. -/
theorem apply_mirrors (h : Reachable b s) (hon : s.enableVlan = true) :
    Mirrors b (apply b s) ↔ Holds b s := by
  have hinv := inv_of_reachable h
  have hvlans : (apply b s).vlans = s.vlans := by
    rw [apply]
    dsimp only
    rw [if_pos hon]
  have htags : ∀ i ∈ b.enabledPorts, (apply b s).hw.defTag i = ((apply b s).pvid i).setWidth 16 :=
      by
    rw [apply]
    dsimp only
    rw [if_pos hon]
    exact setDefTags_spec.2
  have hempty (i : Nat) (hm : (s.vlans i).members = 0) : s.vlans i = ⟨0, 0⟩ := by
    have hu : (s.vlans i).untag = 0 :=
      mask_eq_zero_iff.mpr fun p hp => not_mem_zero (hm ▸ hinv i p hp)
    exact (congrArg₂ Vlan.mk hm hu : _)
  have h0 : 0 < b.vlans := by
    rw [Chip.vlans]
    split <;> decide
  constructor
  · rintro ⟨htable, -⟩
    refine ⟨fun hold hm => ?_, fun i hi => ?_⟩
    · have hfirst := htable 0 h0
      rwa [apply_table hon h0, if_neg (not_not.mpr hm), if_pos ⟨hold, rfl⟩, hvlans,
        hempty 0 hm] at hfirst
    · by_cases hm : (s.vlans i).members = 0
      · rw [hempty i hm]
        exact fits_zero
      · have hentry := htable i hi
        rw [apply_table hon hi, if_pos hm, hvlans] at hentry
        exact (decode_vlanEntry hm (hinv i)).mp hentry
  · rintro ⟨hfirst, hfits⟩
    refine ⟨fun i hi => ?_, htags⟩
    rw [apply_table hon hi, hvlans]
    by_cases hm : (s.vlans i).members = 0
    · rw [if_neg (not_not.mpr hm), hempty i hm]
      by_cases hi0 : b.family ≠ .other ∧ i = 0
      · rw [if_pos hi0]
        exact hfirst hi0.1 (hi0.2 ▸ hm)
      · rw [if_neg hi0]
        exact decode_zero
    · rw [if_pos hm]
      exact (decode_vlanEntry hm (hinv i)).mpr (hfits i hi)

end

/-- A BCM5325 with 16 VLANs. -/
def oldSwitch : Chip := ⟨.bcm5325, 3, 0x3f⟩

/-- After a reset, with an empty table. -/
def blank : Dev where
  enableVlan := false
  allowVid4095 := false
  vlans := fun _ => ⟨0, 0⟩
  pvid := fun _ => 0
  hw := ⟨fun _ => 0, 0, 0, 0, fun _ => 1⟩

theorem start_blank : Start blank := ⟨rfl, rfl, fun _ => rfl, fun _ => rfl⟩

theorem reachable_of_calls {b : Chip} {s : Dev} (h : Reachable b s) (calls : List Call) :
    Reachable b (calls.foldl (step b) s) := by
  induction calls generalizing s with
  | nil => exact h
  | cons c calls ih => exact ih (h.next rfl)

/-- VLAN 0 gets two ports, and loses them. -/
def emptied : Dev := [Call.setVlanEnable 1, .vlanSetPorts 0 [⟨0, false⟩, ⟨5, true⟩], .apply,
  .vlanSetPorts 0 []].foldl (step oldSwitch) blank

/-- VLAN 1 in place of VLAN 0. -/
def filled : Dev := [Call.setVlanEnable 1, .vlanSetPorts 1 [⟨0, false⟩, ⟨5, true⟩]].foldl
  (step oldSwitch) blank

theorem filled_mirrors : filled.vlans 1 = ⟨0x21, 1⟩ ∧
    (Mirrors oldSwitch (apply oldSwitch filled) ↔ Holds oldSwitch filled) :=
  ⟨by decide, apply_mirrors (reachable_of_calls (.start start_blank) _) rfl⟩

/-- The ports of VLAN 0 stay in the table. -/
theorem emptied_not_mirrors : Reachable oldSwitch emptied ∧ emptied.enableVlan = true ∧
    emptied.vlans 0 = ⟨0, 0⟩ ∧ ¬ Mirrors oldSwitch (apply oldSwitch emptied) := by
  refine ⟨reachable_of_calls (.start start_blank) _, by decide, by decide,
    fun h => ?_⟩
  have hfirst := h.table 0 (by decide)
  exact absurd hfirst (by decide)

end UolaOs.B53
