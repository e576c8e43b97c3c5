import UolaOs.Rtl83xx.Command
import UolaOs.Rtl83xx.Family
import Mathlib.Data.List.Induction
import Mathlib.Logic.Function.Basic

/-!
# VLAN membership on the RTL838x

`rtl83xx_vlan_add` and `rtl83xx_vlan_del` of dsa.c, with the tables of rtl838x.c.

* `run_spec`: what calls leave in the tables and in the registers;
* `mirrors_of_clean`: when that is what the last calls say.
-/

namespace UolaOs.Rtl83xx.Vlan

/-- The tables of the switch, the registers that access them, and the state of the driver. -/
structure State where
  /-- Ports and profile of each VLAN. -/
  tbl0 : Nat → BitVec 32 × BitVec 32
  /-- Untagged ports of each VLAN. -/
  tbl1 : Nat → BitVec 32
  /-- `RTL838X_TBL_ACCESS_DATA_0` -/
  data0 : BitVec 32 × BitVec 32
  /-- `RTL838X_TBL_ACCESS_DATA_1` -/
  data1 : BitVec 32
  /-- The registers `vlan_port_pb`. -/
  portPb : Nat → BitVec 32
  /-- `priv->ports[i].pvid` -/
  pvid : Nat → Nat

/-- `struct rtl838x_vlan_info` -/
structure VlanInfo where
  untaggedPorts : BitVec 64
  taggedPorts : BitVec 64
  profileId : BitVec 8
  hashMcFid : Bool
  hashUcFid : Bool
  fid : BitVec 8

/-! ## The tables -/

/-- A command to access the row `vlan` of table type 0b00. -/
def command (read : Bool) (vlan : Nat) : BitVec 32 :=
  0x8000 ||| (if read = true then 0x4000 else 0) ||| (BitVec.ofNat 32 vlan &&& 0xfff)

/-- `rtl838x_exec_tbl0_cmd`; the tables of other types are left out. -/
def execTbl0 (cmd : BitVec 32) (s : State) : State :=
  let row := (cmd &&& 0xfff).toNat
  if cmd &&& 0x8000 = 0 ∨ cmd &&& 0x3000 ≠ 0 then s
  else if cmd &&& 0x4000 ≠ 0 then { s with data0 := s.tbl0 row }
  else { s with tbl0 := Function.update s.tbl0 row s.data0 }

/-- `rtl838x_exec_tbl1_cmd` -/
def execTbl1 (cmd : BitVec 32) (s : State) : State :=
  let row := (cmd &&& 0xfff).toNat
  if cmd &&& 0x8000 = 0 ∨ cmd &&& 0x3000 ≠ 0 then s
  else if cmd &&& 0x4000 ≠ 0 then { s with data1 := s.tbl1 row }
  else { s with tbl1 := Function.update s.tbl1 row s.data1 }

/-- `rtl838x_vlan_tables_read` -/
def vlanTablesRead (vlan : Nat) (s : State) : VlanInfo × State :=
  let s := execTbl0 (command true vlan) s
  let v := s.data0.2
  let t := execTbl1 (command true vlan) s
  ({ taggedPorts := s.data0.1.setWidth 64
     profileId := (v &&& 7).setWidth 8
     hashMcFid := decide (v &&& 8 ≠ 0)
     hashUcFid := decide (v &&& 0x10 ≠ 0)
     fid := ((v >>> 5) &&& 0x3f).setWidth 8
     untaggedPorts := t.data1.setWidth 64 }, t)

/-- `rtl838x_vlan_set_tagged` -/
def vlanSetTagged (vlan : Nat) (info : VlanInfo) (s : State) : State :=
  let v := info.profileId.setWidth 32
  let v := v ||| if info.hashMcFid = true then 8 else 0
  let v := v ||| if info.hashUcFid = true then 0x10 else 0
  let v := v ||| (info.fid.setWidth 32 <<< 5)
  execTbl0 (command false vlan) { s with data0 := (info.taggedPorts.setWidth 32, v) }

/-- `rtl838x_vlan_set_untagged` -/
def vlanSetUntagged (vlan : Nat) (portmask : BitVec 64) (s : State) : State :=
  execTbl1 (command false vlan) { s with data1 := (portmask &&& 0x1fffffff).setWidth 32 }

/-! ## The calls of DSA -/

/-- `struct switchdev_obj_port_vlan`, and the port. -/
structure Vlans where
  port : Nat
  vidBegin : Nat
  vidEnd : Nat
  /-- `BRIDGE_VLAN_INFO_PVID` -/
  pvid : Bool
  /-- `BRIDGE_VLAN_INFO_UNTAGGED` -/
  untagged : Bool

/-- The VIDs that the loops go through. -/
def Vlans.vids (o : Vlans) : List Nat := List.range' o.vidBegin (o.vidEnd + 1 - o.vidBegin)

/-- Both inner and outer PVID. -/
def pvidWord (v : Nat) : BitVec 32 := (BitVec.ofNat 32 v <<< 16) ||| (BitVec.ofNat 32 v <<< 2)

/-- A round of the first loop of `rtl83xx_vlan_add`. -/
def pvidVid (o : Vlans) (s : State) (v : Nat) : State :=
  if v = 0 then s
  else
    { s with
      portPb := Function.update s.portPb o.port (pvidWord v)
      pvid := Function.update s.pvid o.port o.vidEnd }

/-- What `rtl83xx_vlan_add` makes of an entry. -/
def addInfo (o : Vlans) (info : VlanInfo) : VlanInfo :=
  -- new VLAN?
  let info :=
    if info.taggedPorts = 0 then
      { info with fid := 0, hashMcFid := false, hashUcFid := false, profileId := 0 }
    else info
  -- must be a subset
  let info :=
    if info.untaggedPorts &&& ~~~ info.taggedPorts ≠ 0 then { info with untaggedPorts :=
      0 } else info
  let info := { info with taggedPorts := info.taggedPorts ||| bitULL o.port }
  if o.untagged = true then { info with untaggedPorts := info.untaggedPorts ||| bitULL o.port }
  else info

/-- A round of the second loop. -/
def addVid (o : Vlans) (s : State) (v : Nat) : State :=
  if v = 0 then s
  else
    let r := vlanTablesRead v s
    let info := addInfo o r.1
    vlanSetTagged v info (vlanSetUntagged v info.untaggedPorts r.2)

/-- `rtl83xx_vlan_add` -/
def vlanAdd (o : Vlans) (s : State) : State :=
  if o.vidBegin > 4095 ∨ o.vidEnd > 4095 then s
  else
    let s := if o.pvid = true then o.vids.foldl (pvidVid o) s else s
    o.vids.foldl (addVid o) s

/-- What `rtl83xx_vlan_del` makes of an entry. -/
def delInfo (o : Vlans) (v : Nat) (info : VlanInfo) : VlanInfo :=
  let info := { info with untaggedPorts := info.untaggedPorts &&& ~~~ bitULL o.port }
  -- always leave vid 1
  if v ≠ 1 then { info with taggedPorts := info.taggedPorts &&& ~~~ bitULL o.port } else info

/-- A round of the loop of `rtl83xx_vlan_del`. -/
def delVid (o : Vlans) (pvid : Nat) (s : State) (v : Nat) : State :=
  let s := if v = pvid then { s with portPb := Function.update s.portPb o.port 0 } else s
  let r := vlanTablesRead v s
  let info := delInfo o v r.1
  vlanSetTagged v info (vlanSetUntagged v info.untaggedPorts r.2)

/-- `-ENOTSUPP` -/
def enotsupp : Int := -524

/-- `rtl83xx_vlan_del` -/
def vlanDel (o : Vlans) (s : State) : Int × State :=
  if o.vidBegin > 4095 ∨ o.vidEnd > 4095 then (enotsupp, s)
  else (0, o.vids.foldl (delVid o (s.pvid o.port)) s)

/-! ## Runs -/

inductive Call where
  | add (o : Vlans)
  | del (o : Vlans)

namespace Call

def vlans : Call → Vlans
  | .add o => o
  | .del o => o

def IsAdd : Call → Prop
  | .add _ => True
  | .del _ => False

instance : DecidablePred IsAdd
  | .add _ => isTrue trivial
  | .del _ => isFalse id

/-- A port of the switch, and a range of VIDs within 2..4095. -/
def Valid (c : Call) : Prop :=
  c.vlans.port ≤ 28 ∧ 2 ≤ c.vlans.vidBegin ∧ c.vlans.vidBegin ≤ c.vlans.vidEnd ∧
    c.vlans.vidEnd ≤ 4095

instance : DecidablePred Valid := fun _ => inferInstanceAs (Decidable (_ ∧ _))

/-- The call is about a port in a VLAN. -/
def Covers (c : Call) (port vid : Nat) : Prop :=
  c.vlans.port = port ∧ c.vlans.vidBegin ≤ vid ∧ vid ≤ c.vlans.vidEnd

instance (c : Call) (port vid : Nat) : Decidable (c.Covers port vid) :=
  inferInstanceAs (Decidable (_ ∧ _))

/-- The call sets the PVID of a port. -/
def SetsPvid (c : Call) (port : Nat) : Prop :=
  c.IsAdd ∧ c.vlans.port = port ∧ c.vlans.pvid = true

instance (c : Call) (port : Nat) : Decidable (c.SetsPvid port) :=
  inferInstanceAs (Decidable (_ ∧ _))

end Call

def step (s : State) : Call → State
  | .add o => vlanAdd o s
  | .del o => (vlanDel o s).2

def run (cs : List Call) (s : State) : State := cs.foldl step s

def Member (s : State) (port vid : Nat) : Prop := port ∈ (s.tbl0 vid).1

def Untagged (s : State) (port vid : Nat) : Prop := port ∈ s.tbl1 vid

/-- The tables are zero, and no PVID was set. -/
def Start (s : State) : Prop := (∀ v, s.tbl0 v = (0, 0)) ∧ (∀ v, s.tbl1 v = 0) ∧ ∀ i, s.pvid i = 0

/-- The last call about a port in a VLAN. -/
def lastCall (cs : List Call) (port vid : Nat) : Option Call :=
  cs.reverse.find? fun c => c.Covers port vid

section
variable {s t : State} {o : Vlans} {v w i j port vid : Nat} {read : Bool} {info : VlanInfo}

/-! ## Commands -/

theorem command_and {c : BitVec 32} (h : 0xfff &&& c = 0) :
    command read v &&& c = (0x8000 ||| if read = true then 0x4000 else 0) &&& c := command_flags h

theorem command_execute : ¬ (command read v &&& 0x8000 = 0 ∨ command read v &&& 0x3000 ≠ 0) := by
  rw [command_and (by decide), command_and (by decide)]
  cases read <;> decide

theorem command_read : command read v &&& 0x4000 ≠ 0 ↔ read = true := by
  rw [command_and (by decide)]
  cases read <;> decide

theorem command_row (hv : v < 4096) : (command read v &&& 0xfff).toNat = v :=
  command_index (n := 12) rfl (by cases read <;> decide) (by decide) hv

theorem execTbl0_read (hv : v < 4096) :
    execTbl0 (command true v) s = { s with data0 := s.tbl0 v } := by
  rw [execTbl0, if_neg command_execute, if_pos (command_read.mpr rfl), command_row hv]

theorem execTbl1_read (hv : v < 4096) :
    execTbl1 (command true v) s = { s with data1 := s.tbl1 v } := by
  rw [execTbl1, if_neg command_execute, if_pos (command_read.mpr rfl), command_row hv]

theorem execTbl0_write (hv : v < 4096) :
    execTbl0 (command false v) s = { s with tbl0 := Function.update s.tbl0 v s.data0 } := by
  have hnot : ¬ command false v &&& 0x4000 ≠ 0 := fun h => Bool.false_ne_true (command_read.mp h)
  rw [execTbl0, if_neg command_execute, if_neg hnot, command_row hv]

theorem execTbl1_write (hv : v < 4096) :
    execTbl1 (command false v) s = { s with tbl1 := Function.update s.tbl1 v s.data1 } := by
  have hnot : ¬ command false v &&& 0x4000 ≠ 0 := fun h => Bool.false_ne_true (command_read.mp h)
  rw [execTbl1, if_neg command_execute, if_neg hnot, command_row hv]

/-! ## An entry -/

/-- Reading, changing and writing an entry. -/
theorem rewrite_spec (hv : v < 4096) (f : VlanInfo → VlanInfo) :
    let r := vlanTablesRead v s
    let t := vlanSetTagged v (f r.1) (vlanSetUntagged v (f r.1).untaggedPorts r.2)
    t.portPb = s.portPb ∧ t.pvid = s.pvid ∧
      (∀ w, w ≠ v → t.tbl0 w = s.tbl0 w ∧ t.tbl1 w = s.tbl1 w) ∧
      (t.tbl0 v).1 = (f r.1).taggedPorts.setWidth 32 ∧
      t.tbl1 v = ((f r.1).untaggedPorts &&& 0x1fffffff).setWidth 32 ∧
      r.1.taggedPorts = (s.tbl0 v).1.setWidth 64 ∧ r.1.untaggedPorts = (s.tbl1 v).setWidth 64 := by
  have hread : (vlanTablesRead v s).2 = { s with data0 := s.tbl0 v, data1 := s.tbl1 v } := by
    rw [vlanTablesRead, execTbl0_read hv, execTbl1_read hv]
  dsimp only
  rw [hread, vlanSetUntagged, execTbl1_write hv, vlanSetTagged, execTbl0_write hv]
  refine ⟨rfl, rfl, fun w hw => ⟨?_, ?_⟩, ?_, ?_, ?_, ?_⟩
  · exact Function.update_of_ne hw ..
  · exact Function.update_of_ne hw ..
  · dsimp only
    rw [Function.update_self]
  · dsimp only
    rw [Function.update_self]
  · rw [vlanTablesRead, execTbl0_read hv]
  · rw [vlanTablesRead, execTbl0_read hv, execTbl1_read hv]

/-- The ports of the switch. -/
theorem mem_ports {x : BitVec 64} : i ∈ (x &&& 0x1fffffff).setWidth 32 ↔ i ≤ 28 ∧ i ∈ x := by
  have hports : (0x1fffffff : BitVec 64) = (BitVec.allOnes 29).setWidth 64 := by decide
  rw [mem_setWidth, mem_and, hports, mem_setWidth, mem_allOnes]
  constructor
  · rintro ⟨-, hx, -, hi⟩
    exact ⟨Nat.le_of_lt_succ hi, hx⟩
  · rintro ⟨hi, hx⟩
    exact ⟨by omega, hx, by omega, by omega⟩

/-- The untagged ports of a VLAN are ports of the switch and members. -/
def Subset (s : State) : Prop := ∀ i v, Untagged s i v → i ≤ 28 ∧ Member s i v

theorem taggedPorts_addInfo : (addInfo o info).taggedPorts = info.taggedPorts ||| bitULL o.port :=
    by
  rw [addInfo]
  split_ifs <;> rfl

theorem untaggedPorts_addInfo (hsub : ∀ i, i ∈ info.untaggedPorts → i ∈ info.taggedPorts) :
    (addInfo o info).untaggedPorts =
      if o.untagged = true then info.untaggedPorts ||| bitULL o.port else info.untaggedPorts := by
  have hkeep : ¬ info.untaggedPorts &&& ~~~ info.taggedPorts ≠ 0 := by
    rw [not_not, mask_eq_zero_iff]
    intro i hi
    rw [mem_and_not] at hi
    exact hi.2 (hsub i hi.1)
  by_cases hnew : info.taggedPorts = 0
  · rw [addInfo, if_pos hnew]
    dsimp only
    rw [if_neg hkeep]
    split <;> rfl
  · rw [addInfo, if_neg hnew]
    dsimp only
    rw [if_neg hkeep]
    split <;> rfl

/-- What a round of `rtl83xx_vlan_add` does. -/
structure AfterAddVid (o : Vlans) (v : Nat) (s t : State) : Prop where
  portPb : t.portPb = s.portPb
  pvid : t.pvid = s.pvid
  member : ∀ i w, Member t i w ↔ Member s i w ∨ w = v ∧ i = o.port
  untagged : ∀ i w, Untagged t i w ↔ Untagged s i w ∨ w = v ∧ i = o.port ∧ o.untagged = true

theorem addVid_spec (hs : Subset s) (hv₀ : v ≠ 0) (hv : v < 4096) (hport : o.port ≤ 28) :
    AfterAddVid o v s (addVid o s v) := by
  obtain ⟨hpb, hpvid, hother, htagged, huntagged, hread, hread'⟩ := rewrite_spec (s :=
      s) hv (addInfo o)
  have hbit (i : Nat) : i ∈ bitULL o.port ↔ i = o.port := mem_bitULL (by omega)
  rw [addVid, if_neg hv₀]
  dsimp only at *
  refine ⟨hpb, hpvid, fun i w => ?_, fun i w => ?_⟩
  · by_cases hw : w = v
    · rw [hw, Member, htagged, taggedPorts_addInfo, hread, mem_setWidth, mem_or, mem_setWidth, hbit,
        and_iff_right (a := v = v) rfl]
      constructor
      · rintro ⟨-, h | h⟩
        · exact .inl h.2
        · exact .inr h
      · rintro (h | rfl)
        · have hlt := lt_of_mem_mask h
          exact ⟨hlt, .inl ⟨by omega, h⟩⟩
        · exact ⟨by omega, .inr rfl⟩
    · rw [Member, (hother w hw).1, or_iff_left fun h => hw h.1]
      exact Iff.rfl
  · by_cases hw : w = v
    · have hsub (i : Nat) (hi : i ∈ (vlanTablesRead v s).1.untaggedPorts) :
          i ∈ (vlanTablesRead v s).1.taggedPorts := by
        rw [hread', mem_setWidth] at hi
        rw [hread, mem_setWidth]
        exact ⟨hi.1, (hs i v hi.2).2⟩
      have hports : i ∈ (vlanTablesRead v s).1.untaggedPorts ↔ Untagged s i v := by
        rw [hread', mem_setWidth]
        refine ⟨And.right, fun h => ⟨?_, h⟩⟩
        have hle := (hs i v h).1
        omega
      rw [hw, Untagged, huntagged, untaggedPorts_addInfo hsub, mem_ports, and_iff_right (a := v =
        v) rfl]
      split
      next hon =>
        rw [mem_or, hports, hbit, and_iff_left hon]
        refine ⟨And.right, fun h => ⟨?_, h⟩⟩
        rcases h with h | h
        · exact (hs i v h).1
        · omega
      next hoff =>
        rw [hports, or_iff_left fun h => hoff h.2]
        exact ⟨And.right, fun h => ⟨(hs i v h).1, h⟩⟩
    · rw [Untagged, (hother w hw).2, or_iff_left fun h => hw h.1]
      exact Iff.rfl

theorem AfterAddVid.subset (h : AfterAddVid o v s t) (hs : Subset s) (hport : o.port ≤ 28) :
    Subset t := by
  intro i w hi
  rw [h.member]
  rcases (h.untagged i w).mp hi with hi | ⟨hw, hi, -⟩
  · exact ⟨(hs i w hi).1, .inl (hs i w hi).2⟩
  · exact ⟨hi ▸ hport, .inr ⟨hw, hi⟩⟩

/-- What a round of `rtl83xx_vlan_del` does. -/
structure AfterDelVid (o : Vlans) (pvid v : Nat) (s t : State) : Prop where
  portPb : t.portPb = if v = pvid then Function.update s.portPb o.port 0 else s.portPb
  pvid : t.pvid = s.pvid
  member : ∀ i w, Member t i w ↔ Member s i w ∧ ¬ (w = v ∧ i = o.port)
  untagged : ∀ i w, Untagged t i w ↔ Untagged s i w ∧ ¬ (w = v ∧ i = o.port)

theorem delVid_spec {pvid : Nat} (hs : Subset s) (hv₁ : v ≠ 1) (hv : v < 4096) (hport :
    o.port ≤ 28) :
    AfterDelVid o pvid v s (delVid o pvid s v) := by
  rw [delVid]
  have hsame : ∀ u : State, u = (if v = pvid then { s with
      portPb := Function.update s.portPb o.port 0 } else s) →
      u.tbl0 = s.tbl0 ∧ u.tbl1 = s.tbl1 ∧ u.pvid = s.pvid ∧
        u.portPb = if v = pvid then Function.update s.portPb o.port 0 else s.portPb := by
    rintro u rfl
    split <;> exact ⟨rfl, rfl, rfl, rfl⟩
  generalize hu : (if v = pvid then { s with
    portPb := Function.update s.portPb o.port 0 } else s) = u
  obtain ⟨htbl0, htbl1, hupvid, hupb⟩ := hsame u hu.symm
  obtain ⟨hpb, hpvid, hother, htagged, huntagged, hread, hread'⟩ :=
    rewrite_spec (s := u) hv (delInfo o v)
  have hbit (i : Nat) : i ∈ bitULL o.port ↔ i = o.port := mem_bitULL (by omega)
  refine ⟨hpb.trans hupb, hpvid.trans hupvid, fun i w => ?_, fun i w => ?_⟩
  · by_cases hw : w = v
    · rw [hw, Member, htagged, delInfo, if_pos hv₁]
      dsimp only
      rw [hread, mem_setWidth, mem_and_not, mem_setWidth, hbit, and_iff_right (a := v = v) rfl,
        htbl0]
      constructor
      · rintro ⟨-, ⟨-, h⟩, hne⟩
        exact ⟨h, hne⟩
      · rintro ⟨h, hne⟩
        have hlt := lt_of_mem_mask h
        exact ⟨hlt, ⟨by omega, h⟩, hne⟩
    · rw [Member, (hother w hw).1, and_iff_left fun h => hw h.1, htbl0]
      exact Iff.rfl
  · by_cases hw : w = v
    · rw [hw, Untagged, huntagged, delInfo, if_pos hv₁]
      dsimp only
      rw [hread', mem_ports, mem_and_not, mem_setWidth, hbit, and_iff_right (a := v = v) rfl, htbl1]
      constructor
      · rintro ⟨-, ⟨-, h⟩, hne⟩
        exact ⟨h, hne⟩
      · rintro ⟨h, hne⟩
        have hle := (hs i v h).1
        exact ⟨hle, ⟨by omega, h⟩, hne⟩
    · rw [Untagged, (hother w hw).2, and_iff_left fun h => hw h.1, htbl1]
      exact Iff.rfl

theorem AfterDelVid.subset {pvid : Nat} (h : AfterDelVid o pvid v s t) (hs : Subset s) : Subset t :=
    by
  intro i w hi
  obtain ⟨hold, hne⟩ := (h.untagged i w).mp hi
  exact ⟨(hs i w hold).1, (h.member i w).mpr ⟨(hs i w hold).2, hne⟩⟩

/-! ## The loops -/

section
variable {vs : List Nat}

theorem pvidVids_spec (hvs : ∀ v ∈ vs, v ≠ 0) :
    vs.foldl (pvidVid o) s = if hne : vs = [] then s else
      { s with
        portPb := Function.update s.portPb o.port (pvidWord (vs.getLast hne))
        pvid := Function.update s.pvid o.port o.vidEnd } := by
  induction vs generalizing s with
  | nil => rfl
  | cons v vs ih =>
    have hv : v ≠ 0 := hvs v List.mem_cons_self
    have hrest : ∀ v ∈ vs, v ≠ 0 := fun w hw => hvs w (List.mem_cons_of_mem v hw)
    rw [dif_neg (List.cons_ne_nil v vs), List.foldl_cons, ih hrest, pvidVid, if_neg hv]
    split
    next hnil =>
      subst hnil
      rfl
    next hne =>
      dsimp only
      rw [Function.update_idem, Function.update_idem, List.getLast_cons hne]

theorem addVids_spec (hvs : ∀ v ∈ vs, v ≠ 0 ∧ v < 4096) (hs : Subset s) (hport : o.port ≤ 28) :
    let t := vs.foldl (addVid o) s
    Subset t ∧ t.portPb = s.portPb ∧ t.pvid = s.pvid ∧
      (∀ i w, Member t i w ↔ Member s i w ∨ w ∈ vs ∧ i = o.port) ∧
      ∀ i w, Untagged t i w ↔ Untagged s i w ∨ w ∈ vs ∧ i = o.port ∧ o.untagged = true := by
  induction vs generalizing s with
  | nil =>
    refine ⟨hs, rfl, rfl, fun i w => ?_, fun i w => ?_⟩
    · exact (or_iff_left fun h => List.not_mem_nil h.1).symm
    · exact (or_iff_left fun h => List.not_mem_nil h.1).symm
  | cons v vs ih =>
    obtain ⟨hv₀, hv⟩ := hvs v List.mem_cons_self
    have hround := addVid_spec hs hv₀ hv hport
    obtain ⟨hsub, hpb, hpvid, hmember, huntagged⟩ :=
      ih (fun w hw => hvs w (List.mem_cons_of_mem v hw)) (hround.subset hs hport)
    rw [List.foldl_cons]
    refine ⟨hsub, hpb.trans hround.portPb, hpvid.trans hround.pvid, fun i w => ?_, fun i w => ?_⟩
    · rw [hmember, hround.member, List.mem_cons, or_assoc, ← or_and_right]
    · rw [huntagged, hround.untagged, List.mem_cons, or_assoc, ← or_and_right]

theorem delVids_spec {p : Nat} (hvs : ∀ v ∈ vs, v ≠ 1 ∧ v < 4096) (hs : Subset s)
    (hport : o.port ≤ 28) :
    let t := vs.foldl (delVid o p) s
    Subset t ∧
      t.portPb = (if p ∈ vs then Function.update s.portPb o.port 0 else s.portPb) ∧
      t.pvid = s.pvid ∧
      (∀ i w, Member t i w ↔ Member s i w ∧ ¬ (w ∈ vs ∧ i = o.port)) ∧
      ∀ i w, Untagged t i w ↔ Untagged s i w ∧ ¬ (w ∈ vs ∧ i = o.port) := by
  induction vs generalizing s with
  | nil =>
    refine ⟨hs, rfl, rfl, fun i w => ?_, fun i w => ?_⟩
    · exact (and_iff_left fun h => List.not_mem_nil h.1).symm
    · exact (and_iff_left fun h => List.not_mem_nil h.1).symm
  | cons v vs ih =>
    obtain ⟨hv₁, hv⟩ := hvs v List.mem_cons_self
    have hround : AfterDelVid o p v s _ := delVid_spec hs hv₁ hv hport
    obtain ⟨hsub, hpb, hpvid, hmember, huntagged⟩ :=
      ih (fun w hw => hvs w (List.mem_cons_of_mem v hw)) (hround.subset hs)
    rw [List.foldl_cons]
    refine ⟨hsub, ?_, hpvid.trans hround.pvid, fun i w => ?_, fun i w => ?_⟩
    · rw [hpb, hround.portPb]
      by_cases hvp : v = p
      · have hmem : p ∈ v :: vs := by
          rw [hvp]
          exact List.mem_cons_self
        rw [if_pos hvp, if_pos hmem, Function.update_idem, ite_self]
      · have hmem : p ∈ v :: vs ↔ p ∈ vs := by
          rw [List.mem_cons, or_iff_right (Ne.symm hvp)]
        rw [if_neg hvp]
        simp only [hmem]
    · rw [hmember, hround.member, List.mem_cons, and_assoc, ← not_or, ← or_and_right]
    · rw [huntagged, hround.untagged, List.mem_cons, and_assoc, ← not_or, ← or_and_right]

end

/-! ## The calls -/

theorem mem_vids : v ∈ o.vids ↔ o.vidBegin ≤ v ∧ v ≤ o.vidEnd := by
  rw [Vlans.vids, List.mem_range'_1]
  omega

/-- What a call to a VLAN function does. -/
structure After (c : Call) (s t : State) : Prop where
  subset : Subset t
  member : ∀ i w, Member t i w ↔ if c.Covers i w then c.IsAdd else Member s i w
  untagged : ∀ i w, Untagged t i w ↔
    if c.Covers i w then c.IsAdd ∧ (Untagged s i w ∨ c.vlans.untagged = true) else Untagged s i w
  pvid : ∀ i, t.pvid i = if c.SetsPvid i then c.vlans.vidEnd else s.pvid i
  portPb : ∀ i, t.portPb i =
    if c.SetsPvid i then pvidWord c.vlans.vidEnd
    else if ¬ c.IsAdd ∧ c.Covers i (s.pvid i) then 0
    else s.portPb i

theorem vids_bounds (hb : 2 ≤ o.vidBegin) (he : o.vidEnd ≤ 4095) (hv : v ∈ o.vids) :
    v ≠ 0 ∧ v ≠ 1 ∧ v < 4096 := by
  rw [mem_vids] at hv
  omega

/-- The last VID of a range. -/
theorem vids_last (hle : o.vidBegin ≤ o.vidEnd) : ∃ hne, o.vids.getLast hne = o.vidEnd := by
  obtain ⟨k, hk⟩ := Nat.exists_eq_add_of_le hle
  have hvids : o.vids = List.range' o.vidBegin k ++ [o.vidEnd] := by
    have hcount : o.vidEnd + 1 - o.vidBegin = k + 1 := by omega
    rw [Vlans.vids, hcount, List.range'_1_concat, hk]
  have hne : o.vids ≠ [] := by
    rw [hvids]
    exact List.concat_ne_nil _ _
  refine ⟨hne, ?_⟩
  simp only [hvids, List.getLast_concat]

/-- The PVID part of `rtl83xx_vlan_add`. -/
theorem pvidVids_last (hle : o.vidBegin ≤ o.vidEnd) (hb : 2 ≤ o.vidBegin) (he : o.vidEnd ≤ 4095) :
    o.vids.foldl (pvidVid o) s = { s with
      portPb := Function.update s.portPb o.port (pvidWord o.vidEnd)
      pvid := Function.update s.pvid o.port o.vidEnd } := by
  obtain ⟨hne, hlast⟩ := vids_last hle
  rw [pvidVids_spec fun v hv => (vids_bounds hb he hv).1, dif_neg hne, hlast]

theorem step_add (hs : Subset s) (hc : (Call.add o).Valid) : After (.add o) s (step s (.add o)) :=
    by
  obtain ⟨hport, hb, hle, he⟩ := hc
  dsimp only [Call.vlans] at hport hb hle he
  have hguard : ¬ (o.vidBegin > 4095 ∨ o.vidEnd > 4095) := by omega
  have hcovers (i w : Nat) : (Call.add o).Covers i w ↔ w ∈ o.vids ∧ i = o.port := by
    rw [mem_vids]
    exact ⟨fun h => ⟨h.2, h.1.symm⟩, fun h => ⟨h.2.symm, h.1⟩⟩
  have hsets (i : Nat) : (Call.add o).SetsPvid i ↔ o.port = i ∧ o.pvid = true :=
    and_iff_right trivial
  have hfirst : ∃ u : State, u = (if o.pvid = true then o.vids.foldl (pvidVid o) s else s) ∧
      u.tbl0 = s.tbl0 ∧ u.tbl1 = s.tbl1 ∧
      (∀ i, u.pvid i = if o.port = i ∧ o.pvid = true then o.vidEnd else s.pvid i) ∧
      ∀ i, u.portPb i = if o.port = i ∧ o.pvid = true then pvidWord o.vidEnd else s.portPb i := by
    refine ⟨_, rfl, ?_⟩
    split
    next hp =>
      rw [pvidVids_last hle hb he]
      refine ⟨rfl, rfl, fun i => ?_, fun i => ?_⟩
      · simp only [Function.update_apply, hp, and_true, eq_comm]
      · simp only [Function.update_apply, hp, and_true, eq_comm]
    next hp =>
      refine ⟨rfl, rfl, fun i => ?_, fun i => ?_⟩
      · rw [if_neg fun h => hp h.2]
      · rw [if_neg fun h => hp h.2]
  obtain ⟨u, hu, htbl0, htbl1, hupvid, hupb⟩ := hfirst
  have hsu : Subset u := by
    intro i w
    rw [Untagged, Member, htbl0, htbl1]
    exact hs i w
  have hvids (v : Nat) (hv : v ∈ o.vids) : v ≠ 0 ∧ v < 4096 := by
    have h := vids_bounds hb he hv
    exact ⟨h.1, h.2.2⟩
  obtain ⟨hsub, hpb, hpvid, hmember, huntagged⟩ := addVids_spec hvids hsu hport
  have hstep : step s (.add o) = o.vids.foldl (addVid o) u := by
    rw [step, vlanAdd, if_neg hguard, hu]
  rw [hstep]
  refine ⟨hsub, fun i w => ?_, fun i w => ?_, fun i => ?_, fun i => ?_⟩
  · rw [hmember, Member, htbl0, ← hcovers]
    split
    next h => exact ⟨fun _ => trivial, fun _ => .inr h⟩
    next h => exact or_iff_left h
  · rw [huntagged, Untagged, htbl1, ← and_assoc, ← hcovers]
    split
    next h =>
      rw [and_iff_right h]
      exact (and_iff_right trivial).symm
    next h => exact or_iff_left fun hc => h hc.1
  · rw [hpvid, hupvid]
    simp only [hsets]
    rfl
  · rw [hpb, hupb]
    simp only [hsets]
    split
    · rfl
    · exact (if_neg fun h => h.1 trivial).symm

theorem step_del (hs : Subset s) (hc : (Call.del o).Valid) : After (.del o) s (step s (.del o)) :=
    by
  obtain ⟨hport, hb, hle, he⟩ := hc
  dsimp only [Call.vlans] at hport hb hle he
  have hguard : ¬ (o.vidBegin > 4095 ∨ o.vidEnd > 4095) := by omega
  have hcovers (i w : Nat) : (Call.del o).Covers i w ↔ w ∈ o.vids ∧ i = o.port := by
    rw [mem_vids]
    exact ⟨fun h => ⟨h.2, h.1.symm⟩, fun h => ⟨h.2.symm, h.1⟩⟩
  have hvids (v : Nat) (hv : v ∈ o.vids) : v ≠ 1 ∧ v < 4096 := (vids_bounds hb he hv).2
  obtain ⟨hsub, hpb, hpvid, hmember, huntagged⟩ :=
    delVids_spec (p := s.pvid o.port) hvids hs hport
  have hstep : step s (.del o) = o.vids.foldl (delVid o (s.pvid o.port)) s := by
    rw [step, vlanDel, if_neg hguard]
  rw [hstep]
  refine ⟨hsub, fun i w => ?_, fun i w => ?_, fun i => ?_, fun i => ?_⟩
  · rw [hmember, ← hcovers]
    split
    next h => exact ⟨fun hm => hm.2 h, fun hf => hf.elim⟩
    next h => exact and_iff_left h
  · rw [huntagged, ← hcovers]
    split
    next h => exact ⟨fun hm => (hm.2 h).elim, fun hf => hf.1.elim⟩
    next h => exact and_iff_left h
  · rw [hpvid, if_neg fun h => h.1.elim]
  · rw [hpb, if_neg fun h : (Call.del o).SetsPvid i => h.1.elim]
    by_cases hi : i = o.port
    · have hiff : (¬ (Call.del o).IsAdd ∧ (Call.del o).Covers i (s.pvid i)) ↔
          s.pvid o.port ∈ o.vids := by
        rw [hcovers, hi, and_iff_left rfl]
        exact and_iff_right id
      by_cases hmem : s.pvid o.port ∈ o.vids
      · rw [if_pos hmem, if_pos (hiff.mpr hmem), hi, Function.update_self]
      · rw [if_neg hmem, if_neg fun h => hmem (hiff.mp h)]
    · have hnot : ¬ (¬ (Call.del o).IsAdd ∧ (Call.del o).Covers i (s.pvid i)) := by
        rw [hcovers]
        exact fun h => hi h.2.2
      rw [if_neg hnot]
      split
      · rw [Function.update_of_ne hi]
      · rfl

theorem step_spec {c : Call} (hs : Subset s) (hc : c.Valid) : After c s (step s c) := by
  cases c with
  | add o => exact step_add hs hc
  | del o => exact step_del hs hc

/-! ## Runs -/

section
variable {cs pre post : List Call} {c : Call}

theorem run_concat : run (cs ++ [c]) s = step (run cs s) c := by
  rw [run, List.foldl_append]
  rfl

theorem lastCall_concat :
    lastCall (cs ++ [c]) i v = if c.Covers i v then some c else lastCall cs i v := by
  rw [lastCall, List.reverse_concat, List.find?_cons]
  by_cases h : c.Covers i v
  · rw [if_pos h, decide_eq_true h]
  · rw [if_neg h, decide_eq_false h]
    rfl

theorem Start.subset (h : Start s) : Subset s := by
  intro i v hi
  rw [Untagged, h.2.1] at hi
  exact absurd hi not_mem_zero

/-- **Members.** A port is a member where the last call about it was an add. -/
theorem run_spec (hstart : Start s) (hcs : ∀ c ∈ cs, c.Valid) :
    Subset (run cs s) ∧
      ∀ i v, Member (run cs s) i v ↔ ∃ c, lastCall cs i v = some c ∧ c.IsAdd := by
  induction cs using List.reverseRecOn with
  | nil =>
    refine ⟨hstart.subset, fun i v => ?_⟩
    have hnone : ¬ Member s i v := by
      rw [Member, hstart.1]
      exact not_mem_zero
    exact ⟨fun h => absurd h hnone, fun ⟨_, h, _⟩ => by cases h⟩
  | append_singleton cs c ih =>
    obtain ⟨hsub, hmember⟩ := ih fun d hd => hcs d (List.mem_append_left _ hd)
    have hstep : After c (run cs s) _ :=
      step_spec hsub (hcs c (List.mem_append_right _ List.mem_cons_self))
    rw [run_concat]
    refine ⟨hstep.subset, fun i v => ?_⟩
    rw [hstep.member, lastCall_concat]
    split
    · exact ⟨fun h => ⟨c, rfl, h⟩, fun ⟨_, hd, h⟩ => Option.some.inj hd ▸ h⟩
    · exact hmember i v

/-- An add without the flag is for VLANs in which the port is not untagged. -/
def Clean (s : State) (c : Call) : Prop :=
  c.IsAdd → c.vlans.untagged = false → ∀ v, c.Covers c.vlans.port v → ¬ Untagged s c.vlans.port v

/-- Every call is clean where it is made. -/
def CleanRun (cs : List Call) (s : State) : Prop :=
  ∀ pre c post, cs = pre ++ c :: post → Clean (run pre s) c

theorem CleanRun.of_concat (h : CleanRun (cs ++ [c]) s) : CleanRun cs s ∧ Clean (run cs s) c := by
  refine ⟨fun pre d post hcs => ?_, h cs c [] rfl⟩
  refine h pre d (post ++ [c]) ?_
  rw [hcs, List.append_assoc, List.cons_append]

theorem untagged_run (hstart : Start s) (hcs : ∀ c ∈ cs, c.Valid) (hclean : CleanRun cs s) (i v :
    Nat) :
    Untagged (run cs s) i v ↔
      ∃ c, lastCall cs i v = some c ∧ c.IsAdd ∧ c.vlans.untagged = true := by
  induction cs using List.reverseRecOn with
  | nil =>
    have hnone : ¬ Untagged s i v := by
      rw [Untagged, hstart.2.1]
      exact not_mem_zero
    exact ⟨fun h => absurd h hnone, fun ⟨_, h, _⟩ => by cases h⟩
  | append_singleton cs c ih =>
    have hold : ∀ d ∈ cs, d.Valid := fun d hd => hcs d (List.mem_append_left _ hd)
    obtain ⟨hrest, hc⟩ := hclean.of_concat
    have hstep : After c (run cs s) _ := step_spec (run_spec hstart hold).1
      (hcs c (List.mem_append_right _ List.mem_cons_self))
    rw [run_concat, hstep.untagged, lastCall_concat]
    split
    next hcov =>
      have hflag (hadd : c.IsAdd) (hu : Untagged (run cs s) i v) : c.vlans.untagged = true := by
        by_contra hoff
        obtain rfl := hcov.1
        exact hc hadd (Bool.eq_false_iff.mpr hoff) v hcov hu
      constructor
      · rintro ⟨hadd, hu | hu⟩
        · exact ⟨c, rfl, hadd, hflag hadd hu⟩
        · exact ⟨c, rfl, hadd, hu⟩
      · rintro ⟨d, hd, hadd, hu⟩
        obtain rfl := Option.some.inj hd
        exact ⟨hadd, .inr hu⟩
    next => exact ih hold hrest

/-- After the last call that sets the PVID of a port, only a deletion changes its register. -/
theorem portPb_run (hs : Subset s) (hcs : ∀ c ∈ cs, c.Valid) (hnone : ∀ c ∈ cs, ¬ c.SetsPvid i) :
    (run cs s).portPb i =
      if ∃ d ∈ cs, ¬ d.IsAdd ∧ d.Covers i (s.pvid i) then 0 else s.portPb i := by
  induction cs generalizing s with
  | nil => exact (if_neg fun ⟨_, h, _⟩ => List.not_mem_nil h).symm
  | cons c cs ih =>
    have hstep : After c s _ := step_spec hs (hcs c List.mem_cons_self)
    have hc := hnone c List.mem_cons_self
    have hpvid : (step s c).pvid i = s.pvid i := by rw [hstep.pvid, if_neg hc]
    have hrest := ih hstep.subset (fun d hd => hcs d (List.mem_cons_of_mem c hd))
      fun d hd => hnone d (List.mem_cons_of_mem c hd)
    rw [hpvid, hstep.portPb, if_neg hc] at hrest
    have hiff : (∃ d ∈ c :: cs, ¬ d.IsAdd ∧ d.Covers i (s.pvid i)) ↔
        (¬ c.IsAdd ∧ c.Covers i (s.pvid i)) ∨ ∃ d ∈ cs, ¬ d.IsAdd ∧ d.Covers i (s.pvid i) := by
      simp only [List.mem_cons, or_and_right, exists_or, exists_eq_left]
    show (run cs (step s c)).portPb i = _
    rw [hrest]
    by_cases hlater : ∃ d ∈ cs, ¬ d.IsAdd ∧ d.Covers i (s.pvid i)
    · rw [if_pos hlater, if_pos (hiff.mpr (.inr hlater))]
    · by_cases hnow : ¬ c.IsAdd ∧ c.Covers i (s.pvid i)
      · rw [if_neg hlater, if_pos hnow, if_pos (hiff.mpr (.inl hnow))]
      · rw [if_neg hlater, if_neg hnow, if_neg fun h => (hiff.mp h).elim hnow hlater]

/-- **VLANs.** Members, untagged members and PVIDs are what the last calls say. -/
structure Mirrors (cs : List Call) (s t : State) : Prop where
  member : ∀ i v, Member t i v ↔ ∃ c, lastCall cs i v = some c ∧ c.IsAdd
  untagged : ∀ i v, Untagged t i v ↔
    ∃ c, lastCall cs i v = some c ∧ c.IsAdd ∧ c.vlans.untagged = true
  subset : ∀ i v, Untagged t i v → Member t i v
  pvid : ∀ i pre c post, cs = pre ++ c :: post → c.SetsPvid i → (∀ d ∈ post, ¬ d.SetsPvid i) →
    t.portPb i = if ∃ d ∈ post, ¬ d.IsAdd ∧ d.Covers i c.vlans.vidEnd then 0
      else pvidWord c.vlans.vidEnd
  noPvid : ∀ i, (∀ c ∈ cs, ¬ c.SetsPvid i) → t.portPb i = s.portPb i

theorem mirrors_of_clean (hstart : Start s) (hcs : ∀ c ∈ cs, c.Valid) (hclean : CleanRun cs s) :
    Mirrors cs s (run cs s) := by
  obtain ⟨hsub, hmember⟩ := run_spec hstart hcs
  refine ⟨hmember, untagged_run hstart hcs hclean, fun i v h => (hsub i v h).2, ?_,
    fun i hnone => ?_⟩
  · rintro i pre c post rfl hsets hnone
    have hpre : ∀ d ∈ pre, d.Valid := fun d hd => hcs d (List.mem_append_left _ hd)
    have hpost : ∀ d ∈ post, d.Valid :=
      fun d hd => hcs d (List.mem_append_right _ (List.mem_cons_of_mem c hd))
    have hstep : After c (run pre s) _ := step_spec (run_spec hstart hpre).1
      (hcs c (List.mem_append_right _ List.mem_cons_self))
    have hrun : run (pre ++ c :: post) s = run post (step (run pre s) c) := List.foldl_append ..
    rw [hrun, portPb_run hstep.subset hpost hnone, hstep.pvid, hstep.portPb, if_pos hsets,
      if_pos hsets]
  · rw [portPb_run hstart.subset hcs hnone, if_neg]
    rintro ⟨d, hd, -, hcov⟩
    have hb := (hcs d hd).2.1
    have hzero := hcov.2.1
    rw [hstart.2.2] at hzero
    omega

/-- The state after the probe. -/
def blank : State := ⟨fun _ => (0, 0), fun _ => 0, (0, 0), 0, fun _ => 0, fun _ => 0⟩

/-- Port 0 joins VLANs 2 to 4, and leaves VLAN 4. -/
def someCalls : List Call := [.add ⟨0, 2, 4, true, true⟩, .del ⟨0, 4, 4, false, false⟩]

theorem mirrors_someCalls : Mirrors someCalls blank (run someCalls blank) := by
  refine mirrors_of_clean ⟨fun _ => rfl, fun _ => rfl, fun _ => rfl⟩ (by decide) ?_
  intro pre c post hsplit hadd hoff
  have hmem : c ∈ someCalls := by
    rw [hsplit]
    exact List.mem_append_right _ List.mem_cons_self
  simp only [someCalls, List.mem_cons, List.not_mem_nil, or_false] at hmem
  rcases hmem with rfl | rfl
  · cases hoff
  · exact hadd.elim

/-- Port 0 joins VLAN 2 untagged, and then tagged. -/
def tagLater : List Call := [.add ⟨0, 2, 2, false, true⟩, .add ⟨0, 2, 2, false, false⟩]

theorem tagLater_untagged : (∀ c ∈ tagLater, c.Valid) ∧ Start blank ∧
    ¬ Mirrors tagLater blank (run tagLater blank) := by
  refine ⟨by decide, ⟨fun _ => rfl, fun _ => rfl, fun _ => rfl⟩, fun h => ?_⟩
  have hmem : Untagged (run tagLater blank) 0 2 := by
    rw [Untagged]
    decide
  obtain ⟨c, hc, -, hu⟩ := (h.untagged 0 2).mp hmem
  obtain rfl := Option.some.inj hc
  cases hu

end

end

end UolaOs.Rtl83xx.Vlan
