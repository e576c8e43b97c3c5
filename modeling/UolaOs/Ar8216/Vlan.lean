import Mathlib.Logic.Function.Basic
import UolaOs.Lib.Reaches

/-!
# VLANs of the AR8xxx switches

The VLAN tables of ar8216.c, the functions that swconfig calls, and what is written to the switch.
-/

namespace UolaOs.Ar8216

/-- `AR8X16_MAX_PORTS` -/
def maxPorts : Nat := 8

/-- `-EINVAL` -/
def einval : Int := -22

/-- `struct switch_dev`; the tables have `AR83X7_MAX_VLANS` entries. -/
structure Dev where
  ports : Nat
  vlans : Nat
  ports_le : ports ≤ maxPorts
  vlans_le : vlans ≤ 4096

/-- The fields of `struct ar8xxx_priv` that VLANs are about. -/
structure Priv (dev : Dev) where
  init : Bool
  vlanId : Fin dev.vlans → UInt16
  vlanTable : Fin dev.vlans → BitVec maxPorts
  vlanTagged : BitVec maxPorts
  pvid : Fin maxPorts → UInt16

/-- `struct switch_port` -/
structure SwitchPort (dev : Dev) where
  id : Fin dev.ports
  flags : UInt32
  deriving DecidableEq

/-- `1 << i` -/
def bit (i : Nat) : BitVec maxPorts := BitVec.twoPow maxPorts i

/-- `1 << SWITCH_PORT_FLAG_TAGGED` -/
def flagTagged : UInt32 := 1

section
variable {dev : Dev}

namespace SwitchPort

/-- `p->flags & (1 << SWITCH_PORT_FLAG_TAGGED)` -/
def tagged (p : SwitchPort dev) : Bool := decide (p.flags &&& flagTagged ≠ 0)

/-- The place of a port in arrays with an entry for each port. -/
def index (p : SwitchPort dev) : Fin maxPorts := p.id.castLE dev.ports_le

end SwitchPort

namespace Priv
variable (s : Priv dev)

/-! ## `ar8xxx_sw_set_ports` and `ar8xxx_sw_get_ports` -/

/-- A round of the loop of `ar8xxx_sw_set_ports`. -/
def setPort (v : Fin dev.vlans) (s : Priv dev) (p : SwitchPort dev) : Priv dev :=
  let t :=
    if p.tagged = true then { s with vlanTagged := s.vlanTagged ||| bit p.id }
    else
      { s with
        vlanTagged := s.vlanTagged &&& ~~~ bit p.id
        pvid := Function.update s.pvid p.index (UInt16.ofNat v)
        -- an untagged port does not appear in other VLANs
        vlanTable := fun j => if j = v then s.vlanTable j else s.vlanTable j &&& ~~~ bit p.id }
  { t with vlanTable := Function.update t.vlanTable v (t.vlanTable v ||| bit p.id) }

/-- `ar8xxx_sw_set_ports` on a valid VLAN; it does not check. -/
def setPorts (v : Fin dev.vlans) (ports : List (SwitchPort dev)) : Priv dev :=
  ports.foldl (setPort v) { s with vlanTable := Function.update s.vlanTable v 0 }

/-- A round of the loop of `ar8xxx_sw_get_ports`. -/
def getPort (ports : BitVec maxPorts) (i : Fin dev.ports) : Option (SwitchPort dev) :=
  if ports &&& bit i = 0 then none
  else some ⟨i, if s.vlanTagged &&& bit i ≠ 0 then flagTagged else 0⟩

/-- `ar8xxx_sw_get_ports` -/
def getPorts (portVlan : Nat) : Except Int (List (SwitchPort dev)) :=
  if h : portVlan < dev.vlans then
    .ok ((List.finRange dev.ports).filterMap (s.getPort (s.vlanTable ⟨portVlan, h⟩)))
  else .error einval

/-! ## PVIDs and VIDs -/

/-- `ar8xxx_sw_set_pvid` -/
def setPvid (port vlan : Int) : Int × Priv dev :=
  if vlan < 0 ∨ vlan ≥ dev.vlans then (einval, s)
  else if h : port < 0 ∨ port ≥ maxPorts then (einval, s)
  else
    have hport : port.toNat < maxPorts := by omega
    (0, { s with pvid := Function.update s.pvid ⟨port.toNat, hport⟩ (UInt16.ofInt vlan) })

/-- `ar8xxx_sw_set_vid` -/
def setVid (portVlan : Nat) (i : UInt32) : Int × Priv dev :=
  if h : portVlan < dev.vlans then
    (0, { s with vlanId := Function.update s.vlanId ⟨portVlan, h⟩ i.toUInt16 })
  else (einval, s)

/-! ## `ar8xxx_sw_hw_apply` and `ar8xxx_sw_reset_switch` -/

/-- The destination masks after a VLAN with the ports `vp`. -/
def addMask (dev : Dev) (vp : BitVec maxPorts) (portmask : Fin dev.ports → BitVec maxPorts)
    (i : Fin dev.ports) : BitVec maxPorts :=
  if vp &&& bit i ≠ 0 then portmask i ||| (vp &&& ~~~ bit i) else portmask i

/-- A round of the loop over the VLANs. -/
def applyVlan (portmask : Fin dev.ports → BitVec maxPorts) (j : Fin dev.vlans) :
    Fin dev.ports → BitVec maxPorts :=
  if s.vlanTable j = 0 then portmask else addMask dev (s.vlanTable j) portmask

/-- The masks without VLANs: all ports are connected to the CPU port. -/
def cpuMask (i : Fin dev.ports) : BitVec maxPorts :=
  if i.val = 0 then
    (List.finRange dev.ports).foldl (fun m (p : Fin dev.ports) => if p.val = 0 then m else m ||| bit p) 0
  else bit 0

/-- The masks that `ar8xxx_sw_hw_apply` passes to `setup_port`. -/
def portmask : Fin dev.ports → BitVec maxPorts :=
  if s.init = false then (List.finRange dev.vlans).foldl s.applyVlan fun _ => 0 else cpuMask

/-- The calls of `vtu_load_vlan` in `ar8xxx_sw_hw_apply`. -/
def loaded : List (UInt16 × BitVec maxPorts) :=
  if s.init = false then
    (List.finRange dev.vlans).filterMap fun j =>
      if s.vlanTable j = 0 then none else some (s.vlanId j, s.vlanTable j)
  else []

/-- `ar8xxx_sw_reset_switch` -/
def resetSwitch : Priv dev where
  init := s.init
  vlanId j := UInt16.ofNat j
  vlanTable _ := 0
  vlanTagged := 0
  pvid _ := 0

end Priv

/-! ## Runs -/

/-- The calls of swconfig. -/
inductive Op (dev : Dev) where
  | setPorts (v : Fin dev.vlans) (ports : List (SwitchPort dev))
  | setPvid (port vlan : Int)
  | setVid (portVlan : Nat) (i : UInt32)

/-- The ports of a list are distinct. -/
def Distinct (ports : List (SwitchPort dev)) : Prop := (ports.map SwitchPort.id).Nodup

namespace Op

def Valid : Op dev → Prop
  | setPorts _ ports => Distinct ports
  | setPvid _ _ => True
  | setVid _ _ => True

def result (s : Priv dev) : Op dev → Priv dev
  | setPorts v ports => s.setPorts v ports
  | setPvid port vlan => (s.setPvid port vlan).2
  | setVid portVlan i => (s.setVid portVlan i).2

end Op

/-- The states after a reset. -/
def Reachable : Priv dev → Prop :=
  Reaches (fun s => ∃ r : Priv dev, s = r.resetSwitch) fun s (o : Op dev) t =>
    o.Valid ∧ t = o.result s

end

end UolaOs.Ar8216
