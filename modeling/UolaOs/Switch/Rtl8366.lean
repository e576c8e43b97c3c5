import Mathlib.Algebra.GroupWithZero.Nat
import Mathlib.Data.List.FinRange
import Mathlib.Logic.Function.Basic

/-!
# The VLAN tables of an RTL8366 switch

The functions of rtl8366_smi.c on the tables of the chips rtl8366s and rtl8366rb:

* the 4K table has an entry for each VID, the MC table a few that carry their VID;
* a port's PVID is the VID of the MC entry that its index selects;
* register accesses succeed; an access with a value out of range is refused.
-/

namespace UolaOs.Switch

/-- `struct rtl8366_vlan_mc` -/
structure VlanMc where
  vid : UInt16
  untag : UInt16
  member : UInt16
  fid : UInt8
  priority : UInt8

/-- `struct rtl8366_vlan_4k` -/
structure Vlan4k where
  vid : UInt16
  untag : UInt16
  member : UInt16
  fid : UInt8

/-- The sizes and masks in which the chips differ. A mask cuts off nothing of what it admits. -/
structure Chip where
  numPorts : Nat
  cpuPort : Nat
  numVlanMc : Nat
  memberMask : UInt16
  untagMask : UInt16
  member_mask : ∀ x ≤ memberMask, x &&& memberMask = x
  untag_mask : ∀ x ≤ untagMask, x &&& untagMask = x
  numPorts_le : numPorts ≤ 4094
  numVlanMc_le : numVlanMc ≤ 4095

theorem and_mask (k : Nat) {mask : UInt16} (hm : mask.toNat = 2 ^ k - 1) (x : UInt16)
    (h : x ≤ mask) : x &&& mask = x := by
  apply UInt16.toNat_inj.mp
  have hx : x.toNat < 2 ^ k := by
    have := UInt16.le_iff_toNat_le.mp h
    have := Nat.two_pow_pos k
    omega
  rw [UInt16.toNat_and, hm, Nat.and_two_pow_sub_one_of_lt_two_pow hx]

def rtl8366s : Chip :=
  { numPorts := 6, cpuPort := 5, numVlanMc := 16, memberMask := 0x3f, untagMask := 0x3f
    member_mask := and_mask 6 rfl
    untag_mask := and_mask 6 rfl
    numPorts_le := by decide
    numVlanMc_le := by decide }

def rtl8366rb : Chip :=
  { numPorts := 6, cpuPort := 5, numVlanMc := 16, memberMask := 0xff, untagMask := 0xff
    member_mask := and_mask 8 rfl
    untag_mask := and_mask 8 rfl
    numPorts_le := by decide
    numVlanMc_le := by decide }

/-- `struct rtl8366_smi` with the registers behind it. -/
structure Smi (c : Chip) where
  vlanMc : Fin c.numVlanMc → VlanMc
  vlan4k : Nat → Vlan4k
  mcIndex : Fin c.numPorts → Fin c.numVlanMc
  vlan4kEnabled : Bool

/-- `struct switch_port` -/
structure SwitchPort (c : Chip) where
  id : Fin c.numPorts
  flags : UInt32

section
variable {c : Chip}

/-! ## Registers -/

/-- `-EINVAL` -/
def einval : Int := -22

/-- `-ENOSPC` -/
def enospc : Int := -28

/-- `if (err) return err;` -/
def andThen (r : Int × Smi c) (f : Smi c → Int × Smi c) : Int × Smi c :=
  if r.1 ≠ 0 then r else f r.2

/-- The bits that the registers of an MC entry have. -/
def maskMc (c : Chip) (mc : VlanMc) : VlanMc :=
  { vid := mc.vid &&& 0xfff, untag := mc.untag &&& c.untagMask
    member := mc.member &&& c.memberMask, fid := mc.fid &&& 7, priority := mc.priority &&& 7 }

namespace Smi

variable (s : Smi c)

def getVlanMc (i : Fin c.numVlanMc) : VlanMc := maskMc c (s.vlanMc i)

def setVlanMc (i : Fin c.numVlanMc) (mc : VlanMc) : Int × Smi c :=
  if 4096 ≤ mc.vid.toNat ∨ 7 < mc.priority ∨ c.memberMask < mc.member ∨ c.untagMask < mc.untag ∨
      7 < mc.fid then (einval, s)
  else (0, { s with vlanMc := Function.update s.vlanMc i (maskMc c mc) })

def getVlan4k (vid : Nat) : Int × Vlan4k :=
  if 4096 ≤ vid then (einval, ⟨0, 0, 0, 0⟩)
  else (0, { vid := UInt16.ofNat vid, untag := (s.vlan4k vid).untag &&& c.untagMask
             member := (s.vlan4k vid).member &&& c.memberMask, fid := (s.vlan4k vid).fid &&& 7 })

def setVlan4k (v : Vlan4k) : Int × Smi c :=
  if 4096 ≤ v.vid.toNat ∨ c.memberMask < v.member ∨ c.untagMask < v.untag ∨ 7 < v.fid then
    (einval, s)
  else (0, { s with vlan4k := Function.update s.vlan4k v.vid.toNat v })

def setMcIndex (port : Fin c.numPorts) (i : Fin c.numVlanMc) : Int × Smi c :=
  (0, { s with mcIndex := Function.update s.mcIndex port i })

/-- `rtl8366s_is_vlan_valid` and `rtl8366rb_is_vlan_valid` -/
def isVlanValid (vlan : Nat) : Bool :=
  let max := if s.vlan4kEnabled then 4095 else c.numVlanMc
  !(vlan == 0 || decide (max ≤ vlan))

/-! ## VLANs and PVIDs -/

/-- The loops that look for the first MC entry with a property. -/
def findMc (p : VlanMc → Bool) : Option (Fin c.numVlanMc) :=
  (List.finRange c.numVlanMc).find? fun i => p (s.getVlanMc i)

/-- `rtl8366_mc_is_used` -/
def mcIsUsed (i : Fin c.numVlanMc) : Bool :=
  (List.finRange c.numPorts).any fun port => s.mcIndex port == i

/-- `rtl8366_set_vlan` -/
def setVlan (vid : Nat) (member untag fid : UInt32) : Int × Smi c :=
  let r := s.getVlan4k vid
  if r.1 ≠ 0 then (r.1, s)
  else andThen (s.setVlan4k { r.2 with
      member := member.toUInt16, untag := untag.toUInt16, fid := fid.toUInt8 }) fun s =>
    match s.findMc fun mc => vid == mc.vid.toNat with
    | some i => s.setVlanMc i { s.getVlanMc i with
        member := member.toUInt16, untag := untag.toUInt16, fid := fid.toUInt8 }
    | none => (0, s)

/-- `rtl8366_get_pvid` -/
def getPvid (port : Fin c.numPorts) : UInt16 := (s.getVlanMc (s.mcIndex port)).vid

/-- Update the entry from the 4K table. -/
def replaceMc (port : Fin c.numPorts) (vid : Nat) (i : Fin c.numVlanMc) (mc : VlanMc) :
    Int × Smi c :=
  let r := s.getVlan4k vid
  if r.1 ≠ 0 then (r.1, s)
  else andThen (s.setVlanMc i { mc with
      vid := UInt16.ofNat vid, member := r.2.member, untag := r.2.untag, fid := r.2.fid }) fun s =>
    s.setMcIndex port i

/-- `rtl8366_set_pvid` -/
def setPvid (port : Fin c.numPorts) (vid : Nat) : Int × Smi c :=
  match s.findMc fun mc => vid == mc.vid.toNat with
  | some i => andThen (s.setVlanMc i (s.getVlanMc i)) fun s => s.setMcIndex port i
  | none =>
    match s.findMc fun mc => mc.vid == 0 && mc.member == 0 with
    | some i => s.replaceMc port vid i (s.getVlanMc i)
    | none =>
      match (List.finRange c.numVlanMc).find? fun i => !s.mcIsUsed i with
      | some i =>
        -- `vlanmc` still holds the entry that the loop before read last
        s.replaceMc port vid i (s.getVlanMc ⟨c.numVlanMc - 1, by have := i.isLt; omega⟩)
      | none => (enospc, s)

/-- The loop of `rtl8366_sw_set_vlan_ports` and its last call. -/
def portLoop (vlan : Nat) : List (SwitchPort c) → UInt32 → UInt32 → Smi c → Int × Smi c
  | [], member, untag, s => s.setVlan vlan member untag 0
  | port :: ports, member, untag, s =>
    let bit : UInt32 := 1 <<< UInt32.ofNat port.id
    let untag := if port.flags &&& 4 = 0 then untag ||| bit else untag
    let r := if s.getPvid port.id = 0 then s.setPvid port.id vlan else (0, s)
    if r.1 < 0 then r else portLoop vlan ports (member ||| bit) untag r.2

/-- `rtl8366_sw_set_vlan_ports` -/
def setVlanPorts (vlan : Nat) (ports : List (SwitchPort c)) : Int × Smi c :=
  if s.isVlanValid vlan then portLoop vlan ports 0 0 s else (einval, s)

/-- `rtl8366_sw_set_vlan_fid` -/
def setVlanFid (vlan : Nat) (value : Int) : Int × Smi c :=
  if ¬ s.isVlanValid vlan then (einval, s)
  else if value < 0 ∨ 7 < value then (einval, s)
  else
    let r := s.getVlan4k vlan
    if r.1 ≠ 0 then (r.1, s)
    else s.setVlan vlan r.2.member.toUInt32 r.2.untag.toUInt32 (UInt32.ofNat value.toNat)

/-- `rtl8366_reset_vlan` -/
def resetVlan : Int × Smi c :=
  (List.finRange c.numVlanMc).foldl (fun r i => andThen r fun s => s.setVlanMc i ⟨0, 0, 0, 0, 0⟩)
    (0, { s with vlan4kEnabled := false })

/-- `rtl8366_init_vlan` -/
def initVlan : Int × Smi c :=
  (List.finRange c.numPorts).foldl (fun r (port : Fin c.numPorts) => andThen r fun s =>
    let mask : UInt32 :=
      if port.val = c.cpuPort then (1 <<< UInt32.ofNat c.numPorts) - 1
      else (1 <<< UInt32.ofNat port) ||| (1 <<< UInt32.ofNat c.cpuPort)
    andThen (s.setVlan (port + 1) mask mask 0) fun s => s.setPvid port (port + 1)) s.resetVlan

end Smi

end

end UolaOs.Switch
