import Mathlib.Logic.Function.Basic
import UolaOs.Lib.Mask
import UolaOs.Lib.Reaches

/-!
# VLANs of the IP175C and the IP178C

The VLAN state of ip17xx.c, and how it gets to the registers of the two chips. All accesses to
registers succeed.

* `Follows`: the registers follow the state;
* `Reachable`, `CleanRun`: the runs of the calls of swconfig.
-/

namespace UolaOs.Ip17xx

def maxVlans : Nat := 16
def maxPorts : Nat := 9

/-- A register, by PHY and MII number. -/
abbrev Reg := Nat × Nat

abbrev Regs := Reg → BitVec 16

/-- The fields of `struct register_mappings` that the two chips use. A register or a bit that is not
supported is `none`. -/
structure Mappings where
  numPorts : Nat
  vlanDefaultTagReg : List (Option Reg)
  addTagReg : Reg
  removeTagReg : Reg
  addTagBit : List (Option Nat)
  removeTagBit : List (Option Nat)
  vlanLookupReg : Reg
  vlanLookupReg5 : Option Reg
  vlanLookupEvenBit : List (Option Nat)
  vlanLookupOddBit : List (Option Nat)
  tagVlanMaskReg : Reg
  tagVlanMaskEvenBit : List (Option Nat)
  tagVlanMaskOddBit : List (Option Nat)
  resetVal : BitVec 16
  resetReg : Reg
  modeReg : Option Reg
  modeVal : BitVec 16
  routerControlReg : Reg
  tagVlanBit : Nat
  routerEnBit : Nat
  numlanGroupsMax : Nat
  numlanGroupsBit : Nat
  simpleVlanRegisters : Bool

def ip178c : Mappings where
  numPorts := 9
  vlanDefaultTagReg := [some (30, 3), some (30, 4), some (30, 5), some (30, 6), some (30, 7),
    some (30, 8), some (30, 9), some (30, 10), some (30, 11)]
  addTagReg := (30, 12)
  removeTagReg := (30, 13)
  addTagBit := (List.range 9).map some
  removeTagBit := (List.range' 4 9).map some
  vlanLookupReg := (31, 0)
  vlanLookupReg5 := none
  vlanLookupEvenBit := (List.range 9).map some
  vlanLookupOddBit := (List.range 9).map some
  tagVlanMaskReg := (30, 14)
  tagVlanMaskEvenBit := (List.range 9).map some
  tagVlanMaskOddBit := (List.range 9).map some
  resetVal := 0x55AA
  resetReg := (30, 0)
  modeReg := none
  modeVal := 0
  routerControlReg := (30, 30)
  tagVlanBit := 3
  routerEnBit := 11
  numlanGroupsMax := 8
  numlanGroupsBit := 8
  simpleVlanRegisters := true

def ip175c : Mappings where
  numPorts := 6
  vlanDefaultTagReg := [some (29, 24), some (29, 25), some (29, 26), some (29, 27), some (29, 28),
    some (29, 30), none, none, none]
  addTagReg := (29, 23)
  removeTagReg := (29, 23)
  addTagBit := [some 11, some 12, some 13, some 14, some 15, some 1, none, none, none]
  removeTagBit := [some 6, some 7, some 8, some 9, some 10, some 0, none, none, none]
  vlanLookupReg := (29, 19)
  vlanLookupReg5 := some (30, 18)
  vlanLookupEvenBit := [some 8, some 9, some 10, some 11, some 12, some 15, none, none, none]
  vlanLookupOddBit := [some 0, some 1, some 2, some 3, some 4, some 7, none, none, none]
  tagVlanMaskReg := (30, 1)
  tagVlanMaskEvenBit := [some 0, some 1, some 2, some 3, some 4, some 5, none, none, none]
  tagVlanMaskOddBit := [some 8, some 9, some 10, some 11, some 12, some 13, none, none, none]
  resetVal := 0x175C
  resetReg := (30, 0)
  modeReg := some (29, 31)
  modeVal := 0x175C
  routerControlReg := (30, 9)
  tagVlanBit := 7
  routerEnBit := 3
  numlanGroupsMax := 8
  numlanGroupsBit := 0
  simpleVlanRegisters := false

/-- The two chips. -/
inductive Chip where
  | ip178c
  | ip175c
  deriving DecidableEq

/-- `state->regs` -/
def Chip.regs : Chip → Mappings
  | .ip178c => Ip17xx.ip178c
  | .ip175c => Ip17xx.ip175c

/-- `struct ip17xx_state`, and the registers. -/
structure State where
  routerMode : Int
  vlanEnabled : Int
  pvid : Nat → BitVec 16
  shareports : Nat → BitVec 32
  addTag : BitVec 32
  removeTag : BitVec 32
  numVlans : Nat
  vlans : Nat → BitVec 32
  regs : Regs

/-- `1<<i` -/
def bit (i : Nat) : BitVec 32 := BitVec.twoPow 32 i

/-- `(1<<n)-1` -/
def ones (n : Nat) : BitVec 32 := BitVec.ofNat 32 (2 ^ n - 1)

/-! ## Registers -/

/-- `setPhy` -/
def setPhy (r : Reg) (value : BitVec 16) (regs : Regs) : Regs := Function.update regs r value

/-- The value that `SET_PORT_BITS` makes. -/
def portBits (bits : BitVec 32) (lookup : List (Option Nat)) (val : BitVec 16) : BitVec 16 :=
  (List.range maxPorts).foldl (fun val i =>
    match lookup[i]?.join with
    | none => val
    | some k =>
      (val &&& ~~~ BitVec.twoPow 16 k) |||
        (if i ∈ bits then BitVec.twoPow 16 k else 0)) val

/-- `SET_PORT_BITS` -/
def setPortBits (bits : BitVec 32) (r : Reg) (lookup : List (Option Nat)) (regs : Regs) : Regs :=
  setPhy r (portBits bits lookup (regs r)) regs

section
variable (m : Mappings)

/-- The register of `ip175c_set_state` for the ports that share VLANs with the port `j`. -/
def lookupReg (j : Nat) : Option Reg :=
  if m.simpleVlanRegisters = true then some (m.vlanLookupReg.1, m.vlanLookupReg.2 + j)
  else
    match j with
    | 0 | 1 => some m.vlanLookupReg
    | 2 | 3 => some (m.vlanLookupReg.1, m.vlanLookupReg.2 + 1)
    | 4 => some (m.vlanLookupReg.1, m.vlanLookupReg.2 + 2)
    | 5 => m.vlanLookupReg5
    | _ => none

def lookupBits (j : Nat) : List (Option Nat) :=
  if j % 2 = 0 then m.vlanLookupEvenBit else m.vlanLookupOddBit

/-- The register of the ports of the VLAN `j`. -/
def maskReg (j : Nat) : Reg :=
  (m.tagVlanMaskReg.1, m.tagVlanMaskReg.2 + if m.simpleVlanRegisters = true then j else j / 2)

def maskBits (j : Nat) : List (Option Nat) :=
  if j % 2 = 0 then m.tagVlanMaskEvenBit else m.tagVlanMaskOddBit

/-- The value that `ip175c_set_flags` writes. -/
def flags (s : State) (val : BitVec 16) : BitVec 16 :=
  let val := if s.routerMode ≠ 0 then val ||| BitVec.twoPow 16 m.routerEnBit
    else val &&& ~~~ BitVec.twoPow 16 m.routerEnBit
  let val := if s.vlanEnabled ≠ 0 then val ||| BitVec.twoPow 16 m.tagVlanBit
    else val &&& ~~~ BitVec.twoPow 16 m.tagVlanBit
  let val := val &&& ~~~ (BitVec.ofNat 16 (m.numlanGroupsMax - 1) <<< m.numlanGroupsBit)
  if s.numVlans > m.numlanGroupsMax then
    val ||| BitVec.ofNat 16 m.numlanGroupsMax <<< m.numlanGroupsBit
  else if s.numVlans ≥ 1 then
    val ||| BitVec.ofNat 16 (s.numVlans - 1) <<< m.numlanGroupsBit
  else val

/-- `ip175c_set_flags` -/
def setFlags (s : State) (regs : Regs) : Regs :=
  setPhy m.routerControlReg (flags m s (regs m.routerControlReg)) regs

/-- `ip175c_set_state` -/
def setState (s : State) : State :=
  let regs := setPortBits s.addTag m.addTagReg m.addTagBit s.regs
  let regs := setPortBits s.removeTag m.removeTagReg m.removeTagBit regs
  let regs := (List.range m.numPorts).foldl (fun regs j =>
    match lookupReg m j with
    | none => regs
    | some r => setPortBits (s.shareports j) r (lookupBits m j) regs) regs
  let regs := (List.range maxVlans).foldl (fun regs j =>
    setPortBits (s.vlans j) (maskReg m j) (maskBits m j) regs) regs
  let regs := (List.range maxPorts).foldl (fun regs i =>
    match m.vlanDefaultTagReg[i]?.join with
    | none => regs
    | some r => setPhy r (s.pvid i) regs) regs
  { s with regs := setFlags m s regs }

/-- The VLANs up to the last one with ports. -/
def countVlans (vlans : Nat → BitVec 32) : Nat :=
  (List.range maxVlans).foldl (fun n i => if vlans i ≠ 0 then i + 1 else n) 0

/-- The ports that share a VLAN with the port `i`. -/
def sharePorts (s : State) (i : Nat) : BitVec 32 :=
  if s.vlanEnabled = 0 then ones m.numPorts
  else
    (List.range maxVlans).foldl (fun ports j =>
      if s.vlans j &&& bit i ≠ 0 then ports ||| s.vlans j else ports) (bit i)

/-- `ip175c_correct_vlan_state` -/
def correctVlanState (s : State) : State :=
  { s with
    numVlans := countVlans s.vlans
    shareports := fun i => if i < m.numPorts then sharePorts m s i else s.shareports i }

/-- `ip175c_update_state` -/
def updateState (s : State) : State := setState m (correctVlanState m s)

/-- `ip17xx_reset_vlan_config` -/
def resetVlanConfig (s : State) : State :=
  { s with
    removeTag := if s.vlanEnabled ≠ 0 then ones m.numPorts else 0
    addTag := 0
    vlans := fun i => if i < maxVlans then 0 else s.vlans i
    pvid := fun i => if i < maxPorts then 0 else s.pvid i }

/-- `ip17xx_set_enable_vlan` -/
def setEnableVlan (enable : Int) (s : State) : State :=
  if s.vlanEnabled = enable then s
  else updateState m (resetVlanConfig m { s with vlanEnabled := enable })

/-- A port of a list, and whether it is tagged. -/
structure SwitchPort where
  id : Nat
  tagged : Bool

/-- A round of the loop of `ip17xx_set_ports`. -/
def addPort (portVlan : Nat) (s : State) (p : SwitchPort) : State :=
  { s with
    vlans := Function.update s.vlans portVlan (s.vlans portVlan ||| bit p.id)
    addTag := if p.tagged = true then s.addTag ||| bit p.id else s.addTag &&& ~~~ bit p.id
    removeTag := if p.tagged = true then s.removeTag &&& ~~~ bit p.id
      else s.removeTag ||| bit p.id }

/-- `ip17xx_set_ports` -/
def setPorts (portVlan : Nat) (ports : List SwitchPort) (s : State) : State :=
  if portVlan ≥ maxVlans then s
  else
    updateState m (ports.foldl (addPort portVlan)
      { s with vlans := Function.update s.vlans portVlan 0 })

/-- `ip17xx_set_tagged` -/
def setTagged (port : Nat) (i : Int) (s : State) : State :=
  let addTag := s.addTag &&& ~~~ bit port
  let removeTag := s.removeTag &&& ~~~ bit port
  updateState m { s with
    removeTag := if i = 0 then removeTag ||| bit port else removeTag
    addTag := if i = 1 then addTag ||| bit port else addTag }

/-- `ip17xx_set_pvid` -/
def setPvid (port : Nat) (val : Int) (s : State) : State :=
  if val < 0 ∨ val ≥ maxVlans then s
  else updateState m { s with pvid := Function.update s.pvid port (BitVec.ofInt 16 val) }

/-- The accesses of `ip17xx_reset` before the state is set. What the reset register does to the
registers is up to the chip. -/
def resetRegs (chip : Regs → Regs) (regs : Regs) : Regs :=
  let regs := chip (setPhy m.resetReg m.resetVal regs)
  let regs := (List.range (m.numPorts - 1)).foldl (fun regs i => setPhy (i, 0) 0x8000 regs) regs
  match m.modeReg with
  | none => regs
  | some r => setPhy r m.modeVal regs

/-- `ip17xx_reset` -/
def reset (chip : Regs → Regs) (s : State) : State :=
  updateState m (resetVlanConfig m { s with
    routerMode := 0
    vlanEnabled := 0
    regs := resetRegs m chip s.regs })

end

/-! ## Runs -/

/-- The calls of swconfig, and the reset, with what the chip does on it. -/
inductive Call where
  | reset (chip : Regs → Regs)
  | setEnableVlan (enable : Int)
  | setPorts (portVlan : Nat) (ports : List SwitchPort)
  | setTagged (port : Nat) (i : Int)
  | setPvid (port : Nat) (val : Int)

/-- A state, and the control register before the last call wrote it. -/
structure Sys where
  state : State
  before : BitVec 16

section
variable (c : Chip)

/-- Swconfig checks the ports. -/
def Call.Valid : Call → Prop
  | .reset _ => True
  | .setEnableVlan _ => True
  | .setPorts _ ports => ∀ p ∈ ports, p.id < c.regs.numPorts
  | .setTagged port _ => port < c.regs.numPorts
  | .setPvid port _ => port < c.regs.numPorts

def Call.result (s : State) : Call → State
  | .reset chip => Ip17xx.reset c.regs chip s
  | .setEnableVlan enable => Ip17xx.setEnableVlan c.regs enable s
  | .setPorts portVlan ports => Ip17xx.setPorts c.regs portVlan ports s
  | .setTagged port i => Ip17xx.setTagged c.regs port i s
  | .setPvid port val => Ip17xx.setPvid c.regs port val s

/-- The registers that a call starts from. -/
def Call.regsBefore (s : State) : Call → Regs
  | .reset chip => resetRegs c.regs chip s.regs
  | _ => s.regs

def step (s : Sys) (call : Call) : Sys :=
  ⟨call.result c s.state, call.regsBefore c s.state c.regs.routerControlReg⟩

/-- After the reset of `ip17xx_config_init`, from any state. -/
def Start (s : Sys) : Prop := ∃ u chip, s = step c u (.reset chip)

/-- The states that calls lead to. -/
def Reachable : Sys → Prop := Reaches (Start c) fun s call t => call.Valid c ∧ step c s call = t

/-- No VLAN above 7 gets ports. -/
def Clean : Call → Prop
  | .setPorts portVlan ports => portVlan < 8 ∨ maxVlans ≤ portVlan ∨ ports = []
  | _ => True

/-- The states that clean calls lead to. -/
def CleanRun : Sys → Prop :=
  Reaches (Start c) fun s call t => (call.Valid c ∧ Clean call) ∧ step c s call = t

/-! ## What the registers say -/

/-- The ports `i` and `j` share a VLAN, or VLANs are off. -/
def Shares (s : State) (j i : Nat) : Prop :=
  s.vlanEnabled = 0 ∨ i = j ∨ ∃ v < maxVlans, j ∈ s.vlans v ∧ i ∈ s.vlans v

/-- The sharing mask of the port `j` has the port `i`. -/
def Shared (m : Mappings) (regs : Regs) (j i : Nat) : Prop :=
  ∃ r k, lookupReg m j = some r ∧ (lookupBits m j)[i]?.join = some k ∧ k ∈ regs r

/-- The group field of the control register. -/
def groupField (m : Mappings) (val : BitVec 16) : Nat := val.toNat / 2 ^ m.numlanGroupsBit % 8

/-- **The registers follow the state.** -/
structure Follows (m : Mappings) (s : State) (before : BitVec 16) : Prop where
  tags : ∀ i, ¬ (i ∈ s.addTag ∧ i ∈ s.removeTag)
  shares : ∀ j < m.numPorts, ∀ i < m.numPorts, Shared m s.regs j i ↔ Shares s j i
  /-- `num_vlans` goes up to the last VLAN with ports. -/
  numVlans : ∀ n, s.numVlans ≤ n ↔ ∀ v < maxVlans, n ≤ v → s.vlans v = 0
  router : m.routerEnBit ∈ s.regs m.routerControlReg ↔ s.routerMode ≠ 0
  tagVlan : m.tagVlanBit ∈ s.regs m.routerControlReg ↔ s.vlanEnabled ≠ 0
  groups : 1 ≤ s.numVlans → groupField m (s.regs m.routerControlReg) = min s.numVlans 8 - 1
  others : ∀ i, i ≠ m.routerEnBit → i ≠ m.tagVlanBit →
    ¬ (m.numlanGroupsBit ≤ i ∧ i < m.numlanGroupsBit + 3) →
      (i ∈ s.regs m.routerControlReg ↔ i ∈ before)

end

/-! ## The tables of the chips -/

/-- A table of bits has each bit once. -/
def Distinct (l : List (Option Nat)) : Prop :=
  ∀ i < maxPorts, ∀ j < maxPorts, l[i]?.join = l[j]?.join → l[i]?.join ≠ none → i = j

/-- Two tables have no bit in common. -/
def Apart (l l' : List (Option Nat)) : Prop :=
  ∀ i < maxPorts, ∀ j < maxPorts, l[i]?.join = l'[j]?.join → l[i]?.join = none

instance instDecidableDistinct (l : List (Option Nat)) : Decidable (Distinct l) :=
  inferInstanceAs (Decidable (∀ i < maxPorts, ∀ j < maxPorts, _ → _ → _))

instance instDecidableApart (l l' : List (Option Nat)) : Decidable (Apart l l') :=
  inferInstanceAs (Decidable (∀ i < maxPorts, ∀ j < maxPorts, _ → _))

/-- What the tables of both chips have. -/
structure Facts (m : Mappings) : Prop where
  numPorts_le : m.numPorts ≤ maxPorts
  addTagReg_ne : m.addTagReg ≠ m.routerControlReg
  removeTagReg_ne : m.removeTagReg ≠ m.routerControlReg
  lookupReg_some : ∀ j < m.numPorts, (lookupReg m j).isSome = true
  lookupReg_ne : ∀ j < m.numPorts, lookupReg m j ≠ some m.routerControlReg
  lookupReg_ne_mask : ∀ j < m.numPorts, ∀ i < maxVlans, lookupReg m j ≠ some (maskReg m i)
  lookupReg_ne_tag : ∀ j < m.numPorts, ∀ i < maxPorts,
    lookupReg m j ≠ m.vlanDefaultTagReg[i]?.join
  maskReg_ne : ∀ j < maxVlans, maskReg m j ≠ m.routerControlReg
  tagReg_ne : ∀ i < maxPorts, m.vlanDefaultTagReg[i]?.join ≠ some m.routerControlReg
  lookupBits_some : ∀ j < m.numPorts, ∀ i < m.numPorts,
    ((lookupBits m j)[i]?.join).any (· < 16) = true
  lookupBits_distinct : ∀ j < m.numPorts, Distinct (lookupBits m j)
  /-- Two ports with one register have different bits in it. -/
  lookupBits_apart : ∀ j < m.numPorts, ∀ k < m.numPorts, lookupReg m j = lookupReg m k → j ≠ k →
    Apart (lookupBits m j) (lookupBits m k)
  numlanGroupsMax_eq : m.numlanGroupsMax = 8
  numlanGroupsBit_le : m.numlanGroupsBit + 3 ≤ 16
  routerEnBit_lt : m.routerEnBit < 16
  tagVlanBit_lt : m.tagVlanBit < 16
  routerEnBit_ne : m.routerEnBit ≠ m.tagVlanBit
  routerEnBit_apart : ¬ (m.numlanGroupsBit ≤ m.routerEnBit ∧ m.routerEnBit < m.numlanGroupsBit + 3)
  tagVlanBit_apart : ¬ (m.numlanGroupsBit ≤ m.tagVlanBit ∧ m.tagVlanBit < m.numlanGroupsBit + 3)

theorem facts (c : Chip) : Facts c.regs := by
  cases c with
  | ip178c => constructor <;> decide
  | ip175c => constructor <;> decide

end UolaOs.Ip17xx
