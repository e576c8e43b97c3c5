import Mathlib.Data.List.Basic

/-!
# Setting the ports of a VLAN

`swconfig_set_vlan_ports` of swconfig.c, and what it asks of the driver.

* `setVlanPorts_cases`: what is called before an answer;
* `atomic_iff`: when a list that is refused has changed nothing.
-/

namespace UolaOs.Swconfig

/-- `struct switch_port` -/
structure SwitchPort where
  id : UInt32
  flags : UInt32
  deriving DecidableEq

/-- `1 << SWITCH_PORT_FLAG_TAGGED` of the kernel -/
def switchPortFlagTagged : UInt32 := 4

def SwitchPort.tagged (p : SwitchPort) : Bool := p.flags &&& switchPortFlagTagged != 0

/-- The operations of `struct switch_dev_ops` on the state of a driver. What `set_port_pvid`
returns is not looked at. -/
structure SwitchDevOps (σ : Type) where
  setVlanPorts : Option (UInt32 → List SwitchPort → σ → σ × Int)
  setPortPvid : Option (UInt32 → UInt32 → σ → σ)

/-- `struct switch_dev` -/
structure Device (σ : Type) where
  ports : UInt32
  vlans : UInt32
  ops : SwitchDevOps σ

inductive Call where
  | setPortPvid (port vlan : UInt32)
  | setVlanPorts (vlan : UInt32) (ports : List SwitchPort)
  deriving DecidableEq

/-- An error of a check, or what the driver returns. -/
inductive Ret where
  | einval
  | eopnotsupp
  | driver (ret : Int)
  deriving DecidableEq

/-- What is returned, the state of the driver, and the calls of its operations. -/
structure Done (σ : Type) where
  ret : Ret
  state : σ
  calls : List Call

section
variable {σ : Type} (dev : Device σ)

/-- A round of the loop that finds a valid port. -/
def setPvid (vlan : UInt32) (p : SwitchPort) (s : σ) : σ × List Call :=
  match dev.ops.setPortPvid with
  | some setPortPvid =>
    if p.tagged = false then (setPortPvid p.id vlan s, [.setPortPvid p.id vlan]) else (s, [])
  | none => (s, [])

/-- The loop, and the call behind it. -/
def setLoop (op : UInt32 → List SwitchPort → σ → σ × Int) (vlan : UInt32) (ports : List SwitchPort) :
    List SwitchPort → σ → List Call → Done σ
  | [], s, calls =>
    let r := op vlan ports s
    ⟨.driver r.2, r.1, calls ++ [.setVlanPorts vlan ports]⟩
  | p :: ps, s, calls =>
    if dev.ports ≤ p.id then ⟨.einval, s, calls⟩
    else
      let r := setPvid dev vlan p s
      setLoop op vlan ports ps r.1 (calls ++ r.2)

/-- `swconfig_set_vlan_ports` -/
def setVlanPorts (vlan : UInt32) (ports : List SwitchPort) (s : σ) : Done σ :=
  if dev.vlans ≤ vlan then ⟨.einval, s, []⟩
  else if dev.ports.toNat < ports.length then ⟨.einval, s, []⟩
  else
    match dev.ops.setVlanPorts with
    | none => ⟨.eopnotsupp, s, []⟩
    | some op => setLoop dev op vlan ports ports s []

/-- A refused list has changed nothing. -/
def Atomic (vlan : UInt32) (ports : List SwitchPort) (s : σ) : Prop :=
  (setVlanPorts dev vlan ports s).ret = .einval ∨ (setVlanPorts dev vlan ports s).ret = .eopnotsupp →
    (setVlanPorts dev vlan ports s).calls = [] ∧ (setVlanPorts dev vlan ports s).state = s

/-- The ports in front of the first one that the switch does not have. -/
def front (ports : List SwitchPort) : List SwitchPort := ports.takeWhile fun p => p.id < dev.ports

/-- The list is refused in front of the loop, it has only ports of the switch, or there is nothing
to be done for the ports in front of the bad one. -/
def Early (vlan : UInt32) (ports : List SwitchPort) : Prop :=
  dev.vlans ≤ vlan ∨ dev.ports.toNat < ports.length ∨ dev.ops.setVlanPorts = none ∨
    (∀ p ∈ ports, p.id < dev.ports) ∨ dev.ops.setPortPvid = none ∨
      ∀ p ∈ front dev ports, p.tagged = true

end

/-! ## The loop -/

section
variable {σ : Type} {dev : Device σ} {op : UInt32 → List SwitchPort → σ → σ × Int}
  {vlan : UInt32} {ports : List SwitchPort}

/-- Without a call, the driver is as it was. -/
theorem setPvid_of_nil {p : SwitchPort} {s : σ} (h : (setPvid dev vlan p s).2 = []) :
    (setPvid dev vlan p s).1 = s := by
  rw [setPvid] at h ⊢
  cases hop : dev.ops.setPortPvid with
  | none => rfl
  | some op =>
    rw [hop] at h
    dsimp only at h ⊢
    split_ifs at h ⊢
    rfl

/-- The calls of `set_port_pvid` for the ports of a list. -/
def pvidCalls (dev : Device σ) (vlan : UInt32) (ps : List SwitchPort) : List Call :=
  if dev.ops.setPortPvid = none then []
  else (ps.filter fun p => !p.tagged).map fun p => .setPortPvid p.id vlan

theorem pvidCalls_nil : pvidCalls dev vlan [] = [] := by
  rw [pvidCalls]
  split_ifs <;> rfl

theorem pvidCalls_cons (p : SwitchPort) (ps : List SwitchPort) (s : σ) :
    pvidCalls dev vlan (p :: ps) = (setPvid dev vlan p s).2 ++ pvidCalls dev vlan ps := by
  rw [pvidCalls, pvidCalls, setPvid]
  cases dev.ops.setPortPvid with
  | none => rfl
  | some op =>
    cases hp : p.tagged with
    | true =>
      rw [List.filter_cons_of_neg (by rw [hp]; decide)]
      rfl
    | false =>
      rw [List.filter_cons_of_pos (by rw [hp]; decide)]
      rfl

theorem pvidCalls_eq_nil_iff {ps : List SwitchPort} : pvidCalls dev vlan ps = [] ↔
    dev.ops.setPortPvid = none ∨ ∀ p ∈ ps, p.tagged = true := by
  rw [pvidCalls]
  by_cases hnone : dev.ops.setPortPvid = none
  · rw [if_pos hnone]
    exact ⟨fun _ => .inl hnone, fun _ => rfl⟩
  · rw [if_neg hnone, List.map_eq_nil_iff, List.filter_eq_nil_iff]
    constructor
    · intro hall
      exact .inr fun p hp => by simpa using hall p hp
    · rintro (hnone' | hall) p hp
      · exact absurd hnone' hnone
      · simp [hall p hp]

/-- What the loop does, up to the first port that the switch does not have. -/
theorem setLoop_cases (ps : List SwitchPort) (s : σ) (calls : List Call) :
    ((∀ p ∈ ps, p.id < dev.ports) ∧ ∃ ret s', setLoop dev op vlan ports ps s calls =
        ⟨.driver ret, s', calls ++ pvidCalls dev vlan ps ++ [.setVlanPorts vlan ports]⟩) ∨
      (¬ ∀ p ∈ ps, p.id < dev.ports) ∧ ∃ s', setLoop dev op vlan ports ps s calls =
        ⟨.einval, s', calls ++ pvidCalls dev vlan (front dev ps)⟩ ∧
          (pvidCalls dev vlan (front dev ps) = [] → s' = s) := by
  induction ps generalizing s calls with
  | nil =>
    refine .inl ⟨(fun p hp => by cases hp), (op vlan ports s).2, (op vlan ports s).1, ?_⟩
    rw [pvidCalls_nil, List.append_nil]
    rfl
  | cons p ps ih =>
    rw [setLoop]
    by_cases hp : dev.ports ≤ p.id
    · have hnot : ¬ p.id < dev.ports := UInt32.not_lt.mpr hp
      refine .inr ⟨fun hall => hnot (hall p List.mem_cons_self), s, ?_, fun _ => rfl⟩
      rw [if_pos hp, front, List.takeWhile_cons_of_neg (by simpa using hnot), pvidCalls_nil,
        List.append_nil]
    · have hlt : p.id < dev.ports := UInt32.not_le.mp hp
      have hfront : front dev (p :: ps) = p :: front dev ps := by
        rw [front, List.takeWhile_cons_of_pos (by simpa using hlt), front]
      rw [if_neg hp, hfront]
      dsimp only
      rw [pvidCalls_cons p ps s, pvidCalls_cons p _ s]
      rcases ih (setPvid dev vlan p s).1 (calls ++ (setPvid dev vlan p s).2) with
        ⟨hall, ret, s', heq⟩ | ⟨hno, s', heq, hsame⟩
      · refine .inl ⟨List.forall_mem_cons.mpr ⟨hlt, hall⟩, ret, s', ?_⟩
        rw [heq, List.append_assoc calls]
      · refine .inr ⟨fun hall => hno (List.forall_mem_cons.mp hall).2, s', ?_, fun hnil => ?_⟩
        · rw [heq, List.append_assoc calls]
        · obtain ⟨hhere, hrest⟩ := List.append_eq_nil_iff.mp hnil
          rw [hsame hrest]
          exact setPvid_of_nil hhere

/-- **Refusing.** A list that is refused has changed nothing, unless a port in front of the bad one
has got a new PVID. -/
theorem atomic_iff {σ : Type} (dev : Device σ) (vlan : UInt32) (ports : List SwitchPort) (s : σ) :
    Atomic dev vlan ports s ↔ Early dev vlan ports := by
  rw [Atomic, Early, setVlanPorts]
  by_cases hvlan : dev.vlans ≤ vlan
  · rw [if_pos hvlan]
    exact ⟨fun _ => .inl hvlan, fun _ _ => ⟨rfl, rfl⟩⟩
  by_cases hlen : dev.ports.toNat < ports.length
  · rw [if_neg hvlan, if_pos hlen]
    exact ⟨fun _ => .inr (.inl hlen), fun _ _ => ⟨rfl, rfl⟩⟩
  rw [if_neg hvlan, if_neg hlen]
  cases hop : dev.ops.setVlanPorts with
  | none => exact ⟨fun _ => .inr (.inr (.inl rfl)), fun _ _ => ⟨rfl, rfl⟩⟩
  | some op =>
    dsimp only
    rcases setLoop_cases ports s [] with ⟨hall, ret, s', heq⟩ | ⟨hno, s', heq, hsame⟩
    · rw [heq]
      refine ⟨fun _ => .inr (.inr (.inr (.inl hall))), fun _ hret => ?_⟩
      rcases hret with hret | hret <;> cases hret
    · rw [heq, List.nil_append]
      constructor
      · intro hatomic
        have hnil := (hatomic (.inl rfl)).1
        exact .inr (.inr (.inr (.inr (pvidCalls_eq_nil_iff.mp hnil))))
      · rintro (h | h | h | h | h) -
        · exact absurd h hvlan
        · exact absurd h hlen
        · cases h
        · exact absurd h hno
        · have hnil : pvidCalls dev vlan (front dev ports) = [] := pvidCalls_eq_nil_iff.mpr h
          exact ⟨hnil, hsame hnil⟩

end

/-! ## A bad port behind an untagged one -/

/-- A driver of five ports that stores the PVIDs. -/
def pvidDriver : Device (List (UInt32 × UInt32)) where
  ports := 5
  vlans := 16
  ops :=
    { setVlanPorts := some fun _ _ s => (s, 0)
      setPortPvid := some fun port vlan s => (port, vlan) :: s }

/-- Port 0 has the PVID 3 when the list is refused because of port 9. -/
theorem refused_pvid :
    setVlanPorts pvidDriver 3 [⟨0, 0⟩, ⟨9, 0⟩] [] = ⟨.einval, [(0, 3)], [.setPortPvid 0 3]⟩ ∧
      ¬ Atomic pvidDriver 3 [⟨0, 0⟩, ⟨9, 0⟩] [] := by
  have hrun : setVlanPorts pvidDriver 3 [⟨0, 0⟩, ⟨9, 0⟩] [] =
      ⟨.einval, [(0, 3)], [.setPortPvid 0 3]⟩ := rfl
  refine ⟨hrun, fun hatomic => ?_⟩
  rw [Atomic, hrun] at hatomic
  cases (hatomic (.inl rfl)).1

end UolaOs.Swconfig
