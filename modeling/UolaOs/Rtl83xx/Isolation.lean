import UolaOs.Lib.Reaches
import UolaOs.Rtl83xx.Family
import Mathlib.Logic.Function.Basic

/-!
# Port isolation of the RTL838x and RTL839x

`rtl83xx_setup` and the calls of DSA that change which ports a port sends to, of dsa.c.

* `isolated_of_clean`: who may send to whom, as long as ports leave bridges that are theirs alone.
-/

namespace UolaOs.Rtl83xx.Isolation

structure Board where
  family : Family
  /-- `dsa_is_user_port` -/
  user : Nat → Bool
  /-- `priv->ports[i].phy` -/
  phy : Nat → Bool
  user_lt : ∀ i, user i = true → i < family.cpuPort

structure State where
  /-- The registers `port_iso_ctrl`. -/
  iso : Nat → BitVec 64
  /-- `priv->ports[i].pm` -/
  pm : Nat → BitVec 64
  /-- `priv->ports[i].enable` -/
  enable : Nat → Bool
  /-- `dsa_to_port(ds, i)->bridge_dev` -/
  bridge : Nat → Option Nat

section
variable (b : Board) (s : State)

/-! ## The registers -/

/-- `priv->r->traffic_get` -/
def trafficGet (source : Nat) : BitVec 64 := b.family.word (s.iso source)

/-- `priv->r->traffic_set` -/
def trafficSet (source : Nat) (destMatrix : BitVec 64) : State :=
  { s with iso := Function.update s.iso source (b.family.word destMatrix) }

/-- `priv->r->traffic_enable` -/
def trafficEnable (source dest : Nat) : State :=
  trafficSet b s source (trafficGet b s source |||
    match b.family with
    | .rtl8380 => bit32 dest
    | .rtl8390 => bitULL dest)

/-- `priv->r->traffic_disable` -/
def trafficDisable (source dest : Nat) : State :=
  trafficSet b s source (trafficGet b s source &&& ~~~ bit32 dest)

/-! ## `rtl83xx_setup` -/

/-- A round of the second loop: the state and `port_bitmap`. -/
def setupPort (r : State × BitVec 64) (i : Nat) : State × BitVec 64 :=
  if b.phy i = true then
    (trafficSet b r.1 i (bitULL b.family.cpuPort ||| bit32 i), r.2 ||| bitULL i)
  else r

/-- `rtl83xx_setup` -/
def setup : State :=
  let enable := fun i => if i < b.family.numPorts then false else s.enable i
  let s := { s with enable := Function.update enable b.family.cpuPort true }
  let r := (List.range b.family.cpuPort).foldl (setupPort b) (s, bitULL b.family.cpuPort)
  trafficSet b r.1 b.family.cpuPort r.2

/-! ## `rtl83xx_port_enable` and `rtl83xx_port_disable` -/

/-- `rtl83xx_port_enable` -/
def portEnable (port : Nat) : State :=
  let s := { s with enable := Function.update s.enable port true }
  if port = b.family.cpuPort then s
  else
    let s := trafficEnable b s b.family.cpuPort port
    trafficSet b s port (trafficGet b s port ||| s.pm port)

/-- `rtl83xx_port_disable` -/
def portDisable (port : Nat) : State :=
  if b.user port = false then s
  else
    let s := trafficDisable b s b.family.cpuPort port
    let s := trafficSet b s port (trafficGet b s port &&& ~~~ s.pm port)
    { s with enable := Function.update s.enable port false }

/-! ## `rtl83xx_port_bridge_join` and `rtl83xx_port_bridge_leave` -/

/-- A port of the bridge besides `port`. -/
def Peer (port bridge i : Nat) : Prop := (b.user i = true ∧ i ≠ port) ∧ s.bridge i = some bridge

instance (port bridge i : Nat) : Decidable (Peer b s port bridge i) :=
  inferInstanceAs (Decidable (_ ∧ _))

/-- A round of the loop of `rtl83xx_port_bridge_join`. -/
def joinPort (port bridge : Nat) (r : State × BitVec 64) (i : Nat) : State × BitVec 64 :=
  if Peer b r.1 port bridge i then
    let s := if r.1.enable i = true then trafficEnable b r.1 i port else r.1
    ({ s with pm := Function.update s.pm i (s.pm i ||| bitULL port) }, r.2 ||| bitULL i)
  else r

/-- `rtl83xx_port_bridge_join` -/
def portBridgeJoin (port bridge : Nat) : State :=
  let r := (List.range b.family.numPorts).foldl (joinPort b port bridge)
    (s, bitULL b.family.cpuPort)
  let s :=
    if r.1.enable port = true then
      let s := trafficEnable b r.1 b.family.cpuPort port
      trafficSet b s port (trafficGet b s port ||| r.2)
    else r.1
  { s with pm := Function.update s.pm port (s.pm port ||| r.2) }

/-- A round of the loop of `rtl83xx_port_bridge_leave`. -/
def leavePort (port bridge : Nat) (r : State × BitVec 64) (i : Nat) : State × BitVec 64 :=
  if Peer b r.1 port bridge i then
    let s := if r.1.enable i = true then trafficDisable b r.1 i port else r.1
    ({ s with pm := Function.update s.pm i (s.pm i ||| bitULL port) }, r.2 &&& ~~~ bitULL i)
  else r

/-- `rtl83xx_port_bridge_leave` -/
def portBridgeLeave (port bridge : Nat) : State :=
  let r := (List.range b.family.numPorts).foldl (leavePort b port bridge)
    (s, bitULL b.family.cpuPort)
  let s :=
    if r.1.enable port = true then trafficSet b r.1 port (trafficGet b r.1 port ||| r.2) else r.1
  { s with pm := Function.update s.pm port (s.pm port &&& ~~~ r.2) }

/-! ## Runs -/

/-- The calls of DSA. -/
inductive Call where
  | enable (port : Nat)
  | disable (port : Nat)
  | join (port bridge : Nat)
  | leave (port : Nat)

/-- A call for a user port. DSA lets a port join when it is in no bridge; `bridge_dev` is changed
before the driver is called. -/
def step : Call → Option State
  | .enable port => if b.user port = true then some (portEnable b s port) else none
  | .disable port => if b.user port = true then some (portDisable b s port) else none
  | .join port bridge =>
    if b.user port = true ∧ s.bridge port = none then
      some (portBridgeJoin b { s with bridge := Function.update s.bridge port (some bridge) } port
        bridge)
    else none
  | .leave port =>
    if b.user port = true then
      (s.bridge port).map fun bridge =>
        portBridgeLeave b { s with bridge := Function.update s.bridge port none } port bridge
    else none

/-- After the probe no port is in a bridge and the cached masks are zero. -/
def Probed : Prop := (∀ i, s.pm i = 0) ∧ ∀ i, s.bridge i = none

/-- After `rtl83xx_setup`. -/
def Start : Prop := ∃ t, Probed t ∧ s = setup b t

/-- The states that calls lead to after `rtl83xx_setup`. -/
def Reachable : State → Prop := Reaches (Start b) fun s c t => step b s c = some t

/-- **Isolation.** Two enabled user ports send to each other if they are in the same bridge; an
enabled user port and the CPU port send to each other. -/
structure Isolated : Prop where
  ports : ∀ i j, b.user i = true → b.user j = true → i ≠ j → s.enable i = true →
    s.enable j = true →
    (j ∈ trafficGet b s i ↔ ∃ bridge, s.bridge i = some bridge ∧ s.bridge j = some bridge)
  cpu : ∀ i, b.user i = true → s.enable i = true →
    b.family.cpuPort ∈ trafficGet b s i ∧ i ∈ trafficGet b s b.family.cpuPort

end

section
variable {b : Board} {s : State} {i j k port bridge : Nat} {v : BitVec 64}

/-! ## The registers -/

/-- A port sends to another. -/
def Sends (b : Board) (s : State) (i j : Nat) : Prop := j ∈ trafficGet b s i

theorem sends_trafficSet (hj : j ≤ b.family.cpuPort) :
    Sends b (trafficSet b s k v) i j ↔ if i = k then j ∈ v else Sends b s i j := by
  rw [Sends, trafficGet, trafficSet]
  dsimp only
  by_cases hi : i = k
  · rw [if_pos hi, hi, Function.update_self, mem_word hj, mem_word hj]
  · rw [if_neg hi, Function.update_of_ne hi]
    exact Iff.rfl

theorem sends_trafficEnable (hj : j ≤ b.family.cpuPort) (hport : port < 32) :
    Sends b (trafficEnable b s k port) i j ↔ Sends b s i j ∨ i = k ∧ j = port := by
  have hbit : j ∈ (match b.family with | .rtl8380 => bit32 port | .rtl8390 => bitULL port) ↔
      j = port := by
    cases b.family with
    | rtl8380 => exact mem_bit32 hport
    | rtl8390 => exact mem_bitULL (by omega)
  rw [trafficEnable, sends_trafficSet hj, mem_or, hbit]
  by_cases hi : i = k
  · rw [if_pos hi, ← hi, and_iff_right rfl]
    exact Iff.rfl
  · rw [if_neg hi, or_iff_left fun h => hi h.1]

theorem sends_trafficDisable (hj : j ≤ b.family.cpuPort) (hport : port < 32) :
    Sends b (trafficDisable b s k port) i j ↔ Sends b s i j ∧ ¬ (i = k ∧ j = port) := by
  rw [trafficDisable, sends_trafficSet hj, mem_and_not, mem_bit32 hport]
  by_cases hi : i = k
  · rw [if_pos hi, ← hi, and_iff_right rfl]
    exact Iff.rfl
  · rw [if_neg hi, and_iff_left fun h => hi h.1]

/-! ## The calls -/

theorem user_ne_cpu (h : b.user i = true) : i ≠ b.family.cpuPort :=
  Nat.ne_of_lt (b.user_lt i h)

theorem user_lt_64 (h : b.user i = true) : i < 64 := Nat.lt_trans (b.user_lt i h) (cpuPort_lt _)

/-- What `rtl83xx_port_enable` does for a user port. -/
structure AfterEnable (b : Board) (port : Nat) (s t : State) : Prop where
  enable : t.enable = Function.update s.enable port true
  sameBridge : t.bridge = s.bridge
  samePm : t.pm = s.pm
  sends : ∀ i j, j ≤ b.family.cpuPort → (Sends b t i j ↔
    Sends b s i j ∨ i = b.family.cpuPort ∧ j = port ∨ i = port ∧ j ∈ s.pm port)

theorem portEnable_spec (hne : port ≠ b.family.cpuPort) (hport : port < 32) :
    AfterEnable b port s (portEnable b s port) := by
  rw [portEnable, if_neg hne]
  refine ⟨rfl, rfl, rfl, fun i j hj => ?_⟩
  have hcpu (i : Nat) : Sends b (trafficEnable b
      { s with enable := Function.update s.enable port true } b.family.cpuPort port) i j ↔
        Sends b s i j ∨ i = b.family.cpuPort ∧ j = port :=
    sends_trafficEnable hj hport
  rw [sends_trafficSet hj, mem_or]
  by_cases hi : i = port
  · rw [if_pos hi, hi, and_iff_right rfl, ← or_assoc]
    exact or_congr (hcpu port) Iff.rfl
  · rw [if_neg hi, hcpu, or_iff_left (b := i = port ∧ j ∈ s.pm port) fun h => hi h.1]

/-- What `rtl83xx_port_disable` does for a user port. -/
structure AfterDisable (b : Board) (port : Nat) (s t : State) : Prop where
  enable : t.enable = Function.update s.enable port false
  sameBridge : t.bridge = s.bridge
  samePm : t.pm = s.pm
  sends : ∀ i j, j ≤ b.family.cpuPort → (Sends b t i j ↔
    Sends b s i j ∧ ¬ (i = b.family.cpuPort ∧ j = port) ∧ ¬ (i = port ∧ j ∈ s.pm port))

theorem portDisable_spec (huser : b.user port = true) (hport : port < 32) :
    AfterDisable b port s (portDisable b s port) := by
  have hkeep : ¬ b.user port = false := by
    rw [huser]
    decide
  rw [portDisable, if_neg hkeep]
  refine ⟨rfl, rfl, rfl, fun i j hj => ?_⟩
  have hcpu (i : Nat) : Sends b (trafficDisable b s b.family.cpuPort port) i j ↔
      Sends b s i j ∧ ¬ (i = b.family.cpuPort ∧ j = port) := sends_trafficDisable hj hport
  show Sends b (trafficSet b (trafficDisable b s b.family.cpuPort port) port
    (trafficGet b (trafficDisable b s b.family.cpuPort port) port &&& ~~~ s.pm port)) i j ↔ _
  rw [sends_trafficSet hj, mem_and_not]
  by_cases hi : i = port
  · rw [if_pos hi, hi, and_iff_right rfl, ← and_assoc]
    exact and_congr (hcpu port) Iff.rfl
  · rw [if_neg hi, hcpu, and_iff_left (b := ¬ (i = port ∧ j ∈ s.pm port)) fun h => hi h.1]

/-- What the loop of `rtl83xx_port_bridge_join` has done for the ports below `n`. -/
structure Joined (b : Board) (port bridge : Nat) (s : State) (n : Nat) (r : State × BitVec 64) :
    Prop where
  sameEnable : r.1.enable = s.enable
  sameBridge : r.1.bridge = s.bridge
  pm : ∀ i j, j ∈ r.1.pm i ↔ j ∈ s.pm i ∨ (i < n ∧ Peer b s port bridge i) ∧ j = port
  sends : ∀ i j, j ≤ b.family.cpuPort → (Sends b r.1 i j ↔
    Sends b s i j ∨ (i < n ∧ Peer b s port bridge i) ∧ s.enable i = true ∧ j = port)
  bitmap : ∀ j, j ∈ r.2 ↔ j = b.family.cpuPort ∨ j < n ∧ Peer b s port bridge j

/-- An enabled port of the bridge sends to the new one. -/
theorem sends_enabled (hport : port < 32) (hj : j ≤ b.family.cpuPort) :
    Sends b (if s.enable k = true then trafficEnable b s k port else s) i j ↔
      Sends b s i j ∨ i = k ∧ s.enable k = true ∧ j = port := by
  split
  next h => rw [sends_trafficEnable hj hport, and_iff_right h]
  next h => rw [or_iff_left fun hall => h hall.2.1]

theorem joinPort_spec {n : Nat} {r : State × BitVec 64} (hport : port < 32)
    (h : Joined b port bridge s n r) :
    Joined b port bridge s (n + 1) (joinPort b port bridge r n) := by
  have hpeer : Peer b r.1 port bridge n ↔ Peer b s port bridge n := by
    rw [Peer, Peer, h.sameBridge]
  have hlt (i : Nat) : i < n + 1 ↔ i = n ∨ i < n := by omega
  have hsplit (i : Nat) : i < n + 1 ∧ Peer b s port bridge i ↔
      i = n ∧ Peer b s port bridge n ∨ i < n ∧ Peer b s port bridge i := by
    rw [hlt, or_and_right]
    exact or_congr_left ⟨fun h => ⟨h.1, h.1 ▸ h.2⟩, fun h => ⟨h.1, h.1 ▸ h.2⟩⟩
  rw [joinPort]
  by_cases hp : Peer b s port bridge n
  · have hn : n < 64 := user_lt_64 hp.1.1
    rw [if_pos (hpeer.mpr hp)]
    refine ⟨?_, ?_, fun i j => ?_, fun i j hj => ?_, fun j => ?_⟩
    · rw [← h.sameEnable]
      split <;> rfl
    · rw [← h.sameBridge]
      split <;> rfl
    · have hpm : (if r.1.enable n = true then trafficEnable b r.1 n port else r.1).pm = r.1.pm := by
        split <;> rfl
      dsimp only
      rw [hpm, hsplit, and_iff_left hp]
      by_cases hi : i = n
      · rw [hi, Function.update_self, mem_or, mem_bitULL (by omega), h.pm]
        tauto
      · rw [Function.update_of_ne hi, h.pm]
        tauto
    · show Sends b (if r.1.enable n = true then trafficEnable b r.1 n port else r.1) i j ↔ _
      rw [sends_enabled hport hj, h.sends i j hj, hsplit, and_iff_left hp, h.sameEnable]
      by_cases hi : i = n
      · rw [hi]
        tauto
      · tauto
    · rw [mem_or, mem_bitULL hn, h.bitmap, hsplit, and_iff_left hp]
      tauto
  · rw [if_neg fun h => hp (hpeer.mp h)]
    refine ⟨h.sameEnable, h.sameBridge, fun i j => ?_, fun i j hj => ?_, fun j => ?_⟩
    · rw [hsplit, h.pm]
      tauto
    · rw [hsplit, h.sends i j hj]
      tauto
    · rw [hsplit, h.bitmap]
      tauto

theorem joinPorts_spec (hport : port < 32) (n : Nat) :
    Joined b port bridge s n
      ((List.range n).foldl (joinPort b port bridge) (s, bitULL b.family.cpuPort)) := by
  induction n with
  | zero =>
    refine ⟨rfl, rfl, fun i j => ?_, fun i j _ => ?_, fun j => ?_⟩
    · exact (or_iff_left fun h => Nat.not_lt_zero _ h.1.1).symm
    · exact (or_iff_left fun h => Nat.not_lt_zero _ h.1.1).symm
    · rw [or_iff_left fun h => Nat.not_lt_zero _ h.1]
      exact mem_bitULL (cpuPort_lt _)
  | succ n ih =>
    rw [List.range_succ, List.foldl_append]
    exact joinPort_spec hport ih

theorem peer_lt (h : Peer b s port bridge i) : i < b.family.numPorts := by
  rw [numPorts_eq]
  exact Nat.lt_succ_of_lt (b.user_lt i h.1.1)

/-- What `rtl83xx_port_bridge_join` does; `s` has the new `bridge_dev` already. -/
structure AfterJoin (b : Board) (port bridge : Nat) (s t : State) : Prop where
  sameEnable : t.enable = s.enable
  sameBridge : t.bridge = s.bridge
  pm : ∀ i j, j ∈ t.pm i ↔ j ∈ s.pm i ∨ Peer b s port bridge i ∧ j = port ∨
    i = port ∧ (j = b.family.cpuPort ∨ Peer b s port bridge j)
  sends : ∀ i j, j ≤ b.family.cpuPort → (Sends b t i j ↔
    (Sends b s i j ∨ Peer b s port bridge i ∧ s.enable i = true ∧ j = port) ∨
      s.enable port = true ∧ (i = b.family.cpuPort ∧ j = port ∨
        i = port ∧ (j = b.family.cpuPort ∨ Peer b s port bridge j)))

theorem portBridgeJoin_spec (hport : port < 32) :
    AfterJoin b port bridge s (portBridgeJoin b s port bridge) := by
  have h : Joined b port bridge s b.family.numPorts _ := joinPorts_spec hport b.family.numPorts
  rw [portBridgeJoin]
  generalize (List.range b.family.numPorts).foldl (joinPort b port bridge)
    (s, bitULL b.family.cpuPort) = r at h ⊢
  have hall (i : Nat) : i < b.family.numPorts ∧ Peer b s port bridge i ↔ Peer b s port bridge i :=
    and_iff_right_of_imp peer_lt
  have hsends (i j : Nat) (hj : j ≤ b.family.cpuPort) := h.sends i j hj
  have hbitmap (j : Nat) := h.bitmap j
  have hpm (i j : Nat) := h.pm i j
  simp only [hall] at hsends hbitmap hpm
  refine ⟨?_, ?_, fun i j => ?_, fun i j hj => ?_⟩
  · rw [← h.sameEnable]
    dsimp only
    split <;> rfl
  · rw [← h.sameBridge]
    dsimp only
    split <;> rfl
  · have hsame : (if r.1.enable port = true then
        trafficSet b (trafficEnable b r.1 b.family.cpuPort port) port
          (trafficGet b (trafficEnable b r.1 b.family.cpuPort port) port ||| r.2)
        else r.1).pm = r.1.pm := by
      split <;> rfl
    dsimp only
    rw [hsame]
    by_cases hi : i = port
    · rw [hi, Function.update_self, mem_or, hpm, hbitmap]
      tauto
    · rw [Function.update_of_ne hi, hpm]
      tauto
  · show Sends b (if r.1.enable port = true then
        trafficSet b (trafficEnable b r.1 b.family.cpuPort port) port
          (trafficGet b (trafficEnable b r.1 b.family.cpuPort port) port ||| r.2)
        else r.1) i j ↔ _
    rw [h.sameEnable]
    split
    next hon =>
      have hcpu (i : Nat) : Sends b (trafficEnable b r.1 b.family.cpuPort port) i j ↔
          Sends b r.1 i j ∨ i = b.family.cpuPort ∧ j = port := sends_trafficEnable hj hport
      rw [sends_trafficSet hj, and_iff_right hon]
      by_cases hi : i = port
      · have hown : j ∈ trafficGet b (trafficEnable b r.1 b.family.cpuPort port) port ↔ _ :=
          hcpu port
        rw [if_pos hi, hi, mem_or, hbitmap, hown, ← hsends port j hj]
        tauto
      · rw [if_neg hi, hcpu, ← hsends i j hj]
        tauto
    next hoff =>
      rw [hsends i j hj]
      exact (or_iff_left fun h => hoff h.1).symm

/-- A port that leaves a bridge without other ports. -/
structure AfterLeave (b : Board) (port : Nat) (s t : State) : Prop where
  sameEnable : t.enable = s.enable
  sameBridge : t.bridge = s.bridge
  pm : ∀ i j, j ∈ t.pm i ↔ j ∈ s.pm i ∧ ¬ (i = port ∧ j = b.family.cpuPort)
  sends : ∀ i j, j ≤ b.family.cpuPort → (Sends b t i j ↔
    Sends b s i j ∨ s.enable port = true ∧ i = port ∧ j = b.family.cpuPort)

theorem leavePorts_alone (halone : ∀ i, ¬ Peer b s port bridge i) (m : BitVec 64) (n : Nat) :
    (List.range n).foldl (leavePort b port bridge) (s, m) = (s, m) := by
  induction n with
  | zero => rfl
  | succ n ih =>
    rw [List.range_succ, List.foldl_append, ih]
    exact if_neg (halone n)

theorem portBridgeLeave_spec (halone : ∀ i, ¬ Peer b s port bridge i) :
    AfterLeave b port s (portBridgeLeave b s port bridge) := by
  have hbit (j : Nat) : j ∈ bitULL b.family.cpuPort ↔ j = b.family.cpuPort :=
    mem_bitULL (cpuPort_lt _)
  rw [portBridgeLeave, leavePorts_alone halone]
  refine ⟨?_, ?_, fun i j => ?_, fun i j hj => ?_⟩
  · dsimp only
    split <;> rfl
  · dsimp only
    split <;> rfl
  · have hsame : (if s.enable port = true then
        trafficSet b s port (trafficGet b s port ||| bitULL b.family.cpuPort) else s).pm = s.pm :=
          by
      split <;> rfl
    dsimp only
    rw [hsame]
    by_cases hi : i = port
    · rw [hi, Function.update_self, mem_and_not, hbit, and_iff_right rfl]
    · rw [Function.update_of_ne hi, and_iff_left fun h => hi h.1]
  · show Sends b (if s.enable port = true then
        trafficSet b s port (trafficGet b s port ||| bitULL b.family.cpuPort) else s) i j ↔ _
    split
    next hon =>
      rw [sends_trafficSet hj, and_iff_right hon]
      by_cases hi : i = port
      · rw [if_pos hi, hi, mem_or, hbit, and_iff_right rfl]
        exact Iff.rfl
      · rw [if_neg hi, or_iff_left fun h => hi h.1]
    next hoff => rw [or_iff_left fun h => hoff h.1]

/-! ## `rtl83xx_setup` -/

theorem setupPorts_spec (hlow : ∀ i, b.user i = true → i < 32) {n : Nat}
    (hn : n ≤ b.family.cpuPort) :
    let r := (List.range n).foldl (setupPort b) (s, bitULL b.family.cpuPort)
    r.1.enable = s.enable ∧ r.1.pm = s.pm ∧ r.1.bridge = s.bridge ∧
      (∀ i j, b.user i = true → b.phy i = true → i < n → j ≤ b.family.cpuPort →
        (Sends b r.1 i j ↔ j = b.family.cpuPort ∨ j = i)) ∧
      ∀ j, j ∈ r.2 ↔ j = b.family.cpuPort ∨ j < n ∧ b.phy j = true := by
  induction n with
  | zero =>
    refine ⟨rfl, rfl, rfl, fun i j _ _ hi => absurd hi (Nat.not_lt_zero _), fun j => ?_⟩
    rw [or_iff_left fun h => Nat.not_lt_zero _ h.1]
    exact mem_bitULL (cpuPort_lt _)
  | succ n ih =>
    have hcpu := cpuPort_lt b.family
    obtain ⟨henable, hpm, hbridge, hsends, hbitmap⟩ := ih (by omega)
    rw [List.range_succ, List.foldl_append]
    generalize (List.range n).foldl (setupPort b) (s, bitULL b.family.cpuPort) = r at *
    simp only [List.foldl_cons, List.foldl_nil, setupPort]
    by_cases hphy : b.phy n = true
    · rw [if_pos hphy]
      refine ⟨henable, hpm, hbridge, fun i j hu hp hi hj => ?_, fun j => ?_⟩
      · rw [sends_trafficSet hj]
        by_cases hin : i = n
        · rw [if_pos hin, mem_or, mem_bitULL hcpu, ← hin, mem_bit32 (hlow i hu)]
        · rw [if_neg hin, hsends i j hu hp (by omega) hj]
      · rw [mem_or, hbitmap, mem_bitULL (by omega)]
        constructor
        · rintro ((h | ⟨h, hp⟩) | rfl)
          · exact .inl h
          · exact .inr ⟨by omega, hp⟩
          · exact .inr ⟨Nat.lt_succ_self _, hphy⟩
        · rintro (h | ⟨h, hp⟩)
          · exact .inl (.inl h)
          · by_cases hjn : j = n
            · exact .inr hjn
            · exact .inl (.inr ⟨by omega, hp⟩)
    · rw [if_neg hphy]
      refine ⟨henable, hpm, hbridge, fun i j hu hp hi hj => ?_, fun j => ?_⟩
      · refine hsends i j hu hp ?_ hj
        have hin : i ≠ n := fun h => hphy (h ▸ hp)
        omega
      · rw [hbitmap]
        refine or_congr_right ⟨fun h => ⟨by omega, h.2⟩, fun h => ⟨?_, h.2⟩⟩
        have hjn : j ≠ n := fun heq => hphy (heq ▸ h.2)
        omega

/-! ## What the calls keep -/

/-- The user ports have a phy, and `BIT` is enough for them. -/
def Sound (b : Board) : Prop := ∀ i, b.user i = true → i < 32 ∧ b.phy i = true

/-- What holds as long as ports leave bridges that are theirs alone. -/
structure Tidy (b : Board) (s : State) : Prop where
  pm : ∀ i j, b.user i = true → (j ∈ s.pm i ↔ ∃ bridge, s.bridge i = some bridge ∧
    (j = b.family.cpuPort ∨ Peer b s i bridge j))
  on : ∀ i j, b.user i = true → b.user j = true → i ≠ j → s.enable i = true →
    (Sends b s i j ↔ ∃ bridge, s.bridge i = some bridge ∧ s.bridge j = some bridge)
  off : ∀ i j, b.user i = true → b.user j = true → i ≠ j → s.enable i = false → ¬ Sends b s i j
  toCpu : ∀ i, b.user i = true →
    Sends b s i b.family.cpuPort ∨ s.enable i = false ∧ b.family.cpuPort ∈ s.pm i
  fromCpu : ∀ i, b.user i = true → s.enable i = true → Sends b s b.family.cpuPort i

theorem Tidy.isolated (h : Tidy b s) : Isolated b s where
  ports i j hi hj hij hon _ := h.on i j hi hj hij hon
  cpu i hi hon := by
    refine ⟨(h.toCpu i hi).resolve_right fun hoff => ?_, h.fromCpu i hi hon⟩
    rw [hon] at hoff
    cases hoff.1

theorem setup_tidy (hb : Sound b) (h : Probed s) : Tidy b (setup b s) := by
  have hspec := setupPorts_spec (b := b) (s := { s with
    enable := Function.update (fun i => if i < b.family.numPorts then false else s.enable i)
      b.family.cpuPort true }) (fun i hi => (hb i hi).1) (Nat.le_refl _)
  obtain ⟨henable, hpm, hbridge, hsends, hbitmap⟩ := hspec
  rw [setup]
  dsimp only at *
  generalize (List.range b.family.cpuPort).foldl (setupPort b) _ = r at *
  have hnone (i : Nat) : r.1.bridge i = none := by rw [hbridge, h.2]
  have hblank (i j : Nat) : j ∉ r.1.pm i := by
    rw [hpm, h.1]
    exact not_mem_zero
  have hfalse (i : Nat) (hi : b.user i = true) : r.1.enable i = false := by
    have hlt : i < b.family.numPorts := by
      rw [numPorts_eq]
      exact Nat.lt_succ_of_lt (b.user_lt i hi)
    rw [henable, Function.update_of_ne (user_ne_cpu hi), if_pos hlt]
  have hport (i j : Nat) (hi : b.user i = true) (hj : j ≤ b.family.cpuPort) :
      Sends b (trafficSet b r.1 b.family.cpuPort r.2) i j ↔ j = b.family.cpuPort ∨ j = i := by
    rw [sends_trafficSet hj, if_neg (user_ne_cpu hi)]
    exact hsends i j hi (hb i hi).2 (b.user_lt i hi) hj
  refine ⟨fun i j hi => ?_, fun i j hi hj hij hon => ?_, fun i j hi hj hij _ => ?_,
    fun i hi => .inl ?_, fun i hi hon => ?_⟩
  · show j ∈ r.1.pm i ↔ ∃ bridge, r.1.bridge i = some bridge ∧ _
    simp only [hnone, hblank, reduceCtorEq, false_and, exists_const]
  · have hoff : r.1.enable i = true := hon
    rw [hfalse i hi] at hoff
    cases hoff
  · rw [hport i j hi (Nat.le_of_lt (b.user_lt j hj)), not_or]
    exact ⟨user_ne_cpu hj, Ne.symm hij⟩
  · exact (hport i _ hi (Nat.le_refl _)).mpr (.inl rfl)
  · have hoff : r.1.enable i = true := hon
    rw [hfalse i hi] at hoff
    cases hoff

theorem AfterEnable.tidy {t : State} (ha : AfterEnable b port s t) (h : Tidy b s)
    (hp : b.user port = true) : Tidy b t := by
  have hcpu := user_ne_cpu hp
  have hpm := ha.samePm
  have hbridge := ha.sameBridge
  have hon : t.enable port = true := by rw [ha.enable, Function.update_self]
  have hother (i : Nat) (hi : i ≠ port) : t.enable i = s.enable i := by
    rw [ha.enable, Function.update_of_ne hi]
  have hkept (i j : Nat) (hu : b.user i = true) (hi : i ≠ port) (hj : j ≤ b.family.cpuPort) :
      Sends b t i j ↔ Sends b s i j := by
    rw [ha.sends i j hj, or_iff_left]
    rintro (h | h)
    · exact user_ne_cpu hu h.1
    · exact hi h.1
  have hown (j : Nat) (hj : j ≤ b.family.cpuPort) :
      Sends b t port j ↔ Sends b s port j ∨ j ∈ s.pm port := by
    rw [ha.sends port j hj, and_iff_right (a := port = port) rfl]
    exact or_congr_right (or_iff_right fun h => hcpu h.1)
  refine ⟨fun i j hi => ?_, fun i j hi hj hij hti => ?_, fun i j hi hj hij hti => ?_,
    fun i hi => ?_, fun i hi hti => ?_⟩
  · rw [hpm, hbridge, h.pm i j hi]
    simp only [Peer, hbridge]
  · have hle := Nat.le_of_lt (b.user_lt j hj)
    rw [hbridge]
    by_cases hip : i = port
    · rw [hip] at hij ⊢
      have hmem : j ∈ s.pm port ↔
          ∃ bridge, s.bridge port = some bridge ∧ s.bridge j = some bridge := by
        rw [h.pm port j hp]
        refine exists_congr fun bridge => and_congr_right fun _ => ?_
        rw [or_iff_right (user_ne_cpu hj), Peer, and_iff_right ⟨hj, Ne.symm hij⟩]
      rw [hown j hle, hmem]
      cases hs : s.enable port with
      | true => rw [h.on port j hp hj hij hs, or_self]
      | false => rw [or_iff_right (h.off port j hp hj hij hs)]
    · rw [hkept i j hi hip hle]
      exact h.on i j hi hj hij (hother i hip ▸ hti)
  · have hip : i ≠ port := by
      rintro rfl
      rw [hon] at hti
      cases hti
    rw [hkept i j hi hip (Nat.le_of_lt (b.user_lt j hj))]
    exact h.off i j hi hj hij (hother i hip ▸ hti)
  · by_cases hip : i = port
    · left
      rw [hip, hown _ (Nat.le_refl _)]
      exact (h.toCpu port hp).imp_right And.right
    · rw [hkept i _ hi hip (Nat.le_refl _), hother i hip, hpm]
      exact h.toCpu i hi
  · rw [ha.sends _ i (Nat.le_of_lt (b.user_lt i hi))]
    by_cases hip : i = port
    · exact .inr (.inl ⟨rfl, hip⟩)
    · exact .inl (h.fromCpu i hi (hother i hip ▸ hti))

theorem AfterDisable.tidy {t : State} (ha : AfterDisable b port s t) (h : Tidy b s)
    (hp : b.user port = true) : Tidy b t := by
  have hcpu := user_ne_cpu hp
  have hpm := ha.samePm
  have hbridge := ha.sameBridge
  have hoff : t.enable port = false := by rw [ha.enable, Function.update_self]
  have hother (i : Nat) (hi : i ≠ port) : t.enable i = s.enable i := by
    rw [ha.enable, Function.update_of_ne hi]
  have hkept (i j : Nat) (hu : b.user i = true) (hi : i ≠ port) (hj : j ≤ b.family.cpuPort) :
      Sends b t i j ↔ Sends b s i j := by
    rw [ha.sends i j hj, and_iff_left]
    exact ⟨fun h => user_ne_cpu hu h.1, fun h => hi h.1⟩
  have hown (j : Nat) (hj : j ≤ b.family.cpuPort) :
      Sends b t port j ↔ Sends b s port j ∧ j ∉ s.pm port := by
    rw [ha.sends port j hj, and_iff_right (a := port = port) rfl]
    exact and_congr_right fun _ => and_iff_right fun h => hcpu h.1
  refine ⟨fun i j hi => ?_, fun i j hi hj hij hti => ?_, fun i j hi hj hij hti => ?_,
    fun i hi => ?_, fun i hi hti => ?_⟩
  · rw [hpm, hbridge, h.pm i j hi]
    simp only [Peer, hbridge]
  · have hip : i ≠ port := by
      rintro rfl
      rw [hoff] at hti
      cases hti
    rw [hbridge, hkept i j hi hip (Nat.le_of_lt (b.user_lt j hj))]
    exact h.on i j hi hj hij (hother i hip ▸ hti)
  · have hle := Nat.le_of_lt (b.user_lt j hj)
    by_cases hip : i = port
    · rw [hip] at hij ⊢
      rw [hown j hle]
      rintro ⟨hsend, hnot⟩
      cases hs : s.enable port with
      | true =>
        obtain ⟨bridge, hport, hj'⟩ := (h.on port j hp hj hij hs).mp hsend
        exact hnot ((h.pm port j hp).mpr ⟨bridge, hport, .inr ⟨⟨hj, Ne.symm hij⟩, hj'⟩⟩)
      | false => exact h.off port j hp hj hij hs hsend
    · rw [hkept i j hi hip hle]
      exact h.off i j hi hj hij (hother i hip ▸ hti)
  · by_cases hip : i = port
    · rw [hip, hown _ (Nat.le_refl _), hoff, hpm]
      by_cases hmem : b.family.cpuPort ∈ s.pm port
      · exact .inr ⟨rfl, hmem⟩
      · exact .inl ⟨(h.toCpu port hp).resolve_right fun h => hmem h.2, hmem⟩
    · rw [hkept i _ hi hip (Nat.le_refl _), hother i hip, hpm]
      exact h.toCpu i hi
  · have hip : i ≠ port := by
      rintro rfl
      rw [hoff] at hti
      cases hti
    rw [ha.sends _ i (Nat.le_of_lt (b.user_lt i hi))]
    refine ⟨h.fromCpu i hi (hother i hip ▸ hti), fun h => hip h.2, fun h => hcpu h.1.symm⟩

theorem AfterJoin.tidy {t : State} (ha : AfterJoin b port bridge
    { s with bridge := Function.update s.bridge port (some bridge) } t) (h : Tidy b s)
    (hp : b.user port = true) (hnone : s.bridge port = none) : Tidy b t := by
  have hcpu := user_ne_cpu hp
  have henable : t.enable = s.enable := ha.sameEnable
  have hown : t.bridge port = some bridge := by
    rw [ha.sameBridge]
    exact Function.update_self ..
  have hother (i : Nat) (hi : i ≠ port) : t.bridge i = s.bridge i := by
    rw [ha.sameBridge]
    exact Function.update_of_ne hi ..
  have hpeer (i : Nat) :
      Peer b { s with bridge := Function.update s.bridge port (some bridge) } port bridge i ↔
        (b.user i = true ∧ i ≠ port) ∧ s.bridge i = some bridge :=
    and_congr_right fun hi => by
      dsimp only
      rw [Function.update_of_ne hi.2]
  have hsends (i j : Nat) (hj : j ≤ b.family.cpuPort) : Sends b t i j ↔
      (Sends b s i j ∨ ((b.user i = true ∧ i ≠ port) ∧ s.bridge i = some bridge) ∧
        s.enable i = true ∧ j = port) ∨ s.enable port = true ∧ (i = b.family.cpuPort ∧ j = port ∨
          i = port ∧ (j = b.family.cpuPort ∨
            (b.user j = true ∧ j ≠ port) ∧ s.bridge j = some bridge)) := by
    have hall := ha.sends i j hj
    rwa [hpeer, hpeer] at hall
  have hpm (i j : Nat) : j ∈ t.pm i ↔ j ∈ s.pm i ∨
      ((b.user i = true ∧ i ≠ port) ∧ s.bridge i = some bridge) ∧ j = port ∨
        i = port ∧ (j = b.family.cpuPort ∨
          (b.user j = true ∧ j ≠ port) ∧ s.bridge j = some bridge) := by
    have hall := ha.pm i j
    rwa [hpeer, hpeer] at hall
  refine ⟨fun i j hi => ?_, fun i j hi hj hij hti => ?_, fun i j hi hj hij hti => ?_,
    fun i hi => ?_, fun i hi hti => ?_⟩
  · rw [hpm, h.pm i j hi]
    simp only [Peer]
    by_cases hip : i = port
    · rw [hip, hown, hnone]
      by_cases hjp : j = port
      · simp [hjp]
      · simp [hother j hjp, hjp]
    · rw [hother i hip]
      by_cases hjp : j = port
      · rw [hjp, hown, hnone]
        simp [hi, hip, hp, Ne.symm hip, hcpu, and_comm]
      · simp [hother j hjp, hip, hjp]
  · rw [hsends i j (Nat.le_of_lt (b.user_lt j hj)), h.on i j hi hj hij (henable ▸ hti)]
    rw [henable] at hti
    by_cases hip : i = port
    · rw [hip] at hij hti ⊢
      rw [hown, hnone, hother j (Ne.symm hij)]
      simp [hti, hcpu, user_ne_cpu hj, hj, Ne.symm hij]
    · rw [hother i hip]
      by_cases hjp : j = port
      · rw [hjp, hown, hnone]
        simp [hi, hip, hti, user_ne_cpu hi]
      · simp [hother j hjp, hip, hjp]
  · rw [henable] at hti
    rw [hsends i j (Nat.le_of_lt (b.user_lt j hj))]
    have hoff := h.off i j hi hj hij hti
    by_cases hip : i = port
    · rw [hip] at hti hoff ⊢
      simp [hoff, hti]
    · simp [hoff, hti, hip, user_ne_cpu hi]
  · rw [henable]
    exact (h.toCpu i hi).imp (fun hs => (hsends i _ (Nat.le_refl _)).mpr (.inl (.inl hs)))
      fun hs => ⟨hs.1, (hpm i _).mpr (.inl hs.2)⟩
  · rw [henable] at hti
    exact (hsends _ i (Nat.le_of_lt (b.user_lt i hi))).mpr (.inl (.inl (h.fromCpu i hi hti)))

theorem AfterLeave.tidy {t : State} (ha : AfterLeave b port
    { s with bridge := Function.update s.bridge port none } t) (h : Tidy b s)
    (hsome : s.bridge port = some bridge)
    (halone : ∀ i, b.user i = true → i ≠ port → s.bridge i ≠ some bridge)
    (hsend : s.enable port = true ∨ Sends b s port b.family.cpuPort) : Tidy b t := by
  have henable : t.enable = s.enable := ha.sameEnable
  have hown : t.bridge port = none := by
    rw [ha.sameBridge]
    exact Function.update_self ..
  have hother (i : Nat) (hi : i ≠ port) : t.bridge i = s.bridge i := by
    rw [ha.sameBridge]
    exact Function.update_of_ne hi ..
  have hsends (i j : Nat) (hj : j ≤ b.family.cpuPort) : Sends b t i j ↔
      Sends b s i j ∨ s.enable port = true ∧ i = port ∧ j = b.family.cpuPort := ha.sends i j hj
  have hsame (i j : Nat) (hj : b.user j = true) : Sends b t i j ↔ Sends b s i j := by
    rw [hsends i j (Nat.le_of_lt (b.user_lt j hj)), or_iff_left fun h => user_ne_cpu hj h.2.2]
  have hpm (i j : Nat) : j ∈ t.pm i ↔ j ∈ s.pm i ∧ ¬ (i = port ∧ j = b.family.cpuPort) := ha.pm i j
  refine ⟨fun i j hi => ?_, fun i j hi hj hij hti => ?_, fun i j hi hj hij hti => ?_,
    fun i hi => ?_, fun i hi hti => ?_⟩
  · rw [hpm, h.pm i j hi]
    simp only [Peer]
    by_cases hip : i = port
    · rw [hip, hown, hsome]
      simp only [Option.some.injEq, exists_eq_left', true_and, reduceCtorEq, false_and,
        exists_const,
        iff_false, not_and, not_not]
      rintro (hj | ⟨⟨hu, hne⟩, hj⟩)
      · exact hj
      · exact absurd hj (halone j hu hne)
    · rw [hother i hip, and_iff_left fun h => hip h.1]
      by_cases hjp : j = port
      · rw [hjp, hown, hsome]
        have hnot := halone i hi hip
        simp only [Option.some.injEq, reduceCtorEq, and_false, or_false]
        refine exists_congr fun bridge' => and_congr_right fun hb => or_iff_left ?_
        rintro ⟨-, rfl⟩
        exact hnot hb
      · rw [hother j hjp]
  · rw [hsame i j hj, h.on i j hi hj hij (henable ▸ hti)]
    by_cases hip : i = port
    · rw [hip] at hij ⊢
      have hnot := halone j hj (Ne.symm hij)
      rw [hown, hsome]
      simp [hnot]
    · rw [hother i hip]
      by_cases hjp : j = port
      · have hnot := halone i hi hip
        rw [hjp, hown, hsome]
        simp [hnot]
      · rw [hother j hjp]
  · rw [hsame i j hj]
    exact h.off i j hi hj hij (henable ▸ hti)
  · rw [henable]
    by_cases hip : i = port
    · rw [hip, hsends port _ (Nat.le_refl _)]
      exact .inl (hsend.elim (fun hon => .inr ⟨hon, rfl, rfl⟩) .inl)
    · exact (h.toCpu i hi).imp (fun hs => (hsends i _ (Nat.le_refl _)).mpr (.inl hs))
        fun hs => ⟨hs.1, (hpm i _).mpr ⟨hs.2, fun h => hip h.1⟩⟩
  · rw [hsame _ i hi]
    exact h.fromCpu i hi (henable ▸ hti)

/-- A port that leaves a bridge is the only one in it, and it is enabled or sends to the CPU. -/
def Clean (b : Board) (s : State) : Call → Prop
  | .leave port =>
    (∀ i, b.user i = true → i ≠ port → s.bridge i = none ∨ s.bridge i ≠ s.bridge port) ∧
      (s.enable port = true ∨ b.family.cpuPort ∈ trafficGet b s port)
  | _ => True

theorem step_tidy {t : State} {c : Call} (hb : Sound b) (h : Tidy b s) (hc : Clean b s c)
    (hstep : step b s c = some t) : Tidy b t := by
  cases c with
  | enable port =>
    obtain ⟨hp, ht⟩ := Option.ite_none_right_eq_some.mp hstep
    obtain rfl := Option.some.inj ht
    exact (portEnable_spec (user_ne_cpu hp) (hb port hp).1).tidy h hp
  | disable port =>
    obtain ⟨hp, ht⟩ := Option.ite_none_right_eq_some.mp hstep
    obtain rfl := Option.some.inj ht
    exact (portDisable_spec hp (hb port hp).1).tidy h hp
  | join port bridge =>
    obtain ⟨⟨hp, hnone⟩, ht⟩ := Option.ite_none_right_eq_some.mp hstep
    obtain rfl := Option.some.inj ht
    exact (portBridgeJoin_spec (hb port hp).1).tidy h hp hnone
  | leave port =>
    obtain ⟨hp, ht⟩ := Option.ite_none_right_eq_some.mp hstep
    obtain ⟨bridge, hsome, rfl⟩ := Option.map_eq_some_iff.mp ht
    obtain ⟨hothers, hsend⟩ := hc
    have halone (i : Nat) (hi : b.user i = true) (hne : i ≠ port) : s.bridge i ≠ some bridge := by
      intro hi'
      rcases hothers i hi hne with h | h
      · rw [h] at hi'
        cases hi'
      · exact h (hi'.trans hsome.symm)
    have hpeer (i : Nat) :
        ¬ Peer b { s with bridge := Function.update s.bridge port none } port bridge i := by
      rintro ⟨⟨hu, hne⟩, hi⟩
      dsimp only at hi
      rw [Function.update_of_ne hne] at hi
      exact halone i hu hne hi
    exact (portBridgeLeave_spec hpeer).tidy h hsome halone hsend

/-- The states that clean calls lead to after `rtl83xx_setup`. -/
def CleanRun (b : Board) : State → Prop :=
  Reaches (Start b) fun s c t => Clean b s c ∧ step b s c = some t

/-- **Isolation.** In every state that clean calls lead to, ports send to the ports of their own
bridge only. -/
theorem isolated_of_clean (hb : Sound b) (h : CleanRun b s) : Isolated b s := by
  have htidy : Tidy b s := by
    refine Reaches.invariant ?_ ?_ h
    · rintro _ ⟨t, ht, rfl⟩
      exact setup_tidy hb ht
    · rintro s c t hs ⟨hc, hstep⟩
      exact step_tidy hb hs hc hstep
  exact htidy.isolated

end

/-- An RTL8380 with two ports. -/
def twoPorts : Board where
  family := .rtl8380
  user i := decide (i < 2)
  phy i := decide (i < 2)
  user_lt i hi := Nat.lt_trans (of_decide_eq_true hi) (by decide)

/-- The state before the setup. -/
def probed : State := ⟨fun _ => 0, fun _ => 0, fun _ => false, fun _ => none⟩

theorem start_twoPorts : Start twoPorts (setup twoPorts probed) :=
  ⟨probed, ⟨fun _ => rfl, fun _ => rfl⟩, rfl⟩

theorem sound_twoPorts : Sound twoPorts := fun i hi =>
  ⟨Nat.lt_trans (of_decide_eq_true hi) (by decide), hi⟩

/-- No port leaves. -/
def stepStay (b : Board) (s : State) : Call → Option State
  | .leave _ => none
  | c => step b s c

/-- Both ports join a bridge. -/
def joinBoth : List Call := [.enable 0, .enable 1, .join 0 7, .join 1 7]

theorem isolated_twoPorts : ∃ s, CleanRun twoPorts s ∧ s.enable 0 = true ∧ s.enable 1 = true ∧
    s.bridge 0 = some 7 ∧ s.bridge 1 = some 7 ∧ Isolated twoPorts s := by
  have hrun : (joinBoth.foldlM (stepStay twoPorts) (setup twoPorts probed)).any (fun s => s.enable 0
      &&
      s.enable 1 && decide (s.bridge 0 = some 7) && decide (s.bridge 1 = some 7)) = true := by
    decide
  obtain ⟨s, hs, hall⟩ := Reaches.exists_run start_twoPorts hrun
  have hclean : CleanRun twoPorts s := hs.mono fun s c t hc => by
    cases c with
    | leave port => cases hc
    | enable port => exact ⟨trivial, hc⟩
    | disable port => exact ⟨trivial, hc⟩
    | join port bridge => exact ⟨trivial, hc⟩
  simp only [Bool.and_eq_true, decide_eq_true_eq] at hall
  obtain ⟨⟨⟨h₀, h₁⟩, hb₀⟩, hb₁⟩ := hall
  exact ⟨s, hclean, h₀, h₁, hb₀, hb₁, isolated_of_clean sound_twoPorts hclean⟩

/-- One of them leaves again, but still sends to the other. -/
theorem leave_not_isolated : ∃ s, Reachable twoPorts s ∧ ¬ Isolated twoPorts s := by
  have hrun : ((joinBoth ++ [Call.leave 1]).foldlM (step twoPorts) (setup twoPorts probed)).any
      (fun s => s.enable 0 && s.enable 1 && decide (s.bridge 1 = none) &&
        decide (0 ∈ trafficGet twoPorts s 1)) = true := by
    decide
  obtain ⟨s, hs, hall⟩ := Reaches.exists_run start_twoPorts hrun
  refine ⟨s, hs, fun h => ?_⟩
  simp only [Bool.and_eq_true, decide_eq_true_eq] at hall
  obtain ⟨⟨⟨h₀, h₁⟩, hnone⟩, hmem⟩ := hall
  obtain ⟨bridge, hsome, -⟩ := (h.ports 1 0 rfl rfl (by decide) h₁ h₀).mp hmem
  rw [hnone] at hsome
  cases hsome

end UolaOs.Rtl83xx.Isolation
