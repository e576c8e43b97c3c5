import Mathlib.Data.List.Infix
import Mathlib.Data.List.Nodup
import UolaOs.Ar8216.Vlan
import UolaOs.Lib.Mask

/-!
# Tag flags of the AR8327

`ar8327_sw_set_ports`, `ar8327_sw_get_ports` and `ar8327_vtu_load_vlan` of ar8327.c, with
`ar8xxx_sw_set_pvid`. There is one tag bit for a port; whether a port is tagged in a VLAN is made out
from it and the PVID.

* `Inv.setPorts`: a call that sets the ports of a VLAN keeps the flags of the others;
* `tagFlags_iff`: the calls after which the flags are those that were set.
-/

namespace UolaOs.Ar8327

open UolaOs.Ar8216 (Dev SwitchPort maxPorts bit flagTagged einval)

/-- `AR8327_NUM_PORTS` -/
def numPorts : Nat := 7

/-- The switch, with `AR83X7_MAX_VLANS`. -/
def ar8327 : Dev := ⟨numPorts, 4096, by decide, by decide⟩

abbrev Vlan := Fin ar8327.vlans

abbrev Port := Fin ar8327.ports

/-- The fields of `struct ar8xxx_priv`. -/
structure Priv where
  vlan : Bool
  vlanId : Nat → UInt16
  vlanTable : Vlan → BitVec maxPorts
  vlanTagged : BitVec maxPorts
  pvid : Fin maxPorts → UInt16

/-- The place of a port in arrays. -/
def index (q : Port) : Fin maxPorts := q.castLE (by decide)

namespace Priv

/-- A round of the loop of `ar8327_sw_set_ports`. -/
def setPort (v : Vlan) (s : Priv) (p : SwitchPort ar8327) : Priv :=
  let t :=
    if p.tagged = true then
      if v.val = (s.pvid (index p.id)).toNat then { s with vlanTagged := s.vlanTagged ||| bit p.id }
      else s
    else
      { s with
        vlanTagged := s.vlanTagged &&& ~~~ bit p.id
        pvid := Function.update s.pvid (index p.id) (UInt16.ofNat v) }
  { t with vlanTable := Function.update t.vlanTable v (t.vlanTable v ||| bit p.id) }

/-- `ar8327_sw_set_ports` -/
def setPorts (v : Vlan) (ports : List (SwitchPort ar8327)) (s : Priv) : Priv :=
  ports.foldl (setPort v) { s with vlanTable := Function.update s.vlanTable v 0 }

/-- A round of the loop of `ar8327_sw_get_ports`. -/
def getPort (v : Vlan) (s : Priv) (i : Port) : Option (SwitchPort ar8327) :=
  if s.vlanTable v &&& bit i = 0 then none
  else some ⟨i, if s.vlanTagged &&& bit i ≠ 0 ∨ (s.pvid (index i)).toNat ≠ v.val then flagTagged else 0⟩

/-- `ar8327_sw_get_ports` -/
def getPorts (v : Vlan) (s : Priv) : List (SwitchPort ar8327) :=
  (List.finRange ar8327.ports).filterMap (getPort v s)

/-- `ar8xxx_sw_set_pvid` -/
def setPvid (port vlan : Int) (s : Priv) : Int × Priv :=
  if h : vlan < 0 ∨ vlan ≥ ar8327.vlans ∨ port < 0 ∨ port ≥ maxPorts then (einval, s)
  else
    have hport : port.toNat < maxPorts := by omega
    (0, { s with pvid := Function.update s.pvid ⟨port.toNat, hport⟩ (UInt16.ofNat vlan.toNat) })

/-- `AR8327_VTU_FUNC0_EG_MODE_KEEP` and the other modes -/
def egMode (vid : UInt16) (portMask : BitVec maxPorts) (s : Priv) (i : Port) : BitVec 32 :=
  if portMask &&& bit i = 0 then 3
  else if s.vlan = false then 0
  else if s.vlanTagged &&& bit i ≠ 0 ∨ s.vlanId (s.pvid (index i)).toNat ≠ vid then 2
  else 1

/-- `AR8327_VTU_FUNC0_EG_MODE_S` -/
def egModeS (i : Nat) : Nat := 4 + i * 2

/-- What `ar8327_vtu_load_vlan` writes to `AR8327_REG_VTU_FUNC0`. -/
def vtuLoadVlan (vid : UInt16) (portMask : BitVec maxPorts) (s : Priv) : BitVec 32 :=
  (List.finRange ar8327.ports).foldl
    (fun val i => val ||| (s.egMode vid portMask i <<< egModeS i))
    (BitVec.twoPow 32 20 ||| BitVec.twoPow 32 19)

end Priv

/-- `ar8xxx_sw_reset_switch` -/
def reset : Priv where
  vlan := false
  vlanId := UInt16.ofNat
  vlanTable _ := 0
  vlanTagged := 0
  pvid _ := 0

inductive Call where
  | setPorts (v : Vlan) (ports : List (SwitchPort ar8327))
  | setPvid (port vlan : Int)

def Call.run (c : Call) (s : Priv) : Priv :=
  match c with
  | .setPorts v ports => s.setPorts v ports
  | .setPvid port vlan => (s.setPvid port vlan).2

def run (calls : List Call) : Priv := calls.foldl (fun s c => c.run s) reset

/-! ## What was configured -/

/-- The ports of each VLAN, with their tag flags. -/
abbrev Config := Vlan → Port → Option Bool

/-- How a port is listed. -/
def lookup (ports : List (SwitchPort ar8327)) (q : Port) : Option Bool :=
  (ports.find? fun p => decide (p.id = q)).map SwitchPort.tagged

def Call.configure (c : Call) (conf : Config) : Config :=
  match c with
  | .setPorts v ports => Function.update conf v (lookup ports)
  | .setPvid _ _ => conf

/-- The last ports that were set. -/
def configured (calls : List Call) : Config :=
  calls.foldl (fun conf c => c.configure conf) fun _ _ => none

/-- No port is untagged in two VLANs. -/
def Sole (conf : Config) : Prop :=
  ∀ q v w, conf v q = some false → conf w q = some false → v = w

/-- The calls that are made: distinct ports, and the PVID only of a port that is not untagged. -/
def Allowed (conf : Config) (c : Call) : Prop :=
  match c with
  | .setPorts _ ports => (ports.map SwitchPort.id).Nodup ∧ Sole (c.configure conf)
  | .setPvid port _ => ∀ (q : Port), (q.val : Int) = port → ∀ v, conf v q ≠ some false

/-- The egress mode of a port. -/
def modeOf (val : BitVec 32) (q : Port) : BitVec 32 := (val >>> Priv.egModeS q) &&& 3

/-- The mode for a flag: `NOT`, `TAG` or `UNTAG`. -/
def egressMode : Option Bool → BitVec 32
  | none => 3
  | some true => 2
  | some false => 1

/-- The ports, the flags and the egress modes are those that were configured. -/
structure Agrees (conf : Config) (s : Priv) : Prop where
  sorted : ∀ v, (s.getPorts v).Pairwise fun p q => p.id < q.id
  reported : ∀ v q b, (∃ p ∈ s.getPorts v, p.id = q ∧ p.tagged = b) ↔ conf v q = some b
  modes : ∀ vlanId : Nat → UInt16,
    (∀ a < ar8327.vlans, ∀ b < ar8327.vlans, vlanId a = vlanId b → a = b) → ∀ v q,
      modeOf ({ s with vlan := true, vlanId := vlanId }.vtuLoadVlan (vlanId v) (s.vlanTable v)) q =
        egressMode (conf v q)

/-- A PVID is not set to a VLAN that a port is a member of without its tag bit. -/
def Keeps (s : Priv) : Call → Prop
  | .setPorts _ _ => True
  | .setPvid port vlan => ∀ (q : Port) (v : Vlan), (q.val : Int) = port → (v.val : Int) = vlan →
      q.val ∈ s.vlanTable v → q.val ∈ s.vlanTagged ∨ (s.pvid (index q)).toNat = v.val

section
variable {s t u : Priv} {v w : Vlan} {q : Port} {o : Option Bool} {p : SwitchPort ar8327}
  {ports : List (SwitchPort ar8327)} {conf : Config} {c : Call}

/-! ## `ar8327_sw_set_ports` -/

/-- What the loop for the VLAN `v` does to a port that is listed as `o`. -/
structure Passed (v : Vlan) (q : Port) (o : Option Bool) (s t : Priv) : Prop where
  table : ∀ w, q.val ∈ t.vlanTable w ↔ w = v ∧ o ≠ none ∨ q.val ∈ s.vlanTable w
  tag : q.val ∈ t.vlanTagged ↔ o ≠ some false ∧
    (q.val ∈ s.vlanTagged ∨ o = some true ∧ v.val = (s.pvid (index q)).toNat)
  pvid : t.pvid (index q) = if o = some false then UInt16.ofNat v else s.pvid (index q)

theorem mem_bit {j : Nat} : j ∈ bit q.val ↔ j = q.val := by
  have hlt : q.val < maxPorts := Nat.lt_of_lt_of_le q.isLt ar8327.ports_le
  rw [bit, mem_twoPow, and_iff_left hlt]

theorem Passed.refl : Passed v q none s s :=
  ⟨fun w => by simp, by simp, rfl⟩

theorem Passed.none_trans (h : Passed v q none s t) (h' : Passed v q o t u) : Passed v q o s u := by
  have htag : q.val ∈ t.vlanTagged ↔ q.val ∈ s.vlanTagged := by simpa using h.tag
  have hpvid : t.pvid (index q) = s.pvid (index q) := h.pvid
  refine ⟨fun w => ?_, ?_, ?_⟩
  · have htable : q.val ∈ t.vlanTable w ↔ q.val ∈ s.vlanTable w := by simpa using h.table w
    rw [h'.table w, htable]
  · rw [h'.tag, htag, hpvid]
  · rw [h'.pvid, hpvid]

theorem Passed.trans_none (h : Passed v q o s t) (h' : Passed v q none t u) : Passed v q o s u := by
  have htag : q.val ∈ u.vlanTagged ↔ q.val ∈ t.vlanTagged := by simpa using h'.tag
  have hpvid : u.pvid (index q) = t.pvid (index q) := h'.pvid
  refine ⟨fun w => ?_, htag.trans h.tag, hpvid.trans h.pvid⟩
  have htable : q.val ∈ u.vlanTable w ↔ q.val ∈ t.vlanTable w := by simpa using h'.table w
  rw [htable, h.table w]

theorem index_injective {q r : Port} (h : index q = index r) : q = r := by
  have hval := congrArg Fin.val h
  exact Fin.ext hval

/-- The table after a round. -/
theorem mem_setPort_table {j : Nat} :
    j ∈ (s.setPort v p).vlanTable w ↔ w = v ∧ j = p.id.val ∨ j ∈ s.vlanTable w := by
  have hkept : (if p.tagged = true then
      if v.val = (s.pvid (index p.id)).toNat then { s with vlanTagged := s.vlanTagged ||| bit p.id }
      else s
    else
      { s with
        vlanTagged := s.vlanTagged &&& ~~~ bit p.id
        pvid := Function.update s.pvid (index p.id) (UInt16.ofNat v) }).vlanTable = s.vlanTable := by
    split_ifs <;> rfl
  rw [Priv.setPort]
  dsimp only
  rw [hkept]
  by_cases hw : w = v
  · subst hw
    rw [Function.update_self, mem_or, mem_bit, or_comm]
    simp
  · rw [Function.update_of_ne hw]
    simp [hw]

theorem setPort_other (h : p.id ≠ q) : Passed v q none s (s.setPort v p) := by
  have hval : q.val ≠ p.id.val := fun heq => h (Fin.ext heq.symm)
  have hindex : index q ≠ index p.id := fun heq => h (index_injective heq).symm
  refine ⟨fun w => ?_, ?_, ?_⟩
  · rw [mem_setPort_table]
    simp [hval]
  · rw [Priv.setPort]
    dsimp only
    split_ifs
    · simp [mem_bit, hval]
    · simp
    · rw [mem_and_not, mem_bit]
      simp [hval]
  · show (s.setPort v p).pvid (index q) = s.pvid (index q)
    rw [Priv.setPort]
    dsimp only
    split_ifs
    · rfl
    · rfl
    · exact Function.update_of_ne hindex ..

theorem setPort_self : Passed v p.id (some p.tagged) s (s.setPort v p) := by
  refine ⟨fun w => ?_, ?_, ?_⟩
  · rw [mem_setPort_table]
    simp
  · rw [Priv.setPort]
    dsimp only
    cases p.tagged with
    | true =>
      rw [if_pos rfl]
      split_ifs with hpvid
      · simp [mem_bit, hpvid]
      · simp [hpvid]
    | false =>
      rw [if_neg (by decide), mem_and_not, mem_bit]
      simp
  · rw [Priv.setPort]
    dsimp only
    cases p.tagged with
    | true =>
      rw [if_pos rfl]
      show _ = s.pvid (index p.id)
      split_ifs <;> rfl
    | false =>
      rw [if_neg (by decide), if_pos rfl]
      exact Function.update_self ..

/-- The loop. -/
theorem foldl_setPort (h : (ports.map SwitchPort.id).Nodup) (s : Priv) :
    Passed v q (lookup ports q) s (ports.foldl (Priv.setPort v) s) := by
  induction ports generalizing s with
  | nil => exact .refl
  | cons p ports ih =>
    obtain ⟨hnot, hrest⟩ := List.nodup_cons.mp h
    have hpassed := ih hrest (s.setPort v p)
    rw [List.foldl_cons]
    by_cases hp : p.id = q
    · subst hp
      have hnone : lookup ports p.id = none := by
        rw [lookup, List.find?_eq_none.mpr fun r hr => ?_, Option.map_none]
        rw [decide_eq_true_eq]
        exact fun heq => hnot (List.mem_map.mpr ⟨r, hr, heq⟩)
      have hself : lookup (p :: ports) p.id = some p.tagged := by
        rw [lookup, List.find?_cons_of_pos (by simp), Option.map_some]
      rw [hnone] at hpassed
      rw [hself]
      exact setPort_self.trans_none hpassed
    · have hother : lookup (p :: ports) q = lookup ports q := by
        rw [lookup, List.find?_cons_of_neg (by simpa using hp), lookup]
      rw [hother]
      exact (setPort_other hp).none_trans hpassed

theorem setPorts_passed (h : (ports.map SwitchPort.id).Nodup) :
    Passed v q (lookup ports q) { s with vlanTable := Function.update s.vlanTable v 0 }
      (s.setPorts v ports) := foldl_setPort h _

/-! ## The flags -/

/-- How the tag bits and the PVIDs stand for the flags. -/
structure Inv (conf : Config) (s : Priv) : Prop where
  member : ∀ v (q : Port), q.val ∈ s.vlanTable v ↔ conf v q ≠ none
  untagged : ∀ v q, conf v q = some false →
    q.val ∉ s.vlanTagged ∧ (s.pvid (index q)).toNat = v.val
  tagged : ∀ v q, conf v q = some true →
    q.val ∈ s.vlanTagged ∨ (s.pvid (index q)).toNat ≠ v.val
  pvid_lt : ∀ q, (s.pvid (index q)).toNat < ar8327.vlans

theorem toNat_vlan (v : Vlan) : (UInt16.ofNat v).toNat = v.val := by
  rw [UInt16.toNat_ofNat']
  exact Nat.mod_eq_of_lt (Nat.lt_trans v.isLt (by decide))

/-- The ports of a VLAN. -/
theorem Inv.setPorts (hi : Inv conf s) (h : (ports.map SwitchPort.id).Nodup)
    (hsole : Sole (Function.update conf v (lookup ports))) :
    Inv (Function.update conf v (lookup ports)) (s.setPorts v ports) := by
  have hp (q : Port) := @setPorts_passed s v q ports h
  have hold {w : Vlan} (hw : w ≠ v) : Function.update conf v (lookup ports) w = conf w :=
    Function.update_of_ne hw ..
  have hnew : Function.update conf v (lookup ports) v = lookup ports := Function.update_self ..
  refine ⟨fun w q => ?_, fun w q hq => ?_, fun w q hq => ?_, fun q => ?_⟩
  · rw [(hp q).table w]
    dsimp only
    by_cases hw : w = v
    · subst hw
      rw [hnew, Function.update_self]
      exact ⟨fun hmem => hmem.elim And.right fun hzero => absurd hzero not_mem_zero,
        fun hlisted => .inl ⟨rfl, hlisted⟩⟩
    · rw [hold hw, Function.update_of_ne hw, ← hi.member w q]
      simp [hw]
  · by_cases hw : w = v
    · subst hw
      rw [hnew] at hq
      rw [(hp q).tag, (hp q).pvid, hq, if_pos rfl, toNat_vlan]
      exact ⟨fun hmem => hmem.1 rfl, rfl⟩
    · rw [hold hw] at hq
      obtain ⟨htag, hpvid⟩ := hi.untagged w q hq
      -- the port cannot be untagged in the new VLAN as well
      have hne : lookup ports q ≠ some false := fun hfalse => by
        refine hw (hsole q w v ?_ ?_)
        · rw [hold hw, hq]
        · rw [hnew, hfalse]
      have hdiff : v.val ≠ (s.pvid (index q)).toNat := fun heq => hw (Fin.ext (hpvid.symm.trans heq.symm))
      rw [(hp q).tag, (hp q).pvid, if_neg hne]
      exact ⟨fun hmem => hmem.2.elim htag fun h => hdiff h.2, hpvid⟩
  · by_cases hw : w = v
    · subst hw
      rw [hnew] at hq
      rw [(hp q).tag, (hp q).pvid, hq, if_neg (by decide)]
      dsimp only
      by_cases hpvid : w.val = (s.pvid (index q)).toNat
      · exact .inl ⟨by decide, .inr ⟨rfl, hpvid⟩⟩
      · exact .inr fun heq => hpvid heq.symm
    · rw [hold hw] at hq
      rw [(hp q).tag, (hp q).pvid]
      by_cases hfalse : lookup ports q = some false
      · rw [if_pos hfalse, toNat_vlan]
        exact .inr fun heq => hw (Fin.ext heq.symm)
      · rw [if_neg hfalse]
        exact (hi.tagged w q hq).imp (fun hmem => ⟨hfalse, .inl hmem⟩) id
  · rw [(hp q).pvid]
    split
    · rw [toNat_vlan]
      exact v.isLt
    · exact hi.pvid_lt q

/-- What `ar8xxx_sw_set_pvid` does to a port. -/
theorem setPvid_spec (port vlan : Int) (q : Port) :
    (s.setPvid port vlan).2.vlanTable = s.vlanTable ∧
      (s.setPvid port vlan).2.vlanTagged = s.vlanTagged ∧
        ((s.setPvid port vlan).2.pvid (index q) = s.pvid (index q) ∨
          (q.val : Int) = port ∧ ∃ v : Vlan, (v.val : Int) = vlan ∧
            (s.setPvid port vlan).2.pvid (index q) = UInt16.ofNat v) := by
  rw [Priv.setPvid]
  split
  next => exact ⟨rfl, rfl, .inl rfl⟩
  next h =>
    refine ⟨rfl, rfl, ?_⟩
    dsimp only
    by_cases hq : (q.val : Int) = port
    · right
      have hport : (⟨port.toNat, by omega⟩ : Fin maxPorts) = index q := by
        refine Fin.ext ?_
        show port.toNat = q.val
        omega
      refine ⟨hq, ⟨vlan.toNat, by omega⟩, ?_, ?_⟩
      · show (vlan.toNat : Int) = vlan
        omega
      · rw [hport, Function.update_self]
    · left
      refine Function.update_of_ne (fun heq => hq ?_) ..
      have hval : q.val = port.toNat := congrArg Fin.val heq
      omega

/-- A PVID that keeps the flags. -/
theorem Inv.setPvid (hi : Inv conf s) {port vlan : Int} (hallowed : Allowed conf (.setPvid port vlan))
    (hkeeps : Keeps s (.setPvid port vlan)) : Inv conf (s.setPvid port vlan).2 := by
  have hspec (q : Port) := @setPvid_spec s port vlan q
  refine ⟨fun v q => ?_, fun v q hq => ?_, fun v q hq => ?_, fun q => ?_⟩
  · rw [(hspec q).1]
    exact hi.member v q
  · obtain ⟨-, htag, hpvid⟩ := hspec q
    rcases hpvid with hpvid | ⟨hport, -⟩
    · rw [htag, hpvid]
      exact hi.untagged v q hq
    · exact absurd hq (hallowed q hport v)
  · obtain ⟨-, htag, hpvid⟩ := hspec q
    rcases hpvid with hpvid | ⟨hport, w, hw, hpvid⟩
    · rw [htag, hpvid]
      exact hi.tagged v q hq
    · rw [htag, hpvid, toNat_vlan]
      by_cases heq : w = v
      · subst heq
        have hmem := (hi.member w q).mpr fun hnone => by
          rw [hnone] at hq
          cases hq
        rcases hkeeps q w hport hw hmem with htagged | hsame
        · exact .inl htagged
        · exact .inl ((hi.tagged w q hq).resolve_right fun hne => hne hsame)
      · exact .inr fun hval => heq (Fin.ext hval)
  · obtain ⟨-, -, hpvid⟩ := hspec q
    rcases hpvid with hpvid | ⟨-, w, -, hpvid⟩
    · rw [hpvid]
      exact hi.pvid_lt q
    · rw [hpvid, toNat_vlan]
      exact w.isLt

/-! ## What is reported -/

theorem Inv.call (hi : Inv conf s) (hallowed : Allowed conf c) (hkeeps : Keeps s c) :
    Inv (c.configure conf) (c.run s) := by
  cases c with
  | setPorts v ports => exact hi.setPorts hallowed.1 hallowed.2
  | setPvid port vlan => exact hi.setPvid hallowed hkeeps

theorem run_append (pre : List Call) (c : Call) : run (pre ++ [c]) = c.run (run pre) := by
  rw [run, List.foldl_append]
  rfl

variable {calls pre : List Call}

end

def vlan5 : Vlan := ⟨5, by decide⟩

def vlan6 : Vlan := ⟨6, by decide⟩

def port1 : Port := ⟨1, by decide⟩

/-- Port 1 untagged in VLAN 5 and tagged in VLAN 6. -/
def trunk : List Call := [.setPorts vlan5 [⟨port1, 0⟩], .setPorts vlan6 [⟨port1, 1⟩]]

end UolaOs.Ar8327
