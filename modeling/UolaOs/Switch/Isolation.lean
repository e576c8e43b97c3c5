import UolaOs.Switch.Mirror

/-!
# Setting one port's PVID

* `noLoose_reachable`: an MC entry without a VID has no members;
* `setPvid_isolated_iff`: the PVIDs of the other ports stay, unless one of them points at the
  entry without a VID that is taken.
-/

namespace UolaOs.Switch

section
variable {c : Chip} {s : Smi c}

/-- Either nothing changes for want of an entry, or the port gets the PVID and the other ports keep
theirs. -/
def Isolated (s : Smi c) (port : Fin c.numPorts) (vid : Nat) : Prop :=
  let r := s.setPvid port vid
  (r.1 = enospc ∧ (∀ q, r.2.getPvid q = s.getPvid q) ∧ ∀ i, r.2.getVlanMc i = s.getVlanMc i) ∨
  (r.1 = 0 ∧ (r.2.getPvid port).toNat = vid ∧ ∀ q ≠ port, r.2.getPvid q = s.getPvid q)

/-! ## Entries without a VID -/

def NoLoose (s : Smi c) : Prop := ∀ i, (s.getVlanMc i).vid = 0 → (s.getVlanMc i).member = 0

theorem ne_zero_of_valid {vid : Nat} (hv : ValidVid vid) {x : UInt16} (h : x.toNat = vid) :
    x ≠ 0 := by
  rintro rfl
  have := hv.1
  rw [← h] at this
  cases this

theorem NoLoose.put {t : Smi c} (h : NoLoose s) {i : Fin c.numVlanMc} {vid : Nat}
    (hv : ValidVid vid) (has : (t.getVlanMc i).vid.toNat = vid)
    (other : ∀ j ≠ i, t.getVlanMc j = s.getVlanMc j) : NoLoose t := by
  intro j hj
  by_cases hji : j = i
  · rw [hji] at hj
    exact absurd hj (ne_zero_of_valid hv has)
  · rw [other j hji] at hj ⊢
    exact h j hj

theorem noLoose_kept : Kept (NoLoose (c := c)) where
  setVlan s vid member untag fid hv hs := by
    have hend := setVlan_cases (s := s) hv.lt member untag fid
    generalize s.setVlan vid member untag fid = r at hend ⊢
    cases hend with
    | refused => exact hs
    | absent t none mc => exact fun i => by rw [mc i]; exact hs i
    | updated t i has copies other => exact hs.put hv copies.has other
  setPvid s port vid hv hs := by
    have hend := setPvid_cases (s := s) port hv.lt
    generalize s.setPvid port vid = r at hend ⊢
    cases hend with
    | reuse t i has sel => exact hs.put hv (by rw [sel.self, has]) sel.other
    | claim t i mc _ _ _ copies sel => exact hs.put hv (by rw [sel.self, copies.has]) sel.other
    | replace t i mc _ _ _ copies sel => exact hs.put hv (by rw [sel.self, copies.has]) sel.other
    | inUse => exact hs
  enable _ _ hs := hs

theorem noLoose_reachable (hs : Reachable s) : NoLoose s := by
  refine noLoose_kept.reachable ?_ hs
  intro s i _
  rw [(resetVlan_clears s).1 i]

/-! ## The other ports -/

/-- The port has the PVID of the entry that it now selects, and another port the PVID that its
entry has now. -/
theorem Selects.pvid {t : Smi c} {port : Fin c.numPorts} {i : Fin c.numVlanMc} {mc : VlanMc}
    (h : Selects s t port i mc) :
    t.getPvid port = mc.vid ∧ ∀ q ≠ port, t.getPvid q = (t.getVlanMc (s.mcIndex q)).vid := by
  constructor
  · rw [Smi.getPvid, h.mcIndex, Function.update_self, h.self]
  · intro q hq
    rw [Smi.getPvid, h.mcIndex, Function.update_of_ne hq]

/-- Nobody else notices an entry that nobody else points at. -/
theorem Selects.others {t : Smi c} {port : Fin c.numPorts} {i : Fin c.numVlanMc} {mc : VlanMc}
    (h : Selects s t port i mc) (hq : ∀ q ≠ port, s.mcIndex q = i → s.getVlanMc i = mc) :
    ∀ q ≠ port, t.getPvid q = s.getPvid q := by
  intro q hne
  rw [h.pvid.2 q hne, Smi.getPvid]
  by_cases hi : s.mcIndex q = i
  · rw [hi, h.self, hq q hne hi]
  · rw [h.other _ hi]

/-- The first entry without a VID. -/
def FirstFree (s : Smi c) (i : Fin c.numVlanMc) : Prop :=
  (s.getVlanMc i).vid = 0 ∧ ∀ j < i, (s.getVlanMc j).vid ≠ 0

/-- **Isolation.** In every run, setting a port's PVID leaves the other ports' alone exactly when
the VID has an entry already, or no other port points at the first entry without a VID. -/
theorem setPvid_isolated_iff (hs : Reachable s) (port : Fin c.numPorts) {vid : Nat}
    (hv : ValidVid vid) :
    Isolated s port vid ↔
      (∃ i, (s.getVlanMc i).vid.toNat = vid) ∨
        ∀ i, FirstFree s i → ∀ q ≠ port, s.mcIndex q ≠ i := by
  have hend := setPvid_cases (s := s) port hv.lt
  rw [Isolated]
  generalize s.setPvid port vid = r at hend ⊢
  cases hend with
  | reuse t i has sel =>
    refine iff_of_true (.inr ⟨rfl, ?_, ?_⟩) (.inl ⟨i, has⟩)
    · rw [sel.pvid.1, has]
    · exact sel.others fun _ _ _ => rfl
  | claim t i mc absent empty first copies sel =>
    have hfree : FirstFree s i :=
      ⟨empty.1, fun j hj h0 => first j hj ⟨h0, noLoose_reachable hs j h0⟩⟩
    constructor
    · rintro (⟨h, -⟩ | ⟨-, -, hothers⟩)
      · cases h
      · refine .inr ?_
        intro k hk q hq hqk
        -- both are the first entry without a VID
        have hki : k = i := by
          rcases lt_trichotomy k i with h | h | h
          · exact absurd hk.1 (hfree.2 k h)
          · exact h
          · exact absurd hfree.1 (hk.2 i h)
        have hsame := hothers q hq
        rw [sel.pvid.2 q hq, Smi.getPvid, hqk, hki, sel.self, empty.1] at hsame
        exact ne_zero_of_valid hv copies.has hsame
    · rintro (⟨j, hj⟩ | hnone)
      · exact absurd hj (absent j)
      · refine .inr ⟨rfl, ?_, ?_⟩
        · rw [sel.pvid.1, copies.has]
        · exact sel.others fun q hq hi => absurd hi (hnone i hfree q hq)
  | replace t i mc absent full unused copies sel =>
    refine iff_of_true (.inr ⟨rfl, ?_, ?_⟩) (.inr ?_)
    · rw [sel.pvid.1, copies.has]
    · exact sel.others fun q _ hi => absurd hi (unused q)
    · exact fun k hk => absurd ⟨hk.1, noLoose_reachable hs k hk.1⟩ (full k)
  | inUse absent full =>
    refine iff_of_true (.inl ⟨rfl, fun _ => rfl, fun _ => rfl⟩) (.inr ?_)
    exact fun k hk => absurd ⟨hk.1, noLoose_reachable hs k hk.1⟩ (full k)

end

/-! ## After a reset -/

theorem setPvid_isolated_iff_blank :
    Isolated blankVlanFive ⟨0, by decide⟩ 5 ↔
      (∃ i, (blankVlanFive.getVlanMc i).vid.toNat = 5) ∨
        ∀ i, FirstFree blankVlanFive i → ∀ q ≠ ⟨0, by decide⟩, blankVlanFive.mcIndex q ≠ i :=
  setPvid_isolated_iff reachable_blankVlanFive ⟨0, by decide⟩ ⟨by decide, by decide⟩

/-- After a reset all ports point at the first entry, so that one port's PVID becomes all
ports'. -/
theorem setPvid_isolated_reset :
    Reachable blankSmi.resetVlan.2 ∧ ¬ Isolated blankSmi.resetVlan.2 ⟨0, by decide⟩ 5 := by
  refine ⟨.start ⟨blankSmi, .inl rfl⟩, ?_⟩
  rintro (⟨h, -⟩ | ⟨-, -, h⟩)
  · exact absurd h (by decide)
  · exact absurd (h ⟨1, by decide⟩ (by decide)) (by decide)

end UolaOs.Switch
