import UolaOs.Lib.Reaches
import UolaOs.Rtl83xx.Regs

/-!
# Mirror groups of the RTL838x and RTL839x

`rtl83xx_port_mirror_add` and `rtl83xx_port_mirror_del` of dsa.c. There are four groups, with one
destination port each.

* `mirrored_of_clean`: the groups are what was added and not deleted, as long as a group of an
  RTL839x that keeps ports keeps one of the high ones.
-/

namespace UolaOs.Rtl83xx.Mirror

/-- `priv->r->mir_ctrl` -/
def mirCtrl : Family → Nat
  | .rtl8380 => 0x5d00
  | .rtl8390 => 0x2500

/-- `priv->r->mir_dpm` -/
def mirDpm : Family → Nat
  | .rtl8380 => 0x5d20
  | .rtl8390 => 0x2530

/-- `priv->r->mir_spm` -/
def mirSpm : Family → Nat
  | .rtl8380 => 0x5d10
  | .rtl8390 => 0x2510

/-- `ctrl_reg`, `dpm_reg` and `spm_reg` of a group. -/
def ctrlReg (fam : Family) (group : Nat) : Nat := mirCtrl fam + group * 4

def dpmReg (fam : Family) (group : Nat) : Nat := mirDpm fam + group * 4 * fam.portWidth

def spmReg (fam : Family) (group : Nat) : Nat := mirSpm fam + group * 4 * fam.portWidth

structure State where
  regs : Regs
  /-- `priv->mirror_group_ports` -/
  groupPorts : Nat → Int

/-- A mirror of a port: `struct dsa_mall_mirror_tc_entry` and the port. -/
structure Entry where
  port : Nat
  toLocalPort : Nat
  ingress : Bool
  deriving DecidableEq

/-- `-ENOSPC` -/
def enospc : Int := -28

/-- `-EEXIST` -/
def eexist : Int := -17

/-- The first of the four groups whose destination satisfies `p`. -/
def findGroup (p : Int → Bool) (s : State) : Option Nat :=
  (List.range 4).find? fun group => p (s.groupPorts group)

/-- The value of the control register for a destination. -/
def ctrlWord (fam : Family) (toLocalPort : Nat) : BitVec 32 :=
  match fam with
  -- mirroring to port across VLANs (bit 11)
  | .rtl8380 => 0x800 ||| (BitVec.ofNat 32 toLocalPort <<< 4) ||| 1
  | .rtl8390 => (BitVec.ofNat 32 toLocalPort <<< 4) ||| 1

/-- The mask of a direction. -/
def maskReg (fam : Family) (ingress : Bool) (group : Nat) : Nat :=
  if ingress = true then spmReg fam group else dpmReg fam group

/-- `rtl83xx_port_mirror_add` -/
def portMirrorAdd (fam : Family) (e : Entry) (s : State) : Int × State :=
  let owned := findGroup (fun d => decide (d = e.toLocalPort)) s
  match owned.orElse fun _ => findGroup (fun d => decide (d < 0)) s with
  | none => (enospc, s)
  | some group =>
    let s := { s with regs := swW32 (ctrlWord fam e.toLocalPort) (ctrlReg fam group) s.regs }
    let reg := maskReg fam e.ingress group
    if getPortRegBe fam reg s.regs &&& bitULL e.port ≠ 0 then (eexist, s)
    else
      (0, { regs := maskPortRegBe fam 0 (bitULL e.port) reg s.regs
            groupPorts := Function.update s.groupPorts group e.toLocalPort })

/-- `rtl83xx_port_mirror_del` -/
def portMirrorDel (fam : Family) (e : Entry) (s : State) : State :=
  match findGroup (fun d => decide (d = e.toLocalPort)) s with
  | none => s
  | some group =>
    let s := { s with
      regs := maskPortRegBe fam (bitULL e.port) 0 (maskReg fam e.ingress group) s.regs }
    if s.regs (spmReg fam group) = 0 ∧ s.regs (dpmReg fam group) = 0 then
      { regs := swW32 0 (ctrlReg fam group) s.regs
        groupPorts := Function.update s.groupPorts group (-1) }
    else s

/-! ## Runs -/

inductive Call where
  | add (e : Entry)
  | del (e : Entry)

/-- The switch, and the mirrors that were added and not yet deleted. -/
structure Sys where
  state : State
  active : Entry → Bool

/-- A call about ports of the switch; a deletion removes a mirror that was added. -/
def step (fam : Family) (s : Sys) : Call → Option Sys
  | .add e =>
    if e.port ≤ fam.cpuPort ∧ e.toLocalPort ≤ fam.cpuPort then
      let r := portMirrorAdd fam e s.state
      some ⟨r.2, if r.1 = 0 then Function.update s.active e true else s.active⟩
    else none
  | .del e =>
    if s.active e = true then
      some ⟨portMirrorDel fam e s.state, Function.update s.active e false⟩
    else none

/-- After the probe: no group is owned, and the registers of the groups are zero. -/
def Start (fam : Family) (s : Sys) : Prop :=
  (∀ g < 4, s.state.groupPorts g = -1 ∧ s.state.regs (ctrlReg fam g) = 0 ∧
    getPortRegBe fam (spmReg fam g) s.state.regs = 0 ∧
    getPortRegBe fam (dpmReg fam g) s.state.regs = 0) ∧ ∀ e, s.active e = false

/-- The states that calls lead to. -/
def Reachable (fam : Family) : Sys → Prop := Reaches (Start fam) fun s c t => step fam s c = some t

/-- The ports that a group mirrors in a direction. -/
def mask (fam : Family) (r : Regs) (ingress : Bool) (group : Nat) : BitVec 64 :=
  getPortRegBe fam (maskReg fam ingress group) r

/-- **Mirroring.** -/
structure Mirrored (fam : Family) (s : Sys) : Prop where
  /-- A destination has one group. -/
  single : ∀ g < 4, ∀ h < 4, 0 ≤ s.state.groupPorts g →
    s.state.groupPorts g = s.state.groupPorts h → g = h
  /-- The masks of a group hold what is mirrored to its destination. -/
  masks : ∀ g < 4, ∀ d : Nat, s.state.groupPorts g = d → ∀ ingress port,
    (port ∈ mask fam s.state.regs ingress g ↔ s.active ⟨port, d, ingress⟩ = true)
  /-- Every mirror has a group. -/
  found : ∀ e, s.active e = true → ∃ g < 4, s.state.groupPorts g = e.toLocalPort
  owned : ∀ g < 4, 0 ≤ s.state.groupPorts g ↔ ∃ ingress port, port ∈ mask fam s.state.regs ingress g
  enabled : ∀ g < 4, 0 ∈ s.state.regs (ctrlReg fam g) ↔
    ∃ ingress port, port ∈ mask fam s.state.regs ingress g

section
variable {fam : Family} {s : Sys} {st : State} {g h port : Nat} {ingress ingress' : Bool} {e :
  Entry}
  {c m : BitVec 64} {v : BitVec 32} {r : Regs} {p : Int → Bool}

/-! ## The registers of the groups -/

theorem apart_masks (hg : g < 4) (hh : h < 4) (hne : ¬ (ingress' = ingress ∧ h = g)) :
    Apart fam (maskReg fam ingress g) (maskReg fam ingress' h) := by
  have hne : ingress' = ingress → h ≠ g := fun hi hg => hne ⟨hi, hg⟩
  rw [Apart, maskReg, maskReg]
  cases ingress with
  | true =>
    cases ingress' with
    | true =>
      have hgh := hne rfl
      cases fam <;> simp only [spmReg, mirSpm, Family.portWidth, ↓reduceIte] <;> omega
    | false =>
      cases fam <;> simp only [spmReg, dpmReg, mirSpm, mirDpm, Family.portWidth, ↓reduceIte,
        Bool.false_eq_true] <;> omega
  | false =>
    cases ingress' with
    | true =>
      cases fam <;> simp only [spmReg, dpmReg, mirSpm, mirDpm, Family.portWidth, ↓reduceIte,
        Bool.false_eq_true] <;> omega
    | false =>
      have hgh := hne rfl
      cases fam <;> simp only [dpmReg, mirDpm, Family.portWidth, ↓reduceIte,
        Bool.false_eq_true] <;> omega

/-- The control registers are in front of the masks. -/
theorem ctrlReg_lt (hh : h < 4) : ctrlReg fam h < maskReg fam ingress g := by
  rw [ctrlReg, maskReg]
  cases ingress <;> cases fam <;> simp only [spmReg, dpmReg, mirSpm, mirDpm, mirCtrl, ↓reduceIte,
    Bool.false_eq_true] <;> omega

theorem mask_ctrl (hh : h < 4) : mask fam (swW32 v (ctrlReg fam h) r) ingress g =
    mask fam r ingress g := by
  refine getPortRegBe_congr fun k _ => swW32_of_ne ?_
  have hlt : ctrlReg fam h < maskReg fam ingress g := ctrlReg_lt hh
  omega

theorem mem_mask_set (hg : g < 4) (hh : h < 4) :
    port ∈ mask fam (maskPortRegBe fam c m (maskReg fam ingress g) r) ingress' h ↔
      if ingress' = ingress ∧ h = g then
        port < 32 * fam.portWidth ∧ (port ∈ mask fam r ingress g ∧ port ∉ c ∨ port ∈ m)
      else port ∈ mask fam r ingress' h := by
  split
  next heq =>
    rw [heq.1, heq.2, mask]
    constructor
    · intro hmem
      have hlt := lt_bits_of_mem hmem
      exact ⟨hlt, (mem_maskPortRegBe hlt).mp hmem⟩
    · rintro ⟨hlt, hmem⟩
      exact (mem_maskPortRegBe hlt).mpr hmem
  next hne =>
    rw [mask, getPortRegBe_of_apart (apart_masks hg hh hne)]
    exact Iff.rfl

theorem ctrl_set (hh : h < 4) : maskPortRegBe fam c m (maskReg fam ingress g) r (ctrlReg fam h) =
    r (ctrlReg fam h) :=
  maskPortRegBe_of_ne (.inl (ctrlReg_lt hh))

/-- A port is put into a mask. -/
theorem mem_mask_put (hg : g < 4) (hh : h < 4) {n : Nat} (hn : n < 32 * fam.portWidth) :
    port ∈ mask fam (maskPortRegBe fam 0 (bitULL n) (maskReg fam ingress g) r) ingress' h ↔
      port ∈ mask fam r ingress' h ∨ (ingress' = ingress ∧ h = g) ∧ port = n := by
  have hbit : port ∈ bitULL n ↔ port = n := mem_bitULL (Nat.lt_of_lt_of_le hn (bits_le fam))
  rw [mem_mask_set hg hh]
  split
  next heq =>
    have hself : ingress = ingress ∧ g = g := ⟨rfl, rfl⟩
    rw [heq.1, heq.2, hbit, and_iff_left not_mem_zero, and_iff_right hself]
    refine and_iff_right_of_imp ?_
    rintro (hmem | rfl)
    · exact lt_bits_of_mem hmem
    · exact hn
  next hne => exact (or_iff_left fun h => hne h.1).symm

/-- A port is taken out of a mask. -/
theorem mem_mask_drop (hg : g < 4) (hh : h < 4) {n : Nat} (hn : n < 32 * fam.portWidth) :
    port ∈ mask fam (maskPortRegBe fam (bitULL n) 0 (maskReg fam ingress g) r) ingress' h ↔
      port ∈ mask fam r ingress' h ∧ ¬ ((ingress' = ingress ∧ h = g) ∧ port = n) := by
  have hbit : port ∈ bitULL n ↔ port = n := mem_bitULL (Nat.lt_of_lt_of_le hn (bits_le fam))
  rw [mem_mask_set hg hh]
  split
  next heq =>
    have hself : ingress = ingress ∧ g = g := ⟨rfl, rfl⟩
    rw [heq.1, heq.2, hbit, or_iff_left not_mem_zero, and_iff_right hself]
    exact and_iff_right_of_imp fun hmem => lt_bits_of_mem hmem.1
  next hne => exact (and_iff_left fun h => hne h.1).symm

theorem ctrlReg_injective (hgh : ctrlReg fam g = ctrlReg fam h) : g = h := by
  rw [ctrlReg, ctrlReg] at hgh
  omega

theorem mem_ctrlWord (fam : Family) (d : Nat) : 0 ∈ ctrlWord fam d := by
  have hone : 0 ∈ (1 : BitVec 32) := by decide
  cases fam with
  | rtl8380 => exact mem_or.mpr (.inr hone)
  | rtl8390 => exact mem_or.mpr (.inr hone)

/-! ## The search for a group -/

theorem findGroup_some (hfind : findGroup p st = some g) :
    g < 4 ∧ p (st.groupPorts g) = true := by
  refine ⟨List.mem_range.mp (List.mem_of_find?_eq_some hfind), ?_⟩
  rw [findGroup] at hfind
  have hp := List.find?_some hfind
  exact hp

theorem findGroup_none (hfind : findGroup p st = none) (hg : g < 4) :
    p (st.groupPorts g) = false := by
  have hnot := List.find?_eq_none.mp hfind g (List.mem_range.mpr hg)
  exact Bool.eq_false_iff.mpr hnot

/-! ## What the calls keep -/

/-- The invariant: the groups are right, and only ports of the switch are mirrored. -/
structure Inv (fam : Family) (s : Sys) : Prop extends Mirrored fam s where
  bound : ∀ e, s.active e = true → e.port ≤ fam.cpuPort

/-- A group that owns no destination mirrors nothing. -/
theorem Inv.free (hi : Inv fam s) (hg : g < 4) (hfree : s.state.groupPorts g < 0) :
    port ∉ mask fam s.state.regs ingress g := fun hmem => by
  have hown := (hi.owned g hg).mpr ⟨ingress, port, hmem⟩
  omega

/-- No other group has the destination. -/
def Takes (s : State) (g : Nat) (d : Nat) : Prop :=
  s.groupPorts g = d ∨ s.groupPorts g < 0 ∧ ∀ h < 4, s.groupPorts h ≠ d

theorem Inv.takes_unique (hi : Inv fam s) (hg : g < 4) (hh : h < 4) {d : Nat}
    (ht : Takes s.state g d) (hd : s.state.groupPorts h = d) : h = g := by
  rcases ht with ht | ⟨-, ht⟩
  · exact (hi.single g hg h hh (by omega) (ht.trans hd.symm)).symm
  · exact absurd hd (ht h hh)

theorem Inv.takes_masks (hi : Inv fam s) (hg : g < 4) {d : Nat} (ht : Takes s.state g d) :
    port ∈ mask fam s.state.regs ingress g ↔ s.active ⟨port, d, ingress⟩ = true := by
  rcases ht with ht | ⟨hfree, ht⟩
  · exact hi.masks g hg d ht ingress port
  · constructor
    · exact fun hmem => absurd hmem (hi.free hg hfree)
    · intro hact
      obtain ⟨h, hh, hd⟩ := hi.found _ hact
      exact absurd hd (ht h hh)

/-- A mirror is put into a group of its destination, or into one without a destination. -/
theorem Inv.put (hi : Inv fam s) (hg : g < 4) (hport : e.port ≤ fam.cpuPort)
    (ht : Takes s.state g e.toLocalPort) :
    Inv fam ⟨⟨maskPortRegBe fam 0 (bitULL e.port) (maskReg fam e.ingress g)
        (swW32 (ctrlWord fam e.toLocalPort) (ctrlReg fam g) s.state.regs),
      Function.update s.state.groupPorts g e.toLocalPort⟩, Function.update s.active e true⟩ := by
  have howner (h : Nat) (hne : h ≠ g) :
      Function.update s.state.groupPorts g (e.toLocalPort : Int) h = s.state.groupPorts h :=
    Function.update_of_ne hne ..
  have hself : Function.update s.state.groupPorts g (e.toLocalPort : Int) g = e.toLocalPort :=
    Function.update_self ..
  have hmask (h : Nat) (hh : h < 4) (ingress : Bool) (port : Nat) :
      port ∈ mask fam (maskPortRegBe fam 0 (bitULL e.port) (maskReg fam e.ingress g)
        (swW32 (ctrlWord fam e.toLocalPort) (ctrlReg fam g) s.state.regs)) ingress h ↔
        port ∈ mask fam s.state.regs ingress h ∨ (ingress = e.ingress ∧ h = g) ∧ port = e.port := by
    rw [mem_mask_put hg hh (Nat.lt_of_le_of_lt hport (cpuPort_lt_bits fam)), mask_ctrl hg]
  have hactive (e' : Entry) : Function.update s.active e true e' = true ↔ e' = e ∨ s.active e' =
      true := by
    by_cases he : e' = e
    · rw [he, Function.update_self]
      exact ⟨fun _ => .inl rfl, fun _ => rfl⟩
    · rw [Function.update_of_ne he, or_iff_right he]
  have hctrl (h : Nat) (hh : h < 4) :
      0 ∈ maskPortRegBe fam 0 (bitULL e.port) (maskReg fam e.ingress g)
      (swW32 (ctrlWord fam e.toLocalPort) (ctrlReg fam g) s.state.regs) (ctrlReg fam h) ↔
        h = g ∨ 0 ∈ s.state.regs (ctrlReg fam h) := by
    rw [ctrl_set hh]
    by_cases hhg : h = g
    · rw [hhg, swW32_self, iff_true_left (mem_ctrlWord fam _)]
      exact .inl rfl
    · rw [swW32_of_ne fun heq => hhg (ctrlReg_injective heq), or_iff_right hhg]
  refine ⟨⟨fun h₁ hh₁ h₂ hh₂ h0 heq => ?_, fun h hh d hd ingress port => ?_, fun e' he' => ?_,
    fun h hh => ?_, fun h hh => ?_⟩, fun e' he' => ?_⟩
  · dsimp only at h0 heq
    by_cases h₁g : h₁ = g
    · rw [h₁g, hself] at heq
      by_cases h₂g : h₂ = g
      · rw [h₁g, h₂g]
      · rw [howner h₂ h₂g] at heq
        exact absurd (hi.takes_unique hg hh₂ ht heq.symm) h₂g
    · rw [howner h₁ h₁g] at heq h0
      by_cases h₂g : h₂ = g
      · rw [h₂g, hself] at heq
        exact absurd (hi.takes_unique hg hh₁ ht heq) h₁g
      · rw [howner h₂ h₂g] at heq
        exact hi.single h₁ hh₁ h₂ hh₂ h0 heq
  · dsimp only at hd ⊢
    rw [hmask h hh, hactive]
    by_cases hhg : h = g
    · rw [hhg, hself] at hd
      obtain rfl : e.toLocalPort = d := by omega
      rw [hhg, hi.takes_masks hg ht, or_comm, and_iff_left rfl]
      refine or_congr_left ?_
      constructor
      · rintro ⟨rfl, rfl⟩
        rfl
      · intro he
        exact ⟨congrArg Entry.ingress he, congrArg Entry.port he⟩
    · rw [howner h hhg] at hd
      rw [hi.masks h hh d hd, or_iff_left fun h => hhg h.1.2, or_iff_right]
      rintro rfl
      exact hhg (hi.takes_unique hg hh ht hd)
  · dsimp only at he' ⊢
    rcases (hactive e').mp he' with rfl | hact
    · exact ⟨g, hg, hself⟩
    · obtain ⟨h, hh, hd⟩ := hi.found e' hact
      refine ⟨h, hh, ?_⟩
      by_cases hhg : h = g
      · rw [hhg] at hd ⊢
        rw [hself]
        rcases ht with ht | ht
        · exact ht.symm.trans hd
        · omega
      · rw [howner h hhg, hd]
  · dsimp only
    by_cases hhg : h = g
    · rw [hhg, hself, iff_true_left (Int.natCast_nonneg _)]
      exact ⟨e.ingress, e.port, (hmask g hg _ _).mpr (.inr ⟨⟨rfl, rfl⟩, rfl⟩)⟩
    · rw [howner h hhg, hi.owned h hh]
      simp only [hmask h hh, hhg, and_false, false_and, or_false]
  · dsimp only
    rw [hctrl h hh]
    by_cases hhg : h = g
    · rw [iff_true_left (.inl hhg), hhg]
      exact ⟨e.ingress, e.port, (hmask g hg _ _).mpr (.inr ⟨⟨rfl, rfl⟩, rfl⟩)⟩
    · rw [or_iff_right hhg, hi.enabled h hh]
      simp only [hmask h hh, hhg, and_false, false_and, or_false]
  · rcases (hactive e').mp he' with rfl | hact
    · exact hport
    · exact hi.bound e' hact

/-- The registers after the first part of `rtl83xx_port_mirror_del`. -/
def dropped (fam : Family) (s : Sys) (e : Entry) (g : Nat) : Regs :=
  maskPortRegBe fam (bitULL e.port) 0 (maskReg fam e.ingress g) s.state.regs

theorem Inv.mem_dropped (hi : Inv fam s) (he : s.active e = true) (hg : g < 4) (hh : h < 4) :
    port ∈ mask fam (dropped fam s e g) ingress h ↔
      port ∈ mask fam s.state.regs ingress h ∧ ¬ ((ingress = e.ingress ∧ h = g) ∧ port = e.port) :=
  mem_mask_drop hg hh (Nat.lt_of_le_of_lt (hi.bound e he) (cpuPort_lt_bits fam))

/-- What is left in the masks of the group. -/
theorem Inv.dropped_masks (hi : Inv fam s) (he : s.active e = true) (hg : g < 4)
    (hown : s.state.groupPorts g = e.toLocalPort) :
    port ∈ mask fam (dropped fam s e g) ingress g ↔
      Function.update s.active e false ⟨port, e.toLocalPort, ingress⟩ = true := by
  have heq : (ingress = e.ingress ∧ g = g) ∧ port = e.port ↔
      (⟨port, e.toLocalPort, ingress⟩ : Entry) = e := by
    constructor
    · rintro ⟨⟨rfl, -⟩, rfl⟩
      rfl
    · intro he
      exact ⟨⟨congrArg Entry.ingress he, rfl⟩, congrArg Entry.port he⟩
  rw [hi.mem_dropped he hg hg, hi.masks g hg _ hown, heq]
  by_cases hsame : (⟨port, e.toLocalPort, ingress⟩ : Entry) = e
  · rw [hsame, Function.update_self]
    exact ⟨fun h => absurd rfl h.2, fun h => by cases h⟩
  · rw [Function.update_of_ne hsame, and_iff_left hsame]

theorem update_false {e' : Entry} :
    Function.update s.active e false e' = true ↔ e' ≠ e ∧ s.active e' = true := by
  by_cases he : e' = e
  · rw [he, Function.update_self]
    exact ⟨(fun h => by cases h), fun h => absurd rfl h.1⟩
  · rw [Function.update_of_ne he, and_iff_right he]

theorem Inv.dropped_other (hi : Inv fam s) (he : s.active e = true) (hg : g < 4) (hh : h < 4)
    (hne : h ≠ g) : port ∈ mask fam (dropped fam s e g) ingress h ↔
      port ∈ mask fam s.state.regs ingress h := by
  rw [hi.mem_dropped he hg hh, and_iff_left fun h => hne h.1.2]

/-- A mirror that is deleted from another group. -/
theorem Inv.masks_other (hi : Inv fam s) (hg : g < 4) (hown : s.state.groupPorts g = e.toLocalPort)
    (hh : h < 4) (hne : h ≠ g) {d : Nat} (hd : s.state.groupPorts h = d) :
    port ∈ mask fam s.state.regs ingress h ↔
      Function.update s.active e false ⟨port, d, ingress⟩ = true := by
  have hother : (⟨port, d, ingress⟩ : Entry) ≠ e := by
    rintro rfl
    exact hne (hi.takes_unique hg hh (.inl hown) hd)
  rw [update_false, and_iff_right hother]
  exact hi.masks h hh d hd ingress port

/-- A group that mirrors something is kept. -/
theorem Inv.keep (hi : Inv fam s) (he : s.active e = true) (hg : g < 4)
    (hown : s.state.groupPorts g = e.toLocalPort)
    (hrest : ∃ ingress port, port ∈ mask fam (dropped fam s e g) ingress g) :
    Inv fam ⟨⟨dropped fam s e g, s.state.groupPorts⟩, Function.update s.active e false⟩ := by
  have hctrl (h : Nat) (hh : h < 4) :
      dropped fam s e g (ctrlReg fam h) = s.state.regs (ctrlReg fam h) := ctrl_set hh
  have hold : ∃ ingress port, port ∈ mask fam s.state.regs ingress g := by
    obtain ⟨ingress, port, hmem⟩ := hrest
    exact ⟨ingress, port, ((hi.mem_dropped he hg hg).mp hmem).1⟩
  refine ⟨⟨hi.single, fun h hh d hd ingress port => ?_, fun e' he' => ?_, fun h hh => ?_,
    fun h hh => ?_⟩, fun e' he' => hi.bound e' (update_false.mp he').2⟩
  · by_cases hhg : h = g
    · rw [hhg] at hd ⊢
      obtain rfl : e.toLocalPort = d := by
        have hdest := hown.symm.trans hd
        omega
      exact hi.dropped_masks he hg hown
    · exact (hi.dropped_other he hg hh hhg).trans (hi.masks_other hg hown hh hhg hd)
  · exact hi.found e' (update_false.mp he').2
  · by_cases hhg : h = g
    · rw [hhg]
      exact ⟨fun _ => hrest, fun _ => (hi.owned g hg).mpr hold⟩
    · dsimp only
      simp only [hi.owned h hh, hi.dropped_other he hg hh hhg]
  · dsimp only
    rw [hctrl h hh, hi.enabled h hh]
    by_cases hhg : h = g
    · rw [hhg]
      exact ⟨fun _ => hrest, fun _ => hold⟩
    · simp only [hi.dropped_other he hg hh hhg]

/-- A group that mirrors nothing is released. -/
theorem Inv.release (hi : Inv fam s) (he : s.active e = true) (hg : g < 4)
    (hown : s.state.groupPorts g = e.toLocalPort)
    (hrest : ∀ ingress port, port ∉ mask fam (dropped fam s e g) ingress g) :
    Inv fam ⟨⟨swW32 0 (ctrlReg fam g) (dropped fam s e g),
      Function.update s.state.groupPorts g (-1)⟩, Function.update s.active e false⟩ := by
  have howner (h : Nat) (hne : h ≠ g) :
      Function.update s.state.groupPorts g (-1 : Int) h = s.state.groupPorts h :=
    Function.update_of_ne hne ..
  have hself : Function.update s.state.groupPorts g (-1 : Int) g = -1 := Function.update_self ..
  have hmask (h : Nat) (ingress : Bool) :
      mask fam (swW32 0 (ctrlReg fam g) (dropped fam s e g)) ingress h =
        mask fam (dropped fam s e g) ingress h := mask_ctrl hg
  have hne_owner (h : Nat) (d : Int) (hd0 : 0 ≤ d)
      (hd : Function.update s.state.groupPorts g (-1 : Int) h = d) :
      h ≠ g ∧ s.state.groupPorts h = d := by
    by_cases hhg : h = g
    · rw [hhg, hself] at hd
      omega
    · exact ⟨hhg, (howner h hhg).symm.trans hd⟩
  refine ⟨⟨fun h₁ hh₁ h₂ hh₂ h0 heq => ?_, fun h hh d hd ingress port => ?_, fun e' he' => ?_,
    fun h hh => ?_, fun h hh => ?_⟩, fun e' he' => hi.bound e' (update_false.mp he').2⟩
  · obtain ⟨-, hd₁⟩ := hne_owner h₁ _ h0 rfl
    obtain ⟨-, hd₂⟩ := hne_owner h₂ _ h0 heq.symm
    exact hi.single h₁ hh₁ h₂ hh₂ (hd₁ ▸ h0) (hd₁.trans hd₂.symm)
  · obtain ⟨hhg, hd'⟩ := hne_owner h d (Int.natCast_nonneg d) hd
    dsimp only
    rw [hmask]
    exact (hi.dropped_other he hg hh hhg).trans (hi.masks_other hg hown hh hhg hd')
  · obtain ⟨hne, hact⟩ := update_false.mp he'
    obtain ⟨h, hh, hd⟩ := hi.found e' hact
    by_cases hhg : h = g
    · rw [hhg, hown] at hd
      have hdest : e.toLocalPort = e'.toLocalPort := by omega
      have hmem := (hi.dropped_masks he hg hown).mpr (hdest ▸ he' : Function.update s.active e false
        ⟨e'.port, e.toLocalPort, e'.ingress⟩ = true)
      exact absurd hmem (hrest _ _)
    · exact ⟨h, hh, (howner h hhg).trans hd⟩
  · dsimp only
    by_cases hhg : h = g
    · rw [hhg, hself]
      refine ⟨fun h => absurd h (by decide), ?_⟩
      rintro ⟨ingress, port, hmem⟩
      rw [hmask] at hmem
      exact absurd hmem (hrest _ _)
    · rw [howner h hhg]
      simp only [hmask, hi.owned h hh, hi.dropped_other he hg hh hhg]
  · dsimp only
    by_cases hhg : h = g
    · rw [hhg, swW32_self]
      refine ⟨fun h => absurd h not_mem_zero, ?_⟩
      rintro ⟨ingress, port, hmem⟩
      rw [hmask] at hmem
      exact absurd hmem (hrest _ _)
    · have hctrl : dropped fam s e g (ctrlReg fam h) = s.state.regs (ctrlReg fam h) := ctrl_set hh
      rw [swW32_of_ne fun heq => hhg (ctrlReg_injective heq), hctrl, hi.enabled h hh]
      simp only [hmask, hi.dropped_other he hg hh hhg]

/-- The control register of a group that is in use is written again. -/
theorem Inv.touch (hi : Inv fam s) (hg : g < 4) {d : Nat}
    (hused : ∃ ingress port, port ∈ mask fam s.state.regs ingress g) :
    Inv fam ⟨⟨swW32 (ctrlWord fam d) (ctrlReg fam g) s.state.regs, s.state.groupPorts⟩, s.active⟩ :=
      by
  have hmask (h : Nat) (ingress : Bool) :
      mask fam (swW32 (ctrlWord fam d) (ctrlReg fam g) s.state.regs) ingress h =
        mask fam s.state.regs ingress h := mask_ctrl hg
  refine ⟨⟨hi.single, fun h hh d hd ingress port => ?_, hi.found, fun h hh => ?_, fun h hh => ?_⟩,
    hi.bound⟩
  · dsimp only
    rw [hmask]
    exact hi.masks h hh d hd ingress port
  · simp only [hmask]
    exact hi.owned h hh
  · simp only [hmask]
    by_cases hhg : h = g
    · rw [hhg, swW32_self]
      exact ⟨fun _ => hused, fun _ => mem_ctrlWord fam d⟩
    · rw [swW32_of_ne fun heq => hhg (ctrlReg_injective heq)]
      exact hi.enabled h hh

/-- The group that `rtl83xx_port_mirror_add` takes. -/
theorem takes_of_find {d : Nat}
    (hfind : (findGroup (fun x => decide (x = (d : Int))) st).orElse
      (fun _ => findGroup (fun x => decide (x < 0)) st) = some g) : g < 4 ∧ Takes st g d := by
  cases howned : findGroup (fun x => decide (x = (d : Int))) st with
  | some h =>
    rw [howned] at hfind
    obtain rfl := Option.some.inj hfind
    obtain ⟨hg, hp⟩ := findGroup_some howned
    exact ⟨hg, .inl (of_decide_eq_true hp)⟩
  | none =>
    rw [howned] at hfind
    have hfree : findGroup (fun x => decide (x < 0)) st = some g := hfind
    obtain ⟨hg, hp⟩ := findGroup_some hfree
    exact ⟨hg, .inr ⟨of_decide_eq_true hp, fun h hh =>
      of_decide_eq_false (findGroup_none howned hh)⟩⟩

theorem Inv.add (hi : Inv fam s) (hport : e.port ≤ fam.cpuPort) :
    Inv fam ⟨(portMirrorAdd fam e s.state).2,
      if (portMirrorAdd fam e s.state).1 = 0 then Function.update s.active e true else s.active⟩ :=
        by
  rw [portMirrorAdd]
  dsimp only
  cases hfind : (findGroup (fun x => decide (x = (e.toLocalPort : Int))) s.state).orElse
      (fun _ => findGroup (fun x => decide (x < 0)) s.state) with
  | none => exact hi
  | some g =>
    obtain ⟨hg, ht⟩ := takes_of_find hfind
    dsimp only
    have hmask : mask fam (swW32 (ctrlWord fam e.toLocalPort) (ctrlReg fam g) s.state.regs)
        e.ingress g = mask fam s.state.regs e.ingress g := mask_ctrl hg
    split
    next hset =>
      have herror : ¬ eexist = 0 := by decide
      dsimp only
      rw [if_neg herror]
      refine hi.touch hg ⟨e.ingress, e.port, ?_⟩
      rw [← hmask]
      exact and_twoPow_ne_zero.mp hset
    next => exact hi.put hg hport ht

/-- When a mirror is deleted on an RTL839x, its destination keeps no mirror, or one of a high
port. -/
def Clean (fam : Family) (s : Sys) : Call → Prop
  | .add _ => True
  | .del e => fam = .rtl8380 ∨
      (∀ e', s.active e' = true → e' ≠ e → e'.toLocalPort ≠ e.toLocalPort) ∨
      ∃ e', s.active e' = true ∧ e' ≠ e ∧ e'.toLocalPort = e.toLocalPort ∧ 32 ≤ e'.port

/-- The test for a group that mirrors nothing. -/
theorem Inv.first_words (hi : Inv fam s) (he : s.active e = true) (hg : g < 4)
    (hown : s.state.groupPorts g = e.toLocalPort) (hclean : Clean fam s (.del e)) :
    dropped fam s e g (spmReg fam g) = 0 ∧ dropped fam s e g (dpmReg fam g) = 0 ↔
      ∀ ingress port, port ∉ mask fam (dropped fam s e g) ingress g := by
  have hword (ingress : Bool) : dropped fam s e g (maskReg fam ingress g) = 0 ↔
      ∀ port ∈ mask fam (dropped fam s e g) ingress g, fam = .rtl8390 ∧ port < 32 :=
    first_word_eq_zero_iff
  have hactive (ingress : Bool) (port : Nat) :
      port ∈ mask fam (dropped fam s e g) ingress g ↔
        Function.update s.active e false ⟨port, e.toLocalPort, ingress⟩ = true :=
    hi.dropped_masks he hg hown
  show dropped fam s e g (maskReg fam true g) = 0 ∧ dropped fam s e g (maskReg fam false g) = 0 ↔ _
  rw [hword, hword]
  constructor
  · rintro ⟨hin, hout⟩ ingress port hmem
    have hlow (ingress : Bool) (port : Nat)
        (hmem : port ∈ mask fam (dropped fam s e g) ingress g) : fam = .rtl8390 ∧ port < 32 := by
      cases ingress with
      | true => exact hin port hmem
      | false => exact hout port hmem
    rcases hclean with hfam | hnone | ⟨e', hact, hne, hdest, hhigh⟩
    · have hother := (hlow ingress port hmem).1
      rw [hfam] at hother
      cases hother
    · obtain ⟨hne, hact⟩ := update_false.mp ((hactive ingress port).mp hmem)
      exact hnone _ hact hne rfl
    · have hmem' : e'.port ∈ mask fam (dropped fam s e g) e'.ingress g := by
        rw [hactive, ← hdest]
        exact update_false.mpr ⟨hne, hact⟩
      have hlt := (hlow _ _ hmem').2
      omega
  · intro hnone
    exact ⟨fun port hmem => absurd hmem (hnone true port),
      fun port hmem => absurd hmem (hnone false port)⟩

theorem Inv.del (hi : Inv fam s) (he : s.active e = true) (hclean : Clean fam s (.del e)) :
    Inv fam ⟨portMirrorDel fam e s.state, Function.update s.active e false⟩ := by
  obtain ⟨h, hh, hd⟩ := hi.found e he
  rw [portMirrorDel]
  cases hfind : findGroup (fun x => decide (x = (e.toLocalPort : Int))) s.state with
  | none => exact absurd hd (of_decide_eq_false (findGroup_none hfind hh))
  | some g =>
    obtain ⟨hg, hp⟩ := findGroup_some hfind
    have hown := of_decide_eq_true hp
    have hwords := hi.first_words he hg hown hclean
    dsimp only
    rw [← dropped]
    split
    next hzero => exact hi.release he hg hown (hwords.mp hzero)
    next hrest =>
      refine hi.keep he hg hown ?_
      by_contra hnone
      refine hrest (hwords.mpr fun ingress port hmem => hnone ⟨ingress, port, hmem⟩)

theorem start_inv (h : Start fam s) : Inv fam s := by
  obtain ⟨hgroups, hactive⟩ := h
  have hempty (g : Nat) (hg : g < 4) (ingress : Bool) (port : Nat) :
      port ∉ mask fam s.state.regs ingress g := by
    obtain ⟨-, -, hspm, hdpm⟩ := hgroups g hg
    cases ingress with
    | true =>
      show port ∉ getPortRegBe fam (spmReg fam g) s.state.regs
      rw [hspm]
      exact not_mem_zero
    | false =>
      show port ∉ getPortRegBe fam (dpmReg fam g) s.state.regs
      rw [hdpm]
      exact not_mem_zero
  have hnone (e : Entry) : ¬ s.active e = true := by
    rw [hactive]
    decide
  refine ⟨⟨fun g hg h hh h0 _ => ?_, fun g hg d hd _ _ => ?_, fun e he => absurd he (hnone e),
    fun g hg => ?_, fun g hg => ?_⟩, fun e he => absurd he (hnone e)⟩
  · rw [(hgroups g hg).1] at h0
    omega
  · rw [(hgroups g hg).1] at hd
    omega
  · rw [(hgroups g hg).1]
    exact ⟨fun h => absurd h (by decide), fun ⟨_, _, hmem⟩ => absurd hmem (hempty g hg _ _)⟩
  · rw [(hgroups g hg).2.1]
    exact ⟨fun h => absurd h not_mem_zero, fun ⟨_, _, hmem⟩ => absurd hmem (hempty g hg _ _)⟩

theorem step_inv {t : Sys} {call : Call} (hi : Inv fam s) (hclean : Clean fam s call)
    (hstep : step fam s call = some t) : Inv fam t := by
  cases call with
  | add e =>
    obtain ⟨⟨hport, -⟩, ht⟩ := Option.ite_none_right_eq_some.mp hstep
    obtain rfl := Option.some.inj ht
    exact hi.add hport
  | del e =>
    obtain ⟨he, ht⟩ := Option.ite_none_right_eq_some.mp hstep
    obtain rfl := Option.some.inj ht
    exact hi.del he hclean

/-- The states that clean calls lead to. -/
def CleanRun (fam : Family) : Sys → Prop :=
  Reaches (Start fam) fun s c t => Clean fam s c ∧ step fam s c = some t

/-- **Mirroring.** In every state that clean calls lead to, the groups are what was added and not
deleted. -/
theorem mirrored_of_clean (h : CleanRun fam s) : Mirrored fam s :=
  (Reaches.invariant (I := Inv fam) (fun _ => start_inv)
    (fun _ _ _ hi hc => step_inv hi hc.1 hc.2) h).toMirrored

end

/-- After the probe. -/
def blank : Sys := ⟨⟨fun _ => 0, fun _ => -1⟩, fun _ => false⟩

theorem start_blank (fam : Family) : Start fam blank := by
  have hzero (reg : Nat) : getPortRegBe fam reg (fun _ => 0) = 0 := by
    cases fam with
    | rtl8380 => rfl
    | rtl8390 =>
      show ((0 : BitVec 32).setWidth 64 <<< 32) ||| (0 : BitVec 32).setWidth 64 = 0
      decide
  exact ⟨fun g _ => ⟨rfl, rfl, hzero _, hzero _⟩, fun _ => rfl⟩

/-- Two ports are mirrored, and then one of them no longer. -/
def twoMirrors : List Call := [.add ⟨1, 5, true⟩, .add ⟨2, 5, true⟩, .del ⟨1, 5, true⟩]

theorem mirrored_rtl8380 : ∃ s, CleanRun .rtl8380 s ∧ s.active ⟨2, 5, true⟩ = true ∧
    s.state.groupPorts 0 = 5 ∧ Mirrored .rtl8380 s := by
  have hrun : (twoMirrors.foldlM (step .rtl8380) blank).any (fun s => s.active ⟨2, 5, true⟩ &&
      decide (s.state.groupPorts 0 = 5)) = true := by
    decide
  obtain ⟨s, hs, hall⟩ := Reaches.exists_run (start_blank .rtl8380) hrun
  have hclean : CleanRun .rtl8380 s := hs.mono fun s c t hc => by
    cases c with
    | add e => exact ⟨trivial, hc⟩
    | del e => exact ⟨.inl rfl, hc⟩
  simp only [Bool.and_eq_true, decide_eq_true_eq] at hall
  exact ⟨s, hclean, hall.1, hall.2, mirrored_of_clean hclean⟩

/-- On an RTL839x the group is released, though port 2 is mirrored through it. -/
theorem rtl8390_not_mirrored : ∃ s, Reachable .rtl8390 s ∧ ¬ Mirrored .rtl8390 s := by
  have hrun : (twoMirrors.foldlM (step .rtl8390) blank).any (fun s => s.active ⟨2, 5, true⟩ &&
      (List.range 4).all fun g => decide (s.state.groupPorts g ≠ 5)) = true := by
    decide
  obtain ⟨s, hs, hall⟩ := Reaches.exists_run (start_blank .rtl8390) hrun
  refine ⟨s, hs, fun h => ?_⟩
  simp only [Bool.and_eq_true, List.all_eq_true, List.mem_range, decide_eq_true_eq] at hall
  obtain ⟨g, hg, hown⟩ := h.found _ hall.1
  exact hall.2 g hg hown

end UolaOs.Rtl83xx.Mirror
