import UolaOs.Lib.Mask
import UolaOs.Lib.Reaches
import Mathlib.Logic.Function.Basic

/-!
# Link aggregation groups

`rtl83xx_handle_changeupper` of common.c, with the functions that change the members of a group.

* `lagged_of_clean`: the groups are the bonds, as long as no free group is in front of the group of
  a bond, there is a group for every bond, and no group has the port of its own number.
-/

namespace UolaOs.Rtl83xx.Lag

/-- `MAX_LAGS` -/
def maxLags : Nat := 16

structure Board where
  /-- `priv->n_lags` -/
  nLags : Nat
  /-- `priv->cpu_port` -/
  cpuPort : Nat
  /-- `priv->ports[j].dp`, and the device that is its `slave`. -/
  dp : Nat → Option (Option Nat)
  nLags_le : nLags ≤ maxLags
  cpuPort_lt : cpuPort < 64
  dp_injective : ∀ i j d, dp i = some (some d) → dp j = some (some d) → i = j

structure State where
  /-- `priv->lags_port_members` -/
  members : Nat → BitVec 64
  /-- `priv->lag_devs` -/
  devs : Nat → Option Nat
  /-- The registers `trk_mbr_ctr`. -/
  trunk : Nat → BitVec 64

/-- `BIT_ULL` -/
def bit (n : Nat) : BitVec 64 := BitVec.twoPow 64 n

/-- `-EINVAL` -/
def einval : Int := -22

/-- `-ENOSPC` -/
def enospc : Int := -28

section
variable (b : Board)

/-- `rtl83xx_lag_add` -/
def lagAdd (group port : Nat) (s : State) : Int × State :=
  if group ≥ b.nLags then (einval, s)
  else if port ≥ b.cpuPort then (einval, s)
  else if (List.range b.nLags).any (fun i => decide (s.members i &&& bit i ≠ 0)) = true then
    (enospc, s)
  else
    (0, { s with
      trunk := Function.update s.trunk group (s.trunk group ||| bit port)
      members := Function.update s.members group (s.members group ||| bit port) })

/-- `rtl83xx_lag_del` -/
def lagDel (group port : Nat) (s : State) : Int × State :=
  if group ≥ b.nLags then (einval, s)
  else if port ≥ b.cpuPort then (einval, s)
  else if s.members group &&& bit port = 0 then (enospc, s)
  else
    (0, { s with
      trunk := Function.update s.trunk group (s.trunk group &&& ~~~ bit port)
      members := Function.update s.members group (s.members group &&& ~~~ bit port) })

/-- How an event ends early. -/
inductive Fault where
  /-- A port without `dp`. -/
  | null
  /-- Past the end of `lag_devs`. -/
  | outside
  deriving DecidableEq

/-- The first loop of `rtl83xx_handle_changeupper`: a free group or the one of the bond. -/
def findLag (upper : Nat) (s : State) : Nat :=
  ((List.range b.nLags).find? fun i =>
    decide (s.devs i = none ∨ s.devs i = some upper)).getD b.nLags

/-- The second loop, with `n` ports from `j` on. -/
def findPort (ndev : Nat) : Nat → Nat → Except Fault Nat
  | 0, j => .ok j
  | n + 1, j =>
    match b.dp j with
    | none => .error .null
    | some slave => if slave = some ndev then .ok j else findPort ndev n (j + 1)

/-- What is done to the group `i`. -/
def changeLag (upper : Nat) (linking : Bool) (i port : Nat) (s : State) : State :=
  if linking = true then
    let s := if s.devs i = none then { s with devs := Function.update s.devs i (some upper) } else s
    (lagAdd b i port s).2
  else
    let r := lagDel b i port s
    if r.1 ≠ 0 then r.2
    else if r.2.members i = 0 then { r.2 with devs := Function.update r.2.devs i none }
    else r.2

/-- `rtl83xx_handle_changeupper` for a bond: the index into the arrays of groups, if one is used,
and the state. -/
def handleChangeupper (ndev upper : Nat) (linking : Bool) (s : State) :
    Except Fault (Option Nat × State) :=
  let i := findLag b upper s
  match findPort b ndev b.cpuPort 0 with
  | .error e => .error e
  | .ok j =>
    if j ≥ b.cpuPort then .ok (none, s)
    else if i ≥ maxLags then .error .outside
    else .ok (some i, changeLag b upper linking i j s)

/-! ## Runs -/

/-- A port is linked to a bond or unlinked from it. -/
structure Event where
  port : Nat
  upper : Nat
  linking : Bool

structure Sys where
  state : State
  /-- The bond that a port is linked to. -/
  linked : Nat → Option Nat
  /-- The indices into the arrays of groups. -/
  used : List Nat
  crashed : Bool

/-- An event of a switch port. A device has one bond at a time. -/
def Event.Valid (e : Event) (s : Sys) : Prop :=
  e.port < b.cpuPort ∧ s.linked e.port = if e.linking = true then none else some e.upper

instance instDecidableValid (e : Event) (s : Sys) : Decidable (e.Valid b s) :=
  inferInstanceAs (Decidable (_ ∧ _))

def step (s : Sys) (e : Event) : Option Sys :=
  match b.dp e.port with
  | some (some ndev) =>
    if e.Valid b s ∧ s.crashed = false then
      let linked := Function.update s.linked e.port (if e.linking =
        true then some e.upper else none)
      match handleChangeupper b ndev e.upper e.linking s.state with
      | .error _ => some ⟨s.state, linked, s.used, true⟩
      | .ok (i, t) => some ⟨t, linked, i.toList ++ s.used, false⟩
    else none
  | _ => none

/-- After the probe. -/
def Start (s : Sys) : Prop :=
  (∀ i, s.state.members i = 0 ∧ s.state.devs i = none) ∧ (∀ p, s.linked p = none) ∧
    s.used = [] ∧ s.crashed = false

/-- The states that events lead to. -/
def Reachable : Sys → Prop := Reaches Start fun s e t => step b s e = some t

/-- **Link aggregation.** -/
structure Lagged (s : Sys) : Prop where
  alive : s.crashed = false
  used : ∀ i ∈ s.used, i < b.nLags
  /-- A bond owns one group. -/
  single : ∀ i j d, s.state.devs i = some d → s.state.devs j = some d → i = j
  /-- A port is in one group. -/
  disjoint : ∀ i j p, p ∈ s.state.members i → p ∈ s.state.members j → i = j
  /-- The members of a group are the ports of its bond. -/
  members : ∀ i d, s.state.devs i = some d → ∀ p, p ∈ s.state.members i ↔ s.linked p = some d
  /-- Every bond that a port is linked to has a group. -/
  found : ∀ p d, s.linked p = some d → ∃ i < b.nLags, s.state.devs i = some d

/-- No loop goes wrong at `e`, and no group has the port of its own number. -/
def Clean (s : Sys) (e : Event) : Prop :=
  (∀ j < e.port, b.dp j ≠ none) ∧
    (∀ g < b.nLags, s.state.devs g = some e.upper → ∀ h < g, s.state.devs h ≠ none) ∧
    (e.linking = true →
      (∃ g < b.nLags, s.state.devs g = none ∨ s.state.devs g = some e.upper) ∧
        ∀ i < b.nLags, i ∉ s.state.members i)

instance instDecidableClean (s : Sys) (e : Event) : Decidable (Clean b s e) :=
  inferInstanceAs (Decidable (_ ∧ _ ∧ _))

/-- The states that clean events lead to. -/
def CleanRun : Sys → Prop := Reaches Start fun s e t => Clean b s e ∧ step b s e = some t

end

/-! ## The loops -/

theorem update_some {f : Nat → Option Nat} {i j a d : Nat} :
    Function.update f i (some a) j = some d ↔ j = i ∧ d = a ∨ j ≠ i ∧ f j = some d := by
  by_cases hj : j = i
  · rw [hj, Function.update_self, Option.some.injEq]
    tauto
  · rw [Function.update_of_ne hj]
    tauto

theorem update_none {f : Nat → Option Nat} {i j d : Nat} :
    Function.update f i none j = some d ↔ j ≠ i ∧ f j = some d := by
  by_cases hj : j = i
  · rw [hj, Function.update_self]
    exact ⟨nofun, fun h => absurd rfl h.1⟩
  · rw [Function.update_of_ne hj, and_iff_right hj]

section
variable {b : Board} {s t : State} {upper ndev : Nat} {i j g port : Nat}

theorem lt_64_of_lt_cpuPort (h : port < b.cpuPort) : port < 64 := Nat.lt_trans h b.cpuPort_lt

theorem findLag_spec (h : ∃ g < b.nLags, s.devs g = none ∨ s.devs g = some upper) :
    findLag b upper s < b.nLags ∧
      (s.devs (findLag b upper s) = none ∨ s.devs (findLag b upper s) = some upper) ∧
      ∀ g < findLag b upper s, s.devs g ≠ some upper := by
  obtain ⟨g, hg, hdev⟩ := h
  rw [findLag]
  cases hfind : (List.range b.nLags).find? fun i =>
      decide (s.devs i = none ∨ s.devs i = some upper) with
  | none =>
    have hnot := List.find?_range_eq_none.mp hfind g hg
    rw [Bool.not_eq_true', decide_eq_false_iff_not] at hnot
    exact absurd hdev hnot
  | some i =>
    obtain ⟨hi, hlt, hfirst⟩ := List.find?_range_eq_some.mp hfind
    refine ⟨List.mem_range.mp hlt, of_decide_eq_true hi, fun g hg hown => ?_⟩
    have hnot := hfirst g hg
    rw [Bool.not_eq_true', decide_eq_false_iff_not] at hnot
    exact hnot (.inr hown)

theorem findPort_eq (hdp : b.dp port = some (some ndev)) (hnull : ∀ j < port, b.dp j ≠ none)
    {n : Nat} (hj : j ≤ port) (hn : port < j + n) : findPort b ndev n j = .ok port := by
  induction n generalizing j with
  | zero => omega
  | succ n ih =>
    rw [findPort]
    obtain rfl | hlt := Nat.eq_or_lt_of_le hj
    · rw [hdp]
      exact if_pos rfl
    · cases hslave : b.dp j with
      | none => exact absurd hslave (hnull j hlt)
      | some slave =>
        dsimp only
        rw [if_neg fun h => ?_]
        · exact ih hlt (by omega)
        · rw [h] at hslave
          exact Nat.ne_of_lt hlt (b.dp_injective _ _ _ hslave hdp)

/-- An event of the port is one of its group. -/
theorem handleChangeupper_eq {linking : Bool} (hdp : b.dp port = some (some ndev))
    (hnull : ∀ j < port, b.dp j ≠ none) (hport : port < b.cpuPort)
    (hi : findLag b upper s < b.nLags) :
    handleChangeupper b ndev upper linking s =
      .ok (some (findLag b upper s), changeLag b upper linking (findLag b upper s) port s) := by
  rw [handleChangeupper, findPort_eq hdp hnull (Nat.zero_le _) (by omega)]
  dsimp only
  rw [if_neg (Nat.not_le.mpr hport),
    if_neg (Nat.not_le.mpr (Nat.lt_of_lt_of_le hi b.nLags_le))]

/-- The first group is the one of the bond, if no free group is in front of it. -/
theorem devs_findLag_of_own (hown : s.devs g = some upper) (hg : g < b.nLags)
    (hfirst : ∀ h < g, s.devs h ≠ none) : s.devs (findLag b upper s) = some upper := by
  obtain ⟨-, hfree | hi, hbefore⟩ := findLag_spec ⟨g, hg, .inr hown⟩
  · refine absurd hfree (hfirst _ ?_)
    rcases Nat.lt_trichotomy (findLag b upper s) g with hlt | heq | hgt
    · exact hlt
    · rw [heq, hown] at hfree
      cases hfree
    · exact absurd hown (hbefore g hgt)
  · exact hi

/-! ## The groups -/

theorem lagAdd_eq (hi : i < b.nLags) (hport : port < b.cpuPort)
    (hown : ∀ i < b.nLags, i ∉ s.members i) :
    lagAdd b i port s = (0, { s with
      trunk := Function.update s.trunk i (s.trunk i ||| bit port)
      members := Function.update s.members i (s.members i ||| bit port) }) := by
  have hnone : ¬ (List.range b.nLags).any (fun i => decide (s.members i &&& bit i ≠ 0)) = true := by
    rw [List.any_eq_true]
    rintro ⟨i, hmem, h⟩
    exact hown i (List.mem_range.mp hmem) (and_twoPow_ne_zero.mp (of_decide_eq_true h))
  rw [lagAdd, if_neg (Nat.not_le.mpr hi), if_neg (Nat.not_le.mpr hport), if_neg hnone]

theorem lagDel_eq (hi : i < b.nLags) (hport : port < b.cpuPort) (hmem : port ∈ s.members i) :
    lagDel b i port s = (0, { s with
      trunk := Function.update s.trunk i (s.trunk i &&& ~~~ bit port)
      members := Function.update s.members i (s.members i &&& ~~~ bit port) }) := by
  have hbit : s.members i &&& bit port ≠ 0 := and_twoPow_ne_zero.mpr hmem
  rw [lagDel, if_neg (Nat.not_le.mpr hi), if_neg (Nat.not_le.mpr hport), if_neg hbit]

/-- A link puts the port into the group and gives the group to the bond. -/
theorem changeLag_link (hi : i < b.nLags) (hport : port < b.cpuPort)
    (hown : ∀ i < b.nLags, i ∉ s.members i) (hdev : s.devs i = none ∨ s.devs i = some upper) :
    (changeLag b upper true i port s).members =
        Function.update s.members i (s.members i ||| bit port) ∧
      (changeLag b upper true i port s).devs = Function.update s.devs i (some upper) := by
  rw [changeLag, if_pos rfl]
  dsimp only
  split
  next =>
    have hadd := lagAdd_eq (s := { s with devs := Function.update s.devs i (some upper) }) hi hport
      hown
    rw [hadd]
    exact ⟨rfl, rfl⟩
  next hfree =>
    rw [lagAdd_eq hi hport hown]
    refine ⟨rfl, ?_⟩
    rw [← hdev.resolve_left hfree, Function.update_eq_self]

/-- An unlink takes the port out of the group, and frees the group with its last port. -/
theorem changeLag_unlink (hi : i < b.nLags) (hport : port < b.cpuPort)
    (hmem : port ∈ s.members i) :
    (changeLag b upper false i port s).members =
        Function.update s.members i (s.members i &&& ~~~ bit port) ∧
      (changeLag b upper false i port s).devs =
        if s.members i &&& ~~~ bit port = 0 then Function.update s.devs i none else s.devs := by
  have hself : Function.update s.members i (s.members i &&& ~~~ bit port) i =
      s.members i &&& ~~~ bit port := Function.update_self ..
  rw [changeLag, if_neg (by decide), lagDel_eq hi hport hmem]
  dsimp only
  rw [if_neg (by decide)]
  by_cases hlast : s.members i &&& ~~~ bit port = 0
  · rw [if_pos hlast, if_pos (hself.trans hlast)]
    exact ⟨rfl, rfl⟩
  · rw [if_neg hlast, if_neg fun h => hlast (hself.symm.trans h)]
    exact ⟨rfl, rfl⟩

end

/-! ## The invariant -/

/-- What every state of a clean run has. -/
structure Inv (b : Board) (s : Sys) : Prop extends Lagged b s where
  inside : ∀ i d, s.state.devs i = some d → i < b.nLags
  /-- A free group is empty. -/
  free : ∀ i, s.state.devs i = none → s.state.members i = 0
  port : ∀ p d, s.linked p = some d → p < b.cpuPort

section
variable {b : Board} {s t : Sys} {e : Event}

theorem start_inv (h : Start s) : Inv b s := by
  obtain ⟨hgroups, hlinked, hused, halive⟩ := h
  have hdevs (i d : Nat) : s.state.devs i ≠ some d := by
    rw [(hgroups i).2]
    exact nofun
  have hnone (p d : Nat) : s.linked p ≠ some d := by
    rw [hlinked]
    exact nofun
  have hmem (i p : Nat) : p ∉ s.state.members i := by
    rw [(hgroups i).1]
    exact not_mem_zero
  exact ⟨⟨halive, fun i hi => absurd hi (hused ▸ List.not_mem_nil),
    fun i j d hi _ => absurd hi (hdevs i d), fun i j p hi _ => absurd hi (hmem i p),
    fun i d hi => absurd hi (hdevs i d), fun p d hp => absurd hp (hnone p d)⟩,
    fun i d hi => absurd hi (hdevs i d), fun i _ => (hgroups i).1,
    fun p d hp => absurd hp (hnone p d)⟩

/-- The group of a member belongs to the bond that the member is linked to. -/
theorem Inv.devs_of_mem (h : Inv b s) {i p : Nat} (hmem : p ∈ s.state.members i) :
    ∃ d, s.state.devs i = some d ∧ s.linked p = some d := by
  cases hdev : s.state.devs i with
  | none =>
    rw [h.free i hdev] at hmem
    exact absurd hmem not_mem_zero
  | some d => exact ⟨d, rfl, (h.members i d hdev p).mp hmem⟩

variable {r : State} {i port upper : Nat}

theorem Inv.not_mem (h : Inv b s) (hport : s.linked port = none) (i : Nat) :
    port ∉ s.state.members i := by
  intro hmem
  obtain ⟨d, -, hd⟩ := h.devs_of_mem hmem
  rw [hport] at hd
  cases hd

theorem Inv.link (h : Inv b s) (hi : i < b.nLags) (hport : port < b.cpuPort)
    (hnew : s.linked port = none) (hdev : s.state.devs i = none ∨ s.state.devs i = some upper)
    (hother : ∀ g, s.state.devs g = some upper → g = i)
    (hmembers : r.members = Function.update s.state.members i (s.state.members i ||| bit port))
    (hdevs : r.devs = Function.update s.state.devs i (some upper)) :
    Inv b ⟨r, Function.update s.linked port (some upper), i :: s.used, false⟩ := by
  have hmem (g p : Nat) : p ∈ r.members g ↔ p ∈ s.state.members g ∨ g = i ∧ p = port := by
    rw [hmembers]
    by_cases hg : g = i
    · rw [hg, Function.update_self, bit, mem_put (lt_64_of_lt_cpuPort hport), and_iff_right rfl]
    · rw [Function.update_of_ne hg, or_iff_left fun hall => hg hall.1]
  have hdev' (g d : Nat) :
      r.devs g = some d ↔ g = i ∧ d = upper ∨ g ≠ i ∧ s.state.devs g = some d := by
    rw [hdevs, update_some]
  have hold (p : Nat) : p ∈ s.state.members i ↔ s.linked p = some upper := by
    obtain hfree | hown := hdev
    · rw [h.free i hfree]
      refine ⟨fun hp => absurd hp not_mem_zero, fun hp => ?_⟩
      obtain ⟨g, -, hg⟩ := h.found p upper hp
      rw [hother g hg, hfree] at hg
      cases hg
    · exact h.members i upper hown p
  refine ⟨⟨rfl, fun g hg => ?_, fun g k d hg hk => ?_, fun g k p hg hk => ?_, fun g d hg p => ?_,
    fun p d hp => ?_⟩, fun g d hg => ?_, fun g hg => ?_, fun p d hp => ?_⟩
  · obtain rfl | hused := List.mem_cons.mp hg
    · exact hi
    · exact h.used g hused
  · obtain ⟨rfl, rfl⟩ | ⟨hgi, hg⟩ := (hdev' g d).mp hg
    · obtain ⟨hk, -⟩ | ⟨-, hk⟩ := (hdev' k d).mp hk
      · exact hk.symm
      · exact (hother k hk).symm
    · obtain ⟨-, hd⟩ | ⟨-, hk⟩ := (hdev' k d).mp hk
      · exact absurd (hother g (hd ▸ hg)) hgi
      · exact h.single g k d hg hk
  · obtain hg' | ⟨hgi, rfl⟩ := (hmem g p).mp hg
    · obtain hk' | ⟨-, rfl⟩ := (hmem k p).mp hk
      · exact h.disjoint g k p hg' hk'
      · exact absurd hg' (h.not_mem hnew g)
    · obtain hk' | ⟨hki, -⟩ := (hmem k p).mp hk
      · exact absurd hk' (h.not_mem hnew k)
      · exact hgi.trans hki.symm
  · rw [hmem, update_some]
    obtain ⟨rfl, rfl⟩ | ⟨hgi, hg⟩ := (hdev' g d).mp hg
    · rw [hold]
      have hne : s.linked p = some d → p ≠ port := by
        rintro hp rfl
        rw [hnew] at hp
        cases hp
      tauto
    · have hd : d ≠ upper := fun hd => hgi (hother g (hd ▸ hg))
      have hne : s.linked p = some d → p ≠ port := by
        rintro hp rfl
        rw [hnew] at hp
        cases hp
      rw [h.members g d hg]
      tauto
  · obtain ⟨-, rfl⟩ | ⟨-, hp⟩ := update_some.mp hp
    · exact ⟨i, hi, (hdev' i d).mpr (.inl ⟨rfl, rfl⟩)⟩
    · obtain ⟨g, hg, hd⟩ := h.found p d hp
      refine ⟨g, hg, (hdev' g d).mpr ?_⟩
      by_cases hgi : g = i
      · refine .inl ⟨hgi, ?_⟩
        rw [hgi] at hd
        obtain hfree | hown := hdev
        · rw [hfree] at hd
          cases hd
        · exact Option.some.inj (hd.symm.trans hown)
      · exact .inr ⟨hgi, hd⟩
  · obtain ⟨rfl, -⟩ | ⟨-, hg⟩ := (hdev' g d).mp hg
    · exact hi
    · exact h.inside g d hg
  · rw [hdevs] at hg
    rw [hmembers]
    by_cases hgi : g = i
    · rw [hgi, Function.update_self] at hg
      cases hg
    · rw [Function.update_of_ne hgi] at hg ⊢
      exact h.free g hg
  · obtain ⟨rfl, -⟩ | ⟨-, hp⟩ := update_some.mp hp
    · exact hport
    · exact h.port p d hp

/-- Whatever the group becomes, it belongs to the bond as long as a port is linked to that. -/
theorem Inv.unlink (h : Inv b s) (hown : s.state.devs i = some upper)
    (hmembers : r.members = Function.update s.state.members i (s.state.members i &&& ~~~ bit port))
    (hdevs : r.devs = if s.state.members i &&& ~~~ bit port = 0 then
      Function.update s.state.devs i none else s.state.devs)
    (hlinked : s.linked port = some upper) :
    Inv b ⟨r, Function.update s.linked port none, i :: s.used, false⟩ := by
  have hmem (g p : Nat) : p ∈ r.members g ↔ p ∈ s.state.members g ∧ p ≠ port := by
    rw [hmembers]
    by_cases hg : g = i
    · rw [hg, Function.update_self, bit, mem_drop]
    · rw [Function.update_of_ne hg]
      refine ⟨fun hp => ⟨hp, ?_⟩, fun hp => hp.1⟩
      rintro rfl
      exact hg (h.disjoint g i p hp ((h.members i upper hown p).mpr hlinked))
  have hdev' (g d : Nat) : r.devs g = some d → s.state.devs g = some d := by
    rw [hdevs]
    split
    · exact fun hg => (update_none.mp hg).2
    · exact id
  have hkept (g : Nat) : r.members g ≠ 0 → r.devs g = s.state.devs g := by
    rw [hmembers, hdevs]
    intro hne
    by_cases hg : g = i
    · rw [hg, Function.update_self] at hne
      rw [if_neg hne]
    · split
      · rw [Function.update_of_ne hg]
      · rfl
  refine ⟨⟨rfl, fun g hg => ?_, fun g k d hg hk => h.single g k d (hdev' g d hg) (hdev' k d hk),
    fun g k p hg hk => h.disjoint g k p ((hmem g p).mp hg).1 ((hmem k p).mp hk).1,
    fun g d hg p => ?_, fun p d hp => ?_⟩, fun g d hg => h.inside g d (hdev' g d hg),
    fun g hg => ?_, fun p d hp => h.port p d (update_none.mp hp).2⟩
  · obtain rfl | hused := List.mem_cons.mp hg
    · exact h.inside g upper hown
    · exact h.used g hused
  · rw [hmem, update_none, h.members g d (hdev' g d hg), and_comm]
  · obtain ⟨hne, hp⟩ := update_none.mp hp
    obtain ⟨g, hg, hd⟩ := h.found p d hp
    have hp' : p ∈ r.members g := (hmem g p).mpr ⟨(h.members g d hd p).mpr hp, hne⟩
    refine ⟨g, hg, (hkept g fun hzero => ?_).trans hd⟩
    rw [hzero] at hp'
    exact not_mem_zero hp'
  · by_contra hne
    rw [hkept g hne] at hg
    refine hne (mask_eq_zero_iff.mpr fun p hp => ?_)
    have hold := ((hmem g p).mp hp).1
    rw [h.free g hg] at hold
    exact not_mem_zero hold

theorem step_inv (hi : Inv b s) (hclean : Clean b s e) (hstep : step b s e = some t) :
    Inv b t := by
  obtain ⟨hnull, hfirst, hlinking⟩ := hclean
  rw [step] at hstep
  cases hdp : b.dp e.port with
  | none =>
    rw [hdp] at hstep
    cases hstep
  | some slave =>
    cases slave with
    | none =>
      rw [hdp] at hstep
      cases hstep
    | some ndev =>
      rw [hdp] at hstep
      obtain ⟨⟨⟨hport, hvalid⟩, -⟩, hstep⟩ := Option.ite_none_right_eq_some.mp hstep
      obtain ⟨port, upper, linking⟩ := e
      cases linking with
      | true =>
        obtain ⟨hgroup, hown⟩ := hlinking rfl
        obtain ⟨hlt, hdev, hbefore⟩ := findLag_spec hgroup
        rw [handleChangeupper_eq hdp hnull hport hlt] at hstep
        obtain rfl := Option.some.inj hstep
        obtain ⟨hmembers, hdevs⟩ := changeLag_link hlt hport hown hdev
        refine hi.link hlt hport hvalid hdev (fun g hg => ?_) hmembers hdevs
        exact hi.single _ _ _ hg (devs_findLag_of_own hg (hi.inside g _ hg)
          (hfirst g (hi.inside g _ hg) hg))
      | false =>
        obtain ⟨g, hg, hd⟩ := hi.found port upper hvalid
        have hdev := devs_findLag_of_own hd hg (hfirst g hg hd)
        have hlt := hi.inside _ _ hdev
        rw [handleChangeupper_eq hdp hnull hport hlt] at hstep
        obtain rfl := Option.some.inj hstep
        have hmem : port ∈ s.state.members (findLag b upper s.state) :=
          (hi.members _ upper hdev port).mpr hvalid
        exact hi.unlink hdev (changeLag_unlink hlt hport hmem).1
          (changeLag_unlink hlt hport hmem).2 hvalid

/-- **Link aggregation.** In every state that clean events lead to, the groups are the bonds. -/
theorem lagged_of_clean (h : CleanRun b s) : Lagged b s :=
  (Reaches.invariant (I := Inv b) (fun _ => start_inv)
    (fun _ _ _ hi hc => step_inv hi hc.1 hc.2) h).toLagged

end

/-- An RTL838x with 28 ports. -/
def switch : Board where
  nLags := 8
  cpuPort := 28
  dp := fun j => if j < 28 then some (some j) else none
  nLags_le := by decide
  cpuPort_lt := by decide
  dp_injective := by
    intro i j d hi hj
    obtain ⟨-, hi⟩ := Option.ite_none_right_eq_some.mp hi
    obtain ⟨-, hj⟩ := Option.ite_none_right_eq_some.mp hj
    exact (Option.some.inj (Option.some.inj hi)).trans (Option.some.inj (Option.some.inj hj)).symm

/-- After the probe. -/
def blank : Sys := ⟨⟨fun _ => 0, fun _ => none, fun _ => 0⟩, fun _ => none, [], false⟩

theorem start_blank : Start blank := ⟨fun _ => ⟨rfl, rfl⟩, fun _ => rfl, rfl, rfl⟩

/-- Two bonds, and a port that leaves one of them. -/
def twoBonds : List Event :=
  [⟨8, 40, true⟩, ⟨9, 40, true⟩, ⟨10, 41, true⟩, ⟨8, 40, false⟩]

theorem lagged_twoBonds : ∃ s, CleanRun switch s ∧ s.state.members 0 = bit 9 ∧
    s.state.devs 1 = some 41 ∧ Lagged switch s := by
  have hrun : (twoBonds.foldlM (fun s e => if Clean switch s e then step switch s e else none)
      blank).any (fun s => decide (s.state.members 0 = bit 9) &&
        decide (s.state.devs 1 = some 41)) = true := by
    decide
  obtain ⟨s, hs, hall⟩ := Reaches.exists_run start_blank hrun
  have hclean : CleanRun switch s :=
    hs.mono fun s e t hc => Option.ite_none_right_eq_some.mp hc
  simp only [Bool.and_eq_true, decide_eq_true_eq] at hall
  exact ⟨s, hclean, hall.1, hall.2, lagged_of_clean hclean⟩

/-- Port 0 gets into group 0, so port 1 does not. -/
theorem not_lagged : ∃ s, Reachable switch s ∧ s.linked 1 = some 40 ∧ ¬ Lagged switch s := by
  have hrun : ([⟨0, 40, true⟩, ⟨1, 40, true⟩].foldlM (step switch) blank).any (fun s =>
      decide (s.linked 1 = some 40) && (decide (s.state.devs 0 = some 40) &&
        decide (1 ∉ s.state.members 0))) = true := by
    decide
  obtain ⟨s, hs, hall⟩ := Reaches.exists_run start_blank hrun
  simp only [Bool.and_eq_true, decide_eq_true_eq] at hall
  obtain ⟨hlinked, hdev, hmem⟩ := hall
  exact ⟨s, hs, hlinked, fun h => hmem ((h.members 0 40 hdev 1).mpr hlinked)⟩

end UolaOs.Rtl83xx.Lag
