import UolaOs.Ip17xx.State

/-!
# The registers follow the state

* `updateState_spec`: what `ip175c_update_state` leaves in the registers;
* `follows_of_clean`: in every run of clean calls, the registers follow the state.
-/

namespace UolaOs.Ip17xx

/-! ## Bits of a register -/

section
variable {l : List (Option Nat)} {bits : BitVec 32} {val : BitVec 16} {i k n : Nat}

/-- A round of `SET_PORT_BITS`. -/
theorem mem_setBit {p : Prop} [Decidable p] {h : Nat} (hk : k < 16) :
    k ∈ (val &&& ~~~ BitVec.twoPow 16 h) ||| (if p then BitVec.twoPow 16 h else 0) ↔
      if k = h then p else k ∈ val := by
  rw [mem_or, mem_drop]
  by_cases hp : p
  · rw [if_pos hp, mem_twoPow]
    by_cases heq : k = h
    · rw [if_pos heq]
      exact iff_of_true (.inr ⟨heq, heq ▸ hk⟩) hp
    · rw [if_neg heq, or_iff_left fun hall => heq hall.1, and_iff_left heq]
  · rw [if_neg hp, or_iff_left not_mem_zero]
    by_cases heq : k = h
    · rw [if_pos heq]
      exact iff_of_false (fun hall => hall.2 heq) hp
    · rw [if_neg heq, and_iff_left heq]

/-- The first rounds of `SET_PORT_BITS`. -/
def portBitsLoop (bits : BitVec 32) (l : List (Option Nat)) (n : Nat) (val : BitVec 16) :
    BitVec 16 :=
  (List.range n).foldl (fun val i =>
    match l[i]?.join with
    | none => val
    | some k => (val &&& ~~~ BitVec.twoPow 16 k) |||
        (if i ∈ bits then BitVec.twoPow 16 k else 0)) val

theorem portBitsLoop_none (h : l[n]?.join = none) :
    portBitsLoop bits l (n + 1) val = portBitsLoop bits l n val := by
  rw [portBitsLoop, List.range_succ, List.foldl_append, List.foldl_cons, List.foldl_nil, h]
  rfl

theorem portBitsLoop_some {h : Nat} (hl : l[n]?.join = some h) :
    portBitsLoop bits l (n + 1) val = (portBitsLoop bits l n val &&& ~~~ BitVec.twoPow 16 h) |||
      (if n ∈ bits then BitVec.twoPow 16 h else 0) := by
  rw [portBitsLoop, List.range_succ, List.foldl_append, List.foldl_cons, List.foldl_nil, hl]
  rfl

theorem mem_portBits_other (hk : k < 16) (hl : ∀ i < maxPorts, l[i]?.join ≠ some k) :
    k ∈ portBits bits l val ↔ k ∈ val := by
  have hloop (n : Nat) (hn : n ≤ maxPorts) : k ∈ portBitsLoop bits l n val ↔ k ∈ val := by
    induction n with
    | zero => exact Iff.rfl
    | succ n ih =>
      cases hbit : l[n]?.join with
      | none =>
        rw [portBitsLoop_none hbit]
        exact ih (by omega)
      | some h =>
        have hne : k ≠ h := fun heq => hl n hn (heq ▸ hbit)
        rw [portBitsLoop_some hbit, mem_setBit hk, if_neg hne]
        exact ih (by omega)
  exact hloop maxPorts (Nat.le_refl _)

theorem mem_portBits (hd : Distinct l) (hi : i < maxPorts) (hl : l[i]?.join = some k)
    (hk : k < 16) : k ∈ portBits bits l val ↔ i ∈ bits := by
  have hloop (n : Nat) (hin : i < n) (hn : n ≤ maxPorts) :
      k ∈ portBitsLoop bits l n val ↔ i ∈ bits := by
    induction n with
    | zero => omega
    | succ n ih =>
      obtain rfl | hlt := Nat.eq_or_lt_of_le (Nat.lt_succ_iff.mp hin)
      · rw [portBitsLoop_some hl, mem_setBit hk, if_pos rfl]
      · cases hbit : l[n]?.join with
        | none =>
          rw [portBitsLoop_none hbit]
          exact ih hlt (by omega)
        | some h =>
          have hne : k ≠ h := by
            rintro rfl
            have heq := hd i hi n hn (hl.trans hbit.symm) (by rw [hl]; exact Option.some_ne_none k)
            omega
          rw [portBitsLoop_some hbit, mem_setBit hk, if_neg hne]
          exact ih hlt (by omega)
  exact hloop maxPorts hi (Nat.le_refl _)

end

/-! ## Loops over registers -/

section
variable {m : Mappings} {regs : Regs} {r : Reg} {bits : BitVec 32} {l : List (Option Nat)}

theorem setPhy_self {v : BitVec 16} : setPhy r v regs r = v := Function.update_self ..

theorem setPhy_of_ne {v : BitVec 16} {r' : Reg} (h : r' ≠ r) : setPhy r v regs r' = regs r' :=
  Function.update_of_ne h ..

theorem foldl_frame {f : Regs → Nat → Regs} {n : Nat} (h : ∀ i < n, ∀ regs, f regs i r = regs r) :
    (List.range n).foldl f regs r = regs r := by
  induction n with
  | zero => rfl
  | succ n ih =>
    rw [List.range_succ, List.foldl_append, List.foldl_cons, List.foldl_nil,
      h n (Nat.lt_succ_self n)]
    exact ih fun i hi => h i (Nat.lt_succ_of_lt hi)

/-- The loop over the sharing masks. -/
def lookupLoop (m : Mappings) (share : Nat → BitVec 32) (n : Nat) (regs : Regs) : Regs :=
  (List.range n).foldl (fun regs j =>
    match lookupReg m j with
    | none => regs
    | some r => setPortBits (share j) r (lookupBits m j) regs) regs

theorem lookupLoop_shared (hm : Facts m) {share : Nat → BitVec 32} {n j i : Nat}
    (hn : n ≤ m.numPorts) (hj : j < n) (hi : i < m.numPorts) :
    Shared m (lookupLoop m share n regs) j i ↔ i ∈ share j := by
  obtain ⟨r, hr⟩ := Option.isSome_iff_exists.mp (hm.lookupReg_some j (by omega))
  obtain ⟨k, hbit, hk⟩ := (Option.any_eq_true _ _).mp (hm.lookupBits_some j (by omega) i hi)
  have hk : k < 16 := of_decide_eq_true hk
  have hi9 : i < maxPorts := Nat.lt_of_lt_of_le hi hm.numPorts_le
  have hshared (regs : Regs) : Shared m regs j i ↔ k ∈ regs r := by
    refine ⟨?_, fun h => ⟨r, k, hr, hbit, h⟩⟩
    rintro ⟨r', k', hr', hbit', h⟩
    obtain rfl := Option.some.inj (hr.symm.trans hr')
    obtain rfl := Option.some.inj (hbit.symm.trans hbit')
    exact h
  rw [hshared]
  induction n with
  | zero => omega
  | succ n ih =>
    rw [lookupLoop, List.range_succ, List.foldl_append, List.foldl_cons, List.foldl_nil,
      ← lookupLoop]
    obtain rfl | hlt := Nat.eq_or_lt_of_le (Nat.lt_succ_iff.mp hj)
    · rw [hr]
      dsimp only
      rw [setPortBits, setPhy_self]
      exact mem_portBits (hm.lookupBits_distinct j (by omega)) hi9 hbit hk
    · obtain ⟨r', hr'⟩ := Option.isSome_iff_exists.mp (hm.lookupReg_some n (by omega))
      rw [hr']
      dsimp only
      rw [setPortBits]
      by_cases heq : r = r'
      · rw [← heq, setPhy_self, mem_portBits_other hk]
        · exact ih (by omega) hlt
        · intro h hh hbit'
          have hnone := hm.lookupBits_apart j (by omega) n (by omega) (by rw [hr, hr', heq])
            (by omega) i hi9 h hh (hbit.trans hbit'.symm)
          rw [hbit] at hnone
          cases hnone
      · rw [setPhy_of_ne heq]
        exact ih (by omega) hlt

/-! ## `ip175c_set_state` -/

section
variable {s : State}

theorem setPortBits_of_ne {r' : Reg} (h : r' ≠ r) : setPortBits bits r l regs r' = regs r' :=
  setPhy_of_ne h

/-- The loop over the ports of the VLANs. -/
def maskLoop (m : Mappings) (s : State) (regs : Regs) : Regs :=
  (List.range maxVlans).foldl (fun regs j =>
    setPortBits (s.vlans j) (maskReg m j) (maskBits m j) regs) regs

/-- The loop over the default tags. -/
def tagLoop (m : Mappings) (s : State) (regs : Regs) : Regs :=
  (List.range maxPorts).foldl (fun regs i =>
    match m.vlanDefaultTagReg[i]?.join with
    | none => regs
    | some r => setPhy r (s.pvid i) regs) regs

theorem setState_regs : (setState m s).regs =
    setFlags m s (tagLoop m s (maskLoop m s (lookupLoop m s.shareports m.numPorts
      (setPortBits s.removeTag m.removeTagReg m.removeTagBit
        (setPortBits s.addTag m.addTagReg m.addTagBit s.regs))))) := rfl

theorem maskLoop_frame (h : ∀ j < maxVlans, maskReg m j ≠ r) : maskLoop m s regs r = regs r :=
  foldl_frame fun j hj _ => setPortBits_of_ne (h j hj).symm

theorem tagLoop_frame (h : ∀ i < maxPorts, m.vlanDefaultTagReg[i]?.join ≠ some r) :
    tagLoop m s regs r = regs r := by
  refine foldl_frame fun i hi regs => ?_
  cases hreg : m.vlanDefaultTagReg[i]?.join with
  | none => rfl
  | some r' => exact setPhy_of_ne fun heq => h i hi (heq ▸ hreg)

theorem lookupLoop_frame {share : Nat → BitVec 32} {n : Nat}
    (h : ∀ j < n, lookupReg m j ≠ some r) : lookupLoop m share n regs r = regs r := by
  refine foldl_frame fun j hj regs => ?_
  cases hreg : lookupReg m j with
  | none => rfl
  | some r' => exact setPortBits_of_ne fun heq => h j hj (heq ▸ hreg)

theorem setState_control (hm : Facts m) :
    (setState m s).regs m.routerControlReg = flags m s (s.regs m.routerControlReg) := by
  rw [setState_regs, setFlags, setPhy_self, tagLoop_frame hm.tagReg_ne, maskLoop_frame hm.maskReg_ne,
    lookupLoop_frame hm.lookupReg_ne, setPortBits_of_ne hm.removeTagReg_ne.symm,
    setPortBits_of_ne hm.addTagReg_ne.symm]

/-- What comes after the sharing masks keeps them. -/
theorem setFlags_frame (hm : Facts m) {j : Nat} (hj : j < m.numPorts) (hr : lookupReg m j = some r) :
    setFlags m s (tagLoop m s (maskLoop m s regs)) r = regs r := by
  have hcontrol : r ≠ m.routerControlReg := by
    rintro rfl
    exact hm.lookupReg_ne j hj hr
  have htag (i : Nat) (hi : i < maxPorts) : m.vlanDefaultTagReg[i]?.join ≠ some r := fun heq =>
    hm.lookupReg_ne_tag j hj i hi (hr.trans heq.symm)
  have hmask (i : Nat) (hi : i < maxVlans) : maskReg m i ≠ r := by
    rintro rfl
    exact hm.lookupReg_ne_mask j hj i hi hr
  rw [setFlags, setPhy_of_ne hcontrol, tagLoop_frame htag, maskLoop_frame hmask]

theorem setState_shared (hm : Facts m) {j i : Nat} (hj : j < m.numPorts) (hi : i < m.numPorts) :
    Shared m (setState m s).regs j i ↔ i ∈ s.shareports j := by
  rw [setState_regs]
  generalize setPortBits s.removeTag _ _ _ = regs
  rw [← lookupLoop_shared hm (Nat.le_refl _) hj hi]
  constructor
  · rintro ⟨r, k, hr, hbit, hk⟩
    rw [setFlags_frame hm hj hr] at hk
    exact ⟨r, k, hr, hbit, hk⟩
  · rintro ⟨r, k, hr, hbit, hk⟩
    refine ⟨r, k, hr, hbit, ?_⟩
    rw [setFlags_frame hm hj hr]
    exact hk

end

end

/-! ## Derived fields -/

section
variable {m : Mappings} {s : State}

theorem countVlans_le {vlans : Nat → BitVec 32} {n : Nat} :
    countVlans vlans ≤ n ↔ ∀ v < maxVlans, n ≤ v → vlans v = 0 := by
  have hloop (k : Nat) : (List.range k).foldl (fun n i => if vlans i ≠ 0 then i + 1 else n) 0 ≤ n ↔
      ∀ v < k, n ≤ v → vlans v = 0 := by
    induction k with
    | zero => exact iff_of_true (Nat.zero_le n) fun v hv => absurd hv (Nat.not_lt_zero v)
    | succ k ih =>
      rw [List.range_succ, List.foldl_append, List.foldl_cons, List.foldl_nil]
      by_cases hk : vlans k = 0
      · rw [if_neg (not_not.mpr hk), ih]
        refine ⟨fun h v hv hnv => ?_, fun h v hv => h v (Nat.lt_succ_of_lt hv)⟩
        obtain rfl | hlt := Nat.eq_or_lt_of_le (Nat.lt_succ_iff.mp hv)
        · exact hk
        · exact h v hlt hnv
      · rw [if_pos hk]
        refine ⟨fun h v hv hnv => by omega, fun h => ?_⟩
        by_contra hlt
        exact hk (h k (Nat.lt_succ_self k) (by omega))
  exact hloop maxVlans

theorem mem_sharePorts {j i : Nat} (hm : Facts m) (hj : j < m.numPorts) (hi : i < m.numPorts) :
    i ∈ sharePorts m s j ↔ Shares s j i := by
  have hle : m.numPorts ≤ 9 := hm.numPorts_le
  rw [sharePorts, Shares]
  by_cases hoff : s.vlanEnabled = 0
  · rw [if_pos hoff]
    exact iff_of_true (mem_ones.mpr ⟨by omega, hi⟩) (.inl hoff)
  · rw [if_neg hoff, or_iff_right hoff]
    have hloop (n : Nat) : i ∈ (List.range n).foldl (fun ports v =>
        if s.vlans v &&& bit j ≠ 0 then ports ||| s.vlans v else ports) (bit j) ↔
        i = j ∨ ∃ v < n, j ∈ s.vlans v ∧ i ∈ s.vlans v := by
      induction n with
      | zero =>
        rw [List.range_zero, List.foldl_nil, bit, mem_twoPow, and_iff_left (by omega)]
        exact ⟨.inl, fun h => h.resolve_right fun ⟨v, hv, _⟩ => Nat.not_lt_zero v hv⟩
      | succ n ih =>
        rw [List.range_succ, List.foldl_append, List.foldl_cons, List.foldl_nil]
        have hsplit : (∃ v < n + 1, j ∈ s.vlans v ∧ i ∈ s.vlans v) ↔
            (∃ v < n, j ∈ s.vlans v ∧ i ∈ s.vlans v) ∨ (j ∈ s.vlans n ∧ i ∈ s.vlans n) := by
          rw [← Nat.exists_lt_succ_right]
        rw [hsplit, ← or_assoc, ← ih]
        have htest : s.vlans n &&& bit j ≠ 0 ↔ j ∈ s.vlans n := and_twoPow_ne_zero
        by_cases hmem : j ∈ s.vlans n
        · rw [if_pos (htest.mpr hmem), mem_or, and_iff_right hmem]
        · rw [if_neg (mt htest.mp hmem)]
          exact (or_iff_left fun h => hmem h.1).symm
    exact hloop maxVlans

end

/-! ## The control register -/

section
variable {m : Mappings} {s : State} {val : BitVec 16}

/-- A flag is put in or taken out. -/
theorem mem_setFlag {p : Prop} [Decidable p] {k h : Nat} (hh : h < 16) :
    k ∈ (if p then val ||| BitVec.twoPow 16 h else val &&& ~~~ BitVec.twoPow 16 h) ↔
      if k = h then p else k ∈ val := by
  by_cases hp : p
  · rw [if_pos hp, mem_put hh]
    split
    · next heq => exact iff_of_true (.inr heq) hp
    · next hne => exact or_iff_left hne
  · rw [if_neg hp, mem_drop]
    split
    · next heq => exact iff_of_false (fun h => h.2 heq) hp
    · next hne => exact and_iff_left hne

/-- A number below 8 in the group field. -/
theorem mem_field {g b k : Nat} (hg : g < 8) (hb : b + 3 ≤ 16) :
    k ∈ BitVec.ofNat 16 g <<< b ↔ (b ≤ k ∧ k < b + 3) ∧ g.testBit (k - b) = true := by
  rw [mem_shiftLeft, mem_ofNat]
  constructor
  · rintro ⟨hle, -, -, hbit⟩
    have hlt : k - b < 3 := by
      by_contra hge
      rw [Nat.testBit_lt_two_pow (Nat.lt_of_lt_of_le hg
        (Nat.pow_le_pow_right (n := 2) (by decide) (Nat.not_lt.mp hge)))] at hbit
      cases hbit
    exact ⟨⟨hle, by omega⟩, hbit⟩
  · rintro ⟨⟨hle, hlt⟩, hbit⟩
    exact ⟨hle, by omega, by omega, hbit⟩

theorem mem_flags (hm : Facts m) (hn : s.numVlans ≤ 8) {k : Nat} :
    k ∈ flags m s val ↔
      if m.numlanGroupsBit ≤ k ∧ k < m.numlanGroupsBit + 3 then
        1 ≤ s.numVlans ∧ (s.numVlans - 1).testBit (k - m.numlanGroupsBit) = true
      else if k = m.tagVlanBit then s.vlanEnabled ≠ 0
      else if k = m.routerEnBit then s.routerMode ≠ 0
      else k ∈ val := by
  have hb := hm.numlanGroupsBit_le
  rw [flags, hm.numlanGroupsMax_eq, if_neg (Nat.not_lt.mpr hn)]
  generalize hflagged : (if s.vlanEnabled ≠ 0 then _ else _ : BitVec 16) = flagged
  have hcleared : k ∈ flagged &&& ~~~ (BitVec.ofNat 16 (8 - 1) <<< m.numlanGroupsBit) ↔
      k ∈ flagged ∧ ¬ (m.numlanGroupsBit ≤ k ∧ k < m.numlanGroupsBit + 3) := by
    rw [mem_and_not, mem_field (by decide) hb]
    refine and_congr_right fun _ => not_congr (and_iff_left_of_imp fun h => ?_)
    have hall : ∀ t < 3, (8 - 1).testBit t = true := by decide
    exact hall _ (by omega)
  by_cases hfield : m.numlanGroupsBit ≤ k ∧ k < m.numlanGroupsBit + 3
  · rw [if_pos hfield]
    by_cases hone : 1 ≤ s.numVlans
    · rw [if_pos hone, mem_or, hcleared, mem_field (by omega) hb, and_iff_right hfield,
        and_iff_right hone]
      exact or_iff_right fun h => h.2 hfield
    · rw [if_neg hone, hcleared]
      exact iff_of_false (fun h => h.2 hfield) fun h => hone h.1
  · rw [if_neg hfield]
    have hflags : k ∈ flagged ↔ if k = m.tagVlanBit then s.vlanEnabled ≠ 0
        else if k = m.routerEnBit then s.routerMode ≠ 0 else k ∈ val := by
      rw [← hflagged, mem_setFlag hm.tagVlanBit_lt, mem_setFlag hm.routerEnBit_lt]
    rw [← hflags]
    by_cases hone : 1 ≤ s.numVlans
    · rw [if_pos hone, mem_or, hcleared, mem_field (by omega) hb, and_iff_left hfield]
      exact or_iff_left fun h => hfield h.1
    · rw [if_neg hone, hcleared, and_iff_left hfield]

theorem groupField_flags (hm : Facts m) (hn : s.numVlans ≤ 8) (hone : 1 ≤ s.numVlans) :
    groupField m (flags m s val) = min s.numVlans 8 - 1 := by
  rw [Nat.min_eq_left hn, groupField]
  refine Nat.eq_of_testBit_eq fun t => ?_
  have hmod := Nat.testBit_mod_two_pow ((flags m s val).toNat / 2 ^ m.numlanGroupsBit) 3 t
  have hdiv := Nat.testBit_div_two_pow (n := m.numlanGroupsBit) (flags m s val).toNat t
  rw [show (2 : Nat) ^ 3 = 8 from rfl] at hmod
  rw [hmod, hdiv, Bool.eq_iff_iff, Bool.and_eq_true, decide_eq_true_eq]
  change t < 3 ∧ t + m.numlanGroupsBit ∈ flags m s val ↔ _
  constructor
  · rintro ⟨ht, hmem⟩
    rw [mem_flags hm hn, if_pos ⟨by omega, by omega⟩, Nat.add_sub_cancel] at hmem
    exact hmem.2
  · intro hbit
    have ht : t < 3 := by
      by_contra hge
      rw [Nat.testBit_lt_two_pow (Nat.lt_of_lt_of_le (show s.numVlans - 1 < 2 ^ 3 by omega)
        (Nat.pow_le_pow_right (n := 2) (by decide) (Nat.not_lt.mp hge)))] at hbit
      cases hbit
    refine ⟨ht, ?_⟩
    rw [mem_flags hm hn, if_pos ⟨by omega, by omega⟩, Nat.add_sub_cancel]
    exact ⟨hone, hbit⟩

/-- **An update makes the registers follow the state.** -/
theorem updateState_follows (hm : Facts m) (htags : ∀ i, ¬ (i ∈ s.addTag ∧ i ∈ s.removeTag))
    (hhigh : ∀ v < maxVlans, 8 ≤ v → s.vlans v = 0) :
    Follows m (updateState m s) (s.regs m.routerControlReg) := by
  have hn : (correctVlanState m s).numVlans ≤ 8 := countVlans_le.mpr hhigh
  have hcontrol : (updateState m s).regs m.routerControlReg =
      flags m (correctVlanState m s) (s.regs m.routerControlReg) := setState_control hm
  refine ⟨htags, ?_, fun n => countVlans_le, ?_, ?_, ?_, ?_⟩
  · intro j hj i hi
    rw [updateState, setState_shared hm hj hi, correctVlanState]
    dsimp only
    rw [if_pos hj]
    exact mem_sharePorts hm hj hi
  · rw [hcontrol, mem_flags hm hn, if_neg hm.routerEnBit_apart, if_neg hm.routerEnBit_ne,
      if_pos rfl]
    exact Iff.rfl
  · rw [hcontrol, mem_flags hm hn, if_neg hm.tagVlanBit_apart, if_pos rfl]
    exact Iff.rfl
  · intro hone
    rw [hcontrol]
    exact groupField_flags hm hn hone
  · intro i hrouter htag hfield
    rw [hcontrol, mem_flags hm hn, if_neg hfield, if_neg htag, if_neg hrouter]

end

/-! ## Calls -/

/-- What clean calls keep: the registers follow the state, and VLANs above 7 have no ports. -/
structure Inv (m : Mappings) (s : State) (before : BitVec 16) : Prop where
  follows : Follows m s before
  high : ∀ v < maxVlans, 8 ≤ v → s.vlans v = 0

section
variable {c : Chip} {m : Mappings} {s t : State} {before : BitVec 16}

/-- An update of a state with the registers of the old one. -/
theorem Inv.update (hm : Facts m) (htags : ∀ i, ¬ (i ∈ t.addTag ∧ i ∈ t.removeTag))
    (hhigh : ∀ v < maxVlans, 8 ≤ v → t.vlans v = 0) :
    Inv m (updateState m t) (t.regs m.routerControlReg) :=
  ⟨updateState_follows hm htags hhigh, hhigh⟩

/-- A call that does nothing. -/
theorem Inv.idle (h : Inv m s before) : Inv m s (s.regs m.routerControlReg) :=
  ⟨{ h.follows with others := fun _ _ _ _ => Iff.rfl }, h.high⟩

theorem Inv.resetVlanConfig (hm : Facts m) :
    Inv m (updateState m (resetVlanConfig m t)) (t.regs m.routerControlReg) := by
  refine Inv.update (t := Ip17xx.resetVlanConfig m t) hm (fun i h => not_mem_zero h.1) ?_
  intro v hv _
  exact if_pos hv

/-- A port that is tagged is not untagged, and the other way. -/
theorem addPort_tags {v : Nat} {p : SwitchPort} (h : ∀ i, ¬ (i ∈ s.addTag ∧ i ∈ s.removeTag))
    (i : Nat) : ¬ (i ∈ (addPort v s p).addTag ∧ i ∈ (addPort v s p).removeTag) := by
  rw [addPort]
  dsimp only
  by_cases ht : p.tagged = true
  · rw [if_pos ht, if_pos ht, bit, mem_or, mem_twoPow, mem_drop]
    rintro ⟨hadd | hadd, hrem⟩
    · exact h i ⟨hadd, hrem.1⟩
    · exact hrem.2 hadd.1
  · rw [if_neg ht, if_neg ht, bit, mem_or, mem_twoPow, mem_drop]
    rintro ⟨hadd, hrem | hrem⟩
    · exact h i ⟨hadd.1, hrem⟩
    · exact hadd.2 hrem.1

/-- What the loop of `ip17xx_set_ports` keeps. -/
theorem addPorts_spec {v : Nat} (ports : List SwitchPort) (s : State) :
    ((∀ i, ¬ (i ∈ s.addTag ∧ i ∈ s.removeTag)) → ∀ i,
      ¬ (i ∈ (ports.foldl (addPort v) s).addTag ∧ i ∈ (ports.foldl (addPort v) s).removeTag)) ∧
    (∀ w, w ≠ v → (ports.foldl (addPort v) s).vlans w = s.vlans w) ∧
    (ports.foldl (addPort v) s).regs = s.regs := by
  induction ports generalizing s with
  | nil => exact ⟨id, fun _ _ => rfl, rfl⟩
  | cons p ports ih =>
    obtain ⟨htags, hvlans, hregs⟩ := ih (addPort v s p)
    refine ⟨fun h => htags (addPort_tags h), fun w hw => ?_, hregs⟩
    rw [List.foldl_cons, hvlans w hw]
    exact Function.update_of_ne hw ..

theorem Inv.setPorts (hm : Facts m) (h : Inv m s before) {v : Nat} {ports : List SwitchPort}
    (hclean : v < 8 ∨ maxVlans ≤ v ∨ ports = []) :
    Inv m (setPorts m v ports s) (s.regs m.routerControlReg) := by
  rw [Ip17xx.setPorts]
  split
  · exact h.idle
  · next hv =>
    obtain ⟨htags, hvlans, hregs⟩ :=
      addPorts_spec (v := v) ports { s with vlans := Function.update s.vlans v 0 }
    have hupdate := Inv.update hm (htags h.follows.tags) fun w hw hge => by
      by_cases hwv : w = v
      · obtain rfl : ports = [] := (hclean.resolve_left (by omega)).resolve_left (by omega)
        rw [hwv]
        exact Function.update_self ..
      · rw [hvlans w hwv]
        exact (Function.update_of_ne hwv ..).trans (h.high w hw hge)
    rw [hregs] at hupdate
    exact hupdate

theorem Inv.setTagged (hm : Facts m) (h : Inv m s before) (port : Nat) (i : Int) :
    Inv m (setTagged m port i s) (s.regs m.routerControlReg) := by
  refine Inv.update hm (fun k => ?_) h.high
  dsimp only
  have hk := h.follows.tags k
  by_cases h0 : i = 0
  · rw [if_pos h0, if_neg (by omega), bit, mem_drop, mem_or, mem_drop, mem_twoPow]
    rintro ⟨hadd, hrem | hrem⟩
    · exact hk ⟨hadd.1, hrem.1⟩
    · exact hadd.2 hrem.1
  · rw [if_neg h0]
    split
    · rw [bit, mem_or, mem_drop, mem_drop, mem_twoPow]
      rintro ⟨hadd | hadd, hrem⟩
      · exact hk ⟨hadd.1, hrem.1⟩
      · exact hrem.2 hadd.1
    · rw [bit, mem_drop, mem_drop]
      rintro ⟨hadd, hrem⟩
      exact hk ⟨hadd.1, hrem.1⟩

/-- A clean call keeps the invariant. -/
theorem Inv.step (hm : Facts c.regs) (h : Inv c.regs s before) {call : Call} (hclean : Clean call) :
    Inv c.regs (call.result c s) (call.regsBefore c s c.regs.routerControlReg) := by
  cases call with
  | reset chip => exact Inv.resetVlanConfig hm
  | setEnableVlan enable =>
    rw [Call.result, setEnableVlan]
    split
    · exact h.idle
    · exact Inv.resetVlanConfig (t := { s with vlanEnabled := enable }) hm
  | setPorts v ports => exact h.setPorts hm hclean
  | setTagged port i => exact h.setTagged hm port i
  | setPvid port val =>
    rw [Call.result, setPvid]
    split
    · exact h.idle
    · exact Inv.update (t := { s with pvid := _ }) hm h.follows.tags h.high

theorem inv_of_clean {s : Sys} (h : CleanRun c s) :
    Inv c.regs s.state s.before := by
  refine h.invariant (I := fun s => Inv c.regs s.state s.before) ?_ ?_
  · rintro s ⟨u, chip, rfl⟩
    exact Inv.resetVlanConfig (facts c)
  · rintro s call t hs ⟨⟨-, hclean⟩, rfl⟩
    exact hs.step (facts c) hclean

/-- **The registers follow the state** as long as no VLAN above 7 gets ports. -/
theorem follows_of_clean {s : Sys} (h : CleanRun c s) : Follows c.regs s.state s.before :=
  (inv_of_clean h).follows

end

/-- The state before the driver is there. -/
def blank : Sys :=
  ⟨{ routerMode := 0, vlanEnabled := 0, pvid := fun _ => 0, shareports := fun _ => 0, addTag := 0,
     removeTag := 0, numVlans := 0, vlans := fun _ => 0, regs := fun _ => 0 }, 0⟩

/-- After the reset, VLANs are turned on, and a VLAN gets two ports. -/
def configured (c : Chip) (v : Nat) : Sys :=
  [Call.setEnableVlan 1, Call.setPorts v [⟨0, false⟩, ⟨4, true⟩]].foldl (step c)
    (step c blank (.reset id))

/-- Ports 0 and 4 share the VLAN 7. -/
theorem configured_follows : CleanRun .ip175c (configured .ip175c 7) ∧
    Follows ip175c (configured .ip175c 7).state (configured .ip175c 7).before := by
  have hrun : CleanRun .ip175c (configured .ip175c 7) :=
    .next (i := .setPorts 7 [⟨0, false⟩, ⟨4, true⟩])
      (.next (i := .setEnableVlan 1) (.start ⟨blank, id, rfl⟩) ⟨⟨trivial, trivial⟩, rfl⟩)
      ⟨⟨by unfold Call.Valid; decide, .inl (by decide)⟩, rfl⟩
  exact ⟨hrun, follows_of_clean hrun⟩

/-- The ninth VLAN turns the router on, as the group field gets 8. -/
theorem not_follows : ¬ ∀ (c : Chip) (s : Sys), Reachable c s →
    Follows c.regs s.state s.before := by
  intro h
  have hrun : Reachable .ip178c (configured .ip178c 8) :=
    .next (i := .setPorts 8 [⟨0, false⟩, ⟨4, true⟩])
      (.next (i := .setEnableVlan 1) (.start ⟨blank, id, rfl⟩) ⟨trivial, rfl⟩)
      ⟨by unfold Call.Valid; decide, rfl⟩
  have hrouter := (h _ _ hrun).router
  have hset : ip178c.routerEnBit ∈ (configured .ip178c 8).state.regs ip178c.routerControlReg := by
    decide
  exact hrouter.mp hset rfl

end UolaOs.Ip17xx
