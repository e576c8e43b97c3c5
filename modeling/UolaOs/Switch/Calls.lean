import UolaOs.Switch.Rtl8366

/-!
# What the VLAN functions do

* `setVlan_cases`: `rtl8366_set_vlan` refuses, or stores in both tables;
* `setPvid_cases`: `rtl8366_set_pvid` selects the entry that has the VID, an empty one, an
  unused one, or finds none.
-/

namespace UolaOs.Switch

section
variable {c : Chip}

/-- An entry that `set_vlan_mc` takes. -/
structure FitsMc (c : Chip) (mc : VlanMc) : Prop where
  vid : mc.vid.toNat < 4096
  priority : mc.priority ≤ 7
  member : mc.member ≤ c.memberMask
  untag : mc.untag ≤ c.untagMask
  fid : mc.fid ≤ 7

theorem and_le (x mask : UInt16) : x &&& mask ≤ mask := by
  rw [UInt16.le_iff_toNat_le, UInt16.toNat_and]
  exact Nat.and_le_right

theorem and_le8 (x mask : UInt8) : x &&& mask ≤ mask := by
  rw [UInt8.le_iff_toNat_le, UInt8.toNat_and]
  exact Nat.and_le_right

theorem and_seven {x : UInt8} (h : x ≤ 7) : x &&& 7 = x := by
  apply UInt8.toNat_inj.mp
  have hx : x.toNat < 2 ^ 3 := Nat.lt_succ_of_le (UInt8.le_iff_toNat_le.mp h)
  rw [UInt8.toNat_and]
  exact Nat.and_two_pow_sub_one_of_lt_two_pow hx

theorem fits_maskMc (mc : VlanMc) : FitsMc c (maskMc c mc) where
  vid := by
    have := UInt16.le_iff_toNat_le.mp (and_le mc.vid 0xfff)
    exact Nat.lt_succ_of_le this
  priority := and_le8 _ _
  member := and_le _ _
  untag := and_le _ _
  fid := and_le8 _ _

theorem maskMc_of_fits {mc : VlanMc} (h : FitsMc c mc) : maskMc c mc = mc := by
  have hvid : mc.vid &&& 0xfff = mc.vid :=
    and_mask 12 rfl _ (UInt16.le_iff_toNat_le.mpr (Nat.le_of_lt_succ h.vid))
  rw [maskMc, hvid, and_seven h.priority, and_seven h.fid, c.member_mask _ h.member,
    c.untag_mask _ h.untag]

/-! ## Registers -/

section
variable {s t : Smi c}

theorem fits_getVlanMc (i : Fin c.numVlanMc) : FitsMc c (s.getVlanMc i) := fits_maskMc _

/-- An entry was written, and nothing else. -/
structure Wrote (s t : Smi c) (i : Fin c.numVlanMc) (mc : VlanMc) : Prop where
  self : t.getVlanMc i = mc
  other : ∀ j ≠ i, t.getVlanMc j = s.getVlanMc j
  vlan4k : t.vlan4k = s.vlan4k
  mcIndex : t.mcIndex = s.mcIndex

theorem setVlanMc_fits {i : Fin c.numVlanMc} {mc : VlanMc} (h : FitsMc c mc) :
    ∃ t, s.setVlanMc i mc = (0, t) ∧ Wrote s t i mc := by
  have hok : ¬ (4096 ≤ mc.vid.toNat ∨ 7 < mc.priority ∨ c.memberMask < mc.member ∨
      c.untagMask < mc.untag ∨ 7 < mc.fid) := by
    rintro (hv | hp | hm | hu | hf)
    · exact absurd h.vid (Nat.not_lt_of_le hv)
    · exact UInt8.not_lt.mpr h.priority hp
    · exact UInt16.not_lt.mpr h.member hm
    · exact UInt16.not_lt.mpr h.untag hu
    · exact UInt8.not_lt.mpr h.fid hf
  refine ⟨_, if_neg hok, ?_, ?_, rfl, rfl⟩
  · simp only [Smi.getVlanMc, Function.update_self, maskMc_of_fits h]
  · intro j hj
    simp only [Smi.getVlanMc, Function.update_of_ne hj]

theorem getVlan4k_of_lt {vid : Nat} (h : vid < 4096) : (s.getVlan4k vid).1 = 0 := by
  rw [Smi.getVlan4k, if_neg (Nat.not_le_of_lt h)]

theorem getVlan4k_congr (h : t.vlan4k = s.vlan4k) (vid : Nat) :
    t.getVlan4k vid = s.getVlan4k vid := by
  rw [Smi.getVlan4k, Smi.getVlan4k, h]

/-- The entry has the VID and the 4K table's values for it. -/
structure Copies (s : Smi c) (vid : Nat) (mc : VlanMc) : Prop where
  has : mc.vid.toNat = vid
  member : mc.member = (s.getVlan4k vid).2.member
  untag : mc.untag = (s.getVlan4k vid).2.untag
  fid : mc.fid = (s.getVlan4k vid).2.fid

theorem Copies.congr {vid : Nat} {mc : VlanMc} (h : Copies s vid mc)
    (ht : t.getVlan4k vid = s.getVlan4k vid) : Copies t vid mc := by
  obtain ⟨hv, hm, hu, hf⟩ := h
  exact ⟨hv, by rw [ht, hm], by rw [ht, hu], by rw [ht, hf]⟩

/-! ## Searches -/

theorem findMc_some {p : VlanMc → Bool} {i : Fin c.numVlanMc} (h : s.findMc p = some i) :
    p (s.getVlanMc i) = true ∧ ∀ j < i, p (s.getVlanMc j) = false := by
  obtain ⟨hp, k, hk, hki, hnot⟩ := List.find?_eq_some_iff_getElem.mp h
  refine ⟨hp, ?_⟩
  intro j hj
  have hik : i.val = k := by rw [← hki, List.getElem_finRange]; rfl
  have hjk : j.val < k := hik ▸ hj
  have := hnot j.val hjk
  rw [List.getElem_finRange] at this
  simpa using this

theorem findMc_none {p : VlanMc → Bool} (h : s.findMc p = none) (j : Fin c.numVlanMc) :
    p (s.getVlanMc j) = false := by
  simpa using List.find?_eq_none.mp h j (List.mem_finRange j)

theorem mcIsUsed_false {i : Fin c.numVlanMc} (h : s.mcIsUsed i = false) (q : Fin c.numPorts) :
    s.mcIndex q ≠ i := by
  intro hq
  exact absurd (List.any_eq_false.mp h q (List.mem_finRange q)) (by simp [hq])

/-! ## Setting a VLAN -/

/-- How `rtl8366_set_vlan` ends. -/
inductive SetVlan (s : Smi c) (vid : Nat) : Int × Smi c → Prop
  | refused : SetVlan s vid (einval, s)
  | absent (t : Smi c)
      (none : ∀ i, (s.getVlanMc i).vid.toNat ≠ vid)
      (mc : ∀ i, t.getVlanMc i = s.getVlanMc i)
      (vlan4k : ∀ v ≠ vid, t.getVlan4k v = s.getVlan4k v)
      (mcIndex : t.mcIndex = s.mcIndex) : SetVlan s vid (0, t)
  | updated (t : Smi c) (i : Fin c.numVlanMc)
      (has : (s.getVlanMc i).vid.toNat = vid)
      (copies : Copies t vid (t.getVlanMc i))
      (other : ∀ j ≠ i, t.getVlanMc j = s.getVlanMc j)
      (vlan4k : ∀ v ≠ vid, t.getVlan4k v = s.getVlan4k v)
      (mcIndex : t.mcIndex = s.mcIndex) : SetVlan s vid (0, t)

/-- What the 4K table holds after a write. -/
theorem setVlan4k_cases (v : Vlan4k) :
    s.setVlan4k v = (einval, s) ∨ ∃ t, s.setVlan4k v = (0, t) ∧
      (v.member ≤ c.memberMask ∧ v.untag ≤ c.untagMask ∧ v.fid ≤ 7) ∧
      t.vlanMc = s.vlanMc ∧ t.mcIndex = s.mcIndex ∧
      (∀ w ≠ v.vid.toNat, t.getVlan4k w = s.getVlan4k w) ∧
      t.getVlan4k v.vid.toNat = (0, v) := by
  by_cases hbad : 4096 ≤ v.vid.toNat ∨ c.memberMask < v.member ∨ c.untagMask < v.untag ∨ 7 < v.fid
  · exact .inl (if_pos hbad)
  · obtain ⟨hv, hm, hu, hf⟩ : ¬ 4096 ≤ v.vid.toNat ∧ v.member ≤ c.memberMask ∧
        v.untag ≤ c.untagMask ∧ v.fid ≤ 7 := by
      simpa only [not_or, UInt16.not_lt, UInt8.not_lt] using hbad
    refine .inr ⟨_, if_neg hbad, ⟨hm, hu, hf⟩, rfl, rfl, ?_, ?_⟩
    · intro w hw
      simp only [Smi.getVlan4k, Function.update_of_ne hw]
    · rw [Smi.getVlan4k, if_neg hv]
      simp only [Function.update_self, c.member_mask _ hm, c.untag_mask _ hu, and_seven hf,
        UInt16.ofNat_toNat]

theorem setVlan_cases {vid : Nat} (hv : vid < 4096) (member untag fid : UInt32) :
    SetVlan s vid (s.setVlan vid member untag fid) := by
  have hvid : (s.getVlan4k vid).2.vid.toNat = vid := by
    rw [Smi.getVlan4k, if_neg (Nat.not_le_of_lt hv)]
    exact UInt16.toNat_ofNat_of_lt' (by simp only [UInt16.size]; omega)
  rw [Smi.setVlan, if_neg (not_not.mpr (getVlan4k_of_lt hv))]
  dsimp only
  rcases setVlan4k_cases (s := s) { (s.getVlan4k vid).2 with
      member := member.toUInt16, untag := untag.toUInt16, fid := fid.toUInt8 } with
    hset | ⟨t, hset, ⟨hm, hu, hf⟩, hmc, hindex, hother, hself⟩
  · rw [hset]
    exact .refused
  · rw [hset, andThen, if_neg (not_not.mpr rfl)]
    dsimp only at hother hself hm hu hf ⊢
    rw [hvid] at hother hself
    have hget : ∀ j, t.getVlanMc j = s.getVlanMc j := fun j => by
      rw [Smi.getVlanMc, hmc]
      rfl
    cases hfind : t.findMc fun mc => vid == mc.vid.toNat with
    | none =>
      refine .absent t ?_ hget hother hindex
      intro i hi
      have := findMc_none hfind i
      rw [hget i, hi, beq_self_eq_true] at this
      cases this
    | some i =>
      have hi : (t.getVlanMc i).vid.toNat = vid := (eq_of_beq (findMc_some hfind).1).symm
      have hfits : FitsMc c { t.getVlanMc i with
          member := member.toUInt16, untag := untag.toUInt16, fid := fid.toUInt8 } :=
        ⟨(fits_getVlanMc i).vid, (fits_getVlanMc i).priority, hm, hu, hf⟩
      obtain ⟨u, hu, hwrote⟩ := setVlanMc_fits (s := t) (i := i) hfits
      dsimp only
      rw [hu]
      have h4k := getVlan4k_congr hwrote.vlan4k
      refine .updated u i (hget i ▸ hi) ?_ ?_ ?_ (hwrote.mcIndex.trans hindex)
      · rw [hwrote.self]
        refine ⟨hi, ?_, ?_, ?_⟩ <;> rw [h4k, hself]
      · intro j hj
        rw [hwrote.other j hj, hget j]
      · intro v hv
        rw [h4k, hother v hv]

/-! ## Setting a PVID -/

/-- The port selects the entry, which is now `mc`. -/
structure Selects (s t : Smi c) (port : Fin c.numPorts) (i : Fin c.numVlanMc) (mc : VlanMc) :
    Prop where
  self : t.getVlanMc i = mc
  other : ∀ j ≠ i, t.getVlanMc j = s.getVlanMc j
  vlan4k : t.vlan4k = s.vlan4k
  mcIndex : t.mcIndex = Function.update s.mcIndex port i

/-- How `rtl8366_set_pvid` ends. -/
inductive SetPvid (s : Smi c) (port : Fin c.numPorts) (vid : Nat) : Int × Smi c → Prop
  | reuse (t : Smi c) (i : Fin c.numVlanMc)
      (has : (s.getVlanMc i).vid.toNat = vid)
      (selects : Selects s t port i (s.getVlanMc i)) : SetPvid s port vid (0, t)
  | claim (t : Smi c) (i : Fin c.numVlanMc) (mc : VlanMc)
      (absent : ∀ j, (s.getVlanMc j).vid.toNat ≠ vid)
      (empty : (s.getVlanMc i).vid = 0 ∧ (s.getVlanMc i).member = 0)
      (first : ∀ j < i, ¬ ((s.getVlanMc j).vid = 0 ∧ (s.getVlanMc j).member = 0))
      (copies : Copies s vid mc)
      (selects : Selects s t port i mc) : SetPvid s port vid (0, t)
  | replace (t : Smi c) (i : Fin c.numVlanMc) (mc : VlanMc)
      (absent : ∀ j, (s.getVlanMc j).vid.toNat ≠ vid)
      (full : ∀ j, ¬ ((s.getVlanMc j).vid = 0 ∧ (s.getVlanMc j).member = 0))
      (unused : ∀ q, s.mcIndex q ≠ i)
      (copies : Copies s vid mc)
      (selects : Selects s t port i mc) : SetPvid s port vid (0, t)
  | inUse (absent : ∀ j, (s.getVlanMc j).vid.toNat ≠ vid)
      (full : ∀ j, ¬ ((s.getVlanMc j).vid = 0 ∧ (s.getVlanMc j).member = 0)) :
      SetPvid s port vid (enospc, s)

/-- Writing an entry and selecting it. -/
theorem write_select {i : Fin c.numVlanMc} {mc : VlanMc} (h : FitsMc c mc)
    (port : Fin c.numPorts) :
    ∃ t, andThen (s.setVlanMc i mc) (fun s => s.setMcIndex port i) = (0, t) ∧
      Selects s t port i mc := by
  obtain ⟨t, ht, hwrote⟩ := setVlanMc_fits (s := s) (i := i) h
  refine ⟨{ t with mcIndex := Function.update t.mcIndex port i }, ?_, ?_, ?_, ?_, ?_⟩
  · rw [ht, andThen, if_neg (not_not.mpr rfl)]
    rfl
  · exact hwrote.self
  · exact hwrote.other
  · exact hwrote.vlan4k
  · rw [hwrote.mcIndex]

theorem replaceMc_copies {vid : Nat} (hv : vid < 4096) (port : Fin c.numPorts)
    (i : Fin c.numVlanMc) {mc : VlanMc} (h : mc.priority ≤ 7) :
    ∃ t mc', s.replaceMc port vid i mc = (0, t) ∧ Copies s vid mc' ∧ Selects s t port i mc' := by
  have hvid : (UInt16.ofNat vid).toNat = vid :=
    UInt16.toNat_ofNat_of_lt' (by simp only [UInt16.size]; omega)
  rw [Smi.replaceMc, if_neg (not_not.mpr (getVlan4k_of_lt hv))]
  have hfits : FitsMc c { mc with
      vid := UInt16.ofNat vid, member := (s.getVlan4k vid).2.member
      untag := (s.getVlan4k vid).2.untag, fid := (s.getVlan4k vid).2.fid } := by
    rw [Smi.getVlan4k, if_neg (Nat.not_le_of_lt hv)]
    exact ⟨hvid.symm ▸ hv, h, and_le _ _, and_le _ _, and_le8 _ _⟩
  obtain ⟨t, ht, hsel⟩ := write_select (s := s) (i := i) hfits port
  exact ⟨t, _, ht, ⟨hvid, rfl, rfl, rfl⟩, hsel⟩

theorem setPvid_cases (port : Fin c.numPorts) {vid : Nat} (hv : vid < 4096) :
    SetPvid s port vid (s.setPvid port vid) := by
  have hempty (mc : VlanMc) :
      (mc.vid == 0 && mc.member == 0) = true ↔ mc.vid = 0 ∧ mc.member = 0 := by
    simp only [Bool.and_eq_true, beq_iff_eq]
  unfold Smi.setPvid
  cases hhas : s.findMc fun mc => vid == mc.vid.toNat with
  | some i =>
    obtain ⟨t, ht, hsel⟩ := write_select (s := s) (fits_getVlanMc i) port
    dsimp only
    rw [ht]
    exact .reuse t i (eq_of_beq (findMc_some hhas).1).symm hsel
  | none =>
    have habsent : ∀ j, (s.getVlanMc j).vid.toNat ≠ vid := fun j hj => by
      have := findMc_none hhas j
      rw [hj, beq_self_eq_true] at this
      cases this
    dsimp only
    cases hfree : s.findMc fun mc => mc.vid == 0 && mc.member == 0 with
    | some i =>
      obtain ⟨hi, hfirst⟩ := findMc_some hfree
      obtain ⟨t, mc, ht, hcopies, hsel⟩ :=
        replaceMc_copies (s := s) hv port i (fits_getVlanMc i).priority
      dsimp only
      rw [ht]
      refine .claim t i mc habsent ((hempty _).mp hi) ?_ hcopies hsel
      intro j hj hj0
      have := hfirst j hj
      rw [(hempty _).mpr hj0] at this
      cases this
    | none =>
      have hfull : ∀ j, ¬ ((s.getVlanMc j).vid = 0 ∧ (s.getVlanMc j).member = 0) :=
        fun j hj => by
          have := findMc_none hfree j
          rw [(hempty _).mpr hj] at this
          cases this
      dsimp only
      cases hunused : (List.finRange c.numVlanMc).find? fun i => !s.mcIsUsed i with
      | some i =>
        have hi : s.mcIsUsed i = false := by simpa using List.find?_some hunused
        have hlast : c.numVlanMc - 1 < c.numVlanMc := by
          have := i.isLt
          omega
        obtain ⟨t, mc, ht, hcopies, hsel⟩ := replaceMc_copies (s := s) hv port i
          (fits_getVlanMc (s := s) ⟨c.numVlanMc - 1, hlast⟩).priority
        dsimp only
        rw [ht]
        exact .replace t i mc habsent hfull (mcIsUsed_false hi) hcopies hsel
      | none => exact .inUse habsent hfull

end

end

end UolaOs.Switch
