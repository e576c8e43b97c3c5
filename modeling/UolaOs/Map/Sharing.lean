import UolaOs.Map.Ports

/-!
# Sharing an IPv4 address

What `calcRule` makes of the bits of a delegated prefix when the PSID comes out of it.

* `bitAt_ruleAddr4`: the first EA bits follow the rule's IPv4 prefix;
* `rulePsid_eq`: the last EA bits are the PSID;
* `port_psid`: a port of a PSID names the PSID;
* `shared_address_exclusive`: no port of an address belongs to two delegated prefixes.
-/

namespace UolaOs.Map

section
variable {o : Options} {l : Lengths} {pdlen : Int} {pd : Addr 16}

/-- The IPv4 prefix, and after it the EA bits that fill the address. -/
theorem bitAt_ruleAddr4 (hpd : 0 ≤ pdlen) (h4 : 0 ≤ o.prefix4len)
    (hsuffix : l.ealen - l.psidlen = 32 - o.prefix4len)
    (hroom : o.prefix6len + (32 - o.prefix4len) ≤ 120) {i : Nat} (hi : i < 32) :
    bitAt (ruleAddr4 o l pdlen pd) i =
      if i < o.prefix4len.toNat then bitAt o.ipv4prefix.1 i
      else bitAt pd.1 (o.prefix6len.toNat + (i - o.prefix4len.toNat)) := by
  have h32 := o.prefix4len_le
  have lprefix := o.ipv4prefix.2
  have lpd := pd.2
  have lcut : (bmemcpys64 (List.replicate 4 0) pd.1 o.prefix6len.toNat
      (l.ealen - l.psidlen).toNat).length = 4 := by simp
  rw [ruleAddr4, if_pos (.inl hpd)]
  rw [bitAt_bmemcpy (by rw [Endian.length_put]; omega) (by omega)]
  by_cases hp : i < o.prefix4len.toNat
  · rw [if_pos hp, if_pos hp]
  · have back : 8 * 4 - 1 - (o.prefix4len.toNat + (8 * 4 - 1 - i)) = i - o.prefix4len.toNat := by
      omega
    rw [if_neg hp, if_neg hp, bitAt_put_big (by omega), Nat.testBit_shiftRight,
      testBit_get_big (by omega), lcut, back,
      bitAt_bmemcpys64 (by omega) (by rw [List.length_replicate]; omega) (by omega),
      if_pos (by omega)]

/-- A field cut to the front of 16 bits. -/
theorem get_bmemcpys64 {b : Bytes} {start n : Nat} (hn : n ≤ 16)
    (hb : start + n < 8 * b.length) :
    Endian.big.get (bmemcpys64 (List.replicate 2 0) b start n) =
      bitField b start n * 2 ^ (16 - n) := by
  have len : (bmemcpys64 (List.replicate 2 0) b start n).length = 2 := by simp
  apply Nat.eq_of_testBit_eq
  intro j
  rw [Nat.testBit_mul_two_pow]
  by_cases hj : j < 16
  · rw [testBit_get_big (by omega), len,
      bitAt_bmemcpys64 (by omega) (by rw [List.length_replicate]; omega) hb, bitAt_zeros]
    by_cases hlow : 16 - n ≤ j
    · have inside : 8 * 2 - 1 - j < n := by omega
      have back : n - 1 - (j - (16 - n)) = 8 * 2 - 1 - j := by omega
      rw [if_pos inside, testBit_bitField (by omega) (by omega), back]
      simp [hlow]
    · have outside : ¬ 8 * 2 - 1 - j < n := by omega
      simp [outside, hlow]
  · have small : Endian.big.get (bmemcpys64 (List.replicate 2 0) b start n) < 2 ^ j := by
      have bound := leNat_lt (bmemcpys64 (List.replicate 2 0) b start n).reverse
      rw [List.length_reverse, len] at bound
      exact Nat.lt_of_lt_of_le bound
        (Nat.pow_le_pow_right (n := 2) (by decide) (Nat.le_of_not_lt hj))
    have field : bitField b start n < 2 ^ (j - (16 - n)) :=
      Nat.lt_of_lt_of_le (bitField_lt b start n) (Nat.pow_le_pow_right (by decide) (by omega))
    rw [Nat.testBit_lt_two_pow small, Nat.testBit_lt_two_pow field, Bool.and_false]

/-- The last EA bits are the PSID. -/
theorem rulePsid_eq (hpd : 0 ≤ pdlen) (hpsid : l.psid = -1) (hpos : 0 < l.psidlen)
    (h16 : l.psidlen ≤ 16) (hroom : o.prefix6len + l.ealen ≤ 120) :
    (rulePsid o l pdlen pd).2 =
      (bitField pd.1 (o.prefix6len + l.ealen - l.psidlen).toNat l.psidlen.toNat *
        2 ^ (16 - l.psidlen).toNat : Nat) := by
  have lpd := pd.2
  have auto : l.psid < 0 ∧ l.psidlen ≥ 0 ∧ pdlen ≥ 0 := ⟨by omega, by omega, hpd⟩
  have cut : Endian.big.get (bmemcpys64 (List.replicate 2 0) pd.1
      (o.prefix6len + l.ealen - l.psidlen).toNat l.psidlen.toNat) = _ :=
    get_bmemcpys64 (by omega) (by omega)
  have width : 16 - l.psidlen.toNat = (16 - l.psidlen).toNat := by omega
  have pos : (2 : Int) ^ (16 - l.psidlen).toNat ≠ 0 := Int.pow_ne_zero (by decide)
  rw [width] at cut
  simp only [rulePsid, if_pos auto, if_pos hpos, cut, Nat.cast_mul, Nat.cast_pow,
    Nat.cast_ofNat]
  rw [Int.mul_ediv_cancel _ pos]

end

/-! ## Port ranges -/

/-- A port in a range of a PSID names the PSID. -/
theorem port_psid {offset psidlen psid : Nat} (hroom : offset + psidlen ≤ 16)
    (hpsid : psid < 2 ^ psidlen) {range : Nat × Nat} {port : Nat}
    (hr : range ∈ portRanges offset psidlen (psid * 2 ^ (16 - psidlen)))
    (hp : range.1 ≤ port ∧ port ≤ range.2) :
    port / 2 ^ (16 - offset - psidlen) % 2 ^ psidlen = psid :=
  ((port_mem_portRanges hroom hpsid).mp ⟨range, hr, hp⟩).1

/-! ## Two delegated prefixes -/

/-- A port the rule prints for its own use. -/
def MapRule.HasPort (r : MapRule) (port : Nat) : Prop :=
  ∃ range ∈ r.portsets.getD [], range.1 ≤ port ∧ port ≤ range.2

/-- The bits of two delegated prefixes between the rule's IPv6 prefix and the end of the EA
bits agree. -/
def SameEA (o : Options) (ealen : Int) (pd₁ pd₂ : Addr 16) : Prop :=
  ∀ i < ealen.toNat, bitAt pd₁.1 (o.prefix6len.toNat + i) = bitAt pd₂.1 (o.prefix6len.toNat + i)

/-- What an accepted rule without an explicit PSID computes. -/
structure Derived (o : Options) (pd : Addr 16) (r : MapRule) : Prop where
  prefix4 : 0 ≤ o.prefix4len
  prefix6 : 0 ≤ o.prefix6len
  psidlen : r.psidlen = r.ealen - (32 - o.prefix4len)
  psidlen_nonneg : 0 ≤ r.psidlen
  psidlen_le : r.psidlen ≤ 16
  offset : 0 ≤ r.offset
  length : r.ipv4addr.length = 4
  addr : ∀ i < 32, bitAt r.ipv4addr i =
    if i < o.prefix4len.toNat then bitAt o.ipv4prefix.1 i
    else bitAt pd.1 (o.prefix6len.toNat + (i - o.prefix4len.toNat))
  ports : r.portsets =
    if r.psidlen > 0 then
      some (portRanges r.offset.toNat r.psidlen.toNat
        (bitField pd.1 (o.prefix6len + r.ealen - r.psidlen).toNat r.psidlen.toNat *
          2 ^ (16 - r.psidlen.toNat)))
    else none

theorem length_ruleAddr4 (o : Options) (l : Lengths) (pdlen : Int) (pd : Addr 16) :
    (ruleAddr4 o l pdlen pd).length = 4 := by
  unfold ruleAddr4
  split <;> simp

theorem ruleLengths_implicit {legacy : Bool} {o : Options} (himp : o.psidlen = -1) (pdlen : Int) :
    (ruleLengths legacy o pdlen).psid = -1 ∧
    (ruleLengths legacy o pdlen).psidlen =
      max 0 ((ruleLengths legacy o pdlen).ealen - (32 - o.prefix4len)) := by
  unfold ruleLengths
  rw [himp]
  cases o.lw4o6 <;> simp

theorem ruleLengths_offset (legacy : Bool) (o : Options) (pdlen : Int) :
    0 ≤ (ruleLengths legacy o pdlen).offset := by
  have default : (0 : Int) ≤ if o.lw4o6 then 0 else if legacy then 4 else 6 := by
    cases o.lw4o6 <;> cases legacy <;> decide
  have chosen : (0 : Int) ≤ if o.offset < 0 then
      (if o.lw4o6 then 0 else if legacy then 4 else 6) else o.offset := by
    split <;> omega
  simp only [ruleLengths, apply_ite Lengths.offset, ite_self]
  exact chosen

theorem calcRule_spec {legacy : Bool} {o : Options} {pdlen : Int} {pd : Addr 16} {r : MapRule}
    (hc : calcRule legacy o pdlen pd = some r) (himp : o.psidlen = -1)
    (hea : 32 - o.prefix4len ≤ r.ealen) (h120 : o.prefix6len + r.ealen ≤ 120)
    (hpd : o.prefix6len + r.ealen ≤ pdlen) : Derived o pd r := by
  have lengths : (ruleLengths legacy o pdlen).psid = -1 ∧ (ruleLengths legacy o pdlen).psidlen =
    max 0 ((ruleLengths legacy o pdlen).ealen - (32 - o.prefix4len)) :=
    ruleLengths_implicit himp pdlen
  have hoffset := ruleLengths_offset legacy o pdlen
  unfold calcRule at hc
  generalize ruleLengths legacy o pdlen = l at hc lengths hoffset
  obtain ⟨hpsid, hpsidlen⟩ := lengths
  dsimp only at hc
  split at hc
  · cases hc
  rename_i hskip
  simp only [Skipped, not_or, Int.not_lt] at hskip
  split at hc
  · cases hc
  obtain rfl := Option.some.inj hc
  obtain ⟨h4, h6, hea0, h16, -⟩ := hskip
  have h32 := o.prefix4len_le
  dsimp only at hea h120 hpd
  have hq : l.psidlen = l.ealen - (32 - o.prefix4len) := by omega
  refine ⟨h4, h6, hq, by dsimp only; omega, by dsimp only; omega, hoffset, length_ruleAddr4 _ _ _ _,
    fun i hi => ?_, ?_⟩
  · exact bitAt_ruleAddr4 (by omega) h4 (by omega) (by omega) hi
  · by_cases hpos : l.psidlen > 0
    · have width : (16 - l.psidlen).toNat = 16 - l.psidlen.toNat := by omega
      have psid : (rulePsid o _ pdlen pd).2 = _ := rulePsid_eq (by omega) hpsid hpos (by omega) h120
      rw [width] at psid
      simp only [psid, Int.toNat_natCast]
      rw [if_pos ⟨hpos, Int.natCast_nonneg _⟩, if_pos hpos]
    · rw [if_neg (fun h => hpos h.1), if_neg hpos]

/-- The lengths do not depend on the delegated prefix, only on its length. -/
theorem calcRule_lengths {legacy : Bool} {o : Options} {pdlen : Int} {pd₁ pd₂ : Addr 16}
    {r₁ r₂ : MapRule} (hc₁ : calcRule legacy o pdlen pd₁ = some r₁)
    (hc₂ : calcRule legacy o pdlen pd₂ = some r₂) :
    r₁.ealen = r₂.ealen ∧ r₁.offset = r₂.offset := by
  have lengths {pd : Addr 16} {r : MapRule} (hc : calcRule legacy o pdlen pd = some r) :
      r.ealen = (ruleLengths legacy o pdlen).ealen ∧
        r.offset = (ruleLengths legacy o pdlen).offset := by
    unfold calcRule at hc
    dsimp only at hc
    split at hc
    · cases hc
    split at hc
    · cases hc
    obtain rfl := Option.some.inj hc
    exact ⟨rfl, rfl⟩
  obtain ⟨e₁, o₁⟩ := lengths hc₁
  obtain ⟨e₂, o₂⟩ := lengths hc₂
  exact ⟨e₁.trans e₂.symm, o₁.trans o₂.symm⟩

theorem Derived.hasPort_psid {o : Options} {pd : Addr 16} {r : MapRule} (d : Derived o pd r)
    (hports : r.offset + r.psidlen ≤ 16) {port : Nat} (hp : r.HasPort port) :
    port / 2 ^ (16 - r.offset.toNat - r.psidlen.toNat) % 2 ^ r.psidlen.toNat =
      bitField pd.1 (o.prefix6len + r.ealen - r.psidlen).toNat r.psidlen.toNat := by
  have hoff := d.offset
  obtain ⟨range, hrange, hport⟩ := hp
  rw [d.ports] at hrange
  split at hrange
  · exact port_psid (by omega) (bitField_lt _ _ _) hrange hport
  · cases hrange

/-- Equal addresses and a common port leave no difference in the EA bits. -/
theorem sameEA_of_port {o : Options} {pd₁ pd₂ : Addr 16} {r₁ r₂ : MapRule}
    (d₁ : Derived o pd₁ r₁) (d₂ : Derived o pd₂ r₂) (hea : r₁.ealen = r₂.ealen)
    (hoff : r₁.offset = r₂.offset) (hports : r₁.offset + r₁.psidlen ≤ 16)
    (h120 : o.prefix6len + r₁.ealen ≤ 120) (haddr : r₁.ipv4addr = r₂.ipv4addr)
    (hport : 0 < r₁.psidlen → ∃ port, r₁.HasPort port ∧ r₂.HasPort port) :
    SameEA o r₁.ealen pd₁ pd₂ := by
  have h4 := d₁.prefix4
  have h6 := d₁.prefix6
  have h32 := o.prefix4len_le
  have hq := d₁.psidlen
  have hnonneg := d₁.psidlen_nonneg
  have hsame : r₁.psidlen = r₂.psidlen := by rw [hq, d₂.psidlen, hea]
  intro i hi
  by_cases hlow : i < (32 - o.prefix4len).toNat
  · have index : o.prefix4len.toNat + i < 32 := by omega
    have behind : ¬ o.prefix4len.toNat + i < o.prefix4len.toNat := by omega
    have bit₁ := d₁.addr _ index
    have bit₂ := d₂.addr _ index
    rw [if_neg behind, Nat.add_sub_cancel_left] at bit₁ bit₂
    rw [← bit₁, ← bit₂, haddr]
  · have hpos : 0 < r₁.psidlen := by omega
    obtain ⟨port, hp₁, hp₂⟩ := hport hpos
    have psid₁ := d₁.hasPort_psid hports hp₁
    have psid₂ := d₂.hasPort_psid (hoff ▸ hsame ▸ hports) hp₂
    rw [← hoff, ← hsame, ← hea] at psid₂
    have fields := psid₁.symm.trans psid₂
    have room (pd : Addr 16) :
        (o.prefix6len + r₁.ealen - r₁.psidlen).toNat + r₁.psidlen.toNat ≤ 8 * pd.1.length := by
      have := pd.2
      omega
    have bits := (bitField_eq_iff (room pd₁) (room pd₂)).mp fields
      (i - (32 - o.prefix4len).toNat) (by omega)
    have back : (o.prefix6len + r₁.ealen - r₁.psidlen).toNat + (i - (32 - o.prefix4len).toNat) =
        o.prefix6len.toNat + i := by omega
    rwa [back] at bits

/-- Equal EA bits give the same address and the same ports. -/
theorem same_of_sameEA {o : Options} {pd₁ pd₂ : Addr 16} {r₁ r₂ : MapRule}
    (d₁ : Derived o pd₁ r₁) (d₂ : Derived o pd₂ r₂) (hea : r₁.ealen = r₂.ealen)
    (hoff : r₁.offset = r₂.offset) (h120 : o.prefix6len + r₁.ealen ≤ 120)
    (same : SameEA o r₁.ealen pd₁ pd₂) :
    r₁.ipv4addr = r₂.ipv4addr ∧ r₁.portsets = r₂.portsets := by
  have h4 := d₁.prefix4
  have h6 := d₁.prefix6
  have h32 := o.prefix4len_le
  have hq := d₁.psidlen
  have hnonneg := d₁.psidlen_nonneg
  have hsame : r₁.psidlen = r₂.psidlen := by rw [hq, d₂.psidlen, hea]
  constructor
  · apply bytes_ext (d₁.length.trans d₂.length.symm)
    intro i hi
    rw [d₁.length] at hi
    rw [d₁.addr i hi, d₂.addr i hi]
    split
    · rfl
    · exact same _ (by omega)
  · rw [d₁.ports, d₂.ports, ← hoff, ← hsame, ← hea]
    by_cases hpos : 0 < r₁.psidlen
    · have room (pd : Addr 16) :
          (o.prefix6len + r₁.ealen - r₁.psidlen).toNat + r₁.psidlen.toNat ≤ 8 * pd.1.length := by
        have := pd.2
        omega
      have fields := (bitField_eq_iff (room pd₁) (room pd₂)).mpr fun j hj => by
        have bits := same (32 - o.prefix4len + j).toNat (by omega)
        have index : o.prefix6len.toNat + (32 - o.prefix4len + j).toNat =
            (o.prefix6len + r₁.ealen - r₁.psidlen).toNat + j := by omega
        rwa [index] at bits
      rw [fields]
    · rw [if_neg hpos, if_neg hpos]

/-- **Exclusive use.** Two delegated prefixes of one rule that differ in the EA bits get
different addresses or disjoint ports; with the same EA bits they get the same. -/
theorem shared_address_exclusive (legacy : Bool) (o : Options) (pdlen : Int) (pd₁ pd₂ : Addr 16)
    (r₁ r₂ : MapRule) (hc₁ : calcRule legacy o pdlen pd₁ = some r₁)
    (hc₂ : calcRule legacy o pdlen pd₂ = some r₂) (himp : o.psid = -1 ∧ o.psidlen = -1)
    (hea : 32 - o.prefix4len ≤ r₁.ealen) (hports : r₁.offset + r₁.psidlen ≤ 16)
    (h120 : o.prefix6len + r₁.ealen ≤ 120) (hpd : o.prefix6len + r₁.ealen ≤ pdlen) :
    (¬ SameEA o r₁.ealen pd₁ pd₂ → r₁.ipv4addr ≠ r₂.ipv4addr ∨
      0 < r₁.psidlen ∧ ∀ port, ¬ (r₁.HasPort port ∧ r₂.HasPort port)) ∧
    (SameEA o r₁.ealen pd₁ pd₂ → r₁.ipv4addr = r₂.ipv4addr ∧ r₁.portsets = r₂.portsets) := by
  obtain ⟨ealen, offset⟩ := calcRule_lengths hc₁ hc₂
  have d₁ := calcRule_spec hc₁ himp.2 hea h120 hpd
  have d₂ := calcRule_spec hc₂ himp.2 (ealen ▸ hea) (ealen ▸ h120) (ealen ▸ hpd)
  refine ⟨fun differ => ?_, same_of_sameEA d₁ d₂ ealen offset h120⟩
  by_contra shared
  obtain ⟨haddr, hshared⟩ := not_or.mp shared
  refine differ (sameEA_of_port d₁ d₂ ealen offset hports h120 (not_not.mp haddr) fun hpos => ?_)
  by_contra none
  exact hshared ⟨hpos, not_exists.mp none⟩

/-- 192.0.2.0/24 shared by the delegated prefixes of 2001:db8::/40. -/
def exampleRule : Options where
  lw4o6 := false
  fmr := false
  ealen := 16
  prefix4len := 24
  prefix6len := 40
  offset := 6
  psidlen := -1
  psid := -1
  ipv4prefix := ⟨[192, 0, 2, 0], rfl⟩
  ealen_le := by decide
  prefix4len_le := by decide
  prefix6len_le := by decide
  offset_le := by decide
  psidlen_le := by decide
  psid_le := by decide

/-- 2001:db8:12:xx00::/56 -/
def examplePd (x : UInt8) : Addr 16 :=
  ⟨[0x20, 0x01, 0x0d, 0xb8, 0, 0x12, x, 0, 0, 0, 0, 0, 0, 0, 0, 0], rfl⟩

def exampleOut (x : UInt8) (h : (calcRule false exampleRule 56 (examplePd x)).isSome) : MapRule :=
  (calcRule false exampleRule 56 (examplePd x)).get h

theorem shared_address_exclusive_example :
    (exampleOut 0x34 (by decide)).ipv4addr ≠ (exampleOut 0x35 (by decide)).ipv4addr ∨
      0 < (exampleOut 0x34 (by decide)).psidlen ∧ ∀ port,
        ¬ ((exampleOut 0x34 (by decide)).HasPort port ∧
          (exampleOut 0x35 (by decide)).HasPort port) := by
  have differ : ¬ SameEA exampleRule 16 (examplePd 0x34) (examplePd 0x35) := by
    intro same
    have := same 15 (by decide)
    revert this
    decide
  exact (shared_address_exclusive false exampleRule 56 (examplePd 0x34) (examplePd 0x35)
    (exampleOut 0x34 (by decide)) (exampleOut 0x35 (by decide)) (Option.some_get _).symm
    (Option.some_get _).symm ⟨rfl, rfl⟩ (by decide) (by decide) (by decide) (by decide)).1 differ

end UolaOs.Map
