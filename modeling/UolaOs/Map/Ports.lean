import UolaOs.Map.Rule

/-!
# The port sets of a rule

* `mem_portRanges`: the ranges of a PSID are blocks of ports;
* `ports_partition`: the blocks of all PSIDs are all ports from the first one on.
-/

namespace UolaOs.Map

/-- Two ranges have no port in common. -/
def Apart (r r' : Nat × Nat) : Prop := r.2 < r'.1 ∨ r'.2 < r.1

/-- What is printed for the option value `psid`: the PSID is its first bits. -/
def printedPorts (offset psidlen psid : Nat) : List (Nat × Nat) :=
  portRanges offset psidlen (psid >>> (16 - psidlen) <<< (16 - psidlen))

/-- The block `q` of `2 ^ m` ports, without port 0. -/
def block (m q : Nat) : Nat × Nat := (max 1 (q * 2 ^ m), (q + 1) * 2 ^ m - 1)

/-- The first index: the ports below the first range are left out. -/
def firstIndex (offset : Nat) : Nat := if offset = 0 then 0 else 1

/-! ## The ranges of a PSID -/

section
variable {offset psidlen psid : Nat}

/-- A start of a range, from its index and the PSID. -/
theorem start_eq (hroom : offset + psidlen ≤ 16) (hpsid : psid < 2 ^ psidlen) (k : Nat) :
    k <<< (16 - offset) ||| (psid * 2 ^ (16 - psidlen)) >>> offset =
      (k * 2 ^ psidlen + psid) * 2 ^ (16 - offset - psidlen) := by
  obtain ⟨m, hm⟩ : ∃ m, 16 - offset - psidlen = m := ⟨_, rfl⟩
  have width : 16 - psidlen = m + offset := by omega
  have total : 16 - offset = psidlen + m := by omega
  have shifted : (psid * 2 ^ (16 - psidlen)) >>> offset = psid * 2 ^ m := by
    rw [Nat.shiftRight_eq_div_pow, width, Nat.pow_add, ← Nat.mul_assoc,
      Nat.mul_div_cancel _ (Nat.two_pow_pos offset)]
  have small : psid * 2 ^ m < 2 ^ (16 - offset) := by
    rw [total, Nat.pow_add]
    exact Nat.mul_lt_mul_of_pos_right hpsid (Nat.two_pow_pos m)
  rw [hm, shifted, ← Nat.shiftLeft_add_eq_or_of_lt small, Nat.shiftLeft_eq, total, Nat.pow_add]
  ring

/-- The ranges of a PSID, in the order in which they are printed. -/
theorem portRanges_eq (hroom : offset + psidlen ≤ 16) (hpsid : psid < 2 ^ psidlen) :
    portRanges offset psidlen (psid * 2 ^ (16 - psidlen)) =
      (List.range' (firstIndex offset) (2 ^ offset - firstIndex offset)).filterMap fun k =>
        let r := block (16 - offset - psidlen) (k * 2 ^ psidlen + psid)
        if r.1 ≤ r.2 then some r else none := by
  rw [portRanges, firstIndex]
  refine List.filterMap_congr fun k _ => ?_
  have size : 1 <<< (16 - offset - psidlen) = 2 ^ (16 - offset - psidlen) := Nat.one_shiftLeft _
  have hmax (n : Nat) : (if n = 0 then 1 else n) = max 1 n := by
    split <;> omega
  dsimp only [block]
  rw [start_eq hroom hpsid, size, hmax, Nat.add_one_mul]

theorem mem_portRanges (hroom : offset + psidlen ≤ 16) (hpsid : psid < 2 ^ psidlen)
    {r : Nat × Nat} : r ∈ portRanges offset psidlen (psid * 2 ^ (16 - psidlen)) ↔
      ∃ k, firstIndex offset ≤ k ∧ k < 2 ^ offset ∧
        r = block (16 - offset - psidlen) (k * 2 ^ psidlen + psid) ∧ r.1 ≤ r.2 := by
  have hfirst : firstIndex offset ≤ 2 ^ offset := by
    have := Nat.two_pow_pos offset
    rw [firstIndex]
    split <;> omega
  rw [portRanges_eq hroom hpsid, List.mem_filterMap]
  constructor
  · rintro ⟨k, hk, heq⟩
    obtain ⟨hle, heq⟩ := Option.ite_none_right_eq_some.mp heq
    obtain rfl := Option.some.inj heq
    obtain ⟨hlo, hhi⟩ := List.mem_range'_1.mp hk
    exact ⟨k, hlo, by omega, rfl, hle⟩
  · rintro ⟨k, hlo, hhi, rfl, hle⟩
    exact ⟨k, List.mem_range'_1.mpr ⟨hlo, by omega⟩, if_pos hle⟩

end

/-! ## Blocks -/

section
variable {m q q' port : Nat}

theorem block_apart (h : q < q') : Apart (block m q) (block m q') := by
  have hle : (q + 1) * 2 ^ m ≤ q' * 2 ^ m := Nat.mul_le_mul_right _ h
  have hpos : 0 < (q + 1) * 2 ^ m := Nat.mul_pos (Nat.succ_pos q) (Nat.two_pow_pos m)
  left
  dsimp only [block]
  omega

theorem Apart.symm {r r' : Nat × Nat} (h : Apart r r') : Apart r' r := Or.symm h

/-- The ports of a block have the number of the block in front. -/
theorem mem_block : (block m q).1 ≤ port ∧ port ≤ (block m q).2 ↔ 1 ≤ port ∧ port / 2 ^ m = q := by
  have hpos := Nat.two_pow_pos m
  have hsucc : (q + 1) * 2 ^ m = q * 2 ^ m + 2 ^ m := Nat.succ_mul ..
  dsimp only [block]
  rw [Nat.div_eq_iff hpos]
  omega

end

/-! ## All PSIDs -/

section
variable {offset psidlen psid port : Nat}

theorem printedPorts_eq (psid : Nat) : printedPorts offset psidlen (psid <<< (16 - psidlen)) =
    portRanges offset psidlen (psid * 2 ^ (16 - psidlen)) := by
  rw [printedPorts, Nat.shiftLeft_shiftRight, Nat.shiftLeft_eq]

/-- An index and a PSID make up the number of a block. -/
theorem number_lt {k k' psid' : Nat} (h : k < k') (hpsid : psid < 2 ^ psidlen) :
    k * 2 ^ psidlen + psid < k' * 2 ^ psidlen + psid' := by
  have hle : (k + 1) * 2 ^ psidlen ≤ k' * 2 ^ psidlen := Nat.mul_le_mul_right _ h
  rw [Nat.succ_mul] at hle
  omega

/-- The ranges of one PSID. -/
theorem pairwise_portRanges (hroom : offset + psidlen ≤ 16) (hpsid : psid < 2 ^ psidlen) :
    (portRanges offset psidlen (psid * 2 ^ (16 - psidlen))).Pairwise Apart := by
  rw [portRanges_eq hroom hpsid]
  refine List.Pairwise.filterMap _ (fun k k' hlt r hr r' hr' => ?_) List.pairwise_lt_range'
  obtain ⟨-, hr⟩ := Option.ite_none_right_eq_some.mp hr
  obtain ⟨-, hr'⟩ := Option.ite_none_right_eq_some.mp hr'
  obtain rfl := Option.some.inj hr
  obtain rfl := Option.some.inj hr'
  exact block_apart (number_lt hlt hpsid)

/-- The ranges of two PSIDs. -/
theorem portRanges_apart (hroom : offset + psidlen ≤ 16) {psid' : Nat} (hpsid : psid < 2 ^ psidlen)
    (hpsid' : psid' < 2 ^ psidlen) (hlt : psid < psid') {r r' : Nat × Nat}
    (hr : r ∈ portRanges offset psidlen (psid * 2 ^ (16 - psidlen)))
    (hr' : r' ∈ portRanges offset psidlen (psid' * 2 ^ (16 - psidlen))) : Apart r r' := by
  obtain ⟨k, -, -, rfl, -⟩ := (mem_portRanges hroom hpsid).mp hr
  obtain ⟨k', -, -, rfl, -⟩ := (mem_portRanges hroom hpsid').mp hr'
  obtain hk | rfl | hk := Nat.lt_trichotomy k k'
  · exact block_apart (number_lt hk hpsid)
  · exact block_apart (Nat.add_lt_add_left hlt _)
  · exact (block_apart (number_lt hk hpsid')).symm

/-- The first port that is not left out. -/
def firstPort (offset : Nat) : Nat := if offset = 0 then 1 else 2 ^ (16 - offset)

/-- A port belongs to the PSID in the middle of it. -/
theorem port_mem_portRanges (hroom : offset + psidlen ≤ 16) (hpsid : psid < 2 ^ psidlen) :
    (∃ r ∈ portRanges offset psidlen (psid * 2 ^ (16 - psidlen)), r.1 ≤ port ∧ port ≤ r.2) ↔
      port / 2 ^ (16 - offset - psidlen) % 2 ^ psidlen = psid ∧
        firstPort offset ≤ port ∧ port < 2 ^ 16 := by
  obtain ⟨m, hm⟩ : ∃ m, 16 - offset - psidlen = m := ⟨_, rfl⟩
  have hpow : 2 ^ psidlen * 2 ^ m = 2 ^ (16 - offset) := by
    rw [← Nat.pow_add]
    congr 1
    omega
  have hall : 2 ^ offset * (2 ^ psidlen * 2 ^ m) = 2 ^ 16 := by
    rw [hpow, ← Nat.pow_add]
    congr 1
    omega
  have hquot : port / 2 ^ m / 2 ^ psidlen = port / (2 ^ psidlen * 2 ^ m) := by
    rw [Nat.div_div_eq_div_mul, Nat.mul_comm]
  have hlast (k : Nat) : k = port / (2 ^ psidlen * 2 ^ m) → (k < 2 ^ offset ↔ port < 2 ^ 16) := by
    rintro rfl
    rw [← hall, Nat.div_lt_iff_lt_mul (Nat.mul_pos (Nat.two_pow_pos _) (Nat.two_pow_pos m))]
  have hfirst (k : Nat) : k = port / (2 ^ psidlen * 2 ^ m) →
      (firstIndex offset ≤ k ∧ 1 ≤ port ↔ firstPort offset ≤ port) := by
    rintro rfl
    rw [firstIndex, firstPort]
    split
    · exact and_iff_right (Nat.zero_le _)
    · rw [hpow, Nat.le_div_iff_mul_le (Nat.two_pow_pos _), Nat.one_mul]
      exact and_iff_left_of_imp fun h => Nat.le_trans (Nat.two_pow_pos _) h
  rw [hm]
  constructor
  · rintro ⟨r, hr, hport⟩
    obtain ⟨k, hlo, hhi, rfl, -⟩ := (mem_portRanges hroom hpsid).mp hr
    rw [hm] at hport
    obtain ⟨hone, hnum⟩ := mem_block.mp hport
    have hk : k = port / (2 ^ psidlen * 2 ^ m) := by
      rw [← hquot, hnum, Nat.mul_comm, Nat.mul_add_div (Nat.two_pow_pos psidlen),
        Nat.div_eq_of_lt hpsid, Nat.add_zero]
    rw [hnum, Nat.mul_add_mod_self_right, Nat.mod_eq_of_lt hpsid]
    exact ⟨rfl, (hfirst k hk).mp ⟨hlo, hone⟩, (hlast k hk).mp hhi⟩
  · rintro ⟨rfl, hlo, hhi⟩
    obtain ⟨k, hk⟩ : ∃ k, k = port / (2 ^ psidlen * 2 ^ m) := ⟨_, rfl⟩
    obtain ⟨hindex, hone⟩ := (hfirst k hk).mpr hlo
    have hport := (mem_block (m := m) (q := k * 2 ^ psidlen + port / 2 ^ m % 2 ^ psidlen)).mpr
      ⟨hone, by rw [hk, ← hquot, Nat.mul_comm, Nat.div_add_mod]⟩
    refine ⟨_, (mem_portRanges hroom hpsid).mpr ⟨k, hindex, (hlast k hk).mpr hhi, rfl, ?_⟩, ?_⟩
    · rw [hm]
      exact Nat.le_trans hport.1 hport.2
    · rw [hm]
      exact hport

/-- `psid` behind its normalisation. -/
theorem rulePsid_normal {o : Options} {l : Lengths} {pdlen : Int} {pd : Addr 16}
    (hpos : 0 < l.psidlen) (hwidth : l.psidlen ≤ 16) (hpsid : l.psid ≤ 65535)
    (hnonneg : 0 ≤ (rulePsid o l pdlen pd).2) : ∃ psid < 2 ^ 16, (rulePsid o l pdlen pd).2 =
      (psid >>> (16 - l.psidlen.toNat) <<< (16 - l.psidlen.toNat) : Nat) := by
  have hexp : (16 - l.psidlen).toNat = 16 - l.psidlen.toNat := by omega
  have hcut (cut : Bytes × Int) (hcut : cut.2 < 2 ^ 16)
      (h : 0 ≤ cut.2 / 2 ^ (16 - l.psidlen).toNat * 2 ^ (16 - l.psidlen).toNat) :
      ∃ psid < 2 ^ 16, cut.2 / 2 ^ (16 - l.psidlen).toNat * 2 ^ (16 - l.psidlen).toNat =
        (psid >>> (16 - l.psidlen.toNat) <<< (16 - l.psidlen.toNat) : Nat) := by
    have hpow : (0 : Int) < 2 ^ (16 - l.psidlen).toNat := Int.pow_pos (by decide)
    have hquot : 0 ≤ cut.2 / 2 ^ (16 - l.psidlen).toNat :=
      Int.not_lt.mp fun hneg => Int.not_lt.mpr h (Int.mul_neg_of_neg_of_pos hneg hpow)
    obtain ⟨psid, hpsid⟩ := Int.eq_ofNat_of_zero_le ((Int.ediv_nonneg_iff_of_pos hpow).mp hquot)
    refine ⟨psid, by omega, ?_⟩
    rw [hpsid, hexp, Nat.shiftRight_eq_div_pow, Nat.shiftLeft_eq]
    push_cast
    rfl
  rw [rulePsid] at hnonneg ⊢
  dsimp only at hnonneg ⊢
  rw [if_pos hpos] at hnonneg ⊢
  refine hcut _ ?_ hnonneg
  split
  · have hlt := leNat_lt (bmemcpys64 (List.replicate 2 0) pd.1
      (o.prefix6len + l.ealen - l.psidlen).toNat l.psidlen.toNat).reverse
    rw [List.length_reverse, length_bmemcpys64, List.length_replicate] at hlt
    exact Int.ofNat_lt.mpr hlt
  · exact Int.lt_of_le_of_lt hpsid (by decide)

/-- What a rule prints is the port set of some PSID. -/
theorem calcRule_portsets {legacy : Bool} {o : Options} {pdlen : Int} {pd : Addr 16} {r : MapRule}
    {ranges : List (Nat × Nat)} (hr : calcRule legacy o pdlen pd = some r)
    (hports : r.portsets = some ranges) :
    ∃ psid < 2 ^ 16, ranges = printedPorts r.offset.toNat r.psidlen.toNat psid := by
  have hpsid : (ruleLengths legacy o pdlen).psid ≤ 65535 := by
    have := o.psid_le
    simp only [ruleLengths, apply_ite Lengths.psid]
    split <;> omega
  unfold calcRule at hr
  generalize ruleLengths legacy o pdlen = l at hr hpsid
  dsimp only at hr
  split at hr
  · cases hr
  next hskip =>
  split at hr
  · cases hr
  obtain rfl := Option.some.inj hr
  obtain ⟨⟨hpos, hnonneg⟩, hranges⟩ := Option.ite_none_right_eq_some.mp hports
  obtain rfl := Option.some.inj hranges
  have hwidth : l.psidlen ≤ 16 := Int.not_lt.mp fun h => hskip (.inr (.inr (.inr (.inl h))))
  obtain ⟨psid, hlt, heq⟩ := rulePsid_normal hpos hwidth hpsid hnonneg
  refine ⟨psid, hlt, ?_⟩
  rw [printedPorts, heq, Int.toNat_natCast]

/-- **The ranges of all PSIDs** have no port in common, and together all ports from the first one
on. -/
theorem ports_partition (offset psidlen : Nat) (hroom : offset + psidlen ≤ 16) :
    let ports := (List.range (2 ^ psidlen)).flatMap fun psid =>
      printedPorts offset psidlen (psid <<< (16 - psidlen))
    ports.Pairwise Apart ∧ (∀ r ∈ ports, 1 ≤ r.1 ∧ r.1 ≤ r.2 ∧ r.2 ≤ 65535) ∧
      ∀ port, (∃ r ∈ ports, r.1 ≤ port ∧ port ≤ r.2) ↔
        (if offset = 0 then 1 else 2 ^ (16 - offset)) ≤ port ∧ port ≤ 65535 := by
  simp only [printedPorts_eq, List.mem_flatMap, List.mem_range]
  refine ⟨List.pairwise_flatMap.mpr ⟨fun psid hpsid => ?_, ?_⟩, ?_, fun port => ?_⟩
  · exact pairwise_portRanges hroom (List.mem_range.mp hpsid)
  · refine List.pairwise_lt_range.imp_of_mem fun hpsid hpsid' hlt r hr r' hr' => ?_
    exact portRanges_apart hroom (List.mem_range.mp hpsid) (List.mem_range.mp hpsid') hlt hr hr'
  · rintro r ⟨psid, hpsid, hr⟩
    obtain ⟨k, -, -, heq, hle⟩ := (mem_portRanges hroom hpsid).mp hr
    have hport : r.1 ≤ r.2 ∧ r.2 ≤ r.2 := ⟨hle, Nat.le_refl _⟩
    have hlast := (port_mem_portRanges hroom hpsid).mp ⟨r, hr, hport⟩
    refine ⟨?_, hle, Nat.le_of_lt_succ hlast.2.2⟩
    rw [heq]
    exact Nat.le_max_left ..
  · constructor
    · rintro ⟨r, ⟨psid, hpsid, hr⟩, hport⟩
      obtain ⟨-, hlo, hhi⟩ := (port_mem_portRanges hroom hpsid).mp ⟨r, hr, hport⟩
      exact ⟨hlo, Nat.le_of_lt_succ hhi⟩
    · rintro ⟨hlo, hhi⟩
      obtain ⟨r, hr, hport⟩ := (port_mem_portRanges hroom (Nat.mod_lt _ (Nat.two_pow_pos psidlen))).mpr
        ⟨rfl, hlo, Nat.lt_succ_of_le hhi⟩
      exact ⟨r, ⟨_, Nat.mod_lt _ (Nat.two_pow_pos psidlen), hr⟩, hport⟩

/-- The default offset, and PSIDs of eight bits: the ports from 1024 on. -/
theorem ports_partition_default :
    let ports := (List.range (2 ^ 8)).flatMap fun psid => printedPorts 6 8 (psid <<< (16 - 8))
    ports.Pairwise Apart ∧
      ∀ port, (∃ r ∈ ports, r.1 ≤ port ∧ port ≤ r.2) ↔ 1024 ≤ port ∧ port ≤ 65535 := by
  obtain ⟨hapart, -, hports⟩ := ports_partition 6 8 (by decide)
  exact ⟨hapart, hports⟩

end

end UolaOs.Map
