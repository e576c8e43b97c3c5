import UolaOs.Map.Rule
import Mathlib.Data.List.Induction

/-!
# Finding the delegated prefix

`match_prefix` walks over the prefixes of an interface and keeps the longest one that belongs to the
rule.

* `bmemcmp_eq_zero_iff`: what it compares;
* `matchPrefix_selected`: what it keeps, whatever the order of the prefixes.
-/

namespace UolaOs.Map

/-- The sign of the first difference. -/
def memcmp : Bytes → Bytes → Int
  | x :: a, y :: b => if x = y then memcmp a b else if x < y then -1 else 1
  | _, _ => 0

def bmemcmp (a b : Bytes) (bits : Nat) : Int :=
  let bytes := bits / 8
  let bits := bits % 8
  let res := memcmp (a.take bytes) (b.take bytes)
  if res = 0 ∧ bits > 0 then
    ((a.getD bytes 0).toNat >>> (8 - bits) : Nat) - ((b.getD bytes 0).toNat >>> (8 - bits) : Nat)
  else res

/-- A prefix or an address of an interface. -/
structure IfPrefix where
  addr : Addr 16
  mask : Int

/-- What `match_prefix` gets of the rule. -/
structure Wanted where
  ipv6prefix : Addr 16
  prefix6len : Int
  lw4o6 : Bool

theorem length_zeros16 : (List.replicate 16 (0 : UInt8)).length = 16 := List.length_replicate

/-- The delegated prefix so far; `pdlen` is -1 without one. -/
structure Pd where
  pdlen : Int
  pd : Addr 16

def Pd.none : Pd := ⟨-1, ⟨List.replicate 16 0, length_zeros16⟩⟩

/-- `bmemcpy` into the delegated prefix. -/
def Pd.copy (s : Pd) (b : Addr 16) (bits : Int) : Pd :=
  ⟨bits, ⟨bmemcpy s.pd.1 b.1 bits.toNat, by rw [length_bmemcpy]; exact s.pd.2⟩⟩

section
variable (w : Wanted)

/-- The mask, after the workaround for the /128-address-as-PD matching of LW4over6. -/
def mask (d : IfPrefix) : Int := if w.lw4o6 = true ∧ d.mask = 128 then 64 else d.mask

/-- A round of `match_prefix`. -/
def matchStep (s : Pd) (d : IfPrefix) : Pd :=
  let mask := mask w d
  if s.pdlen < mask ∧ mask ≥ w.prefix6len ∧
      bmemcmp d.addr.1 w.ipv6prefix.1 w.prefix6len.toNat = 0 then
    s.copy d.addr mask
  else if w.lw4o6 = true ∧ s.pdlen < w.prefix6len ∧ mask < w.prefix6len ∧
      bmemcmp d.addr.1 w.ipv6prefix.1 mask.toNat = 0 then
    s.copy w.ipv6prefix w.prefix6len
  else s

def matchPrefix (s : Pd) (ds : List IfPrefix) : Pd := ds.foldl (matchStep w) s

/-! ## What is selected -/

/-- Two addresses have their first `n` bits in common. -/
def Agrees (a b : Addr 16) (n : Int) : Prop := ∀ i : Nat, (i : Int) < n → bitAt a.1 i = bitAt b.1 i

/-- A prefix in that of the rule. -/
def Usable (d : IfPrefix) : Prop :=
  w.prefix6len ≤ mask w d ∧ Agrees d.addr w.ipv6prefix w.prefix6len

/-- A shorter prefix that the one of the rule is in, for LW4over6. -/
def Shorter (d : IfPrefix) : Prop :=
  w.lw4o6 = true ∧ mask w d < w.prefix6len ∧ Agrees d.addr w.ipv6prefix (mask w d)

/-- **The longest usable prefix**, or else the prefix of the rule for LW4over6. -/
structure Selected (ds : List IfPrefix) (s : Pd) : Prop where
  longest : ∀ d ∈ ds, Usable w d → mask w d ≤ s.pdlen
  attained : (∃ d ∈ ds, Usable w d) →
    ∃ d ∈ ds, Usable w d ∧ s.pdlen = mask w d ∧ Agrees s.pd d.addr s.pdlen
  fallback : (∀ d ∈ ds, ¬ Usable w d) → (∃ d ∈ ds, Shorter w d) →
    s.pdlen = w.prefix6len ∧ Agrees s.pd w.ipv6prefix s.pdlen
  missing : (∀ d ∈ ds, ¬ Usable w d) → (∀ d ∈ ds, ¬ Shorter w d) → s.pdlen = -1
  /-- The other bits are zero. -/
  rest : ∀ i : Nat, s.pdlen ≤ i → bitAt s.pd.1 i = false

/-- The lengths that an address can have. -/
structure InRange (ds : List IfPrefix) : Prop where
  prefix6len : 0 ≤ w.prefix6len ∧ w.prefix6len ≤ 128
  masks : ∀ d ∈ ds, 0 ≤ d.mask ∧ d.mask ≤ 128

end

/-! ## The comparison -/

theorem memcmp_eq_zero_iff {a b : Bytes} (h : a.length = b.length) : memcmp a b = 0 ↔ a = b := by
  induction a generalizing b with
  | nil =>
    obtain rfl := List.eq_nil_of_length_eq_zero h.symm
    exact iff_of_true rfl rfl
  | cons x a ih =>
    obtain ⟨y, b, rfl⟩ := List.exists_cons_of_length_eq_add_one h.symm
    rw [memcmp, List.cons.injEq]
    split
    · next heq => rw [ih (Nat.succ.inj h), and_iff_right heq]
    · next hne =>
      rw [iff_false_right fun hall => hne hall.1]
      split <;> decide

/-- The first bits of two bytes. -/
theorem shiftRight_eq_iff {x y : UInt8} {n : Nat} (hn : n ≤ 8) :
    x.toNat >>> (8 - n) = y.toNat >>> (8 - n) ↔
      ∀ i < n, x.toNat.testBit (7 - i) = y.toNat.testBit (7 - i) := by
  constructor
  · intro h i hi
    have hbit := congrArg (Nat.testBit · (n - 1 - i)) h
    simp only [Nat.testBit_shiftRight] at hbit
    rwa [show 8 - n + (n - 1 - i) = 7 - i by omega] at hbit
  · intro h
    refine Nat.eq_of_testBit_eq fun j => ?_
    rw [Nat.testBit_shiftRight, Nat.testBit_shiftRight]
    by_cases hj : j < n
    · have := h (n - 1 - j) (by omega)
      rwa [show 7 - (n - 1 - j) = 8 - n + j by omega] at this
    · have hbig : 2 ^ 8 ≤ 2 ^ (8 - n + j) := Nat.pow_le_pow_right (by decide) (by omega)
      rw [Nat.testBit_lt_two_pow (Nat.lt_of_lt_of_le x.toNat_lt hbig),
        Nat.testBit_lt_two_pow (Nat.lt_of_lt_of_le y.toNat_lt hbig)]

theorem take_eq_iff {a b : Bytes} {n : Nat} (ha : n ≤ a.length) (hb : n ≤ b.length) :
    a.take n = b.take n ↔ ∀ i < 8 * n, bitAt a i = bitAt b i := by
  constructor
  · intro h i hi
    have hbit := congrArg (bitAt · i) h
    simpa only [bitAt_take, hi, decide_true, Bool.true_and] using hbit
  · intro h
    refine bytes_ext ?_ fun i hi => ?_
    · rw [List.length_take_of_le ha, List.length_take_of_le hb]
    · rw [List.length_take_of_le ha] at hi
      rw [bitAt_take, bitAt_take, h i hi]

theorem bmemcmp_eq_zero_iff {a b : Bytes} {bits : Nat} (ha : bits ≤ 8 * a.length)
    (hb : bits ≤ 8 * b.length) : bmemcmp a b bits = 0 ↔ ∀ i < bits, bitAt a i = bitAt b i := by
  have hmem : memcmp (a.take (bits / 8)) (b.take (bits / 8)) = 0 ↔
      ∀ i < 8 * (bits / 8), bitAt a i = bitAt b i := by
    rw [memcmp_eq_zero_iff, take_eq_iff (by omega) (by omega)]
    rw [List.length_take_of_le (by omega), List.length_take_of_le (by omega)]
  have hlast : (a.getD (bits / 8) 0).toNat >>> (8 - bits % 8) =
      (b.getD (bits / 8) 0).toNat >>> (8 - bits % 8) ↔
        ∀ i < bits % 8, bitAt a (8 * (bits / 8) + i) = bitAt b (8 * (bits / 8) + i) := by
    rw [shiftRight_eq_iff (by omega)]
    refine forall₂_congr fun i hi => ?_
    rw [bitAt, bitAt, show (8 * (bits / 8) + i) / 8 = bits / 8 by omega,
      show (8 * (bits / 8) + i) % 8 = i by omega]
  rw [bmemcmp]
  split
  · next h =>
    rw [Int.sub_eq_zero, Int.natCast_inj, hlast]
    constructor
    · intro hbits i hi
      by_cases hlow : i < 8 * (bits / 8)
      · exact hmem.mp h.1 i hlow
      · have := hbits (i - 8 * (bits / 8)) (by omega)
        rwa [show 8 * (bits / 8) + (i - 8 * (bits / 8)) = i by omega] at this
    · exact fun hall i hi => hall _ (by omega)
  · next h =>
    rw [hmem]
    constructor
    · intro hbits i hi
      have hzero : bits % 8 = 0 := by
        by_contra hpos
        exact h ⟨hmem.mpr hbits, Nat.pos_of_ne_zero hpos⟩
      exact hbits i (by omega)
    · exact fun hall i hi => hall i (by omega)

/-! ## The walk -/

section
variable {w : Wanted} {ds : List IfPrefix} {d : IfPrefix} {s : Pd}

theorem bmemcmp_agrees {a b : Addr 16} {n : Int} (h0 : 0 ≤ n) (h128 : n ≤ 128) :
    bmemcmp a.1 b.1 n.toNat = 0 ↔ Agrees a b n := by
  have ha := a.2
  have hb := b.2
  rw [bmemcmp_eq_zero_iff (by omega) (by omega)]
  exact forall_congr' fun i => by rw [Int.lt_toNat]

/-- What a copy leaves in the delegated prefix. -/
theorem bitAt_copy {b : Addr 16} {n : Int} (h128 : n ≤ 128) (i : Nat) :
    bitAt (s.copy b n).pd.1 i = if (i : Int) < n then bitAt b.1 i else bitAt s.pd.1 i := by
  have hs := s.pd.2
  have hb := b.2
  rw [Pd.copy, bitAt_bmemcpy (by omega) (by omega)]
  simp only [Int.lt_toNat]

theorem mask_range (h : 0 ≤ d.mask ∧ d.mask ≤ 128) : 0 ≤ mask w d ∧ mask w d ≤ 128 := by
  rw [mask]
  split
  · decide
  · exact h

/-- A round, in terms of the bits. -/
theorem matchStep_eq (hlen : 0 ≤ w.prefix6len ∧ w.prefix6len ≤ 128)
    (hd : 0 ≤ d.mask ∧ d.mask ≤ 128) [Decidable (Usable w d)] [Decidable (Shorter w d)] :
    matchStep w s d =
      if s.pdlen < mask w d ∧ Usable w d then s.copy d.addr (mask w d)
      else if s.pdlen < w.prefix6len ∧ Shorter w d then s.copy w.ipv6prefix w.prefix6len
      else s := by
  obtain ⟨h0, h128⟩ := mask_range (w := w) hd
  rw [matchStep]
  refine if_congr ?_ rfl (if_congr ?_ rfl rfl)
  · rw [bmemcmp_agrees hlen.1 hlen.2]
    exact Iff.rfl
  · rw [bmemcmp_agrees h0 h128, Shorter]
    exact ⟨fun ⟨hl, hp, hm, ha⟩ => ⟨hp, hl, hm, ha⟩, fun ⟨hp, hl, hm, ha⟩ => ⟨hl, hp, hm, ha⟩⟩

theorem selected_nil : Selected w [] Pd.none where
  longest _ hd := absurd hd List.not_mem_nil
  attained h := absurd h fun ⟨_, hd, _⟩ => List.not_mem_nil hd
  fallback _ h := absurd h fun ⟨_, hd, _⟩ => List.not_mem_nil hd
  missing _ _ := rfl
  rest i _ := bitAt_zeros 16 i

/-- What a longer prefix leaves of the bits. -/
theorem rest_copy {b : Addr 16} {n : Int} (hlt : s.pdlen < n) (h128 : n ≤ 128)
    (hs : ∀ i : Nat, s.pdlen ≤ i → bitAt s.pd.1 i = false) (i : Nat) (hi : n ≤ i) :
    bitAt (s.copy b n).pd.1 i = false := by
  rw [bitAt_copy h128, if_neg (Int.not_lt.mpr hi)]
  exact hs i (by omega)

theorem agrees_copy {b : Addr 16} {n : Int} (h128 : n ≤ 128) :
    Agrees (s.copy b n).pd b n := fun i hi => by
  rw [bitAt_copy h128, if_pos hi]

/-- **A round** goes on to the next prefix of the list. -/
theorem Selected.step (h : Selected w ds s) (hlen : 0 ≤ w.prefix6len ∧ w.prefix6len ≤ 128)
    (hd : 0 ≤ d.mask ∧ d.mask ≤ 128) : Selected w (ds ++ [d]) (matchStep w s d) := by
  classical
  obtain ⟨h0, h128⟩ := mask_range (w := w) hd
  have hall {p : IfPrefix → Prop} : (∀ e ∈ ds ++ [d], p e) ↔ (∀ e ∈ ds, p e) ∧ p d := by
    rw [List.forall_mem_append, List.forall_mem_singleton]
  have hany {p : IfPrefix → Prop} : (∃ e ∈ ds ++ [d], p e) ↔ (∃ e ∈ ds, p e) ∨ p d := by
    simp only [List.mem_append, List.mem_singleton, or_and_right, exists_or, exists_eq_left]
  rw [matchStep_eq hlen hd]
  split
  · next hlonger =>
    -- `d` is usable, and longer than all before it
    obtain ⟨hlt, husable⟩ := hlonger
    refine ⟨hall.mpr ⟨fun e he hu => ?_, fun _ => Int.le_refl _⟩, fun _ => ?_, fun hno => ?_,
      fun hno => ?_, rest_copy hlt h128 h.rest⟩
    · exact Int.le_trans (h.longest e he hu) (Int.le_of_lt hlt)
    · exact hany.mpr (.inr ⟨husable, rfl, agrees_copy h128⟩)
    · exact absurd husable (hall.mp hno).2
    · exact absurd husable (hall.mp hno).2
  next hkeep =>
  split
  · next hfall =>
    -- there is no usable prefix yet, and `d` is not one
    obtain ⟨hlt, hshorter⟩ := hfall
    have hnone : ∀ e ∈ ds ++ [d], ¬ Usable w e := by
      refine hall.mpr ⟨fun e he hu => ?_, fun hu => ?_⟩
      · have := h.longest e he hu
        have := hu.1
        omega
      · have := hu.1
        have := hshorter.2.1
        omega
    refine ⟨fun e he hu => absurd hu (hnone e he), fun hu => ?_, fun _ _ => ?_, fun _ hno => ?_,
      rest_copy hlt hlen.2 h.rest⟩
    · obtain ⟨e, he, hu⟩ := hu
      exact absurd hu (hnone e he)
    · exact ⟨rfl, agrees_copy hlen.2⟩
    · exact absurd hshorter (hall.mp hno).2
  next hskip =>
  refine ⟨hall.mpr ⟨h.longest, fun hu => ?_⟩, fun hu => ?_, fun hno hs => ?_, fun hno hs => ?_,
    h.rest⟩
  · exact Int.not_lt.mp fun hlt => hkeep ⟨hlt, hu⟩
  · by_cases hold : ∃ e ∈ ds, Usable w e
    · exact hany.mpr (.inl (h.attained hold))
    · -- the prefix of the rule stands for `d`
      have hnone : ∀ e ∈ ds, ¬ Usable w e := fun e he hu => hold ⟨e, he, hu⟩
      have husable := (hany.mp hu).resolve_left hold
      have hle := Int.not_lt.mp fun hlt => hkeep ⟨hlt, husable⟩
      have hprefix := husable.1
      by_cases hshort : ∃ e ∈ ds, Shorter w e
      · obtain ⟨hpdlen, hagrees⟩ := h.fallback hnone hshort
        refine hany.mpr (.inr ⟨husable, by omega, fun i hi => ?_⟩)
        rw [hagrees i hi, husable.2 i (by omega)]
      · have := h.missing hnone fun e he hs => hshort ⟨e, he, hs⟩
        omega
  · obtain ⟨hno, -⟩ := hall.mp hno
    by_cases hshort : ∃ e ∈ ds, Shorter w e
    · exact h.fallback hno hshort
    · have hd := (hany.mp hs).resolve_left hshort
      have := h.missing hno fun e he hs => hshort ⟨e, he, hs⟩
      exact absurd ⟨by omega, hd⟩ hskip
  · exact h.missing (hall.mp hno).1 (hall.mp hs).1

theorem selected_walk (h : InRange w ds) : Selected w ds (matchPrefix w Pd.none ds) := by
  induction ds using List.reverseRecOn with
  | nil => exact selected_nil
  | append_singleton ds d ih =>
    obtain ⟨hlen, hmasks⟩ := h
    rw [matchPrefix, List.foldl_append]
    exact (ih ⟨hlen, fun e he => hmasks e (List.mem_append_left _ he)⟩).step hlen
      (hmasks d (List.mem_append_right _ List.mem_cons_self))

/-- What is selected has one length, whatever the order of the prefixes. -/
theorem Selected.pdlen_eq {ds' : List IfPrefix} {s' : Pd} (h : Selected w ds s)
    (h' : Selected w ds' s') (hmem : ∀ d, d ∈ ds ↔ d ∈ ds') : s.pdlen = s'.pdlen := by
  have hany {p : IfPrefix → Prop} : (∃ d ∈ ds, p d) ↔ ∃ d ∈ ds', p d :=
    exists_congr fun d => and_congr_left fun _ => hmem d
  have hall {p : IfPrefix → Prop} : (∀ d ∈ ds, p d) ↔ ∀ d ∈ ds', p d :=
    forall_congr' fun d => imp_congr_left (hmem d)
  by_cases husable : ∃ d ∈ ds, Usable w d
  · obtain ⟨d, hd, hu, heq, -⟩ := h.attained husable
    obtain ⟨d', hd', hu', heq', -⟩ := h'.attained (hany.mp husable)
    have hle := h'.longest d ((hmem d).mp hd) hu
    have hge := h.longest d' ((hmem d').mpr hd') hu'
    omega
  have hnone : ∀ d ∈ ds, ¬ Usable w d := fun d hd hu => husable ⟨d, hd, hu⟩
  by_cases hshort : ∃ d ∈ ds, Shorter w d
  · rw [(h.fallback hnone hshort).1, (h'.fallback (hall.mp hnone) (hany.mp hshort)).1]
  · have hno : ∀ d ∈ ds, ¬ Shorter w d := fun d hd hs => hshort ⟨d, hd, hs⟩
    rw [h.missing hnone hno, h'.missing (hall.mp hnone) (hall.mp hno)]

/-- **`match_prefix` selects the longest usable prefix**, and any order of the prefixes gives its
length. -/
theorem matchPrefix_selected (h : InRange w ds) :
    Selected w ds (matchPrefix w Pd.none ds) ∧
      ∀ ds' : List IfPrefix, ds'.Perm ds →
        (matchPrefix w Pd.none ds').pdlen = (matchPrefix w Pd.none ds).pdlen := by
  refine ⟨selected_walk h, fun ds' hperm => ?_⟩
  have h' : InRange w ds' := ⟨h.prefix6len, fun d hd => h.masks d (hperm.mem_iff.mp hd)⟩
  exact (selected_walk h').pdlen_eq (selected_walk h) fun d => hperm.mem_iff

end

/-- A rule with a prefix of 32 bits that are zero. -/
def zeroWanted : Wanted := ⟨⟨List.replicate 16 0, length_zeros16⟩, 32, true⟩

/-- Prefixes of 24, 56 and 128 bits that are zero. -/
def zeroPrefixes : List IfPrefix :=
  [24, 56, 128].map fun n => ⟨⟨List.replicate 16 0, length_zeros16⟩, n⟩

/-- The address counts as a prefix of 64 bits. -/
theorem matchPrefix_selected_zero : (matchPrefix zeroWanted Pd.none zeroPrefixes).pdlen = 64 ∧
    Selected zeroWanted zeroPrefixes (matchPrefix zeroWanted Pd.none zeroPrefixes) := by
  have hrange : InRange zeroWanted zeroPrefixes := by
    refine ⟨by decide, fun d hd => ?_⟩
    obtain ⟨n, hn, rfl⟩ := List.mem_map.mp hd
    have hall : ∀ n ∈ [(24 : Int), 56, 128], 0 ≤ n ∧ n ≤ 128 := by decide
    exact hall n hn
  exact ⟨by decide, (matchPrefix_selected hrange).1⟩

end UolaOs.Map
