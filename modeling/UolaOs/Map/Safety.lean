import UolaOs.Map.Prefix

/-!
# What mapcalc reads, writes and shifts by

A rule, with each copy and comparison of bits checked against its buffers, and each shift against
the 32 bits of its operand. A negative length counts as outside of every buffer, as it is turned
into a `size_t`.

* `calcChecked_eq`: the rule when all of them are in bounds;
* `ruleChecked_isSome_iff`: when they are.
-/

namespace UolaOs.Map

/-- A value under a condition of safety. -/
def checked {α : Type} (p : Prop) [Decidable p] (x : α) : Option α := if p then some x else none

/-- `bmemcmp` -/
def cmpBits (a b : Bytes) (bits : Int) : Option Int :=
  checked (0 ≤ bits ∧ bits ≤ 8 * a.length ∧ bits ≤ 8 * b.length) (bmemcmp a b bits.toNat)

/-- `bmemcpy` -/
def copyBits (a b : Bytes) (bits : Int) : Option Bytes :=
  checked (0 ≤ bits ∧ bits ≤ 8 * a.length ∧ bits ≤ 8 * b.length) (bmemcpy a b bits.toNat)

/-- `bmemcpys64`: the bytes up to the one behind the last bit are read, and have to find room in
the eight bytes of `buf`. -/
def cutBits (a b : Bytes) (frombits nbits : Int) : Option Bytes :=
  checked ((0 ≤ frombits ∧ 0 ≤ nbits) ∧ (frombits + nbits) / 8 < b.length ∧
    (frombits + nbits) / 8 - frombits / 8 + 1 ≤ 8 ∧ nbits ≤ 64 ∧ nbits ≤ 8 * a.length)
      (bmemcpys64 a b frombits.toNat nbits.toNat)

def shiftBy (amount : Int) : Option Nat := checked (0 ≤ amount ∧ amount < 32) amount.toNat

/-! ## The delegated prefix -/

/-- The prefixes and the addresses of an interface. -/
structure Iface where
  prefixes : List IfPrefix
  addresses : List IfPrefix
  masks : ∀ d ∈ prefixes ++ addresses, 0 ≤ d.mask ∧ d.mask ≤ 128

section
variable (w : Wanted)

def copyChecked (s : Pd) (b : Addr 16) (bits : Int) : Option Pd :=
  checked (0 ≤ bits ∧ bits ≤ 128) (s.copy b bits)

/-- A comparison behind a condition. -/
def cmpWhen (p : Prop) [Decidable p] (a b : Bytes) (bits : Int) : Option Bool :=
  if p then (cmpBits a b bits).map fun res => decide (res = 0) else some false

def matchStepChecked (s : Pd) (d : IfPrefix) : Option Pd := do
  let mask := mask w d
  let usable ← cmpWhen (s.pdlen < mask ∧ mask ≥ w.prefix6len) d.addr.1 w.ipv6prefix.1 w.prefix6len
  if usable = true then copyChecked s d.addr mask
  else do
    let shorter ← cmpWhen (w.lw4o6 = true ∧ s.pdlen < w.prefix6len ∧ mask < w.prefix6len)
      d.addr.1 w.ipv6prefix.1 mask
    if shorter = true then copyChecked s w.ipv6prefix w.prefix6len else some s

def matchPrefixChecked (s : Pd) (ds : List IfPrefix) : Option Pd := ds.foldlM (matchStepChecked w) s

/-- The addresses count for LW4over6 only. -/
def matchAddressesChecked (s : Pd) (i : Iface) : Option Pd :=
  if w.lw4o6 = true then matchPrefixChecked w s i.addresses else some s

/-- The search for the delegated prefix in the interfaces of the wanted name. -/
def findPdChecked (s : Pd) : List Iface → Option Pd
  | [] => some s
  | i :: is => do
    let s ← matchPrefixChecked w s i.prefixes
    let s ← matchAddressesChecked w s i
    if s.pdlen ≥ 0 then some s else findPdChecked s is

/-- The same without checks. -/
def findPd (s : Pd) : List Iface → Pd
  | [] => s
  | i :: is =>
    let s := matchPrefix w s i.prefixes
    let s := if w.lw4o6 = true then matchPrefix w s i.addresses else s
    if s.pdlen ≥ 0 then s else findPd s is

end

/-! ## The rule -/

section
variable (o : Options) (l : Lengths) (pdlen : Int) (pd : Addr 16)

def psidChecked : Option (Bytes × Int) := do
  let cut ← if l.psid < 0 ∧ l.psidlen ≥ 0 ∧ pdlen ≥ 0 then
      (cutBits (List.replicate 2 0) pd.1 (o.prefix6len + l.ealen - l.psidlen) l.psidlen).map
        fun psid16 => (psid16, (Endian.big.get psid16 : Int))
    else some (List.replicate 2 0, l.psid)
  if l.psidlen > 0 then do
    let n ← shiftBy (16 - l.psidlen)
    let psid := cut.2 / 2 ^ n
    some (Endian.big.put 2 (psid % 2 ^ 16).toNat, psid * 2 ^ n)
  else some cut

def addr4Checked : Option Bytes :=
  if pdlen ≥ 0 ∨ l.ealen = l.psidlen then do
    let ipv4addr ← cutBits (List.replicate 4 0) pd.1 o.prefix6len (l.ealen - l.psidlen)
    let n ← shiftBy o.prefix4len
    copyBits (Endian.big.put 4 (Endian.big.get ipv4addr >>> n)) o.ipv4prefix.1 o.prefix4len
  else some (List.replicate 4 0)

def addr6Checked (legacy : Bool) (ipv4addr psid16 : Bytes) : Option Bytes :=
  if pdlen ≥ 0 then
    let v4offset := if legacy = true then 9 else 10
    copyBits (poke (poke (List.replicate 16 0) v4offset ipv4addr) (v4offset + 4) psid16) pd.1 pdlen
  else some (List.replicate 16 0)

/-- A round of the loop over the port ranges. -/
def rangeChecked (offset psidlen : Int) (psid k : Nat) : Option (Option (Nat × Nat)) := do
  let a ← shiftBy (16 - offset)
  let b ← shiftBy offset
  let c ← shiftBy (16 - offset - psidlen)
  let start := k <<< a ||| psid >>> b
  let last := start + 1 <<< c - 1
  let start := if start = 0 then 1 else start
  some (if start ≤ last then some (start, last) else none)

def portsChecked (psid : Int) : Option (Option (List (Nat × Nat))) :=
  if l.psidlen > 0 ∧ psid ≥ 0 then do
    let n ← shiftBy l.offset
    let first := if n = 0 then 0 else 1
    let ranges ← (List.range' first (2 ^ n - first)).mapM
      (rangeChecked l.offset l.psidlen psid.toNat)
    some (some (ranges.filterMap id))
  else some none

end

/-- One rule; the inner `none` when it is skipped. -/
def calcChecked (legacy : Bool) (o : Options) (pdlen : Int) (pd : Addr 16) :
    Option (Option MapRule) :=
  let l := ruleLengths legacy o pdlen
  if Skipped o l then some none
  else do
    let psid ← psidChecked o l pdlen pd
    let ipv4addr ← addr4Checked o l pdlen pd
    if pdlen < 0 ∧ ¬ o.fmr then some none
    else do
      let ipv6addr ← addr6Checked pdlen pd legacy ipv4addr psid.1
      let portsets ← portsChecked l psid.2
      some (some
        { ealen := l.ealen, psidlen := l.psidlen, offset := l.offset
          ipv6addr := ipv6addr, ipv4addr := ipv4addr
          addr4len := ruleAddr4len o l pdlen, portsets := portsets })

/-- The options of a rule, with those that are about prefixes. -/
structure RuleArgs where
  options : Options
  ipv6prefix : Addr 16
  pd : Addr 16
  pdlen : Int
  pdlen_le : pdlen ≤ 128

section
variable (legacy : Bool) (a : RuleArgs) (ifaces : List Iface)

def RuleArgs.wanted : Wanted := ⟨a.ipv6prefix, a.options.prefix6len, a.options.lw4o6⟩

/-- A round of the loop of `main`; `none` when something is out of bounds. -/
def ruleChecked : Option (Option MapRule) := do
  let s ← if a.pdlen < 0 then findPdChecked a.wanted ⟨a.pdlen, a.pd⟩ ifaces
    else some ⟨a.pdlen, a.pd⟩
  calcChecked legacy a.options s.pdlen s.pd

/-- The delegated prefix: as given, or from the interfaces. -/
def delegated : Pd :=
  if a.pdlen < 0 then findPd a.wanted ⟨a.pdlen, a.pd⟩ ifaces else ⟨a.pdlen, a.pd⟩

/-- The EA bits that the options ask for, with a delegated prefix of `pdlen` bits. -/
def eaBits (o : Options) (pdlen : Int) : Int :=
  if o.lw4o6 = true then max 0 o.psidlen
  else if o.ealen < 0 ∧ 0 ≤ pdlen then pdlen - o.prefix6len
  else o.ealen

/-- The offset, or its default. -/
def offsetBits (legacy : Bool) (o : Options) : Int :=
  if 0 ≤ o.offset then o.offset else if o.lw4o6 = true then 0 else if legacy = true then 4 else 6

/-- The lengths that the options ask for: without a PSID length, the PSID is what the IPv4 prefix
leaves of the EA bits. -/
def givenLengths (legacy : Bool) (o : Options) (pdlen : Int) : Lengths :=
  if 0 < o.psidlen then ⟨offsetBits legacy o, eaBits o pdlen, o.psidlen, o.psid⟩
  else ⟨offsetBits legacy o, eaBits o pdlen, max 0 (eaBits o pdlen - (32 - o.prefix4len)), -1⟩

/-- The lengths of a rule that is not skipped, with the length of its delegated prefix. -/
structure LengthsFit (o : Options) (l : Lengths) (pdlen : Int) : Prop where
  /-- The PSID comes out of the first 127 bits of the delegated prefix. -/
  psid : l.psid < 0 → 0 ≤ pdlen → o.prefix6len + l.ealen < 128
  /-- So does the IPv4 address, in at most 32 bits, behind an IPv4 prefix that is not all of it. -/
  addr4 : 0 ≤ pdlen ∨ l.ealen = l.psidlen →
    o.prefix6len + (l.ealen - l.psidlen) < 128 ∧ l.ealen - l.psidlen ≤ 32 ∧ o.prefix4len < 32
  /-- The ports that are printed have room for the offset and the PSID. -/
  ports : 0 < l.psidlen → 0 ≤ pdlen ∨ o.fmr = true ∧ 0 ≤ l.psid → l.offset + l.psidlen ≤ 16

/-- **The conditions of safety.** The length of the IPv6 prefix is known when there is something to
compare, and the lengths fit. -/
structure RuleFits : Prop where
  prefix6len : a.pdlen < 0 → 0 ≤ a.options.prefix6len ∨
    ∀ i ∈ ifaces, i.prefixes = [] ∧ (a.options.lw4o6 = true → i.addresses = [])
  lengths : ¬ Skipped a.options (givenLengths legacy a.options (delegated a ifaces).pdlen) →
    LengthsFit a.options (givenLengths legacy a.options (delegated a ifaces).pdlen)
      (delegated a ifaces).pdlen

end

/-! ## The steps of a rule -/

section
variable {α β : Type} {p : Prop} [Decidable p] {x : α}

theorem checked_pos (h : p) : checked p x = some x := if_pos h

theorem checked_neg (h : ¬ p) : checked p x = none := if_neg h

theorem checked_congr {q : Prop} [Decidable q] (h : p ↔ q) : checked p x = checked q x :=
  if_congr h rfl rfl

theorem mapM_some {l : List α} {f : α → Option β} {g : α → β} (h : ∀ a ∈ l, f a = some (g a)) :
    l.mapM f = some (l.map g) := by
  induction l with
  | nil => rfl
  | cons a l ih =>
    rw [List.mapM_cons, h a List.mem_cons_self, ih fun b hb => h b (List.mem_cons_of_mem a hb)]
    rfl

theorem shiftBy_pos {n : Int} (h0 : 0 ≤ n) (h : n < 32) : shiftBy n = some n.toNat :=
  checked_pos ⟨h0, h⟩

end

section
variable {legacy : Bool} {o : Options} {l : Lengths} {pdlen : Int} {pd : Addr 16}

theorem ruleLengths_range (legacy : Bool) (o : Options) (pdlen : Int) :
    (0 ≤ (ruleLengths legacy o pdlen).offset ∧ (ruleLengths legacy o pdlen).offset ≤ 16) ∧
      0 ≤ (ruleLengths legacy o pdlen).psidlen := by
  have := o.offset_le
  constructor
  · simp only [ruleLengths, apply_ite Lengths.offset, ite_self]
    split
    · split
      · decide
      · split <;> decide
    · omega
  · simp only [ruleLengths, apply_ite Lengths.psidlen]
    split <;> omega

theorem psidChecked_eq (h6 : 0 ≤ o.prefix6len) (hpsidlen : 0 ≤ l.psidlen) (h16 : l.psidlen ≤ 16)
    (hle : l.psidlen ≤ l.ealen) : psidChecked o l pdlen pd =
      checked (l.psid < 0 → 0 ≤ pdlen → o.prefix6len + l.ealen < 128) (rulePsid o l pdlen pd) := by
  have hlast (cut : Bytes × Int) : (if l.psidlen > 0 then do
        let n ← shiftBy (16 - l.psidlen)
        let psid := cut.2 / 2 ^ n
        some (Endian.big.put 2 (psid % 2 ^ 16).toNat, psid * 2 ^ n)
      else some cut) = some (if l.psidlen > 0 then
        (Endian.big.put 2 (cut.2 / 2 ^ (16 - l.psidlen).toNat % 2 ^ 16).toNat,
          cut.2 / 2 ^ (16 - l.psidlen).toNat * 2 ^ (16 - l.psidlen).toNat)
      else cut) := by
    by_cases hpos : l.psidlen > 0
    · rw [if_pos hpos, if_pos hpos, shiftBy_pos (by omega) (by omega)]
      rfl
    · rw [if_neg hpos, if_neg hpos]
  rw [psidChecked, rulePsid]
  by_cases hcut : l.psid < 0 ∧ l.psidlen ≥ 0 ∧ pdlen ≥ 0
  · have hlen := pd.2
    have hcond : ((0 ≤ o.prefix6len + l.ealen - l.psidlen ∧ 0 ≤ l.psidlen) ∧
        (o.prefix6len + l.ealen - l.psidlen + l.psidlen) / 8 < pd.1.length ∧
        (o.prefix6len + l.ealen - l.psidlen + l.psidlen) / 8 -
          (o.prefix6len + l.ealen - l.psidlen) / 8 + 1 ≤ 8 ∧ l.psidlen ≤ 64 ∧
        l.psidlen ≤ 8 * (List.replicate 2 (0 : UInt8)).length) ↔
        (l.psid < 0 → 0 ≤ pdlen → o.prefix6len + l.ealen < 128) := by
      rw [List.length_replicate]
      omega
    rw [if_pos hcut, if_pos hcut, cutBits, checked_congr hcond]
    by_cases hfit : l.psid < 0 → 0 ≤ pdlen → o.prefix6len + l.ealen < 128
    · rw [checked_pos hfit, checked_pos hfit]
      exact hlast _
    · rw [checked_neg hfit, checked_neg hfit]
      rfl
  · rw [if_neg hcut, if_neg hcut, checked_pos fun hneg hpd => absurd ⟨hneg, hpsidlen, hpd⟩ hcut]
    exact hlast _

theorem addr4Checked_eq (h6 : 0 ≤ o.prefix6len) (h4 : 0 ≤ o.prefix4len)
    (hle : l.psidlen ≤ l.ealen) : addr4Checked o l pdlen pd =
      checked (0 ≤ pdlen ∨ l.ealen = l.psidlen →
        o.prefix6len + (l.ealen - l.psidlen) < 128 ∧ l.ealen - l.psidlen ≤ 32 ∧ o.prefix4len < 32)
          (ruleAddr4 o l pdlen pd) := by
  have h32 := o.prefix4len_le
  rw [addr4Checked, ruleAddr4]
  by_cases hused : pdlen ≥ 0 ∨ l.ealen = l.psidlen
  · have hlen := pd.2
    have hcond : ((0 ≤ o.prefix6len ∧ 0 ≤ l.ealen - l.psidlen) ∧
        (o.prefix6len + (l.ealen - l.psidlen)) / 8 < pd.1.length ∧
        (o.prefix6len + (l.ealen - l.psidlen)) / 8 - o.prefix6len / 8 + 1 ≤ 8 ∧
        l.ealen - l.psidlen ≤ 64 ∧
        l.ealen - l.psidlen ≤ 8 * (List.replicate 4 (0 : UInt8)).length) ↔
        (o.prefix6len + (l.ealen - l.psidlen) < 128 ∧ l.ealen - l.psidlen ≤ 32) := by
      rw [List.length_replicate]
      omega
    rw [if_pos hused, if_pos hused, cutBits, checked_congr hcond]
    by_cases hcut : o.prefix6len + (l.ealen - l.psidlen) < 128 ∧ l.ealen - l.psidlen ≤ 32
    · rw [checked_pos hcut]
      by_cases hshift : o.prefix4len < 32
      · rw [checked_pos fun _ => ⟨hcut.1, hcut.2, hshift⟩]
        have hcopy (x : Nat) : copyBits (Endian.big.put 4 x) o.ipv4prefix.1 o.prefix4len =
            some (bmemcpy (Endian.big.put 4 x) o.ipv4prefix.1 o.prefix4len.toNat) := by
          refine checked_pos ⟨h4, ?_, ?_⟩
          · rw [Endian.length_put]
            omega
          · rw [o.ipv4prefix.2]
            omega
        change (shiftBy o.prefix4len).bind _ = _
        rw [shiftBy_pos h4 hshift]
        exact hcopy _
      · rw [checked_neg fun h => hshift (h hused).2.2]
        change (shiftBy o.prefix4len).bind _ = _
        rw [shiftBy, checked_neg fun h => hshift h.2]
        rfl
    · rw [checked_neg hcut, checked_neg fun h => hcut ⟨(h hused).1, (h hused).2.1⟩]
      rfl
  · rw [if_neg hused, if_neg hused, checked_pos fun h => absurd h hused]

theorem addr6Checked_eq (h128 : pdlen ≤ 128) (ipv4addr psid16 : Bytes) :
    addr6Checked pdlen pd legacy ipv4addr psid16 =
      some (ruleAddr6 legacy pdlen pd ipv4addr psid16) := by
  rw [addr6Checked, ruleAddr6]
  split
  · next hpd =>
    have hlen := pd.2
    refine checked_pos ⟨hpd, ?_, ?_⟩
    · rw [length_poke, length_poke, List.length_replicate]
      exact h128
    · omega
  · rfl

/-- The loop over the port ranges runs at least once. -/
theorem portsChecked_eq (hoffset : 0 ≤ l.offset ∧ l.offset ≤ 16) (psid : Int) :
    portsChecked l psid =
      checked (0 < l.psidlen → 0 ≤ psid → l.offset + l.psidlen ≤ 16)
        (if l.psidlen > 0 ∧ psid ≥ 0 then
          some (portRanges l.offset.toNat l.psidlen.toNat psid.toNat)
        else none) := by
  rw [portsChecked]
  by_cases hused : l.psidlen > 0 ∧ psid ≥ 0
  swap
  · rw [if_neg hused, if_neg hused, checked_pos fun hpos hpsid => absurd ⟨hpos, hpsid⟩ hused]
  rw [if_pos hused, if_pos hused, shiftBy_pos hoffset.1 (by omega)]
  change Option.bind (List.mapM _ _) _ = _
  by_cases hfit : l.offset + l.psidlen ≤ 16
  · have hround (k : Nat) : rangeChecked l.offset l.psidlen psid.toNat k = some (
        let start := k <<< (16 - l.offset.toNat) ||| psid.toNat >>> l.offset.toNat
        let last := start + 1 <<< (16 - l.offset.toNat - l.psidlen.toNat) - 1
        let start := if start = 0 then 1 else start
        if start ≤ last then some (start, last) else none) := by
      have hfirst : (16 - l.offset).toNat = 16 - l.offset.toNat := by omega
      have hsecond : (16 - l.offset - l.psidlen).toNat = 16 - l.offset.toNat - l.psidlen.toNat := by
        omega
      rw [rangeChecked, shiftBy_pos (by omega) (by omega), shiftBy_pos hoffset.1 (by omega),
        shiftBy_pos (by omega) (by omega), hfirst, hsecond]
      rfl
    rw [mapM_some fun k _ => hround k, checked_pos fun _ _ => hfit]
    change some (some (List.filterMap id (List.map _ _))) = _
    rw [List.filterMap_map]
    rfl
  · have hpow := Nat.two_pow_pos l.offset.toNat
    have hround (k : Nat) : rangeChecked l.offset l.psidlen psid.toNat k = none := by
      rw [rangeChecked, shiftBy_pos (by omega) (by omega), shiftBy_pos hoffset.1 (by omega)]
      change (shiftBy _).bind _ = _
      rw [shiftBy, checked_neg (by omega)]
      rfl
    have hsome : 2 ^ l.offset.toNat - (if l.offset.toNat = 0 then 0 else 1) =
        2 ^ l.offset.toNat - (if l.offset.toNat = 0 then 0 else 1) - 1 + 1 := by
      have : l.offset.toNat ≠ 0 → 2 ≤ 2 ^ l.offset.toNat := fun hne => by
        have := Nat.pow_le_pow_right (n := 2) (by decide) (Nat.one_le_iff_ne_zero.mpr hne)
        omega
      split <;> omega
    rw [hsome, List.range'_succ, List.mapM_cons, hround, checked_neg fun h => hfit (h hused.1 hused.2)]
    rfl

/-- When the PSID is known. -/
theorem rulePsid_nonneg (hpos : 0 < l.psidlen) :
    0 ≤ (rulePsid o l pdlen pd).2 ↔ 0 ≤ pdlen ∨ 0 ≤ l.psid := by
  have hpow : (0 : Int) < 2 ^ (16 - l.psidlen).toNat := Int.pow_pos (by decide)
  have hnorm (x : Int) : 0 ≤ x / 2 ^ (16 - l.psidlen).toNat * 2 ^ (16 - l.psidlen).toNat ↔
      0 ≤ x := by
    constructor
    · intro h
      by_contra hneg
      exact Int.not_le.mpr (Int.mul_neg_of_neg_of_pos
        (Int.ediv_neg_of_neg_of_pos (Int.not_le.mp hneg) hpow) hpow) h
    · exact fun h => Int.mul_nonneg (Int.ediv_nonneg h (Int.le_of_lt hpow)) (Int.le_of_lt hpow)
  rw [rulePsid]
  dsimp only
  rw [if_pos hpos]
  dsimp only
  rw [hnorm]
  by_cases hcut : l.psid < 0 ∧ l.psidlen ≥ 0 ∧ pdlen ≥ 0
  · rw [if_pos hcut]
    exact iff_of_true (Int.natCast_nonneg _) (.inl hcut.2.2)
  · rw [if_neg hcut]
    dsimp only
    omega

/-- **A rule whose lengths fit** is computed without leaving a buffer. -/
theorem calcChecked_eq (h128 : pdlen ≤ 128)
    (hfit : ¬ Skipped o (ruleLengths legacy o pdlen) →
      LengthsFit o (ruleLengths legacy o pdlen) pdlen) :
    calcChecked legacy o pdlen pd = some (calcRule legacy o pdlen pd) := by
  obtain ⟨hoffset, hpsidlen⟩ := ruleLengths_range legacy o pdlen
  unfold calcChecked calcRule
  generalize ruleLengths legacy o pdlen = l at *
  dsimp only
  by_cases hskip : Skipped o l
  · rw [if_pos hskip, if_pos hskip]
  rw [if_neg hskip, if_neg hskip]
  have hfit := hfit hskip
  simp only [Skipped, not_or, Int.not_lt] at hskip
  obtain ⟨h4, h6, hea, h16, hle⟩ := hskip
  rw [psidChecked_eq h6 hpsidlen (by omega) hle, checked_pos hfit.psid,
    addr4Checked_eq h6 h4 hle, checked_pos hfit.addr4]
  change (if pdlen < 0 ∧ ¬ o.fmr = true then some none else _) = _
  by_cases hquiet : pdlen < 0 ∧ ¬ o.fmr = true
  · rw [if_pos hquiet, if_pos hquiet]
  rw [if_neg hquiet, if_neg hquiet]
  rw [addr6Checked_eq h128, portsChecked_eq hoffset]
  change (checked _ _).bind _ = _
  rw [checked_pos]
  · rfl
  · intro hpos hpsid
    refine hfit.ports hpos ?_
    rw [rulePsid_nonneg hpos] at hpsid
    by_cases hpd : 0 ≤ pdlen
    · exact .inl hpd
    · refine .inr ⟨?_, hpsid.resolve_left hpd⟩
      by_contra hfmr
      exact hquiet ⟨Int.not_le.mp hpd, hfmr⟩

/-- A rule whose lengths do not fit leaves one. -/
theorem calcChecked_none (h128 : pdlen ≤ 128) (hskip : ¬ Skipped o (ruleLengths legacy o pdlen))
    (hfit : ¬ LengthsFit o (ruleLengths legacy o pdlen) pdlen) :
    calcChecked legacy o pdlen pd = none := by
  obtain ⟨hoffset, hpsidlen⟩ := ruleLengths_range legacy o pdlen
  unfold calcChecked
  generalize ruleLengths legacy o pdlen = l at *
  dsimp only
  rw [if_neg hskip]
  simp only [Skipped, not_or, Int.not_lt] at hskip
  obtain ⟨h4, h6, hea, h16, hle⟩ := hskip
  rw [psidChecked_eq h6 hpsidlen (by omega) hle, addr4Checked_eq h6 h4 hle]
  by_cases hpsid : l.psid < 0 → 0 ≤ pdlen → o.prefix6len + l.ealen < 128
  swap
  · rw [checked_neg hpsid]
    rfl
  by_cases haddr4 : 0 ≤ pdlen ∨ l.ealen = l.psidlen →
      o.prefix6len + (l.ealen - l.psidlen) < 128 ∧ l.ealen - l.psidlen ≤ 32 ∧ o.prefix4len < 32
  swap
  · rw [checked_pos hpsid, checked_neg haddr4]
    rfl
  -- what is left is the loop over the ports
  have hports : ¬ (0 < l.psidlen → 0 ≤ pdlen ∨ o.fmr = true ∧ 0 ≤ l.psid →
      l.offset + l.psidlen ≤ 16) := fun h => hfit ⟨hpsid, haddr4, h⟩
  simp only [Classical.not_imp] at hports
  obtain ⟨hpos, hknown, hlong⟩ := hports
  have hquiet : ¬ (pdlen < 0 ∧ ¬ o.fmr = true) := by
    rintro ⟨hneg, hfmr⟩
    obtain hpd | ⟨hfmr', -⟩ := hknown
    · omega
    · exact hfmr hfmr'
  rw [checked_pos hpsid, checked_pos haddr4]
  change (if pdlen < 0 ∧ ¬ o.fmr = true then some none else _) = _
  rw [if_neg hquiet, addr6Checked_eq h128, portsChecked_eq hoffset]
  change (checked _ _).bind _ = _
  rw [checked_neg]
  · rfl
  · exact fun h => hlong (h hpos ((rulePsid_nonneg hpos).mpr (hknown.imp id And.right)))

end

/-! ## The search for the delegated prefix -/

section
variable {w : Wanted} {s : Pd} {d : IfPrefix}

theorem matchStepChecked_eq (hlen : 0 ≤ w.prefix6len ∧ w.prefix6len ≤ 128)
    (hd : 0 ≤ d.mask ∧ d.mask ≤ 128) : matchStepChecked w s d = some (matchStep w s d) := by
  obtain ⟨h0, h128⟩ := mask_range (w := w) hd
  have hcmp {n : Int} (hn : 0 ≤ n ∧ n ≤ 128) : cmpBits d.addr.1 w.ipv6prefix.1 n =
      some (bmemcmp d.addr.1 w.ipv6prefix.1 n.toNat) := by
    have ha := d.addr.2
    have hb := w.ipv6prefix.2
    exact checked_pos ⟨hn.1, by omega, by omega⟩
  have hcopy {b : Addr 16} {n : Int} (hn : 0 ≤ n ∧ n ≤ 128) : copyChecked s b n = some (s.copy b n) :=
    checked_pos hn
  have hwhen {n : Int} (hn : 0 ≤ n ∧ n ≤ 128) (p : Prop) [Decidable p] :
      cmpWhen p d.addr.1 w.ipv6prefix.1 n =
        some (decide (p ∧ bmemcmp d.addr.1 w.ipv6prefix.1 n.toNat = 0)) := by
    rw [cmpWhen, hcmp hn]
    split
    · next hp =>
      rw [Option.map_some]
      congr 2
      exact propext (and_iff_right hp).symm
    · next hp => rw [decide_eq_false fun h => hp h.1]
  rw [matchStepChecked, matchStep, hwhen hlen]
  change (if decide _ = true then _ else _) = _
  by_cases husable : s.pdlen < mask w d ∧ mask w d ≥ w.prefix6len ∧
      bmemcmp d.addr.1 w.ipv6prefix.1 w.prefix6len.toNat = 0
  · rw [if_pos husable, if_pos (decide_eq_true (and_assoc.mpr husable))]
    exact hcopy ⟨h0, h128⟩
  rw [if_neg husable, if_neg fun h => husable (and_assoc.mp (of_decide_eq_true h)),
    hwhen ⟨h0, h128⟩]
  change (if decide _ = true then _ else _) = _
  by_cases hshorter : w.lw4o6 = true ∧ s.pdlen < w.prefix6len ∧ mask w d < w.prefix6len ∧
      bmemcmp d.addr.1 w.ipv6prefix.1 (mask w d).toNat = 0
  · obtain ⟨hlw, hlt, hmask, hcmp⟩ := hshorter
    rw [if_pos (decide_eq_true ⟨⟨hlw, hlt, hmask⟩, hcmp⟩), if_pos ⟨hlw, hlt, hmask, hcmp⟩]
    exact hcopy hlen
  · rw [if_neg hshorter, if_neg]
    intro h
    obtain ⟨⟨hlw, hlt, hmask⟩, hcmp⟩ := of_decide_eq_true h
    exact hshorter ⟨hlw, hlt, hmask, hcmp⟩

theorem matchPrefixChecked_eq (hlen : 0 ≤ w.prefix6len ∧ w.prefix6len ≤ 128) {ds : List IfPrefix}
    (hds : ∀ d ∈ ds, 0 ≤ d.mask ∧ d.mask ≤ 128) (s : Pd) :
    matchPrefixChecked w s ds = some (matchPrefix w s ds) := by
  induction ds generalizing s with
  | nil => rfl
  | cons d ds ih =>
    obtain ⟨hd, hds⟩ := List.forall_mem_cons.mp hds
    rw [matchPrefixChecked, List.foldlM_cons, matchStepChecked_eq hlen hd]
    exact ih hds _

/-- The search in one interface. -/
theorem findPdChecked_cons {i : Iface} {is : List Iface} {t u : Pd}
    (hprefixes : matchPrefixChecked w s i.prefixes = some t)
    (haddresses : matchAddressesChecked w t i = some u) :
    findPdChecked w s (i :: is) = if u.pdlen ≥ 0 then some u else findPdChecked w u is := by
  rw [findPdChecked, hprefixes]
  change (matchAddressesChecked w t i).bind _ = _
  rw [haddresses]
  rfl

theorem findPdChecked_eq (hlen : 0 ≤ w.prefix6len ∧ w.prefix6len ≤ 128) (ifaces : List Iface)
    (s : Pd) : findPdChecked w s ifaces = some (findPd w s ifaces) := by
  induction ifaces generalizing s with
  | nil => rfl
  | cons i is ih =>
    obtain ⟨hprefixes, haddresses⟩ := List.forall_mem_append.mp i.masks
    have hsecond (s : Pd) : matchAddressesChecked w s i =
        some (if w.lw4o6 = true then matchPrefix w s i.addresses else s) := by
      rw [matchAddressesChecked]
      split
      · exact matchPrefixChecked_eq hlen haddresses s
      · rfl
    rw [findPdChecked_cons (matchPrefixChecked_eq hlen hprefixes s) (hsecond _), findPd, ih]
    exact (apply_ite some _ _ _).symm

theorem matchPrefixChecked_none (hlen : w.prefix6len < 0) (hs : s.pdlen < 0) {ds : List IfPrefix}
    (hds : ∀ d ∈ ds, 0 ≤ d.mask ∧ d.mask ≤ 128) (hne : ds ≠ []) :
    matchPrefixChecked w s ds = none := by
  obtain ⟨d, ds, rfl⟩ := List.exists_cons_of_ne_nil hne
  obtain ⟨h0, -⟩ := mask_range (w := w) (hds d List.mem_cons_self)
  have hcmp : cmpBits d.addr.1 w.ipv6prefix.1 w.prefix6len = none :=
    checked_neg fun h => absurd h.1 (Int.not_le.mpr hlen)
  rw [matchPrefixChecked, List.foldlM_cons, matchStepChecked, cmpWhen, if_pos ⟨by omega, by omega⟩, hcmp]
  rfl

/-- Interfaces without anything to compare. -/
def Bare (w : Wanted) (i : Iface) : Prop := i.prefixes = [] ∧ (w.lw4o6 = true → i.addresses = [])

theorem findPdChecked_bare (hs : s.pdlen < 0) {ifaces : List Iface} (h : ∀ i ∈ ifaces, Bare w i) :
    findPdChecked w s ifaces = some s ∧ findPd w s ifaces = s := by
  induction ifaces with
  | nil => exact ⟨rfl, rfl⟩
  | cons i is ih =>
    obtain ⟨⟨hprefixes, haddresses⟩, his⟩ := List.forall_mem_cons.mp h
    obtain ⟨hchecked, hfind⟩ := ih his
    have hfirst : matchPrefixChecked w s i.prefixes = some s := by
      rw [hprefixes]
      rfl
    have hsecond : matchAddressesChecked w s i = some s ∧
        (if w.lw4o6 = true then matchPrefix w s i.addresses else s) = s := by
      rw [matchAddressesChecked]
      split
      · next hlw =>
        rw [haddresses hlw]
        exact ⟨rfl, rfl⟩
      · exact ⟨rfl, rfl⟩
    have hnone : ¬ s.pdlen ≥ 0 := Int.not_le.mpr hs
    constructor
    · rw [findPdChecked_cons hfirst hsecond.1, if_neg hnone]
      exact hchecked
    · have hpure : matchPrefix w s i.prefixes = s := by
        rw [hprefixes]
        rfl
      rw [findPd, hpure, hsecond.2, if_neg hnone]
      exact hfind

theorem findPdChecked_none (hlen : w.prefix6len < 0) (hs : s.pdlen < 0) {ifaces : List Iface}
    (h : ¬ ∀ i ∈ ifaces, Bare w i) : findPdChecked w s ifaces = none := by
  induction ifaces with
  | nil => exact absurd (fun i hi => absurd hi List.not_mem_nil) h
  | cons i is ih =>
    obtain ⟨hprefixes, haddresses⟩ := List.forall_mem_append.mp i.masks
    by_cases hnil : i.prefixes = []
    swap
    · rw [findPdChecked, matchPrefixChecked_none hlen hs hprefixes hnil]
      rfl
    have hfirst : matchPrefixChecked w s i.prefixes = some s := by
      rw [hnil]
      rfl
    by_cases hcompared : w.lw4o6 = true ∧ i.addresses ≠ []
    · rw [findPdChecked, hfirst]
      change (matchAddressesChecked w s i).bind _ = _
      rw [matchAddressesChecked, if_pos hcompared.1,
        matchPrefixChecked_none hlen hs haddresses hcompared.2]
      rfl
    · have hbare : Bare w i := ⟨hnil, fun hlw => by_contra fun hne => hcompared ⟨hlw, hne⟩⟩
      have hsecond : matchAddressesChecked w s i = some s := by
        rw [matchAddressesChecked]
        split
        · next hlw =>
          rw [hbare.2 hlw]
          rfl
        · rfl
      rw [findPdChecked_cons hfirst hsecond, if_neg (Int.not_le.mpr hs)]
      exact ih fun his => h (List.forall_mem_cons.mpr ⟨hbare, his⟩)

theorem matchPrefix_pdlen_le (hlen : w.prefix6len ≤ 128) {ds : List IfPrefix}
    (hds : ∀ d ∈ ds, 0 ≤ d.mask ∧ d.mask ≤ 128) (hs : s.pdlen ≤ 128) :
    (matchPrefix w s ds).pdlen ≤ 128 := by
  induction ds generalizing s with
  | nil => exact hs
  | cons d ds ih =>
    obtain ⟨hd, hds⟩ := List.forall_mem_cons.mp hds
    refine ih (s := matchStep w s d) hds ?_
    rw [matchStep]
    split
    · exact (mask_range (w := w) hd).2
    split
    · exact hlen
    · exact hs

theorem findPd_pdlen_le (hlen : w.prefix6len ≤ 128) {ifaces : List Iface} (hs : s.pdlen ≤ 128) :
    (findPd w s ifaces).pdlen ≤ 128 := by
  induction ifaces generalizing s with
  | nil => exact hs
  | cons i is ih =>
    obtain ⟨hprefixes, haddresses⟩ := List.forall_mem_append.mp i.masks
    have hfirst := matchPrefix_pdlen_le hlen hprefixes hs
    have hsecond : (if w.lw4o6 = true then matchPrefix w (matchPrefix w s i.prefixes) i.addresses
        else matchPrefix w s i.prefixes).pdlen ≤ 128 := by
      split
      · exact matchPrefix_pdlen_le hlen haddresses hfirst
      · exact hfirst
    rw [findPd]
    generalize (if w.lw4o6 = true then matchPrefix w (matchPrefix w s i.prefixes) i.addresses
      else matchPrefix w s i.prefixes) = u at hsecond ⊢
    split
    · exact hsecond
    · exact ih hsecond

end

/-! ## A whole rule -/

section
variable {legacy : Bool} {a : RuleArgs} {ifaces : List Iface}

theorem delegated_pdlen_le : (delegated a ifaces).pdlen ≤ 128 := by
  rw [delegated]
  split
  · exact findPd_pdlen_le a.options.prefix6len_le a.pdlen_le
  · exact a.pdlen_le

/-- The rule goes on with the delegated prefix, when the search for it is in bounds. -/
theorem ruleChecked_eq (h : a.pdlen < 0 → 0 ≤ a.options.prefix6len ∨ ∀ i ∈ ifaces, Bare a.wanted i) :
    ruleChecked legacy a ifaces =
      calcChecked legacy a.options (delegated a ifaces).pdlen (delegated a ifaces).pd := by
  rw [ruleChecked, delegated]
  by_cases hsearch : a.pdlen < 0
  · rw [if_pos hsearch, if_pos hsearch]
    obtain hlen | hbare := h hsearch
    · rw [findPdChecked_eq ⟨hlen, a.options.prefix6len_le⟩]
      rfl
    · obtain ⟨hchecked, hfind⟩ := findPdChecked_bare (s := ⟨a.pdlen, a.pd⟩) hsearch hbare
      rw [hchecked, hfind]
      rfl
  · rw [if_neg hsearch, if_neg hsearch]
    rfl

theorem givenLengths_eq (legacy : Bool) (o : Options) (pdlen : Int) :
    givenLengths legacy o pdlen = ruleLengths legacy o pdlen := by
  have hoffset : offsetBits legacy o =
      if o.offset < 0 then (if o.lw4o6 = true then 0 else if legacy = true then 4 else 6)
      else o.offset := by
    rw [offsetBits]
    split
    · next h => rw [if_neg (Int.not_lt.mpr h)]
    · next h => rw [if_pos (Int.not_le.mp h)]
  rw [givenLengths, ruleLengths, hoffset, eaBits]
  cases hlw : o.lw4o6 with
  | false =>
    simp only [Bool.false_eq_true, false_and, if_false]
    by_cases hpos : 0 < o.psidlen
    · rw [if_pos hpos, if_neg (Int.not_le.mpr hpos)]
    · rw [if_neg hpos, if_pos (Int.not_lt.mp hpos)]
  | true =>
    simp only [true_and, if_true]
    by_cases hpos : 0 < o.psidlen
    · have hnonneg : ¬ o.psidlen < 0 := Int.not_lt.mpr (Int.le_of_lt hpos)
      have hauto : ¬ (o.psidlen < 0 ∧ pdlen ≥ 0) := fun h => hnonneg h.1
      rw [if_pos hpos, if_neg hnonneg, if_neg (Int.not_le.mpr hpos), if_neg hauto,
        Int.max_eq_right (Int.le_of_lt hpos)]
    · have hzero : (if o.psidlen < 0 then 0 else o.psidlen) = 0 := by
        split <;> omega
      have hauto : ¬ ((0 : Int) < 0 ∧ pdlen ≥ 0) := fun h => Int.lt_irrefl 0 h.1
      rw [if_neg hpos, hzero, if_pos (Int.le_refl 0), if_neg hauto,
        Int.max_eq_left (Int.not_lt.mp hpos)]

/-- **When a rule is safe.** -/
theorem ruleChecked_isSome_iff (legacy : Bool) (a : RuleArgs) (ifaces : List Iface) :
    (ruleChecked legacy a ifaces).isSome = true ↔ RuleFits legacy a ifaces := by
  constructor
  · intro h
    have hsearch : a.pdlen < 0 → 0 ≤ a.options.prefix6len ∨ ∀ i ∈ ifaces, Bare a.wanted i := by
      intro hneg
      by_contra hbad
      obtain ⟨hlen, hbare⟩ := not_or.mp hbad
      have hnone := findPdChecked_none (s := ⟨a.pdlen, a.pd⟩) (Int.not_le.mp hlen) hneg hbare
      rw [ruleChecked, if_pos hneg, hnone] at h
      cases h
    refine ⟨hsearch, ?_⟩
    rw [givenLengths_eq]
    intro hskip
    by_contra hfit
    rw [ruleChecked_eq hsearch, calcChecked_none delegated_pdlen_le hskip hfit] at h
    cases h
  · rintro ⟨hsearch, hlengths⟩
    rw [givenLengths_eq] at hlengths
    rw [ruleChecked_eq hsearch, calcChecked_eq delegated_pdlen_le hlengths]
    rfl

end

/-! ## A rule without the length of its IPv6 prefix -/

theorem short_ealen : (16 : Int) ≤ 48 := by decide
theorem short_prefix4len : (24 : Int) ≤ 32 := by decide
theorem unset_le_16 : (-1 : Int) ≤ 16 := by decide
theorem unset_le_128 : (-1 : Int) ≤ 128 := by decide
theorem unset_le_65535 : (-1 : Int) ≤ 65535 := by decide

theorem length_zeros4 : (List.replicate 4 (0 : UInt8)).length = 4 := List.length_replicate

/-- `type=map-e,ealen=16,prefix4len=24`, without `prefix6len`. -/
def shortRule : RuleArgs where
  options :=
    { lw4o6 := false, fmr := false, ealen := 16, prefix4len := 24, prefix6len := -1, offset := -1
      psidlen := -1, psid := -1, ipv4prefix := ⟨List.replicate 4 0, length_zeros4⟩
      ealen_le := short_ealen, prefix4len_le := short_prefix4len, prefix6len_le := unset_le_128
      offset_le := unset_le_16, psidlen_le := unset_le_16, psid_le := unset_le_65535 }
  ipv6prefix := ⟨List.replicate 16 0, length_zeros16⟩
  pd := ⟨List.replicate 16 0, length_zeros16⟩
  pdlen := -1
  pdlen_le := unset_le_128

theorem mask56 : ∀ d ∈ [(⟨⟨List.replicate 16 0, length_zeros16⟩, 56⟩ : IfPrefix)] ++ [],
    0 ≤ d.mask ∧ d.mask ≤ 128 := by
  intro d hd
  obtain rfl := List.mem_singleton.mp hd
  decide

/-- An interface with a prefix of 56 bits. -/
def oneIface : Iface := ⟨[⟨⟨List.replicate 16 0, length_zeros16⟩, 56⟩], [], mask56⟩

/-- The comparison gets -1 for a length, before the rule is found to be incomplete. -/
theorem not_ruleChecked : ¬ ∀ (legacy : Bool) (a : RuleArgs) (ifaces : List Iface),
    (ruleChecked legacy a ifaces).isSome = true := by
  intro h
  have hbare : ¬ ∀ i ∈ [oneIface], Bare shortRule.wanted i := fun hall => by
    cases (hall oneIface List.mem_cons_self).1
  have hnone := findPdChecked_none (w := shortRule.wanted) (s := ⟨shortRule.pdlen, shortRule.pd⟩)
    (by decide) (by decide) hbare
  have hsome := h false shortRule [oneIface]
  rw [ruleChecked, if_pos (by decide), hnone] at hsome
  cases hsome

end UolaOs.Map
