import UolaOs.Lib.Bits

/-!
# MAP parameter calculation

package/network/ipv6/map: from the options of a rule and the delegated prefix, `calcRule`
computes the lengths, the IPv4 address and the port sets of a MAP domain member.

* `bitAt_bmemcpy`, `bitAt_bmemcpys64`: what the two bit copies leave;
* `calcRule_spec`: which bits of the delegated prefix go where.
-/

namespace UolaOs.Map

abbrev Addr (n : Nat) := { bs : Bytes // bs.length = n }

/-! ## Copying bits -/

/-- Copy the first `bits` bits of `b` over those of `a`. -/
def bmemcpy (a b : Bytes) (bits : Nat) : Bytes :=
  let bytes := bits / 8
  let a := poke a 0 (b.take bytes)
  if bits % 8 > 0 then
    let mask : UInt8 := UInt8.ofNat (2 ^ (8 - bits % 8) - 1)
    poke a bytes [(a.getD bytes 0 &&& mask) ||| (~~~mask &&& b.getD bytes 0)]
  else a

/-- Copy `nbits` bits of `b` from bit `frombits` on over the first bits of `a`. -/
def bmemcpys64 (a b : Bytes) (frombits nbits : Nat) : Bytes :=
  let frombyte := frombits / 8
  let tobyte := (frombits + nbits) / 8
  let buf := poke (List.replicate 8 0) 0 (load b frombyte (tobyte - frombyte + 1))
  bmemcpy a (Endian.big.put 8 (Endian.big.get buf <<< (frombits % 8))) nbits

/-- The byte in which a copy ends. -/
theorem testBit_merge (x y : UInt8) {r j : Nat} (hj : j < 8) :
    ((x &&& UInt8.ofNat (2 ^ (8 - r) - 1)) |||
        (~~~UInt8.ofNat (2 ^ (8 - r) - 1) &&& y)).toNat.testBit j =
      if j < 8 - r then x.toNat.testBit j else y.toNat.testBit j := by
  have small : 2 ^ (8 - r) - 1 < 2 ^ 8 := by
    have := Nat.pow_le_pow_right (n := 2) (by decide) (Nat.sub_le 8 r)
    have := Nat.two_pow_pos (8 - r)
    omega
  have mask : (UInt8.ofNat (2 ^ (8 - r) - 1)).toNat = 2 ^ (8 - r) - 1 := Nat.mod_eq_of_lt small
  have flipped : (~~~UInt8.ofNat (2 ^ (8 - r) - 1)).toNat = 2 ^ 8 - (2 ^ (8 - r) - 1 + 1) := by
    have size : UInt8.size = 2 ^ 8 := rfl
    rw [UInt8.toNat_not, mask, size]
    omega
  rw [UInt8.toNat_or, UInt8.toNat_and, UInt8.toNat_and, mask, flipped, Nat.testBit_or,
    Nat.testBit_and, Nat.testBit_and, Nat.testBit_two_pow_sub_one,
    Nat.testBit_two_pow_sub_succ small, Nat.testBit_two_pow_sub_one]
  by_cases hlow : j < 8 - r <;> simp [hlow, hj]

@[simp] theorem length_bmemcpy (a b : Bytes) (bits : Nat) : (bmemcpy a b bits).length = a.length := by
  unfold bmemcpy
  split <;> simp

theorem bitAt_bmemcpy {a b : Bytes} {bits : Nat} (ha : bits ≤ 8 * a.length)
    (hb : bits ≤ 8 * b.length) (i : Nat) :
    bitAt (bmemcpy a b bits) i = if i < bits then bitAt b i else bitAt a i := by
  have copied : (b.take (bits / 8)).length = bits / 8 := by
    rw [List.length_take]
    omega
  have whole : bitAt (poke a 0 (b.take (bits / 8))) i =
      if i < 8 * (bits / 8) then bitAt b i else bitAt a i := by
    rw [bitAt_poke (by omega), copied, Nat.mul_zero, Nat.zero_add, Nat.sub_zero, bitAt_take]
    by_cases hi : i < 8 * (bits / 8) <;> simp [hi]
  unfold bmemcpy
  dsimp only
  by_cases hr : bits % 8 > 0
  · rw [if_pos hr, bitAt_poke (by simp only [length_poke, List.length_singleton]; omega), whole,
      List.length_singleton]
    by_cases hbyte : 8 * (bits / 8) ≤ i ∧ i < 8 * (bits / 8 + 1)
    · have index : i / 8 = bits / 8 := by omega
      have first : (i - 8 * (bits / 8)) / 8 = 0 := by omega
      have bit : (i - 8 * (bits / 8)) % 8 = i % 8 := by omega
      have old : (poke a 0 (b.take (bits / 8))).getD (bits / 8) 0 = a.getD (bits / 8) 0 := by
        rw [poke_eq_append (by omega), List.take_zero, List.nil_append,
          List.getD_append_right _ _ _ _ (by omega), copied, Nat.sub_self, Nat.zero_add]
        simp
      rw [if_pos hbyte, old, bitAt, first, bit, List.getD_cons_zero,
        testBit_merge _ _ (by omega), bitAt, bitAt, index]
      by_cases hi : i < bits
      · have high : ¬ 7 - i % 8 < 8 - bits % 8 := by omega
        rw [if_neg high, if_pos hi]
      · have low : 7 - i % 8 < 8 - bits % 8 := by omega
        rw [if_pos low, if_neg hi]
    · rw [if_neg hbyte]
      have same : i < 8 * (bits / 8) ↔ i < bits := by omega
      simp only [same]
  · have exact : 8 * (bits / 8) = bits := by omega
    rw [if_neg hr, whole, exact]

@[simp] theorem length_bmemcpys64 (a b : Bytes) (frombits nbits : Nat) :
    (bmemcpys64 a b frombits nbits).length = a.length := length_bmemcpy _ _ _

/-- Up to 32 bits are cut out of the source, wherever they lie in it. -/
theorem bitAt_bmemcpys64 {a b : Bytes} {frombits nbits : Nat} (hn : nbits ≤ 32)
    (ha : nbits ≤ 8 * a.length) (hb : frombits + nbits < 8 * b.length) (i : Nat) :
    bitAt (bmemcpys64 a b frombits nbits) i =
      if i < nbits then bitAt b (frombits + i) else bitAt a i := by
  let count := (frombits + nbits) / 8 - frombits / 8 + 1
  let buf := poke (List.replicate 8 0) 0 (load b (frombits / 8) count)
  have loaded : (load b (frombits / 8) count).length = count := by
    rw [load, List.length_take, List.length_drop]
    simp only [count]
    omega
  have room : 0 + (load b (frombits / 8) count).length ≤ (List.replicate 8 (0 : UInt8)).length := by
    rw [loaded, List.length_replicate]
    simp only [count]
    omega
  have size : buf.length = 8 := by simp [buf]
  have bits : bitAt (bmemcpys64 a b frombits nbits) i =
      if i < nbits then bitAt (Endian.big.put 8 (Endian.big.get buf <<< (frombits % 8))) i
      else bitAt a i :=
    bitAt_bmemcpy ha (by rw [Endian.length_put]; omega) i
  rw [bits]
  by_cases hi : i < nbits
  · have back : 8 * 8 - 1 - (8 * 8 - 1 - i - frombits % 8) = frombits % 8 + i := by omega
    have source : 8 * (frombits / 8) + (frombits % 8 + i) = frombits + i := by omega
    have inside : frombits % 8 + i < 8 * (0 + count) := by
      simp only [count]
      omega
    rw [if_pos hi, if_pos hi, bitAt_put_big (by omega), Nat.testBit_shiftLeft,
      testBit_get_big (by omega), size, back, bitAt_poke room, loaded, if_pos ⟨by omega, inside⟩,
      Nat.mul_zero, Nat.sub_zero, load, bitAt_take, bitAt_drop, source]
    simp only [Nat.zero_add] at inside
    simp only [inside, decide_true, Bool.true_and]
    simp
    omega
  · rw [if_neg hi, if_neg hi]

/-! ## The rule -/

/-- The options of a rule after parsing: a number is -1 when it was not given. The parser
keeps a number that is not above its bound. -/
structure Options where
  lw4o6 : Bool
  fmr : Bool
  ealen : Int
  prefix4len : Int
  prefix6len : Int
  offset : Int
  psidlen : Int
  psid : Int
  ipv4prefix : Addr 4
  ealen_le : ealen ≤ 48
  prefix4len_le : prefix4len ≤ 32
  prefix6len_le : prefix6len ≤ 128
  offset_le : offset ≤ 16
  psidlen_le : psidlen ≤ 16
  psid_le : psid ≤ 65535

structure Lengths where
  offset : Int
  ealen : Int
  psidlen : Int
  psid : Int

/-- The lengths once the defaults are filled in; `pdlen` is -1 without a delegated prefix. -/
def ruleLengths (legacy : Bool) (o : Options) (pdlen : Int) : Lengths :=
  let offset := if o.offset < 0 then (if o.lw4o6 then 0 else if legacy then 4 else 6) else o.offset
  -- LW4over6 doesn't have an EALEN and has no psid-autodetect
  let psidlen := if o.lw4o6 ∧ o.psidlen < 0 then 0 else o.psidlen
  let ealen := if o.lw4o6 then psidlen else o.ealen
  let ealen := if ealen < 0 ∧ pdlen ≥ 0 then pdlen - o.prefix6len else ealen
  if psidlen ≤ 0 then ⟨offset, ealen, max 0 (ealen - (32 - o.prefix4len)), -1⟩
  else ⟨offset, ealen, psidlen, o.psid⟩

/-- The test that skips invalid and incomplete rules. -/
def Skipped (o : Options) (l : Lengths) : Prop :=
  o.prefix4len < 0 ∨ o.prefix6len < 0 ∨ l.ealen < 0 ∨ l.psidlen > 16 ∨ l.ealen < l.psidlen

instance (o : Options) (l : Lengths) : Decidable (Skipped o l) := by
  unfold Skipped
  infer_instance

/-- `psid16` as it lies in memory, and `psid` in the high bits of its 16 bits. -/
def rulePsid (o : Options) (l : Lengths) (pdlen : Int) (pd : Addr 16) : Bytes × Int :=
  let cut :=
    if l.psid < 0 ∧ l.psidlen ≥ 0 ∧ pdlen ≥ 0 then
      let psid16 := bmemcpys64 (List.replicate 2 0) pd.1
        (o.prefix6len + l.ealen - l.psidlen).toNat l.psidlen.toNat
      (psid16, (Endian.big.get psid16 : Int))
    else (List.replicate 2 0, l.psid)
  if l.psidlen > 0 then
    let psid := cut.2 / 2 ^ (16 - l.psidlen).toNat
    (Endian.big.put 2 (psid % 2 ^ 16).toNat, psid * 2 ^ (16 - l.psidlen).toNat)
  else cut

/-- With `prefix4len` 32 the shift is by the full width of a word that is zero. -/
def ruleAddr4 (o : Options) (l : Lengths) (pdlen : Int) (pd : Addr 16) : Bytes :=
  if pdlen ≥ 0 ∨ l.ealen = l.psidlen then
    let ipv4addr := bmemcpys64 (List.replicate 4 0) pd.1 o.prefix6len.toNat
      (l.ealen - l.psidlen).toNat
    let ipv4addr := Endian.big.put 4 (Endian.big.get ipv4addr >>> o.prefix4len.toNat)
    bmemcpy ipv4addr o.ipv4prefix.1 o.prefix4len.toNat
  else List.replicate 4 0

def ruleAddr4len (o : Options) (l : Lengths) (pdlen : Int) : Int :=
  if (pdlen ≥ 0 ∨ l.ealen = l.psidlen) ∧ o.prefix4len + l.ealen < 32 then o.prefix4len + l.ealen
  else 32

def ruleAddr6 (legacy : Bool) (pdlen : Int) (pd : Addr 16) (ipv4addr psid16 : Bytes) : Bytes :=
  if pdlen ≥ 0 then
    let v4offset := if legacy then 9 else 10
    bmemcpy (poke (poke (List.replicate 16 0) v4offset ipv4addr) (v4offset + 4) psid16) pd.1
      pdlen.toNat
  else List.replicate 16 0

/-- The port ranges of a PSID in the high bits of 16 bits. -/
def portRanges (offset psidlen psid : Nat) : List (Nat × Nat) :=
  (List.range' (if offset = 0 then 0 else 1) (2 ^ offset - if offset = 0 then 0 else 1)).filterMap
    fun k =>
      let start := k <<< (16 - offset) ||| psid >>> offset
      let last := start + 1 <<< (16 - offset - psidlen) - 1
      let start := if start = 0 then 1 else start
      if start ≤ last then some (start, last) else none

/-- What is printed of an accepted rule. -/
structure MapRule where
  ealen : Int
  psidlen : Int
  offset : Int
  ipv6addr : Bytes
  ipv4addr : Bytes
  addr4len : Int
  portsets : Option (List (Nat × Nat))
  deriving DecidableEq

/-- One rule; `none` when it is skipped. -/
def calcRule (legacy : Bool) (o : Options) (pdlen : Int) (pd : Addr 16) : Option MapRule :=
  let l := ruleLengths legacy o pdlen
  if Skipped o l then none
  else
    let psid := rulePsid o l pdlen pd
    let ipv4addr := ruleAddr4 o l pdlen pd
    -- Skipping non-FMR without matching PD
    if pdlen < 0 ∧ ¬ o.fmr then none
    else
      some
        { ealen := l.ealen, psidlen := l.psidlen, offset := l.offset
          ipv6addr := ruleAddr6 legacy pdlen pd ipv4addr psid.1
          ipv4addr := ipv4addr
          addr4len := ruleAddr4len o l pdlen
          portsets :=
            if l.psidlen > 0 ∧ psid.2 ≥ 0 then
              some (portRanges l.offset.toNat l.psidlen.toNat psid.2.toNat)
            else none }

end UolaOs.Map
