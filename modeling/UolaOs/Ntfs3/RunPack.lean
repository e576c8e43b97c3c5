import Mathlib.Data.Nat.Bitwise
import UolaOs.Ntfs3.RunStore

/-!
# Packed runs

`run_pack` writes the runs of a range one after the other, each as a byte with the sizes of its two
numbers, its length, and how far it is from the place of the run before it. `run_unpack` adds what
it reads to a tree.
-/

namespace UolaOs.Ntfs3

/-! ## Packing -/

/-- The byte `k` of a 64-bit number. -/
def byteOf (n : Int) (k : Nat) : Int := n / 256 ^ k % 256

/-- The last byte that is not the same as all those behind it, where `used` says which differ from
the sign. -/
def lastByte (used : Nat → Bool) : Nat :=
  let p := if used 7 || used 6 || used 5 || used 4 then 4 else 0
  let p := if used (p + 3) || used (p + 2) then p + 2 else p
  if used (p + 1) then p + 1 else p

/-- `run_packed_size`: with one more byte where the sign would be another one. -/
def runPackedSize (n : Int) : Nat :=
  let fill := if 0 ≤ n then 0 else 0xff
  let p := lastByte fun k => byteOf n k ≠ fill
  1 + if 128 ≤ byteOf n p ↔ 0 ≤ n then p + 1 else p

/-- `run_pack_s64` -/
def runPackS64 (size : Nat) (v : Int) : Bytes := leBytes size (v % 256 ^ size).toNat

/-- The size of the place, how far it is, and the place to go on from. -/
def packOffset (lcn prev : Nat) : Nat × Int × Nat :=
  if lcn = sparseLcn then (0, 0, prev)
  else (runPackedSize ((lcn : Int) - prev), (lcn : Int) - prev, lcn)

/-- What `run_pack` writes for a run of `len` clusters. -/
def packedRun (lcn len prev : Nat) : Bytes :=
  let off := packOffset lcn prev
  UInt8.ofNat (runPackedSize len ||| off.1 <<< 4) ::
    (runPackS64 (runPackedSize len) len ++ runPackS64 off.1 off.2.1)

/-- What a round of `run_pack` leaves: whether it is the last one, the place to go on from, what is
written and how many clusters it is for. -/
structure PackRound where
  last : Bool
  prev : Nat
  out : Bytes
  packed : Nat

def packRound (evcn1 size : Nat) (r : NtfsRun) (prev : Nat) (out : Bytes) (packed : Nat) :
    PackRound :=
  let next := r.next
  let len := if evcn1 < next then clstSub evcn1 r.vcn else r.len
  let off := packOffset r.lcn prev
  let tmp := Int.bmod ((size : Int) - out.length - 2 - off.1) (2 ^ 32)
  if tmp ≤ 0 ∨ tmp < runPackedSize len then ⟨true, prev, out, packed⟩
  else
    let out := out ++ packedRun r.lcn len prev
    ⟨size ≤ out.length + 1 ∨ evcn1 ≤ next, off.2.2, out, clstAdd packed len⟩

/-- The loop of `run_pack` from `r` on. -/
def packRounds (evcn1 size : Nat) :
    List NtfsRun → NtfsRun → Nat → Bytes → Nat → Option (Bytes × Nat)
  | [], r, prev, out, packed =>
    let round := packRound evcn1 size r prev out packed
    if round.last then some (round.out ++ [0], round.packed) else none
  | n :: rest, r, prev, out, packed =>
    let round := packRound evcn1 size r prev out packed
    if round.last then some (round.out ++ [0], round.packed)
    else if n.len = 0 ∨ r.next ≠ n.vcn then none
    else packRounds evcn1 size rest n round.prev round.out round.packed

/-- `run_pack`: the bytes and for how many clusters they are, none when a cluster is not mapped. -/
def runPack (run : List NtfsRun) (svcn len size : Nat) : Option (Bytes × Nat) :=
  if len = 0 then some ([0], 0)
  else
    (runLookupEntry run svcn).bind fun e =>
      packRounds (clstAdd svcn len) size (run.drop (e.2.2 + 1)) ⟨svcn, e.2.1, e.1⟩ 0 [] 0

/-! ## Unpacking -/

inductive UnpackErr where
  | einval
  | eopnotsupp
  | enomem
  deriving DecidableEq

/-- `SPARSE_LCN64` -/
def sparseLcn64 : Nat := 2 ^ 64 - 1

/-- `run_unpack_s64`, where the bytes behind `size` are those of `v`, which is 0 or -1. -/
def runUnpackS64 (buf : Nat → UInt8) (pos size : Nat) (v : Int) : Int :=
  leNat ((List.range size).map fun i => buf (pos + i)) + v * 256 ^ size

/-- The place of a packed run and the place to go on from. -/
def unpackOffset (buf : Nat → UInt8) (pos size prev : Nat) : Except UnpackErr (Nat × Nat) :=
  if size = 0 then .ok (sparseLcn64, prev)
  else if size ≤ 8 then
    let v := if buf (pos + size - 1) &&& 0x80 ≠ 0 then -1 else 0
    let dlcn := runUnpackS64 buf pos size v
    let lcn := (((prev : Int) + dlcn) % 2 ^ 64).toNat
    if dlcn = 0 then .error .einval else .ok (lcn, lcn)
  else .error .einval

/-- What is added of a run when only the clusters from `vcn` on are wanted. -/
def loadedPart (vcn vcn64 lcn len next : Nat) : Option NtfsRun :=
  if vcn ≤ vcn64 then some ⟨vcn64 % 2 ^ 32, len % 2 ^ 32, lcn % 2 ^ 32⟩
  else if vcn < next then
    let dlen := vcn - vcn64
    some ⟨vcn, (len - dlen) % 2 ^ 32, (lcn + dlen) % 2 ^ 32⟩
  else none

/-- The checks of one round of `run_unpack`. -/
def checkRun (nbits evcn lcn len next : Nat) : Except UnpackErr Unit :=
  if (evcn + 1) % 2 ^ 32 < next then .error .einval
  else if 2 ^ 32 < next ∨ 2 ^ 32 < (lcn + len) % 2 ^ 64 then .error .eopnotsupp
  else if lcn ≠ sparseLcn64 ∧ nbits < (lcn + len) % 2 ^ 64 then .error .einval
  else .ok ()

section
variable (alloc : Nat → Bool) (nbits evcn vcn : Nat) (buf : Nat → UInt8) (size : Nat)

/-- The loop of `run_unpack`, with the position, the next cluster, the last place and the tree. -/
def unpackRounds : Nat → Nat → Nat → Nat → List NtfsRun →
    Except UnpackErr (Nat × Nat × List NtfsRun)
  | 0, _, _, _, _ => .error .einval
  | fuel + 1, pos, vcn64, prev, run =>
    if size ≤ pos then .ok (pos, vcn64, run)
    else
      let sizeSize := (buf pos).toNat &&& 0xf
      let offsetSize := (buf pos).toNat >>> 4
      if sizeSize = 0 then .ok (pos + 1, vcn64, run)
      else if 8 < sizeSize then .error .einval
      else
        let len := (runUnpackS64 buf (pos + 1) sizeSize 0).toNat
        let next := (vcn64 + len) % 2 ^ 64
        if len = 0 then .error .einval
        else
          (unpackOffset buf (pos + 1 + sizeSize) offsetSize prev).bind fun lcn =>
            (checkRun nbits evcn lcn.1 len next).bind fun _ =>
              match loadedPart vcn vcn64 lcn.1 len next with
              | none => unpackRounds fuel (pos + 1 + sizeSize + offsetSize) next lcn.2 run
              | some r =>
                match runAddEntry alloc 3 run r.vcn r.lcn r.len with
                | .error _ => .error .enomem
                | .ok run => unpackRounds fuel (pos + 1 + sizeSize + offsetSize) next lcn.2 run

/-- `run_unpack` into a tree: the bytes that were used, and the tree. -/
def runUnpack (svcn : Nat) (run : List NtfsRun) : Except UnpackErr (Nat × List NtfsRun) :=
  if (evcn + 1) % 2 ^ 32 = svcn then .ok (0, run)
  else if evcn < svcn then .error .einval
  else
    (unpackRounds alloc nbits evcn vcn buf size (size + 1) 0 svcn 0 run).bind fun r =>
      if r.2.1 ≠ (evcn + 1) % 2 ^ 32 then .error .einval else .ok (r.1, r.2.2)

end

/-! ## Numbers -/

/-- Numbers of `k + 1` bytes with a sign. -/
def FitsIn (k : Nat) (n : Int) : Prop := -(128 * 256 ^ k) ≤ n ∧ n < 128 * 256 ^ k

theorem lastByte_spec (used : Nat → Bool) :
    lastByte used ≤ 7 ∧ ∀ k, lastByte used < k → k < 8 → used k = false := by
  rw [lastByte]
  generalize hp : (if used 7 || used 6 || used 5 || used 4 then 4 else 0) = p
  have hhigh : p ≤ 4 ∧ ∀ k, p + 4 ≤ k → k < 8 → used k = false := by
    split at hp
    · exact ⟨by omega, fun k _ _ => by omega⟩
    · rename_i h
      simp only [Bool.or_eq_true, not_or, Bool.not_eq_true] at h
      refine ⟨by omega, fun k _ _ => ?_⟩
      obtain rfl | rfl | rfl | rfl : k = 4 ∨ k = 5 ∨ k = 6 ∨ k = 7 := by omega
      · exact h.2
      · exact h.1.2
      · exact h.1.1.2
      · exact h.1.1.1
  generalize hq : (if used (p + 3) || used (p + 2) then p + 2 else p) = q
  have hmiddle : q ≤ 6 ∧ ∀ k, q + 2 ≤ k → k < 8 → used k = false := by
    split at hq
    · exact ⟨by omega, fun k _ _ => hhigh.2 k (by omega) (by omega)⟩
    · rename_i h
      simp only [Bool.or_eq_true, not_or, Bool.not_eq_true] at h
      refine ⟨by omega, fun k _ hk => ?_⟩
      obtain rfl | rfl | hfar : k = p + 2 ∨ k = p + 3 ∨ p + 4 ≤ k := by omega
      · exact h.2
      · exact h.1
      · exact hhigh.2 k hfar hk
  split
  · exact ⟨by omega, fun k _ hk => hmiddle.2 k (by omega) hk⟩
  · rename_i h
    refine ⟨by omega, fun k _ hk => ?_⟩
    obtain rfl | hfar : k = q + 1 ∨ q + 2 ≤ k := by omega
    · exact Bool.eq_false_of_not_eq_true h
    · exact hmiddle.2 k hfar hk

theorem byteOf_flip (w : Int) (k : Nat) : byteOf (-w - 1) k = 255 - byteOf w k := by
  have hpos : (0 : Int) < 256 ^ k := Int.pow_pos (by decide)
  have hdiv : (-w - 1) / 256 ^ k = -(w / 256 ^ k) - 1 := by
    have hw := Int.mul_ediv_add_emod w (256 ^ k)
    have hlo := Int.emod_nonneg w (Int.ne_of_gt hpos)
    have hhi := Int.emod_lt_of_pos w hpos
    have heq : -w - 1 = 256 ^ k - 1 - w % 256 ^ k + 256 ^ k * (-(w / 256 ^ k) - 1) := by
      rw [Int.mul_sub, Int.mul_neg]
      omega
    rw [heq, Int.add_mul_ediv_left _ _ (Int.ne_of_gt hpos), Int.ediv_eq_zero_of_lt (by omega) (by omega),
      Int.zero_add]
  rw [byteOf, byteOf, hdiv]
  omega

theorem lt_of_bytes {w : Int} {p : Nat} (h0 : 0 ≤ w) (h8 : w < 256 ^ 8) (hp : p ≤ 7)
    (hz : ∀ k, p < k → k < 8 → byteOf w k = 0) : w < 256 ^ (p + 1) := by
  have hdown : ∀ d, d ≤ 7 - p → w < 256 ^ (8 - d) := by
    intro d
    induction d with
    | zero => exact fun _ => h8
    | succ d ih =>
      intro hd
      have hlt := ih (by omega)
      have hbyte := hz (7 - d) (by omega) (by omega)
      have hpos : (0 : Int) < 256 ^ (7 - d) := Int.pow_pos (by decide)
      rw [show 8 - d = 7 - d + 1 by omega, Int.pow_succ] at hlt
      rw [byteOf] at hbyte
      have hq : w / 256 ^ (7 - d) < 256 := by
        rw [Int.ediv_lt_iff_lt_mul hpos, Int.mul_comm]
        exact hlt
      have hq0 : 0 ≤ w / 256 ^ (7 - d) := Int.ediv_nonneg h0 (Int.le_of_lt hpos)
      have hzero : w / 256 ^ (7 - d) < 1 := by omega
      rw [Int.ediv_lt_iff_lt_mul hpos, Int.one_mul] at hzero
      rw [show 8 - (d + 1) = 7 - d by omega]
      exact hzero
  have h := hdown (7 - p) (Nat.le_refl _)
  rwa [show 8 - (7 - p) = p + 1 by omega] at h

/-- A byte that reaches into the sign. -/
theorem top_iff {w : Int} {p : Nat} (h0 : 0 ≤ w) (h : w < 256 ^ (p + 1)) :
    128 ≤ byteOf w p ↔ 128 * 256 ^ p ≤ w := by
  have hpos : (0 : Int) < 256 ^ p := Int.pow_pos (by decide)
  rw [Int.pow_succ] at h
  have hlt : w / 256 ^ p < 256 := by
    rw [Int.ediv_lt_iff_lt_mul hpos, Int.mul_comm]
    exact h
  have hnonneg : 0 ≤ w / 256 ^ p := Int.ediv_nonneg h0 (Int.le_of_lt hpos)
  rw [byteOf, Int.emod_eq_of_lt hnonneg hlt, Int.le_ediv_iff_mul_le hpos]

theorem fits_of_lastByte {w : Int} {p : Nat} (h0 : 0 ≤ w) (h8 : w < 128 * 256 ^ 7) (hp : p ≤ 7)
    (hz : ∀ k, p < k → k < 8 → byteOf w k = 0) :
    ∃ k, (if 128 ≤ byteOf w p then p + 1 else p) = k ∧ k ≤ 7 ∧ w < 128 * 256 ^ k := by
  have hlt := lt_of_bytes h0 (by omega) hp hz
  have htop := top_iff h0 hlt
  split
  · rename_i h
    have hpos : (0 : Int) < 256 ^ (p + 1) := Int.pow_pos (by decide)
    refine ⟨p + 1, rfl, ?_, by omega⟩
    by_contra hle
    obtain rfl : p = 7 := by omega
    omega
  · rename_i h
    exact ⟨p, rfl, hp, by omega⟩

/-- The size has room for the number and its sign. -/
theorem runPackedSize_spec {n : Int} (hlo : -(128 * 256 ^ 7) ≤ n) (hhi : n < 128 * 256 ^ 7) :
    ∃ k, runPackedSize n = k + 1 ∧ k ≤ 7 ∧ FitsIn k n := by
  rw [runPackedSize]
  generalize hfill : (if 0 ≤ n then (0 : Int) else 0xff) = fill
  obtain ⟨hp, hz⟩ := lastByte_spec fun k => byteOf n k ≠ fill
  generalize lastByte (fun k => decide (byteOf n k ≠ fill)) = p at hp hz
  simp only [decide_eq_false_iff_not, not_not] at hz
  by_cases hn : 0 ≤ n
  · rw [if_pos hn] at hfill
    subst hfill
    obtain ⟨k, hk, hle, hlt⟩ := fits_of_lastByte hn hhi hp hz
    have hpos : (0 : Int) < 256 ^ k := Int.pow_pos (by decide)
    refine ⟨k, ?_, hle, by omega, hlt⟩
    simp only [hn, iff_true, hk, Nat.add_comm]
  · rw [if_neg hn] at hfill
    subst hfill
    have hflip : n = -(-n - 1) - 1 := by omega
    have hz' : ∀ k, p < k → k < 8 → byteOf (-n - 1) k = 0 := by
      intro k hk hk8
      have hbyte := hz k hk hk8
      rw [hflip, byteOf_flip] at hbyte
      omega
    obtain ⟨k, hk, hle, hlt⟩ := fits_of_lastByte (by omega) (by omega) hp hz'
    have hpos : (0 : Int) < 256 ^ k := Int.pow_pos (by decide)
    have htop : ¬ 128 ≤ byteOf n p ↔ 128 ≤ byteOf (-n - 1) p := by
      have hbyte := byteOf_flip (-n - 1) p
      rw [← hflip] at hbyte
      omega
    refine ⟨k, ?_, hle, by omega, by omega⟩
    simp only [hn, iff_false, htop, hk, Nat.add_comm]

/-- What is read with the sign of the last byte is what was written. -/
theorem leNat_runPackS64 {n : Int} {k : Nat} (h : FitsIn k n) :
    (leNat (runPackS64 (k + 1) n) : Int) + (if n < 0 then -1 else 0) * 256 ^ (k + 1) = n := by
  obtain ⟨hlo, hhi⟩ := h
  have hpos : (0 : Int) < 256 ^ k := Int.pow_pos (by decide)
  have hsucc : (256 : Int) ^ (k + 1) = 256 * 256 ^ k := by rw [Int.pow_succ, Int.mul_comm]
  have hmod := Int.emod_nonneg n (show (256 : Int) ^ (k + 1) ≠ 0 by omega)
  have hlt := Int.emod_lt_of_pos n (show (0 : Int) < 256 ^ (k + 1) by omega)
  have hnat : (n % 256 ^ (k + 1)).toNat < 256 ^ (k + 1) := by
    apply Int.ofNat_lt.mp
    rw [Int.toNat_of_nonneg hmod]
    push_cast
    exact hlt
  rw [runPackS64, leNat_leBytes, Nat.mod_eq_of_lt hnat, Int.toNat_of_nonneg hmod]
  split
  · have heq : n % 256 ^ (k + 1) = n + 256 ^ (k + 1) := by
      rw [← Int.add_emod_right, Int.emod_eq_of_lt (by omega) (by omega)]
    omega
  · rw [Int.emod_eq_of_lt (by omega) (by omega)]
    omega

theorem runPackS64_last (n : Int) (k : Nat) :
    ((runPackS64 (k + 1) n).getD k 0).toNat = (n % 256 ^ (k + 1)).toNat / 256 ^ k % 256 := by
  have hlast : ∀ k m, (leBytes (k + 1) m).getD k 0 = UInt8.ofNat (m / 256 ^ k) := by
    intro k
    induction k with
    | zero => exact fun m => by rw [Nat.pow_zero, Nat.div_one]; rfl
    | succ k ih =>
      intro m
      rw [leBytes, List.getD_cons_succ, ih, Nat.div_div_eq_div_mul, Nat.pow_succ, Nat.mul_comm]
  rw [runPackS64, hlast]
  exact UInt8.toNat_ofNat'

theorem top_bit (b : UInt8) : b &&& 0x80 ≠ 0 ↔ 128 ≤ b.toNat := by
  have hlt := b.toNat_lt
  have hand : (b &&& 0x80).toNat = (b.toNat.testBit 7).toNat * 2 ^ 7 := by
    rw [UInt8.toNat_and]
    exact Nat.and_two_pow b.toNat 7
  rw [Ne, ← UInt8.toNat_inj, hand, Nat.testBit_eq_decide_div_mod_eq]
  by_cases h : b.toNat / 2 ^ 7 % 2 = 1
  · rw [decide_eq_true h]
    exact iff_of_true (by decide) (by omega)
  · rw [decide_eq_false h]
    exact iff_of_false (not_not_intro rfl) (by omega)

/-- The last byte has the sign. -/
theorem sign_iff {n : Int} {k : Nat} (h : FitsIn k n) :
    (runPackS64 (k + 1) n).getD k 0 &&& 0x80 ≠ 0 ↔ n < 0 := by
  obtain ⟨hlo, hhi⟩ := h
  have hpos : 0 < 256 ^ k := Nat.pow_pos (by decide)
  have hsucc : 256 ^ (k + 1) = 256 * 256 ^ k := by rw [Nat.pow_succ, Nat.mul_comm]
  have hcast : ((256 ^ k : Nat) : Int) = 256 ^ k := by push_cast; rfl
  have hcast' : ((256 ^ (k + 1) : Nat) : Int) = 256 ^ (k + 1) := by push_cast; rfl
  rw [top_bit, runPackS64_last, ← hcast']
  rw [← hcast] at hlo hhi
  generalize hm : (n % (256 ^ (k + 1) : Nat)).toNat = m
  have hlt : m < 256 * 256 ^ k := by omega
  have hdiv : m / 256 ^ k < 256 := Nat.div_lt_of_lt_mul (by rwa [Nat.mul_comm])
  rw [Nat.mod_eq_of_lt hdiv, Nat.le_div_iff_mul_le hpos]
  by_cases hn : n < 0
  · have heq : n % (256 ^ (k + 1) : Nat) = n + (256 ^ (k + 1) : Nat) := by
      rw [← Int.add_emod_right, Int.emod_eq_of_lt (by omega) (by omega)]
    exact iff_of_true (by omega) hn
  · have heq : n % (256 ^ (k + 1) : Nat) = n := Int.emod_eq_of_lt (by omega) (by omega)
    exact iff_of_false (by omega) hn

end UolaOs.Ntfs3
