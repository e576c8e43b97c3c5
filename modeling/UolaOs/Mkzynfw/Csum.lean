import UolaOs.Lib.OnesComplement

/-!
# The checksum of a ZyNOS image

`csum_update` of mkzynfw.c takes the data in chunks, with a byte that waits between them.

* `csumUpdate_follows`: a chunk takes the state along the sum of its bytes;
* `csumGet_chunks`: the checksum is that of the whole data, however it was cut.
-/

namespace UolaOs.Mkzynfw

structure CsumState where
  odd : Bool
  sum : UInt32
  tmp : UInt32

def csumInit : CsumState := ⟨false, 0, 0⟩

/-- The addition of `csum_update`, with the carry brought around. -/
def csumAdd (sum w : UInt32) : UInt32 :=
  let sum := sum + w
  if 0xffff < sum then (sum + 1) &&& 0xffff else sum

/-- The second half of `csum_update`, on whole words. -/
def csumLoop : Bytes → CsumState → CsumState
  | p0 :: p1 :: p, css =>
    csumLoop p { css with sum := csumAdd css.sum ((p0.toUInt32 <<< 8) + p1.toUInt32) }
  | [p0], css => { css with tmp := p0.toUInt32, odd := true }
  | [], css => css

def csumUpdate (p : Bytes) (css : CsumState) : CsumState :=
  match p with
  | [] => css
  | p0 :: rest =>
    if css.odd then
      csumLoop rest
        { css with sum := csumAdd css.sum ((css.tmp <<< 8) + p0.toUInt32), odd := false }
    else csumLoop p css

def csumGet (css : CsumState) : UInt16 := (csumUpdate [0] css).sum.toUInt16

def csumBuf (p : Bytes) : UInt16 := csumGet (csumUpdate p csumInit)

/-! ## The sum of the bytes -/

section
variable {css : CsumState} {s : Nat × Option UInt8}

/-- The state stands for a sum and a byte that waits. -/
structure Follows (css : CsumState) (s : Nat × Option UInt8) : Prop where
  sum : css.sum.toNat = s.1
  le : s.1 ≤ 0xffff
  odd : css.odd = s.2.isSome
  tmp : ∀ a ∈ s.2, css.tmp = a.toUInt32

theorem toNat_word (a b : UInt8) :
    ((a.toUInt32 <<< 8) + b.toUInt32).toNat = 256 * a.toNat + b.toNat := by
  have ha := a.toNat_lt
  have hb := b.toNat_lt
  rw [UInt32.toNat_add, UInt32.toNat_shiftLeft, UInt8.toNat_toUInt32, UInt8.toNat_toUInt32]
  show (a.toNat <<< 8 % 2 ^ 32 + b.toNat) % 2 ^ 32 = _
  rw [Nat.shiftLeft_eq]
  omega

theorem toNat_csumAdd {sum w : UInt32} (hsum : sum.toNat ≤ 0xffff) (hw : w.toNat ≤ 0xffff) :
    (csumAdd sum w).toNat = onesAdd 0xffff sum.toNat w.toNat := by
  have hadd : (sum + w).toNat = sum.toNat + w.toNat := by
    rw [UInt32.toNat_add]
    omega
  have hlt : 0xffff < sum + w ↔ 0xffff < sum.toNat + w.toNat := by
    rw [UInt32.lt_iff_toNat_lt, hadd]
    rfl
  rw [csumAdd, onesAdd]
  by_cases hcarry : 0xffff < sum + w
  · rw [if_pos hcarry, if_pos (hlt.mp hcarry), UInt32.toNat_and, UInt32.toNat_add, hadd]
    show (sum.toNat + w.toNat + 1) % 2 ^ 32 &&& 2 ^ 16 - 1 = _
    rw [Nat.and_two_pow_sub_one_eq_mod]
    have := hlt.mp hcarry
    omega
  · rw [if_neg hcarry, if_neg (fun h => hcarry (hlt.mpr h)), hadd]

theorem follows_init : Follows csumInit (0, none) :=
  ⟨rfl, Nat.zero_le _, rfl, fun _ h => by cases h⟩

/-- A word behind whole words. -/
theorem Follows.word {n : Nat} {a : UInt8} (h : Follows css (n, none)) (b : UInt8) :
    Follows { css with sum := csumAdd css.sum ((a.toUInt32 <<< 8) + b.toUInt32) }
      (onesAdd 0xffff n (256 * a.toNat + b.toNat), none) where
  sum := by
    have hsum : css.sum.toNat = n := h.sum
    have hle : n ≤ 0xffff := h.le
    rw [toNat_csumAdd (hsum ▸ hle) (by rw [toNat_word]; exact word_le a b), toNat_word, hsum]
  le := onesAdd_le h.le (word_le a b)
  odd := h.odd
  tmp := fun _ hnone => by cases hnone

theorem csumLoop_follows (p : Bytes) {n : Nat} (h : Follows css (n, none)) :
    Follows (csumLoop p css) (p.foldl onesByte (n, none)) := by
  induction p, css using csumLoop.induct generalizing n with
  | case1 p0 p1 p css ih =>
    rw [csumLoop]
    exact ih (h.word p1)
  | case2 p0 css =>
    exact ⟨h.sum, h.le, rfl, fun a ha => by rw [← Option.some.inj ha]; rfl⟩
  | case3 css => exact h

/-- A chunk takes the state along the sum of its bytes. -/
theorem csumUpdate_follows (p : Bytes) (h : Follows css s) :
    Follows (csumUpdate p css) (p.foldl onesByte s) := by
  cases p with
  | nil => exact h
  | cons p0 rest =>
    obtain ⟨n, waiting⟩ := s
    cases waiting with
    | none =>
      have hodd : css.odd = false := h.odd
      rw [csumUpdate, hodd, if_neg Bool.false_ne_true]
      exact csumLoop_follows _ h
    | some a =>
      have hodd : css.odd = true := h.odd
      have htmp : css.tmp = a.toUInt32 := h.tmp a rfl
      have heven : Follows { css with odd := false, tmp := a.toUInt32 } (n, none) :=
        ⟨h.sum, h.le, rfl, fun _ hnone => by cases hnone⟩
      rw [csumUpdate, if_pos hodd, htmp]
      exact csumLoop_follows rest (heven.word p0)

theorem Follows.csumGet (h : Follows css s) : (csumGet css).toNat = onesEnd s := by
  have hget := csumUpdate_follows [0] h
  have hend : (List.foldl onesByte s [0]).1 = onesEnd s := by
    obtain ⟨n, waiting⟩ := s
    cases waiting <;> rfl
  rw [Mkzynfw.csumGet, UInt32.toNat_toUInt16, hget.sum, hend]
  exact Nat.mod_eq_of_lt (Nat.lt_succ_of_le (hend ▸ hget.le))

end

/-- **The checksum** is the sum of the words, however the data was cut. -/
theorem csumGet_chunks (chunks : List Bytes) :
    (csumGet (chunks.foldl (fun css p => csumUpdate p css) csumInit)).toNat =
      onesSum chunks.flatten := by
  have hrun (chunks : List Bytes) {css : CsumState} {s : Nat × Option UInt8}
      (h : Follows css s) : Follows (chunks.foldl (fun css p => csumUpdate p css) css)
        (chunks.flatten.foldl onesByte s) := by
    induction chunks generalizing css s with
    | nil => exact h
    | cons p chunks ih =>
      rw [List.flatten_cons, List.foldl_append]
      exact ih (csumUpdate_follows p h)
  exact (hrun chunks follows_init).csumGet

end UolaOs.Mkzynfw
