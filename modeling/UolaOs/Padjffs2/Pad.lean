import UolaOs.Lib.File
import UolaOs.Lib.FlashArea
import UolaOs.Lib.Mask

/-!
# Padding an image (`padjffs2.c`)

An end marker behind the image at each boundary that a JFFS2 may start from.

* `padImage_padded`: the marker stands at every boundary that was asked for, and filler elsewhere;
* `mem_padMask`: the sizes of the command line as a mask.
-/

namespace UolaOs.Padjffs2

def bufSize : Nat := 64 * 1024

/-- What `pad` points to. -/
inductive Mark where
  | eof
  | jffs2Be
  | jffs2Le
  deriving DecidableEq

def Mark.pad : Mark → Bytes
  | .eof => [0xde, 0xad, 0xc0, 0xde]
  | .jffs2Be => [0x19, 0x85, 0x20, 0x04, 0x04, 0x00, 0x00, 0x00, 0xc4, 0x94, 0xdb, 0xf4]
  | .jffs2Le => [0x85, 0x19, 0x04, 0x20, 0x00, 0x00, 0x00, 0x04, 0xa8, 0xfb, 0xa0, 0xb4]

/-- `ALIGN`. The complement has the 32 bits of the mask. -/
def align (x : Nat) (mask : BitVec 32) : Nat := (x + (mask - 1).toNat) &&& (~~~ (mask - 1)).toNat

/-- The first loop: the smallest size that is left, or the last one that was tried. -/
def smallest (padMask : BitVec 32) : BitVec 32 :=
  BitVec.twoPow 32 (((List.range' 10 22).find? fun i => decide (i ∈ padMask)).getD 31)

/-- The second loop strikes the sizes that divide the length. -/
def strike (inLen : Nat) (padMask : BitVec 32) : BitVec 32 :=
  (List.range' 10 22).foldl (fun padMask i =>
    if inLen &&& (2 ^ i - 1) = 0 then padMask &&& ~~~ BitVec.twoPow 32 i else padMask) padMask

/-- The output, and how many times it was written to. -/
structure State where
  outLen : Nat
  file : File
  calls : Nat

/-- `write`. The call may be told to take fewer bytes than it is given. -/
def write (short : Nat → Option Nat) (s : State) (bs : Bytes) : Except State State :=
  let t := (short s.calls).elim bs.length (min bs.length)
  let s := { s with file := s.file.write (bs.take t), calls := s.calls + 1 }
  if t = bs.length then .ok { s with outLen := s.outLen + bs.length } else .error s

theorem outLen_write {short : Nat → Option Nat} {s t : State} {bs : Bytes}
    (h : write short s bs = .ok t) : t.outLen = s.outLen + bs.length := by
  rw [write] at h
  split at h
  · cases h
    rfl
  · cases h

/-- The inner loop: a buffer of `\xff` at a time. -/
def fill (short : Nat → Option Nat) (inLen : Nat) (s : State) : Except State State :=
  if s.outLen < inLen then
    match _h : write short s (List.replicate (min (inLen - s.outLen) bufSize) 0xff) with
    | .error s => .error s
    | .ok s => fill short inLen s
  else .ok s
termination_by inLen - s.outLen
decreasing_by
  have hout := outLen_write _h
  rw [List.length_replicate, bufSize] at hout
  omega

/-- The outer loop, for at most `fuel` rounds. -/
def padLoop (short : Nat → Option Nat) (mark : Mark) :
    Nat → BitVec 32 → Nat → State → Option (Except State State)
  | fuel, padMask, inLen, s =>
    if padMask = 0 then some (.ok s)
    else
      match fuel with
      | 0 => none
      | fuel + 1 =>
        let inLen := align inLen (smallest padMask)
        match (fill short inLen s).bind fun s => write short s mark.pad with
        | .error s => some (.error s)
        | .ok s => padLoop short mark fuel (strike inLen padMask) inLen s

/-- What is written to: the image itself, or the standard output. -/
def output (padToStdout : Bool) (image : Bytes) : Bytes := if padToStdout then [] else image

def padImage (fuel : Nat) (short : Nat → Option Nat) (mark : Mark) (padToStdout : Bool)
    (xtraOffset : Nat) (image : Bytes) (padMask : BitVec 32) : Option (Except State State) :=
  let inLen := image.length + xtraOffset
  let data := output padToStdout image
  padLoop short mark fuel padMask inLen ⟨inLen, ⟨data, data.length⟩, 0⟩

/-- The mask that `main` makes of the sizes in KiB. -/
def padMask (sizes : List Nat) : BitVec 32 :=
  let mask := sizes.foldl (fun mask n => mask ||| BitVec.ofNat 32 (n * 1024)) 0
  if mask = 0 then BitVec.ofNat 32 (4 * 1024 ||| 8 * 1024 ||| 64 * 1024 ||| 128 * 1024) else mask

/-! ## The two inner loops over the sizes -/

section
variable {mask : BitVec 32} {x i j k : Nat}

theorem align_eq (hx : x + (2 ^ j - 1) < 2 ^ 32) (hj : j < 32) :
    align x (BitVec.twoPow 32 j) = roundUp x (2 ^ j) := by
  have hpow : 2 ^ j < 2 ^ 32 := Nat.pow_lt_pow_right (by decide) hj
  have hpos := Nat.two_pow_pos j
  have hones : (BitVec.twoPow 32 j - 1).toNat = 2 ^ j - 1 := by
    rw [BitVec.toNat_sub_of_le]
    · rw [BitVec.toNat_twoPow_of_lt hj]
      rfl
    · rw [BitVec.le_def, BitVec.toNat_twoPow_of_lt hj]
      exact hpos
  have hclear : 2 ^ 32 - 1 - (2 ^ j - 1) = 2 ^ 32 - 2 ^ j := by omega
  rw [align, BitVec.toNat_not, hones, hclear, and_clearLow hx (by omega), roundUp]

theorem smallest_spec (hne : mask ≠ 0) (hmask : ∀ i ∈ mask, 10 ≤ i) :
    ∃ j ∈ mask, smallest mask = BitVec.twoPow 32 j ∧ ∀ i ∈ mask, j ≤ i := by
  have hin (i : Nat) (hi : i ∈ mask) : i ∈ List.range' 10 22 := by
    rw [List.mem_range'_1]
    exact ⟨hmask i hi, lt_of_mem_mask hi⟩
  obtain ⟨i, hi⟩ : ∃ i, i ∈ mask := by
    rw [Ne, mask_eq_zero_iff, not_forall] at hne
    exact hne.imp fun i => not_not.mp
  cases hfind : (List.range' 10 22).find? fun i => decide (i ∈ mask) with
  | none =>
    have hnone := List.find?_eq_none.mp hfind i (hin i hi)
    exact absurd (decide_eq_true hi) hnone
  | some j =>
    have hj : j ∈ mask :=
      of_decide_eq_true (List.find?_some (p := fun i => decide (i ∈ mask)) hfind)
    refine ⟨j, hj, by rw [smallest, hfind, Option.getD_some], fun i hi => ?_⟩
    by_contra hlt
    rw [List.find?_range'_eq_some] at hfind
    have hskip := hfind.2.2 i (hmask i hi) (by omega)
    rw [decide_eq_true hi] at hskip
    cases hskip

theorem mem_strike : i ∈ strike x mask ↔ i ∈ mask ∧ ¬ (10 ≤ i ∧ 2 ^ i ∣ x) := by
  have hloop (is : List Nat) (m : BitVec 32) :
      i ∈ is.foldl (fun m i =>
          if x &&& (2 ^ i - 1) = 0 then m &&& ~~~ BitVec.twoPow 32 i else m) m ↔
        i ∈ m ∧ ¬ (i ∈ is ∧ 2 ^ i ∣ x) := by
    induction is generalizing m with
    | nil => simp
    | cons j is ih =>
      rw [List.foldl_cons, ih, List.mem_cons]
      split
      · rename_i hzero
        rw [Nat.and_two_pow_sub_one_eq_mod, ← Nat.dvd_iff_mod_eq_zero] at hzero
        rw [mem_drop]
        grind
      · rename_i hzero
        rw [Nat.and_two_pow_sub_one_eq_mod, ← Nat.dvd_iff_mod_eq_zero] at hzero
        grind
  rw [strike, hloop, List.mem_range'_1]
  refine and_congr_right fun hi => ?_
  have hlt := lt_of_mem_mask hi
  rw [and_iff_left (show i < 10 + 22 from hlt)]

end

/-! ## Writing -/

/-- `bs` was appended. -/
structure Appends (s t : State) (bs : Bytes) : Prop where
  data : t.file.data = s.file.data ++ bs
  pos : t.file.pos = t.file.data.length
  outLen : t.outLen = s.outLen + bs.length

section
variable {short : Nat → Option Nat} {s t u : State} {a b bs : Bytes} {inLen : Nat}

theorem Appends.refl (h : s.file.pos = s.file.data.length) : Appends s s [] :=
  ⟨(List.append_nil _).symm, h, rfl⟩

theorem Appends.trans (h : Appends s t a) (h' : Appends t u b) : Appends s u (a ++ b) := by
  refine ⟨?_, h'.pos, ?_⟩
  · rw [h'.data, h.data, List.append_assoc]
  · rw [h'.outLen, h.outLen, List.length_append, Nat.add_assoc]

theorem file_write (h : s.file.pos = s.file.data.length) (bs : Bytes) :
    s.file.write bs = ⟨s.file.data ++ bs, (s.file.data ++ bs).length⟩ := by
  rw [← File.write_end, ← h]

theorem write_ok (hpos : s.file.pos = s.file.data.length) (h : write short s bs = .ok t) :
    Appends s t bs := by
  rw [write] at h
  split at h
  · rename_i hall
    cases h
    rw [hall, List.take_length, file_write hpos]
    exact ⟨rfl, rfl, rfl⟩
  · cases h

theorem write_error (hpos : s.file.pos = s.file.data.length) (h : write short s bs = .error t) :
    s.file.data <+: t.file.data := by
  rw [write] at h
  split at h
  · cases h
  · cases h
    rw [file_write hpos]
    exact List.prefix_append _ _

theorem write_whole (h : ∀ k, short k = none) (s : State) (bs : Bytes) :
    ∃ t, write short s bs = .ok t := by
  rw [write, h, Option.elim_none, if_pos rfl]
  exact ⟨_, rfl⟩

theorem fill_ok (hpos : s.file.pos = s.file.data.length) (h : fill short inLen s = .ok t) :
    Appends s t (List.replicate (inLen - s.outLen) 0xff) := by
  fun_induction fill short inLen s with
  | case1 s hlt s' hwrite => cases h
  | case2 s hlt s' hwrite ih =>
    have hfirst := write_ok hpos hwrite
    have hall := hfirst.trans (ih hfirst.pos h)
    rw [List.replicate_append_replicate, hfirst.outLen, List.length_replicate] at hall
    have hsum : min (inLen - s.outLen) bufSize +
        (inLen - (s.outLen + min (inLen - s.outLen) bufSize)) = inLen - s.outLen := by
      rw [bufSize]
      omega
    rwa [hsum] at hall
  | case3 s hge =>
    cases h
    rw [Nat.sub_eq_zero_of_le (Nat.le_of_not_lt hge)]
    exact .refl hpos

theorem fill_error (hpos : s.file.pos = s.file.data.length) (h : fill short inLen s = .error t) :
    s.file.data <+: t.file.data := by
  fun_induction fill short inLen s with
  | case1 s hlt s' hwrite =>
    cases h
    exact write_error hpos hwrite
  | case2 s hlt s' hwrite ih =>
    have hfirst := write_ok hpos hwrite
    refine .trans ?_ (ih hfirst.pos h)
    rw [hfirst.data]
    exact List.prefix_append _ _
  | case3 s hge => cases h

theorem fill_whole (h : ∀ k, short k = none) (inLen : Nat) (s : State) :
    ∃ t, fill short inLen s = .ok t := by
  fun_induction fill short inLen s with
  | case1 s hlt s' hwrite =>
    obtain ⟨t, ht⟩ := write_whole h s _
    rw [hwrite] at ht
    cases ht
  | case2 s hlt s' hwrite ih => exact ih
  | case3 s hge => exact ⟨s, rfl⟩

end

/-! ## The markers -/

/-- Where the marker for the size `2 ^ i` starts. -/
def position (length xtraOffset i : Nat) : Nat := roundUp (length + xtraOffset) (2 ^ i) - xtraOffset

/-- The image, a marker for each size that is done, and filler. -/
structure Filled (image pad : Bytes) (xtraOffset : Nat) (done : Nat → Prop) (data : Bytes) :
    Prop where
  kept : image <+: data
  marked : ∀ i, done i → load data (position image.length xtraOffset i) pad.length = pad
  filler : ∀ k, image.length ≤ k → k < data.length →
    (∀ i, done i → ¬ (position image.length xtraOffset i ≤ k ∧
      k < position image.length xtraOffset i + pad.length)) → data[k]? = some 0xff

/-- What `padImage` makes of an image: nothing follows the last marker. -/
structure Padded (image pad : Bytes) (xtraOffset : Nat) (padMask : BitVec 32) (data : Bytes) :
    Prop extends Filled image pad xtraOffset (· ∈ padMask) data where
  ends : ∃ i ∈ padMask, data.length = position image.length xtraOffset i + pad.length

/-- Before each round of the outer loop. No size below `low` is `left`, and no size that is left
divides the length, so that the marker of the last round fits before the next boundary. -/
structure Inv (image pad : Bytes) (xtraOffset : Nat) (whole left : BitVec 32) (low inLen : Nat)
    (data : Bytes) : Prop where
  filled : Filled image pad xtraOffset (fun i => i ∈ whole ∧ i ∉ left) data
  sub : ∀ i ∈ left, i ∈ whole
  low : ∀ i ∈ left, low ≤ i
  front : inLen = image.length + xtraOffset ∧ data = image ∧ left = whole ∨
    ∃ c ∈ whole, inLen = roundUp (image.length + xtraOffset) (2 ^ c) ∧
      data.length + xtraOffset = inLen + pad.length ∧ ∀ i ∈ left, c < i ∧ ¬ 2 ^ i ∣ inLen

theorem Mark.length_pad (mark : Mark) : 0 < mark.pad.length ∧ mark.pad.length ≤ 1024 := by
  cases mark <;> decide

section
variable {image pad data : Bytes} {xtraOffset n : Nat} {done new : Nat → Prop}

theorem Filled.step (hpad : 0 < pad.length) (h : Filled image pad xtraOffset done data)
    (hnew : ∀ i, new i → position image.length xtraOffset i = data.length + n)
    (hsome : ∃ i, new i) : Filled image pad xtraOffset (fun i => done i ∨ new i)
      (data ++ (List.replicate n 0xff ++ pad)) := by
  refine ⟨h.kept.trans (List.prefix_append _ _), fun i hi => ?_, fun k hk hlt hout => ?_⟩
  · rcases hi with hi | hi
    · have hload := h.marked i hi
      have hlen := congrArg List.length hload
      rw [load, List.length_take, List.length_drop] at hlen
      conv_rhs => rw [← hload]
      exact load_congr fun k _ hk => List.getElem?_append_left (by omega)
    · rw [hnew i hi, ← List.append_assoc, load_append_right, List.take_length]
      rw [List.length_append, List.length_replicate]
  · by_cases hold : k < data.length
    · rw [List.getElem?_append_left hold]
      exact h.filler k hk hold fun i hi => hout i (.inl hi)
    · obtain ⟨i, hi⟩ := hsome
      have hmark := hout i (.inr hi)
      rw [hnew i hi] at hmark
      simp only [List.length_append, List.length_replicate] at hlt
      have hin : k - data.length < n := by omega
      rw [List.getElem?_append_right (by omega), List.getElem?_append_left
        (by rwa [List.length_replicate]), List.getElem?_replicate, if_pos hin]

end

section
variable {image data : Bytes} {xtraOffset low inLen : Nat} {whole left : BitVec 32} {mark : Mark}

theorem Inv.start (image pad : Bytes) (xtraOffset : Nat) {whole : BitVec 32}
    (hwhole : ∀ i ∈ whole, 10 ≤ i ∧ i ≤ 30) :
    Inv image pad xtraOffset whole whole 10 (image.length + xtraOffset) image where
  filled := by
    refine ⟨List.prefix_refl _, fun i hi => absurd hi.1 hi.2, fun k hk hlt => ?_⟩
    omega
  sub := fun _ hi => hi
  low := fun i hi => (hwhole i hi).1
  front := .inl ⟨rfl, rfl, rfl⟩

/-- Rounding up twice. -/
theorem roundUp_roundUp (x : Nat) {a b : Nat} (ha : 0 < a) (hb : 0 < b) (hab : a ∣ b) :
    roundUp (roundUp x a) b = roundUp x b := by
  apply Nat.le_antisymm
  · rw [roundUp_le_iff hb (dvd_roundUp x b), roundUp_le_iff ha (hab.trans (dvd_roundUp x b))]
    exact le_roundUp x hb
  · rw [roundUp_le_iff hb (dvd_roundUp _ b)]
    exact Nat.le_trans (le_roundUp x ha) (le_roundUp _ hb)

theorem Inv.align_smallest (h : Inv image mark.pad xtraOffset whole left low inLen data)
    (hlen : image.length + xtraOffset < 2 ^ 31) (hwhole : ∀ i ∈ whole, 10 ≤ i ∧ i ≤ 30) {j : Nat}
    (hj : j ∈ left) (hsmall : smallest left = BitVec.twoPow 32 j) :
    align inLen (smallest left) = roundUp (image.length + xtraOffset) (2 ^ j) := by
  have hjbound := hwhole j (h.sub j hj)
  have hle : inLen ≤ 2 ^ 31 := by
    obtain ⟨rfl, -, -⟩ | ⟨c, hc, rfl, -, -⟩ := h.front
    · exact Nat.le_of_lt hlen
    · have hcbound := hwhole c hc
      have hdvd : 2 ^ c ∣ 2 ^ 31 := Nat.pow_dvd_pow 2 (by omega)
      exact (roundUp_le_iff (Nat.two_pow_pos c) hdvd).mpr (Nat.le_of_lt hlen)
  have hpow : 2 ^ j ≤ 2 ^ 30 := Nat.pow_le_pow_right (by decide) hjbound.2
  rw [hsmall, align_eq (by omega) (by omega)]
  obtain ⟨rfl, -, -⟩ | ⟨c, hc, rfl, -, hleft⟩ := h.front
  · rfl
  · exact roundUp_roundUp _ (Nat.two_pow_pos c) (Nat.two_pow_pos j)
      (Nat.pow_dvd_pow 2 (Nat.le_of_lt (hleft j hj).1))

/-- The marker of the last round ends before the next boundary. -/
theorem Inv.fits (h : Inv image mark.pad xtraOffset whole left low inLen data)
    (hwhole : ∀ i ∈ whole, 10 ≤ i ∧ i ≤ 30) {j : Nat} (hj : j ∈ left) :
    data.length + xtraOffset ≤ roundUp (image.length + xtraOffset) (2 ^ j) := by
  obtain ⟨-, rfl, -⟩ | ⟨c, hc, rfl, hlength, hleft⟩ := h.front
  · exact le_roundUp _ (Nat.two_pow_pos j)
  · obtain ⟨hcj, hndvd⟩ := hleft j hj
    have hdvd : 2 ^ c ∣ 2 ^ j := Nat.pow_dvd_pow 2 (Nat.le_of_lt hcj)
    have hge : roundUp (image.length + xtraOffset) (2 ^ c) ≤
        roundUp (image.length + xtraOffset) (2 ^ j) :=
      (roundUp_le_iff (Nat.two_pow_pos c) (hdvd.trans (dvd_roundUp _ _))).mpr
        (le_roundUp _ (Nat.two_pow_pos j))
    have hne : roundUp (image.length + xtraOffset) (2 ^ c) ≠
        roundUp (image.length + xtraOffset) (2 ^ j) := fun heq => hndvd (heq ▸ dvd_roundUp _ _)
    -- both are multiples of the smaller size, which is larger than a marker
    have hnext : roundUp (image.length + xtraOffset) (2 ^ c) + 2 ^ c ≤
        roundUp (image.length + xtraOffset) (2 ^ j) :=
      Nat.le_of_not_lt fun hlt => hne (Nat.le_antisymm hge
        (Nat.le_of_lt_add_of_dvd hlt (hdvd.trans (dvd_roundUp _ _)) (dvd_roundUp _ _)))
    have hpow : 2 ^ 10 ≤ 2 ^ c := Nat.pow_le_pow_right (by decide) (hwhole c hc).1
    have hmark := mark.length_pad.2
    omega

/-- A round goes up to the smallest boundary that is left, and strikes all that are the same. -/
theorem Inv.step (h : Inv image mark.pad xtraOffset whole left low inLen data)
    (hlen : image.length + xtraOffset < 2 ^ 31) (hwhole : ∀ i ∈ whole, 10 ≤ i ∧ i ≤ 30)
    (hne : left ≠ 0) :
    ∃ low', low < low' ∧ ∃ inLen', align inLen (smallest left) = inLen' ∧
      data.length + xtraOffset ≤ inLen' ∧
      Inv image mark.pad xtraOffset whole (strike inLen' left) low' inLen'
        (data ++ (List.replicate (inLen' - (data.length + xtraOffset)) 0xff ++ mark.pad)) := by
  obtain ⟨j, hj, hsmall, hleast⟩ := smallest_spec hne fun i hi => (hwhole i (h.sub i hi)).1
  have hjbound := hwhole j (h.sub j hj)
  obtain ⟨inLen', halign, hup⟩ : ∃ inLen', align inLen (smallest left) = inLen' ∧
      inLen' = roundUp (image.length + xtraOffset) (2 ^ j) := 
    ⟨_, h.align_smallest hlen hwhole hj hsmall, rfl⟩
  have hfit := h.fits hwhole hj
  rw [← hup] at hfit
  have hkept : image.length ≤ data.length := h.filled.kept.length_le
  have hstruck (i : Nat) (hi : i ∈ left) (hdvd : 2 ^ i ∣ inLen') :
      roundUp (image.length + xtraOffset) (2 ^ i) = inLen' := by
    refine Nat.le_antisymm ((roundUp_le_iff (Nat.two_pow_pos i) hdvd).mpr ?_) ?_
    · omega
    · rw [hup, roundUp_le_iff (Nat.two_pow_pos j)]
      · exact le_roundUp _ (Nat.two_pow_pos i)
      · exact (Nat.pow_dvd_pow 2 (hleast i hi)).trans (dvd_roundUp _ _)
  have hdone (i : Nat) : i ∈ whole ∧ i ∉ strike inLen' left ↔
      (i ∈ whole ∧ i ∉ left) ∨ i ∈ left ∧ 2 ^ i ∣ inLen' := by
    rw [mem_strike]
    have hsub := h.sub i
    have hten := fun hi => (hwhole i hi).1
    grind
  have hdvd : 2 ^ j ∣ inLen' := hup ▸ dvd_roundUp _ _
  refine ⟨j + 1, Nat.lt_succ_of_le (h.low j hj), inLen', halign, hfit, ?_⟩
  refine ⟨?_, fun i hi => h.sub i (mem_strike.mp hi).1, fun i hi => ?_,
    .inr ⟨j, h.sub j hj, hup, ?_, ?_⟩⟩
  · simp only [hdone]
    refine h.filled.step mark.length_pad.1 (fun i hi => ?_) ⟨j, hj, hdvd⟩
    rw [position, hstruck i hi.1 hi.2]
    omega
  · obtain ⟨hin, hnot⟩ := mem_strike.mp hi
    have hle := hleast i hin
    have hij : i ≠ j := by
      rintro rfl
      exact hnot ⟨hjbound.1, hdvd⟩
    omega
  · simp only [List.length_append, List.length_replicate]
    omega
  · intro i hi
    obtain ⟨hin, hnot⟩ := mem_strike.mp hi
    have hle := hleast i hin
    have hndvd : ¬ 2 ^ i ∣ inLen' := fun hdvd => hnot ⟨(hwhole i (h.sub i hin)).1, hdvd⟩
    have hij : i ≠ j := by
      rintro rfl
      exact hndvd hdvd
    exact ⟨by omega, hndvd⟩

theorem Inv.padded (h : Inv image mark.pad xtraOffset whole 0 low inLen data) (hne : whole ≠ 0) :
    Padded image mark.pad xtraOffset whole data := by
  refine ⟨?_, ?_⟩
  · have hall (i : Nat) : i ∈ whole ∧ i ∉ (0 : BitVec 32) ↔ i ∈ whole :=
      and_iff_left not_mem_zero
    have hfilled := h.filled
    simp only [hall] at hfilled
    exact hfilled
  · obtain ⟨-, -, hzero⟩ | ⟨c, hc, hup, hlength, -⟩ := h.front
    · exact absurd hzero.symm hne
    · refine ⟨c, hc, ?_⟩
      have hge := le_roundUp (image.length + xtraOffset) (Nat.two_pow_pos c)
      rw [position]
      omega

end

/-! ## The whole loop -/

section
variable {image start : Bytes} {xtraOffset : Nat} {whole : BitVec 32} {mark : Mark}
  {short : Nat → Option Nat}

/-- What the program leaves of an output that began as `start`. -/
structure Outcome (image start : Bytes) (mark : Mark) (xtraOffset : Nat) (padMask : BitVec 32)
    (short : Nat → Option Nat) (r : Except State State) : Prop where
  ok : ∀ s, r = .ok s →
    ∃ bs, s.file.data = start ++ bs ∧ Padded image mark.pad xtraOffset padMask (image ++ bs)
  error : ∀ s, r = .error s → start <+: s.file.data
  whole : (∀ k, short k = none) → ∃ s, r = .ok s

theorem Outcome.done {low inLen : Nat} {s : State} {bs : Bytes}
    (h : Inv image mark.pad xtraOffset whole 0 low inLen (image ++ bs)) (hne : whole ≠ 0)
    (hdata : s.file.data = start ++ bs) :
    Outcome image start mark xtraOffset whole short (.ok s) where
  ok := by
    rintro t ⟨⟩
    exact ⟨bs, hdata, h.padded hne⟩
  error := nofun
  whole := fun _ => ⟨s, rfl⟩

/-- One round of writing: filler, then the marker. -/
theorem round_spec (short : Nat → Option Nat) (s : State) (inLen : Nat) (pad : Bytes)
    (hpos : s.file.pos = s.file.data.length) :
    (∀ t, ((fill short inLen s).bind fun s => write short s pad) = .ok t →
        Appends s t (List.replicate (inLen - s.outLen) 0xff ++ pad)) ∧
      (∀ t, ((fill short inLen s).bind fun s => write short s pad) = .error t →
        s.file.data <+: t.file.data) ∧
      ((∀ k, short k = none) →
        ∃ t, ((fill short inLen s).bind fun s => write short s pad) = .ok t) := by
  cases hfill : fill short inLen s with
  | error u =>
    refine ⟨nofun, fun t ht => ?_, fun h => ?_⟩
    · cases ht
      exact fill_error hpos hfill
    · obtain ⟨t, ht⟩ := fill_whole h inLen s
      rw [hfill] at ht
      cases ht
  | ok u =>
    have hfirst := fill_ok hpos hfill
    refine ⟨fun t ht => hfirst.trans (write_ok hfirst.pos ht), fun t ht => ?_,
      fun h => write_whole h u pad⟩
    refine .trans ?_ (write_error hfirst.pos ht)
    rw [hfirst.data]
    exact List.prefix_append _ _

/-- The rounds run out before the fuel: each goes up to a larger size. -/
theorem padLoop_spec (hlen : image.length + xtraOffset < 2 ^ 31)
    (hwhole : ∀ i ∈ whole, 10 ≤ i ∧ i ≤ 30) (hne : whole ≠ 0) {fuel low inLen : Nat}
    {left : BitVec 32} {s : State} {bs : Bytes}
    (h : Inv image mark.pad xtraOffset whole left low inLen (image ++ bs))
    (hdata : s.file.data = start ++ bs) (hpos : s.file.pos = s.file.data.length)
    (hout : s.outLen = (image ++ bs).length + xtraOffset) (hfuel : 31 ≤ fuel + low) :
    ∃ r, padLoop short mark fuel left inLen s = some r ∧
      Outcome image start mark xtraOffset whole short r := by
  induction fuel generalizing left low inLen s bs with
  | zero =>
    have hzero : left = 0 := by
      rw [mask_eq_zero_iff]
      intro i hi
      have hlow := h.low i hi
      have hbound := hwhole i (h.sub i hi)
      omega
    subst hzero
    exact ⟨.ok s, by rw [padLoop, if_pos rfl], .done h hne hdata⟩
  | succ fuel ih =>
    by_cases hzero : left = 0
    · subst hzero
      exact ⟨.ok s, by rw [padLoop, if_pos rfl], .done h hne hdata⟩
    obtain ⟨low', hlow', inLen', halign, hfit, hinv⟩ := h.step hlen hwhole hzero
    obtain ⟨hok, herror, hall⟩ := round_spec short s inLen' mark.pad hpos
    rw [padLoop, if_neg hzero, halign]
    cases hround : (fill short inLen' s).bind fun s => write short s mark.pad with
    | error t =>
      refine ⟨.error t, by simp only [hround], nofun, fun u hu => ?_, fun hshort => ?_⟩
      · cases hu
        refine .trans ?_ (herror t hround)
        rw [hdata]
        exact List.prefix_append _ _
      · obtain ⟨u, hu⟩ := hall hshort
        rw [hround] at hu
        cases hu
    | ok t =>
      have hmore := hok t hround
      rw [hout] at hmore
      rw [List.append_assoc] at hinv
      simp only [hround]
      refine ih hinv ?_ hmore.pos ?_ (by omega)
      · rw [hmore.data, hdata, List.append_assoc]
      · rw [hmore.outLen, hout]
        simp only [List.length_append]
        omega

end

/-! ## The sizes of the command line -/

section
variable {ks : List Nat} {i : Nat}

theorem mem_size {k : Nat} (hk : k ≤ 20) : i ∈ BitVec.ofNat 32 (2 ^ k * 1024) ↔ i = k + 10 := by
  have hpow : 2 ^ k * 1024 = 2 ^ (k + 10) := by rw [Nat.pow_add]
  rw [mem_ofNat, hpow, Nat.testBit_two_pow, decide_eq_true_eq]
  omega

theorem mem_sizes (hks : ∀ k ∈ ks, k ≤ 20) {m : BitVec 32} :
    i ∈ (ks.map (2 ^ ·)).foldl (fun m n => m ||| BitVec.ofNat 32 (n * 1024)) m ↔
      i ∈ m ∨ ∃ k ∈ ks, i = k + 10 := by
  induction ks generalizing m with
  | nil => simp
  | cons k ks ih =>
    rw [List.map_cons, List.foldl_cons, ih (fun k hk => hks k (List.mem_cons_of_mem _ hk)),
      mem_or, mem_size (hks k List.mem_cons_self), List.exists_mem_cons_iff, or_assoc]

/-- The mask holds the sizes that were given. -/
theorem mem_padMask (hne : ks ≠ []) (hks : ∀ k ∈ ks, k ≤ 20) :
    i ∈ padMask (ks.map (2 ^ ·)) ↔ ∃ k ∈ ks, i = k + 10 := by
  obtain ⟨k, hk⟩ := List.exists_mem_of_ne_nil ks hne
  rw [padMask, if_neg, mem_sizes hks, or_iff_right not_mem_zero]
  intro hzero
  have hin := (mem_sizes (m := 0) hks).mpr (.inr ⟨k, hk, rfl⟩)
  exact not_mem_zero (hzero ▸ hin)

theorem padMask_sizes (hne : ks ≠ []) (hks : ∀ k ∈ ks, k ≤ 20) :
    padMask (ks.map (2 ^ ·)) ≠ 0 ∧ ∀ i ∈ padMask (ks.map (2 ^ ·)), 10 ≤ i ∧ i ≤ 30 := by
  constructor
  · intro hzero
    obtain ⟨k, hk⟩ := List.exists_mem_of_ne_nil ks hne
    exact not_mem_zero (hzero ▸ (mem_padMask hne hks).mpr ⟨k, hk, rfl⟩)
  · intro i hi
    obtain ⟨k, hk, rfl⟩ := (mem_padMask hne hks).mp hi
    have hbound := hks k hk
    omega

end

/-! ## The whole program -/

/-- **Padding puts a marker at every boundary.** For every image, offset and set of sizes from
1 KiB to 1 GiB the program ends, and unless a write is cut short what it wrote is filler and the
markers. The image stays in front. -/
theorem padImage_padded (image : Bytes) (xtraOffset : Nat) (padMask : BitVec 32) (mark : Mark)
    (padToStdout : Bool) (short : Nat → Option Nat)
    (hlen : image.length + xtraOffset < 2 ^ 31) (hne : padMask ≠ 0)
    (hmask : ∀ i ∈ padMask, 10 ≤ i ∧ i ≤ 30) :
    ∃ r, padImage 21 short mark padToStdout xtraOffset image padMask = some r ∧
      Outcome image (output padToStdout image) mark xtraOffset padMask short r := by
  have hinv : Inv image mark.pad xtraOffset padMask padMask 10 (image.length + xtraOffset)
      (image ++ []) := by
    rw [List.append_nil]
    exact .start image mark.pad xtraOffset hmask
  refine padLoop_spec hlen hmask hne hinv (List.append_nil _).symm rfl ?_ (Nat.le_refl 31)
  rw [List.append_nil]

theorem padImage_padded_small :
    ∃ r, padImage 21 (fun _ => none) .eof false 0x20 [0x27, 0x05, 0x19, 0x56] (padMask [4, 8]) =
        some r ∧
      Outcome [0x27, 0x05, 0x19, 0x56] [0x27, 0x05, 0x19, 0x56] .eof 0x20 (padMask [4, 8])
        (fun _ => none) r :=
  have hsizes := padMask_sizes (show [2, 3] ≠ [] by decide) (by decide)
  padImage_padded _ _ _ .eof false _ (by decide) hsizes.1 hsizes.2

end UolaOs.Padjffs2
