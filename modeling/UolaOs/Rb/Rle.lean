import UolaOs.Lib.RunLength
import UolaOs.Rb.Tag

/-!
# RouterBOOT's run length decoder

`routerboot_rle_decode` of routerboot.c:

* `RunsOut`: the memory ends inside of a run that the given length takes in and that there is room
  for, so the decoder reads outside;
* `routerbootRleDecode_iff`: the decoder returns 0 exactly for complete runs that fit, and leaves
  what they stand for.
-/

namespace UolaOs.Rb

/-- What `routerboot_rle_decode` returns and leaves in `out` and `*outlen`. -/
structure Decoded where
  ret : Int
  out : Bytes
  outlen : Nat
  deriving DecidableEq

/-- The sum of two `int`s that are not negative. -/
def addInt (a b : Nat) : Except Fault Nat :=
  if a + b < 2 ^ 31 then .ok (a + b) else .error .overflow

/-- The loop of `routerboot_rle_decode`; `out` is the whole buffer and `nbytes` how much of it is
written. -/
def rleLoop (mem : Bytes) (outlen inp inlen : Nat) (out : Bytes) (nbytes : Nat) :
    Except Fault Decoded :=
  if 2 ≤ inlen then do
    let bs ← fetch Fault.outside mem inp 1
    let run := bs.getD 0 0
    if run &&& 0x80 ≠ 0 then
      let run := (~~~ run).toNat + 1
      if inlen - 1 < run then .ok ⟨-28, out, nbytes⟩
      else
        let total ← addInt nbytes run
        if outlen < total then .ok ⟨-28, out, total⟩
        else
          let bytes ← fetch Fault.outside mem (inp + 1) run
          let out ← store Fault.outside out nbytes bytes
          rleLoop mem outlen (inp + 1 + run) (inlen - 1 - run) out total
    else
      let byte ← fetch Fault.outside mem (inp + 1) 1
      let total ← addInt nbytes run.toNat
      if outlen < total then .ok ⟨-28, out, total⟩
      else
        let out ← store Fault.outside out nbytes (List.replicate run.toNat (byte.getD 0 0))
        rleLoop mem outlen (inp + 2) (inlen - 2) out total
  else .ok ⟨0, out, nbytes⟩
termination_by inlen

/-- `routerboot_rle_decode` -/
def routerbootRleDecode (mem : Bytes) (inp inlen : Nat) (out : Bytes) (outlen : Nat) :
    Except Fault Decoded :=
  if inlen < 2 then .ok ⟨-22, out, outlen⟩ else rleLoop mem outlen inp inlen out 0

/-! ## Rounds -/

section
variable {mem out : Bytes} {outlen inp inlen nbytes : Nat} {b : UInt8} {bs m : Bytes} {r : Run}

theorem and_sign_ne_zero (b : UInt8) : b &&& 0x80 ≠ 0 ↔ 128 ≤ b.toNat := by
  have h : ∀ n : Fin 256, UInt8.ofNat n &&& 0x80 ≠ 0 ↔ 128 ≤ n.val := by decide +kernel
  have := h ⟨b.toNat, b.toNat_lt⟩
  rwa [UInt8.ofNat_toNat] at this

theorem toNat_invert (b : UInt8) : (~~~ b).toNat + 1 = 256 - b.toNat := by
  have hlt := b.toNat_lt
  rw [UInt8.toNat_not, UInt8.size]
  omega

/-- The bytes at a position where the memory goes on with these. -/
theorem fetch_front {n : Nat} (h : mem.drop inp = bs ++ m) (hn : bs.length = n) :
    fetch Fault.outside mem inp n = .ok bs := by
  by_cases hpos : n = 0
  · subst hpos
    rw [fetch, if_pos rfl, List.eq_nil_of_length_eq_zero hn]
  · have hlen := congrArg List.length h
    rw [List.length_drop, List.length_append] at hlen
    rw [fetch_eq (by omega), load, h, List.take_left' hn]

theorem fetch_byte (h : mem.drop inp = b :: bs) : fetch Fault.outside mem inp 1 = .ok [b] :=
  fetch_front (show mem.drop inp = [b] ++ bs from h) rfl

theorem fetch_behind {n : Nat} (h : (mem.drop inp).length < n) :
    fetch Fault.outside mem inp n = .error .outside := by
  rw [List.length_drop] at h
  rw [fetch, if_neg (by omega), if_neg (by omega)]

theorem drop_next (h : mem.drop inp = b :: bs) : mem.drop (inp + 1) = bs := by
  rw [← List.drop_drop, h]
  rfl

theorem rleLoop_short (h : inlen < 2) :
    rleLoop mem outlen inp inlen out nbytes = .ok ⟨0, out, nbytes⟩ := by
  rw [rleLoop, if_neg (Nat.not_le.mpr h)]

/-- What becomes of a run that is all there. -/
def putRun (mem : Bytes) (outlen inp inlen : Nat) (out : Bytes) (nbytes : Nat) (r : Run) :
    Except Fault Decoded := do
  let total ← addInt nbytes r.expand.length
  if outlen < total then .ok ⟨-28, out, total⟩
  else
    let out ← store Fault.outside out nbytes r.expand
    rleLoop mem outlen (inp + r.encode.length) (inlen - r.encode.length) out total

theorem rleLoop_run (h : mem.drop inp = r.encode ++ m) (hle : r.encode.length ≤ inlen) :
    rleLoop mem outlen inp inlen out nbytes = putRun mem outlen inp inlen out nbytes r := by
  have h2 : 2 ≤ inlen := Nat.le_trans r.one_lt_length hle
  rw [rleLoop, if_pos h2, putRun]
  cases r with
  | repeated n c =>
    have hrun := fetch_byte h
    have hbyte := fetch_byte (drop_next h)
    have hsign : ¬ UInt8.ofNat n &&& 0x80 ≠ 0 := by
      rw [and_sign_ne_zero, Run.toNat_repeated]
      omega
    rw [hrun, ok_bind]
    simp only [List.getD_cons_zero]
    rw [if_neg hsign, hbyte, ok_bind, Run.toNat_repeated, Run.expand, List.length_replicate]
    rfl
  | copied cs pos le =>
    have hrun := fetch_byte h
    have hcopy := fetch_front (drop_next h) rfl
    have hsign : UInt8.ofNat (256 - cs.length) &&& 0x80 ≠ 0 := by
      rw [and_sign_ne_zero, Run.toNat_copied pos le]
      omega
    have hlen : (~~~ UInt8.ofNat (256 - cs.length)).toNat + 1 = cs.length := by
      rw [toNat_invert, Run.toNat_copied pos le]
      omega
    have hword : (Run.copied cs pos le).encode.length = 1 + cs.length := Nat.add_comm _ _
    rw [hword] at hle
    rw [hrun, ok_bind]
    simp only [List.getD_cons_zero]
    rw [if_pos hsign, hlen, if_neg (by omega), hcopy, hword, Run.expand, ← Nat.add_assoc,
      ← Nat.sub_sub]
    rfl

/-- A copy of more bytes than there are in the input. -/
theorem rleLoop_long (h : mem.drop inp = b :: bs) (hb : 128 ≤ b.toNat) (h2 : 2 ≤ inlen)
    (hlong : inlen - 1 < 256 - b.toNat) :
    rleLoop mem outlen inp inlen out nbytes = .ok ⟨-28, out, nbytes⟩ := by
  have hrun := fetch_byte h
  rw [rleLoop, if_pos h2, hrun, ok_bind]
  simp only [List.getD_cons_zero]
  rw [if_pos ((and_sign_ne_zero b).mpr hb), toNat_invert, if_pos hlong]

theorem rleLoop_long_run (h : mem.drop inp = r.encode ++ m) (h2 : 2 ≤ inlen)
    (hlong : inlen < r.encode.length) :
    rleLoop mem outlen inp inlen out nbytes = .ok ⟨-28, out, nbytes⟩ := by
  cases r with
  | repeated n c => exact absurd h2 (Nat.not_le.mpr hlong)
  | copied cs pos le =>
    have hword : (Run.copied cs pos le).encode.length = cs.length + 1 := rfl
    have hb := Run.toNat_copied pos le
    exact rleLoop_long h (by omega) h2 (by omega)

/-- A repeated byte that the memory does not hold, or not even how often it is repeated. -/
theorem rleLoop_cut_repeated (h : CutRun (mem.drop inp)) (h2 : 2 ≤ inlen)
    (hb : ∀ b bs, mem.drop inp = b :: bs → b.toNat < 128) :
    rleLoop mem outlen inp inlen out nbytes = .error .outside := by
  rw [rleLoop, if_pos h2]
  cases hrest : mem.drop inp with
  | nil =>
    rw [fetch_behind (by rw [hrest]; exact Nat.one_pos)]
    rfl
  | cons b bs =>
    have hlt := hb b bs hrest
    have hsign : ¬ b &&& 0x80 ≠ 0 := by
      rw [and_sign_ne_zero]
      omega
    rw [hrest, CutRun, if_pos hlt] at h
    have hrun := fetch_byte hrest
    rw [hrun, ok_bind]
    simp only [List.getD_cons_zero]
    rw [if_neg hsign, fetch_behind (by rw [drop_next hrest]; exact h)]
    rfl

/-- Bytes to copy that the memory does not hold. -/
theorem rleLoop_cut_copied (h : mem.drop inp = b :: bs) (hb : 128 ≤ b.toNat)
    (hcut : bs.length < 256 - b.toNat) (hle : 256 - b.toNat < inlen) :
    rleLoop mem outlen inp inlen out nbytes =
      addInt nbytes (256 - b.toNat) >>= fun total =>
        if outlen < total then .ok ⟨-28, out, total⟩ else .error .outside := by
  have hrun := fetch_byte h
  have hlt := b.toNat_lt
  rw [rleLoop, if_pos (by omega), hrun, ok_bind]
  simp only [List.getD_cons_zero]
  rw [if_pos ((and_sign_ne_zero b).mpr hb), toNat_invert, if_neg (by omega),
    fetch_behind (by rw [drop_next h]; exact hcut)]
  rfl

/-! ## Room -/

/-- What the decoder can write. -/
def capacity (outlen : Nat) : Nat := min outlen (2 ^ 31 - 1)

theorem addInt_eq {a n : Nat} (h : a + n ≤ capacity outlen) : addInt a n = .ok (a + n) := by
  rw [capacity] at h
  exact if_pos (by omega)

/-- An amount that does not fit ends the loop. -/
theorem addInt_full (out : Bytes) {a n : Nat} (h : capacity outlen < a + n)
    (f : Nat → Except Fault Decoded) :
    (addInt a n >>= fun total => if outlen < total then .ok ⟨-28, out, total⟩ else f total) =
        .error .overflow ∨
      (addInt a n >>= fun total => if outlen < total then .ok ⟨-28, out, total⟩ else f total) =
        .ok ⟨-28, out, a + n⟩ := by
  by_cases hint : a + n < 2 ^ 31
  · right
    rw [capacity] at h
    rw [addInt, if_pos hint, ok_bind, if_pos (by omega)]
  · left
    rw [addInt, if_neg hint]
    rfl

theorem putRun_full (h : capacity outlen < nbytes + r.expand.length) :
    putRun mem outlen inp inlen out nbytes r = .error .overflow ∨
      putRun mem outlen inp inlen out nbytes r = .ok ⟨-28, out, nbytes + r.expand.length⟩ :=
  addInt_full out h _

theorem putRun_eq (hfits : nbytes + r.expand.length ≤ capacity outlen) (hout :
    outlen ≤ out.length) :
    putRun mem outlen inp inlen out nbytes r =
      rleLoop mem outlen (inp + r.encode.length) (inlen - r.encode.length)
        (poke out nbytes r.expand) (nbytes + r.expand.length) := by
  have hle : nbytes + r.expand.length ≤ outlen := hfits.trans (Nat.min_le_left _ _)
  rw [putRun, addInt_eq hfits, ok_bind, if_neg (Nat.not_lt.mpr hle), store_eq (hle.trans hout),
    ok_bind]

/-! ## Reads -/

/-- The bytes end inside of a run that the length takes in and that there is room for. -/
def RunsOut (l : Bytes) (inlen room : Nat) : Prop :=
  ∃ rs rest, l = runCode.encodeAll rs ++ rest ∧ CutRun rest ∧
    (runCode.encodeAll rs).length + 2 ≤ inlen ∧ (expandAll rs).length ≤ room ∧
    ∀ b bs, rest = b :: bs → 128 ≤ b.toNat →
      (runCode.encodeAll rs).length + (256 - b.toNat) < inlen ∧
        (expandAll rs).length + (256 - b.toNat) ≤ room

theorem RunsOut.two_le {l : Bytes} {room : Nat} (h : RunsOut l inlen room) : 2 ≤ inlen := by
  obtain ⟨rs, rest, -, -, hlen, -⟩ := h
  omega

theorem runsOut_cut {l : Bytes} {room : Nat} (h : CutRun l) :
    RunsOut l inlen room ↔ 2 ≤ inlen ∧ ∀ b bs, l = b :: bs → 128 ≤ b.toNat →
      256 - b.toNat < inlen ∧ 256 - b.toNat ≤ room := by
  constructor
  · rintro ⟨rs, rest, rfl, -, hlen, -, hall⟩
    cases rs with
    | nil => exact ⟨by omega, by simpa [PrefixCode.encodeAll, expandAll] using hall⟩
    | cons r rs =>
      rw [PrefixCode.encodeAll_cons, List.append_assoc] at h
      exact absurd rfl (h.ne_encode r _)
  · rintro ⟨hlen, hall⟩
    exact ⟨[], l, rfl, h, by simpa [PrefixCode.encodeAll] using hlen, Nat.zero_le _,
      by simpa [PrefixCode.encodeAll, expandAll] using hall⟩

theorem runsOut_run {room : Nat} :
    RunsOut (r.encode ++ m) inlen room ↔ r.encode.length ≤ inlen ∧ r.expand.length ≤ room ∧
      RunsOut m (inlen - r.encode.length) (room - r.expand.length) := by
  have hcode (rs : List Run) : (runCode.encodeAll (r :: rs)).length =
      r.encode.length + (runCode.encodeAll rs).length := by
    rw [PrefixCode.encodeAll_cons, List.length_append]
    rfl
  have hexp (rs : List Run) : (expandAll (r :: rs)).length =
      r.expand.length + (expandAll rs).length := by
    rw [expandAll_cons, List.length_append]
  constructor
  · rintro ⟨rs, rest, heq, hcut, hlen, hroom, hall⟩
    cases rs with
    | nil => exact absurd heq.symm (hcut.ne_encode r m)
    | cons s rs =>
      rw [PrefixCode.encodeAll_cons, List.append_assoc] at heq
      obtain ⟨rfl, rfl⟩ := Run.encode_cancel _ _ _ _ heq
      rw [hcode] at hlen
      rw [hexp] at hroom
      refine ⟨by omega, by omega, rs, rest, rfl, hcut, by omega, by omega, fun b bs hrest hb => ?_⟩
      have := hall b bs hrest hb
      rw [hcode, hexp] at this
      omega
  · rintro ⟨hle, hfits, rs, rest, rfl, hcut, hlen, hroom, hall⟩
    refine ⟨r :: rs, rest, ?_, hcut, ?_, ?_, fun b bs hrest hb => ?_⟩
    · rw [PrefixCode.encodeAll_cons, List.append_assoc]
      rfl
    · rw [hcode]
      omega
    · rw [hexp]
      omega
    · have := hall b bs hrest hb
      rw [hcode, hexp]
      omega

theorem rleLoop_outside_cut (hcut : CutRun (mem.drop inp)) (h2 : 2 ≤ inlen) :
    rleLoop mem outlen inp inlen out nbytes = .error .outside ↔
      ∀ b bs, mem.drop inp = b :: bs → 128 ≤ b.toNat →
        256 - b.toNat < inlen ∧ nbytes + (256 - b.toNat) ≤ capacity outlen := by
  by_cases hcopy : ∃ b bs, mem.drop inp = b :: bs ∧ 128 ≤ b.toNat
  · obtain ⟨b, bs, h, hb⟩ := hcopy
    have hshort : bs.length < 256 - b.toNat := by
      rwa [h, CutRun, if_neg (Nat.not_lt.mpr hb)] at hcut
    have hiff : (∀ c cs, mem.drop inp = c :: cs → 128 ≤ c.toNat →
        256 - c.toNat < inlen ∧ nbytes + (256 - c.toNat) ≤ capacity outlen) ↔
          256 - b.toNat < inlen ∧ nbytes + (256 - b.toNat) ≤ capacity outlen := by
      refine ⟨fun hall => hall b bs h hb, fun hroom c cs hc _ => ?_⟩
      obtain ⟨rfl, -⟩ := List.cons.inj (h.symm.trans hc)
      exact hroom
    rw [hiff]
    by_cases hle : 256 - b.toNat < inlen
    · rw [rleLoop_cut_copied h hb hshort hle]
      by_cases hroom : nbytes + (256 - b.toNat) ≤ capacity outlen
      · rw [addInt_eq hroom, ok_bind,
          if_neg (Nat.not_lt.mpr (hroom.trans (Nat.min_le_left _ _)))]
        exact iff_of_true rfl ⟨hle, hroom⟩
      · refine iff_of_false (fun heq => ?_) fun hall => hroom hall.2
        rcases addInt_full out (Nat.lt_of_not_le hroom)
          (fun _ => .error .outside) with hfull | hfull
        · cases hfull.symm.trans heq
        · cases hfull.symm.trans heq
    · rw [rleLoop_long h hb h2 (by omega)]
      exact iff_of_false (fun heq => by cases heq) fun hall => hle hall.1
  · have hb (b : UInt8) (bs : Bytes) (h : mem.drop inp = b :: bs) : b.toNat < 128 := by
      by_contra hb
      exact hcopy ⟨b, bs, h, Nat.le_of_not_lt hb⟩
    refine iff_of_true (rleLoop_cut_repeated hcut h2 hb) fun b bs h hlong => ?_
    exact absurd hlong (Nat.not_le.mpr (hb b bs h))

/-- The decoder reads outside of the memory exactly when that ends inside of a run. -/
theorem rleLoop_outside_iff (hout : outlen ≤ out.length) (hn : nbytes ≤ capacity outlen) :
    rleLoop mem outlen inp inlen out nbytes = .error .outside ↔
      RunsOut (mem.drop inp) inlen (capacity outlen - nbytes) := by
  induction inlen using Nat.strongRecOn generalizing inp out nbytes with
  | ind inlen ih =>
    by_cases h2 : 2 ≤ inlen
    · rcases front_cases (mem.drop inp) with ⟨r, m, h⟩ | h
      · have hpos := r.one_lt_length
        rw [h, runsOut_run]
        by_cases hle : r.encode.length ≤ inlen
        · rw [rleLoop_run h hle]
          by_cases hfits : nbytes + r.expand.length ≤ capacity outlen
          · have hm : mem.drop (inp + r.encode.length) = m := by
              rw [← List.drop_drop, h, List.drop_left]
            rw [putRun_eq hfits hout, ih _ (by omega) (by rwa [length_poke]) hfits, hm,
              Nat.sub_sub]
            exact ⟨fun hrun => ⟨hle, by omega, hrun⟩, fun hrun => hrun.2.2⟩
          · refine iff_of_false (fun heq => ?_) fun hrun => by have := hrun.2.1; omega
            rcases putRun_full (Nat.lt_of_not_le hfits) with hfull | hfull
            · cases hfull.symm.trans heq
            · cases hfull.symm.trans heq
        · rw [rleLoop_long_run h h2 (Nat.lt_of_not_le hle)]
          exact iff_of_false (fun heq => by cases heq) fun hrun => hle hrun.1
      · rw [rleLoop_outside_cut h h2, runsOut_cut h]
        constructor
        · intro hall
          refine ⟨h2, fun b bs hb hlong => ?_⟩
          have := hall b bs hb hlong
          omega
        · rintro ⟨-, hall⟩ b bs hb hlong
          have := hall b bs hb hlong
          omega
    · rw [rleLoop_short (Nat.lt_of_not_le h2)]
      exact iff_of_false (fun heq => by cases heq) fun hrun => h2 hrun.two_le

/-- A memory that holds as much as the length says does not end inside of a run. -/
theorem not_runsOut {l : Bytes} {room : Nat} (h : inlen ≤ l.length) : ¬ RunsOut l inlen room := by
  rintro ⟨rs, rest, rfl, hcut, hlen, -, hall⟩
  rw [List.length_append] at h
  cases rest with
  | nil =>
    rw [List.length_nil] at h
    omega
  | cons b bs =>
    rw [List.length_cons] at h
    rw [CutRun] at hcut
    by_cases hb : b.toNat < 128
    · rw [if_pos hb] at hcut
      omega
    · have := (hall b bs rfl (Nat.le_of_not_lt hb)).1
      rw [if_neg hb] at hcut
      omega

/-! ## Results -/

/-- The buffer and the count behind a string that there was room for. -/
def Puts (outlen : Nat) (out : Bytes) (nbytes : Nat) (out' : Bytes) (n : Nat) (bs : Bytes) : Prop :=
  nbytes + bs.length ≤ capacity outlen ∧ out' = poke out nbytes bs ∧ n = nbytes + bs.length

theorem puts_append {out' a bs : Bytes} {n : Nat} (hout : outlen ≤ out.length) :
    Puts outlen out nbytes out' n (a ++ bs) ↔
      Puts outlen (poke out nbytes a) (nbytes + a.length) out' n bs := by
  rw [Puts, Puts, List.length_append, ← Nat.add_assoc]
  apply and_congr_right
  intro hroom
  have hle : capacity outlen ≤ outlen := Nat.min_le_left _ _
  rw [poke_behind (by omega)]

theorem exists_splits_run {p : Bytes → Prop} :
    (∃ rs, runCode.Splits (r.encode ++ m) rs ∧ p (expandAll rs)) ↔
      ∃ rs, runCode.Splits m rs ∧ p (r.expand ++ expandAll rs) := by
  constructor
  · rintro ⟨rs, hrs, hp⟩
    obtain ⟨ss, rfl, hss⟩ := (PrefixCode.splits_word (c := runCode) r).mp hrs
    exact ⟨ss, hss, hp⟩
  · rintro ⟨rs, hrs, hp⟩
    exact ⟨r :: rs, (PrefixCode.splits_word (c := runCode) r).mpr ⟨rs, rfl, hrs⟩, hp⟩

/-- The loop returns 0 exactly for complete runs that fit. -/
theorem rleLoop_ok_iff (hmem : inp + inlen ≤ mem.length) (hout : outlen ≤ out.length)
    (hn : nbytes ≤ capacity outlen) {out' : Bytes} {n : Nat} :
    rleLoop mem outlen inp inlen out nbytes = .ok ⟨0, out', n⟩ ↔
      ∃ rs, runCode.Splits (load mem inp inlen) rs ∧
        Puts outlen out nbytes out' n (expandAll rs) := by
  induction inlen using Nat.strongRecOn generalizing inp out nbytes with
  | ind inlen ih =>
    have hload : (load mem inp inlen).length = inlen := length_load hmem
    by_cases h2 : 2 ≤ inlen
    · have hall : mem.drop inp = load mem inp inlen ++ mem.drop (inp + inlen) := by
        rw [load, ← List.drop_drop, List.take_append_drop]
      rcases front_cases (load mem inp inlen) with ⟨r, m, h⟩ | h
      · have hpos := r.one_lt_length
        have hlen : r.encode.length + m.length = inlen := by
          rw [← hload, h, List.length_append]
        rw [h, List.append_assoc] at hall
        rw [rleLoop_run hall (by omega), h, exists_splits_run (p := Puts outlen out nbytes out' n)]
        by_cases hfits : nbytes + r.expand.length ≤ capacity outlen
        · have hm : load mem (inp + r.encode.length) (inlen - r.encode.length) = m := by
            rw [load, ← List.drop_drop, hall, List.drop_left, List.take_left' (by omega)]
          rw [putRun_eq hfits hout, ih _ (by omega) (by omega) (by rwa [length_poke]) hfits, hm]
          simp only [puts_append hout]
        · constructor
          · intro heq
            rcases putRun_full (Nat.lt_of_not_le hfits) with hfull | hfull
            · cases hfull.symm.trans heq
            · cases hfull.symm.trans heq
          · rintro ⟨rs, -, hroom, -⟩
            rw [List.length_append] at hroom
            omega
      · have hno (rs : List Run) : ¬ runCode.Splits (load mem inp inlen) rs :=
          PrefixCode.not_splits (by rw [hload]; exact h2) h.ne_encode
        refine iff_of_false ?_ fun hrs => hrs.elim fun rs h => hno rs h.1
        cases hl : load mem inp inlen with
        | nil =>
          rw [hl, List.length_nil] at hload
          omega
        | cons b bs =>
          rw [hl, List.length_cons] at hload
          rw [hl, CutRun] at h
          by_cases hb : b.toNat < 128
          · rw [if_pos hb] at h
            omega
          · rw [if_neg hb] at h
            rw [hl] at hall
            rw [rleLoop_long hall (Nat.le_of_not_lt hb) h2 (by omega)]
            intro heq
            cases heq
    · rw [rleLoop_short (Nat.lt_of_not_le h2)]
      have hsplit (rs : List Run) : runCode.Splits (load mem inp inlen) rs ↔ rs = [] :=
        PrefixCode.splits_short (by rw [hload]; exact Nat.le_of_lt_succ (Nat.lt_of_not_le h2))
      constructor
      · intro heq
        cases heq
        exact ⟨[], (hsplit []).mpr rfl, hn, (poke_nil _ _).symm, rfl⟩
      · rintro ⟨rs, hrs, -, rfl, rfl⟩
        obtain rfl := (hsplit rs).mp hrs
        rw [expandAll, List.flatMap_nil, poke_nil]
        rfl

theorem routerbootRleDecode_ok_iff (input : Bytes) {out out' : Bytes} {n : Nat} :
    routerbootRleDecode input 0 input.length out out.length = .ok ⟨0, out', n⟩ ↔
      2 ≤ input.length ∧ ∃ rs, runCode.Splits input rs ∧
        Puts out.length out 0 out' n (expandAll rs) := by
  rw [routerbootRleDecode]
  by_cases h2 : 2 ≤ input.length
  · have hload : load input 0 input.length = input := List.take_length
    rw [if_neg (Nat.not_lt.mpr h2), rleLoop_ok_iff (by omega) (Nat.le_refl _) (Nat.zero_le _),
      hload]
    exact ⟨fun hrs => ⟨h2, hrs⟩, fun hrs => hrs.2⟩
  · rw [if_pos (Nat.lt_of_not_le h2)]
    exact iff_of_false (fun heq => by cases heq) fun hrs => h2 hrs.1

/-- **Run length decoding.** The decoder stays in the input and in the output. It returns 0 exactly
when the input consists of complete runs, and a stray byte at most, whose expansion fits into the
output and into an `int`; then it leaves that. -/
theorem routerbootRleDecode_iff (input out : Bytes) :
    routerbootRleDecode input 0 input.length out out.length ≠ .error .outside ∧
      ∀ out' n, routerbootRleDecode input 0 input.length out out.length = .ok ⟨0, out', n⟩ ↔
        2 ≤ input.length ∧ ∃ rs, runCode.Splits input rs ∧
          (expandAll rs).length ≤ out.length ∧ (expandAll rs).length < 2 ^ 31 ∧
          out' = expandAll rs ++ out.drop (expandAll rs).length ∧ n = (expandAll rs).length := by
  refine ⟨fun hout => ?_, fun out' n => ?_⟩
  · rw [routerbootRleDecode] at hout
    split at hout
    · cases hout
    · rw [rleLoop_outside_iff (Nat.le_refl _) (Nat.zero_le _)] at hout
      exact not_runsOut (Nat.le_refl _) hout
  · rw [routerbootRleDecode_ok_iff]
    apply and_congr_right
    intro _
    apply exists_congr
    intro rs
    apply and_congr_right
    intro _
    rw [Puts, capacity, Nat.zero_add, Nat.le_min]
    constructor
    · rintro ⟨⟨hle, hint⟩, rfl, hn⟩
      refine ⟨hle, by omega, ?_, hn⟩
      rw [poke_eq_append (by omega), List.take_zero, List.nil_append, Nat.zero_add]
    · rintro ⟨hle, hint, rfl, hn⟩
      refine ⟨⟨hle, by omega⟩, ?_, hn⟩
      rw [poke_eq_append (by omega), List.take_zero, List.nil_append, Nat.zero_add]

/-- An expansion that no `int` counts. -/
theorem routerbootRleDecode_long {rs : List Run} (hlong : 2 ^ 31 ≤ (expandAll rs).length)
    (out out' : Bytes) (n : Nat) :
    routerbootRleDecode (runCode.encodeAll rs) 0 (runCode.encodeAll rs).length out out.length ≠
      .ok ⟨0, out', n⟩ := by
  intro heq
  obtain ⟨-, ss, hss, hroom, -⟩ := (routerbootRleDecode_ok_iff _).mp heq
  have hrs : runCode.Splits (runCode.encodeAll rs) rs :=
    ⟨[], (List.append_nil _).symm, Nat.zero_le _⟩
  rw [hss.unique hrs, capacity] at hroom
  omega

theorem encodeAll_replicate (k : Nat) (r : Run) :
    (runCode.encodeAll (List.replicate k r)).length = k * r.encode.length := by
  induction k with
  | zero => rw [Nat.zero_mul]; rfl
  | succ k ih =>
    rw [List.replicate_succ, PrefixCode.encodeAll_cons, List.length_append, ih, Nat.succ_mul,
      Nat.add_comm]
    rfl

theorem expandAll_replicate (k : Nat) (r : Run) :
    (expandAll (List.replicate k r)).length = k * r.expand.length := by
  induction k with
  | zero => rw [Nat.zero_mul]; rfl
  | succ k ih =>
    rw [List.replicate_succ, expandAll_cons, List.length_append, ih, Nat.succ_mul, Nat.add_comm]

/-- A run of no bytes is taken, and runs for more bytes than an `int` counts are refused with all
the room that they need. -/
theorem routerbootRleDecode_zero_long :
    (∃ out' n, routerbootRleDecode [0, 5] 0 2 [7] 1 = .ok ⟨0, out', n⟩) ∧
    (¬ ∃ rs, runCode.Splits [0, 5] rs ∧ ∀ r ∈ rs, r.Positive) ∧
    ∃ (rs : List Run) (input out : Bytes), rs = List.replicate 16909321 (.repeated 127 0) ∧
      (∀ r ∈ rs, r.Positive) ∧ 2 ≤ input.length ∧ runCode.Splits input rs ∧
      (expandAll rs).length ≤ out.length ∧
      ∀ out' n, routerbootRleDecode input 0 input.length out out.length ≠ .ok ⟨0, out', n⟩ := by
  refine ⟨⟨[7], 0, by decide +kernel⟩, ?_, _, _, List.replicate _ 0, rfl, ?_, ?_,
    ⟨[], (List.append_nil _).symm, Nat.zero_le _⟩, (List.length_replicate ..).ge,
    routerbootRleDecode_long ?_ _⟩
  · rintro ⟨rs, hrs, hpos⟩
    have hone : runCode.Splits [0, 5] [.repeated 0 5] := ⟨[], rfl, Nat.zero_le _⟩
    rw [hrs.unique hone] at hpos
    exact hpos _ (List.mem_singleton.mpr rfl) rfl
  · intro r hr
    rw [List.eq_of_mem_replicate hr]
    intro hnil
    cases hnil
  · rw [encodeAll_replicate]
    exact Nat.le_add_left 2 _
  · rw [expandAll_replicate, Run.expand, List.length_replicate]
    decide

end

end UolaOs.Rb
