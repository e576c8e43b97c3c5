import Mathlib.Data.Nat.Bitwise
import UolaOs.Ntfs3.LzntDecode

/-!
# Encoding a chunk

* `Coder.Inv`: what holds of the variables of `compress_chunk` at the head of its loop;
* `compressRounds_inv`: the loop keeps it, and does not leave the tables.
-/

namespace UolaOs.Ntfs3

/-- The bytes from `unc` to `uncEnd`. -/
def chunkData (m : Bytes) (unc uncEnd : Nat) : Bytes := load m unc (uncEnd - unc)

/-- The last group is encoded, and its control byte so far. -/
def Grouped (data : Bytes) (pos : Nat) (s : Coder) (n : Nat) : Prop :=
  ∃ mid ts, Groups data 0 mid s.front ∧ Encodes data mid pos ts s.group ∧ ts.length = n ∧
    HasFlags s.ohdr 0 ts ∧ s.ohdr.toNat < 2 ^ n

structure Coder.Inv (m : Bytes) (unc uncEnd last : Nat) (s : Coder) : Prop where
  unc_eq : s.ctx.unc = unc
  uncEnd_eq : s.ctx.uncEnd = uncEnd
  maxLen : s.ctx.maxLen = sMaxLen.getD s.idx 0
  below : Below (s.up - unc) s.idx
  le : unc ≤ s.up
  stop : s.up ≤ uncEnd
  cnt : s.cnt < 8
  grouped : Grouped (chunkData m unc uncEnd) (s.up - unc) s s.cnt
  room : s.up = unc ∨ s.cp2 ≤ last ∧ (s.group = [] ∨ s.cp ≤ last)
  zeros : s.notZero = 0 → ∀ i, unc ≤ i → i < s.up → m.getD i 0 = 0

/-! ## Control bytes -/

theorem and_one_shiftLeft (x j : Nat) : x &&& (1 <<< j) = 0 ↔ x.testBit j = false := by
  rw [Nat.one_shiftLeft, Nat.and_two_pow]
  cases x.testBit j with
  | false => simp
  | true => simp

section
variable {ch : UInt8} {ts : List (Token UInt8)} {t : Token UInt8}

theorem hasFlags_nil (ch : UInt8) (bit : Nat) : HasFlags ch bit [] := by
  intro j t h
  cases h

theorem getElem?_snoc {j : Nat} {u : Token UInt8} (h : (ts ++ [t])[j]? = some u) :
    ts[j]? = some u ∧ j < ts.length ∨ j = ts.length ∧ u = t := by
  rcases Nat.lt_trichotomy j ts.length with hlt | rfl | hlt
  · rw [List.getElem?_append_left hlt] at h
    exact .inl ⟨h, hlt⟩
  · rw [List.getElem?_append_right (Nat.le_refl _), Nat.sub_self] at h
    exact .inr ⟨rfl, (Option.some.inj h).symm⟩
  · have hlen := (List.getElem?_eq_some_iff.mp h).1
    rw [List.length_append, List.length_singleton] at hlen
    omega

/-- The bit of a literal stays clear. -/
theorem HasFlags.literal (h : HasFlags ch 0 ts) (hlt : ch.toNat < 2 ^ ts.length)
    (ht : isCopy t = false) : HasFlags ch 0 (ts ++ [t]) := by
  intro j u hu
  rcases getElem?_snoc hu with ⟨hu, -⟩ | ⟨rfl, rfl⟩
  · exact h j u hu
  · rw [Nat.zero_add, and_one_shiftLeft, Nat.testBit_lt_two_pow hlt, ht]

theorem toNat_setFlag {n : Nat} (hn : n < 8) (ch : UInt8) :
    (ch ||| UInt8.ofNat (1 <<< n)).toNat = ch.toNat ||| 2 ^ n := by
  have hlt : 1 <<< n < 2 ^ 8 := by
    rw [Nat.one_shiftLeft]
    exact Nat.pow_lt_pow_right (by decide) hn
  rw [UInt8.toNat_or, UInt8.toNat_ofNat_of_lt' hlt, Nat.one_shiftLeft]

/-- The bit of a copy is set. -/
theorem HasFlags.copy (h : HasFlags ch 0 ts) (hlen : ts.length < 8) (ht : isCopy t = true) :
    HasFlags (ch ||| UInt8.ofNat (1 <<< ts.length)) 0 (ts ++ [t]) := by
  intro j u hu
  rw [Nat.zero_add, and_one_shiftLeft, toNat_setFlag hlen, Nat.testBit_or, Nat.testBit_two_pow]
  rcases getElem?_snoc hu with ⟨hu, hlt⟩ | ⟨rfl, rfl⟩
  · have hj := h j u hu
    rw [Nat.zero_add, and_one_shiftLeft] at hj
    rw [decide_eq_false (by omega), Bool.or_false, hj]
  · rw [decide_eq_true rfl, Bool.or_true, ht]

theorem setFlag_lt {n : Nat} (hn : n < 8) (hlt : ch.toNat < 2 ^ n) :
    (ch ||| UInt8.ofNat (1 <<< n)).toNat < 2 ^ (n + 1) := by
  have hle : 2 ^ n < 2 ^ (n + 1) := Nat.pow_lt_pow_right (by decide) (by omega)
  rw [toNat_setFlag hn]
  exact Nat.or_lt_two_pow (by omega) hle

end

/-! ## A token -/

section
variable {m : Bytes} {unc uncEnd last : Nat} {s : Coder}

theorem getElem?_chunkData (hend : uncEnd ≤ m.length) {i : Nat} (hi : unc + i < uncEnd) :
    (chunkData m unc uncEnd)[i]? = some (m.getD (unc + i) 0) := by
  rw [chunkData, load, List.getElem?_take_of_lt (by omega), List.getElem?_drop,
    List.getElem?_eq_getElem (by omega), List.getD_eq_getElem?_getD,
    List.getElem?_eq_getElem (by omega), Option.getD_some]

theorem length_chunkData (hend : uncEnd ≤ m.length) :
    (chunkData m unc uncEnd).length = uncEnd - unc := by
  rw [chunkData, load, List.length_take, List.length_drop]
  omega

theorem fits_literal (hend : uncEnd ≤ m.length) {up : Nat} (hle : unc ≤ up) (hlt : up < uncEnd) :
    (Token.literal (m.getD up 0)).Fits (chunkData m unc uncEnd) (up - unc) := by
  have hget := getElem?_chunkData hend (by omega : unc + (up - unc) < uncEnd)
  rwa [Nat.add_sub_cancel' hle] at hget

theorem fits_copy (hend : uncEnd ≤ m.length) {up len p : Nat} {ctx : Lznt} (hunc : ctx.unc = unc)
    (hstop : ctx.uncEnd = uncEnd) (h : MatchAt m up ctx len p) :
    (Token.copy (up - p) len).Fits (chunkData m unc uncEnd) (up - unc) := by
  obtain ⟨h₁, h₂, -, h₃, hsame⟩ := h
  rw [hunc] at h₁
  rw [hstop] at h₃
  refine ⟨by omega, by omega, ?_, fun k hk => ?_⟩
  · rw [length_chunkData hend]
    omega
  · rw [getElem?_chunkData hend (by omega), getElem?_chunkData hend (by omega)]
    have hleft : unc + (up - unc - (up - p) + k) = p + k := by omega
    have hright : unc + (up - unc + k) = up + k := by omega
    rw [hleft, hright, hsame k hk]

/-- Counting a token. -/
theorem count_grouped {data : Bytes} {pos : Nat} (hcnt : s.cnt < 8)
    (h : Grouped data pos s (s.cnt + 1)) :
    s.count.cnt < 8 ∧ Grouped data pos s.count s.count.cnt := by
  obtain ⟨mid, ts, hgs, hts, hlen, hflags, hlt⟩ := h
  rw [Coder.count, next_bit s.cnt hcnt]
  by_cases h7 : s.cnt = 7
  · rw [if_pos h7]
    simp only [if_true]
    exact ⟨by decide, pos, [], hgs.snoc hts (by omega) hflags, .nil pos, rfl, hasFlags_nil _ _,
      Nat.one_pos⟩
  · rw [if_neg h7]
    simp only [if_neg (Nat.succ_ne_zero s.cnt)]
    exact ⟨by omega, mid, ts, hgs, hts, hlen, hflags, hlt⟩

/-- The place of the next token when a token has been written within the bounds. -/
theorem count_room (hcp2 : s.cp2 ≤ last) (hcp : s.cp ≤ last) :
    s.count.cp2 ≤ last ∧ (s.count.group = [] ∨ s.count.cp ≤ last) := by
  rw [Coder.count]
  split
  · refine ⟨?_, .inl rfl⟩
    rw [Coder.cp2] at hcp2
    rw [Coder.cp, Coder.cp2] at hcp
    rw [Coder.cp2]
    simp only [List.length_append, List.length_cons]
    omega
  · exact ⟨hcp2, .inr hcp⟩

theorem count_fields (s : Coder) : s.count.ctx = s.ctx ∧ s.count.idx = s.idx ∧
    s.count.up = s.up ∧ s.count.notZero = s.notZero := by
  rw [Coder.count]
  split
  · exact ⟨rfl, rfl, rfl, rfl⟩
  · exact ⟨rfl, rfl, rfl, rfl⟩

/-- A match behind zeros is zero. -/
theorem zeros_match {up len p : Nat} {ctx : Lznt} (h : MatchAt m up ctx len p)
    (hzeros : ∀ i, ctx.unc ≤ i → i < up → m.getD i 0 = 0) :
    ∀ i, ctx.unc ≤ i → i < up + len → m.getD i 0 = 0 := by
  intro i
  induction i using Nat.strongRecOn with
  | _ i ih =>
    intro hle hlt
    by_cases hup : i < up
    · exact hzeros i hle hup
    · have hp := h.lt
      have hunc := h.unc_le
      obtain ⟨k, rfl⟩ : ∃ k, i = up + k := ⟨i - up, by omega⟩
      rw [← h.same k (by omega)]
      exact ih (p + k) (by omega) (by omega) (by omega)

theorem cp2_literal (s : Coder) (b : UInt8) : (s.literal b).cp2 = s.cp2 := rfl

theorem cp_literal (s : Coder) (b : UInt8) : (s.literal b).cp = s.cp + 1 := by
  rw [Coder.cp, Coder.cp, cp2_literal, Coder.literal, List.length_append, List.length_singleton,
    Nat.add_assoc _ s.group.length]

theorem cp2_pair (s : Coder) (len : Nat) : (s.pair len).cp2 = s.cp2 := rfl

theorem cp_pair (s : Coder) (len : Nat) : (s.pair len).cp = s.cp + 2 := by
  rw [Coder.cp, Coder.cp, cp2_pair, Coder.pair, List.length_append, Endian.length_put,
    Nat.add_assoc _ s.group.length]

theorem cp2_lt_cp (s : Coder) : s.cp2 < s.cp := by
  rw [Coder.cp]
  omega

/-! ## A round -/

/-- A literal is written. -/
theorem Coder.Inv.literal (h : s.Inv m unc uncEnd last) (hend : uncEnd ≤ m.length)
    (hlt : s.up < uncEnd) (hindex : IsIndex (s.up - unc) s.idx) (hroom : s.cp < last) :
    (s.literal (m.getD s.up 0)).count.Inv m unc uncEnd last := by
  obtain ⟨mid, ts, hgs, hts, hlen, hflags, hohdr⟩ := h.grouped
  have hle := h.le
  have hpos : s.up - unc + 1 = s.up + 1 - unc := by omega
  have hnil : Encodes (chunkData m unc uncEnd) (s.up - unc + 1) (s.up + 1 - unc) [] [] := by
    rw [hpos]
    exact .nil _
  have htoken : Encodes (chunkData m unc uncEnd) (s.up - unc) (s.up + 1 - unc)
      [.literal (m.getD s.up 0)] ([m.getD s.up 0] ++ []) :=
    .cons hindex (fits_literal hend hle hlt) trivial hnil
  rw [← hlen] at hohdr
  have hgrouped : Grouped (chunkData m unc uncEnd) (s.up + 1 - unc) (s.literal (m.getD s.up 0))
      (s.cnt + 1) := by
    refine ⟨mid, ts ++ [.literal (m.getD s.up 0)], hgs, hts.append htoken, ?_,
      hflags.literal hohdr rfl, ?_⟩
    · rw [List.length_append, hlen, List.length_singleton]
    · rw [← hlen]
      exact Nat.lt_of_lt_of_le hohdr (Nat.pow_le_pow_right (by decide) (Nat.le_succ _))
  obtain ⟨hcnt, hcount⟩ := count_grouped (s := s.literal (m.getD s.up 0)) h.cnt hgrouped
  obtain ⟨hctx, hidx, hup, hzero⟩ := count_fields (s.literal (m.getD s.up 0))
  have hlt2 := cp2_lt_cp s
  have hcp2 : (s.literal (m.getD s.up 0)).cp2 ≤ last := by
    rw [cp2_literal]
    omega
  have hcp : (s.literal (m.getD s.up 0)).cp ≤ last := by
    rw [cp_literal]
    omega
  refine ⟨?_, ?_, ?_, ?_, ?_, ?_, hcnt, ?_, .inr (count_room hcp2 hcp), ?_⟩
  · rw [hctx]
    exact h.unc_eq
  · rw [hctx]
    exact h.uncEnd_eq
  · rw [hctx, hidx]
    exact h.maxLen
  · rw [hup, hidx]
    exact hindex.1.mono (Nat.sub_le_sub_right (Nat.le_succ _) _)
  · rw [hup]
    exact Nat.le_succ_of_le hle
  · rw [hup]
    exact hlt
  · rw [hup]
    exact hcount
  · rw [hzero, hup]
    intro hor i hi hlti
    obtain ⟨hz, hb⟩ := UInt8.or_eq_zero_iff.mp hor
    rcases Nat.lt_succ_iff_lt_or_eq.mp hlti with hlti | rfl
    · exact h.zeros hz i hi hlti
    · exact hb

/-- A short pair is written. -/
theorem Coder.Inv.pair (h : s.Inv m unc uncEnd last) (hend : uncEnd ≤ m.length)
    (hindex : IsIndex (s.up - unc) s.idx) {ctx : Lznt} {len p : Nat} (hctx : s.ctx.bestMatch = some p)
    (hunc : ctx.unc = unc) (hstop : ctx.uncEnd = uncEnd) (hmax : ctx.maxLen = s.ctx.maxLen)
    (hmatch : MatchAt m s.up ctx len p) (hthree : 3 ≤ len) (hroom : s.cp + 1 < last) :
    (s.pair len).count.Inv m unc uncEnd last := by
  obtain ⟨mid, ts, hgs, hts, hlen, hflags, hohdr⟩ := h.grouped
  have hle := h.le
  have hi := hindex.1.1
  have hpu := hmatch.unc_le
  have hp := hmatch.lt
  have hlast := hmatch.stop
  rw [hunc] at hpu
  rw [hstop] at hlast
  have hcode : Codable s.idx (.copy (s.up - p) len) := by
    have hle := hmatch.le
    have hoff := hindex.2
    rw [hmax, h.maxLen, sMaxLen_eq s.idx (by omega)] at hle
    exact ⟨by omega, hthree, hle⟩
  have hpos : s.up - unc + len = s.up + len - unc := by omega
  have hnil : Encodes (chunkData m unc uncEnd) (s.up - unc + len) (s.up + len - unc) [] [] := by
    rw [hpos]
    exact .nil _
  have htoken : Encodes (chunkData m unc uncEnd) (s.up - unc) (s.up + len - unc)
      [.copy (s.up - p) len] (tokenBytes s.idx (.copy (s.up - p) len) ++ []) :=
    .cons hindex (fits_copy hend hunc hstop hmatch) hcode hnil
  rw [List.append_nil] at htoken
  have hcnt := h.cnt
  have hgrouped : Grouped (chunkData m unc uncEnd) (s.up + len - unc) (s.pair len) (s.cnt + 1) := by
    refine ⟨mid, ts ++ [.copy (s.up - p) len], hgs, ?_, ?_, ?_, setFlag_lt hcnt hohdr⟩
    · have hgroup := hts.append htoken
      rw [tokenBytes] at hgroup
      rw [Coder.pair, hctx]
      exact hgroup
    · rw [List.length_append, hlen, List.length_singleton]
    · rw [Coder.pair, ← hlen]
      exact hflags.copy (by omega) rfl
  obtain ⟨hcnt', hcount⟩ := count_grouped (s := s.pair len) h.cnt hgrouped
  obtain ⟨hc, hidx, hup, hzero⟩ := count_fields (s.pair len)
  have hlt2 := cp2_lt_cp s
  have hcp2 : (s.pair len).cp2 ≤ last := by
    rw [cp2_pair]
    omega
  have hcp : (s.pair len).cp ≤ last := by
    rw [cp_pair]
    omega
  refine ⟨?_, ?_, ?_, ?_, ?_, ?_, hcnt', ?_, .inr (count_room hcp2 hcp), ?_⟩
  · rw [hc]
    exact h.unc_eq
  · rw [hc]
    exact h.uncEnd_eq
  · rw [hc, hidx]
    exact h.maxLen
  · rw [hup, hidx]
    exact hindex.1.mono (Nat.sub_le_sub_right (Nat.le_add_right _ _) _)
  · rw [hup]
    exact Nat.le_trans hle (Nat.le_add_right _ _)
  · rw [hup]
    exact hlast
  · rw [hup]
    exact hcount
  · rw [hzero, hup]
    intro hz i hi hlti
    rw [← hunc] at hi
    refine zeros_match hmatch (fun i hi hlti => h.zeros hz i ?_ hlti) i hi hlti
    rwa [hunc] at hi

/-- A round keeps the invariant and gets ahead, or ends the loop. -/
theorem compressRound_inv (std : Bool) (h : s.Inv m unc uncEnd last) (hend : uncEnd ≤ m.length)
    (hsize : uncEnd - unc ≤ lzntChunkSize) (hlt : s.up < uncEnd) :
    (∃ ctx, compressRound std m last s = .error (.notCompressed ctx)) ∨
      ∃ s', compressRound std m last s = .ok s' ∧ s'.Inv m unc uncEnd last ∧ s.up < s'.up := by
  have hle := h.le
  obtain ⟨idx, hcorrect, hindex⟩ := correctIndex_spec (by omega) h.below
    (by omega : 9 ≤ s.idx + 10)
  have hi := hindex.1.1
  rw [compressRound, h.unc_eq, hcorrect]
  dsimp only
  generalize hctx : (if idx = s.idx then s.ctx else
    { s.ctx with maxLen := sMaxLen.getD idx 0 }) = ctx
  have hfields : ctx.unc = unc ∧ ctx.uncEnd = uncEnd ∧ ctx.maxLen = sMaxLen.getD idx 0 := by
    rw [← hctx]
    split
    · rename_i heq
      rw [heq]
      exact ⟨h.unc_eq, h.uncEnd_eq, h.maxLen⟩
    · exact ⟨h.unc_eq, h.uncEnd_eq, rfl⟩
  obtain ⟨hunc, hstop, hmax⟩ := hfields
  have hthree : 3 ≤ ctx.maxLen := by
    rw [hmax, sMaxLen_eq idx (by omega)]
    have hpos := Nat.two_pow_pos (12 - idx)
    omega
  have hsearched : Searched m s.up ctx
      (if s.up + 3 ≤ ctx.uncEnd then longestMatch std m s.up ctx else (0, ctx)) := by
    split
    · rename_i hfit
      exact longestMatch_spec std hfit hthree
    · exact ⟨rfl, rfl, rfl, .inl rfl⟩
  generalize (if s.up + 3 ≤ ctx.uncEnd then longestMatch std m s.up ctx else (0, ctx)) = r
    at hsearched
  obtain ⟨hrunc, hrend, hrmax, hfound⟩ := hsearched
  have hinv : ({ s with ctx := r.2, idx := idx } : Coder).Inv m unc uncEnd last :=
    ⟨hrunc.trans hunc, hrend.trans hstop, hrmax.trans hmax, hindex.1, h.le, h.stop, h.cnt,
      h.grouped, h.room, h.zeros⟩
  split
  · split
    · exact .inl ⟨_, rfl⟩
    · rename_i hroom
      refine .inr ⟨_, rfl, hinv.literal hend hlt hindex (Nat.lt_of_not_le hroom), ?_⟩
      rw [(count_fields _).2.2.1]
      exact Nat.lt_succ_self _
  · rename_i hne
    split
    · exact .inl ⟨_, rfl⟩
    · rename_i hroom
      rcases hfound with h0 | ⟨hlen, p, hbest, hmatch⟩
      · exact absurd h0 hne
      · refine .inr ⟨_, rfl, hinv.pair hend hindex hbest hunc hstop hrmax.symm hmatch hlen
          (Nat.lt_of_not_le hroom), ?_⟩
        rw [(count_fields _).2.2.1]
        exact Nat.lt_add_of_pos_right (by omega)

/-- The loop ends with all of the chunk encoded, or gives up. -/
theorem compressRounds_inv (std : Bool) (h : s.Inv m unc uncEnd last) (hend : uncEnd ≤ m.length)
    (hsize : uncEnd - unc ≤ lzntChunkSize) {fuel : Nat} (hfuel : uncEnd - s.up ≤ fuel) :
    (∃ ctx, compressRounds std m last fuel s = .error (.notCompressed ctx)) ∨
      ∃ s', compressRounds std m last fuel s = .ok s' ∧ s'.Inv m unc uncEnd last ∧
        s'.up = uncEnd := by
  induction fuel generalizing s with
  | zero =>
    have hle := h.stop
    exact .inr ⟨s, rfl, h, by omega⟩
  | succ fuel ih =>
    rw [compressRounds, h.uncEnd_eq]
    split
    · rename_i hlt
      rcases compressRound_inv std h hend hsize hlt with ⟨ctx, herr⟩ | ⟨s', hok, hinv, hup⟩
      · rw [herr]
        exact .inl ⟨ctx, rfl⟩
      · rw [hok]
        exact ih hinv (by omega)
    · rename_i hnot
      have hle := h.stop
      exact .inr ⟨s, rfl, h, by omega⟩

end

end UolaOs.Ntfs3
