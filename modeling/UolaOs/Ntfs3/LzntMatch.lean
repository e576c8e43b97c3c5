import UolaOs.Ntfs3.Lznt

/-!
# Matches and short pairs of LZNT1

* `longestMatch_spec`: what either search for a match finds is one;
* `correctIndex_spec`: the index in the tables depends on the position only;
* `parse_makePair`: a short pair holds the offset and the length.
-/

namespace UolaOs.Ntfs3

/-- The `len` bytes at `src` are at `p`, too, in the part of the chunk before them. -/
structure MatchAt (m : Bytes) (src : Nat) (ctx : Lznt) (len p : Nat) : Prop where
  unc_le : ctx.unc ≤ p
  lt : p < src
  le : len ≤ ctx.maxLen
  stop : src + len ≤ ctx.uncEnd
  same : ∀ k < len, m.getD (p + k) 0 = m.getD (src + k) 0

section
variable {m : Bytes} {ptr stop prev maxLen fuel len src p : Nat} {ctx : Lznt}

theorem matchRounds_spec (hptr : ptr + len ≤ stop) (hlen : len < maxLen)
    (hsame : ∀ k < len, m.getD (prev + k) 0 = m.getD (ptr + k) 0) :
    matchRounds m ptr stop prev maxLen fuel len ≤ maxLen ∧
      ptr + matchRounds m ptr stop prev maxLen fuel len ≤ stop ∧
      ∀ k < matchRounds m ptr stop prev maxLen fuel len,
        m.getD (prev + k) 0 = m.getD (ptr + k) 0 := by
  induction fuel generalizing len with
  | zero => exact ⟨Nat.le_of_lt hlen, hptr, hsame⟩
  | succ fuel ih =>
    rw [matchRounds]
    split
    · rename_i hnext
      have hsame' : ∀ k < len + 1, m.getD (prev + k) 0 = m.getD (ptr + k) 0 := by
        intro k hk
        rcases Nat.lt_succ_iff_lt_or_eq.mp hk with hk | rfl
        · exact hsame k hk
        · exact hnext.2.symm
      split
      · rename_i hmax
        exact ih (by omega) hmax hsame'
      · exact ⟨by omega, by omega, hsame'⟩
    · exact ⟨Nat.le_of_lt hlen, hptr, hsame⟩

theorem getMatchLen_spec (m : Bytes) (prev : Nat) (hptr : ptr ≤ stop) (hmax : 0 < maxLen) :
    getMatchLen m ptr stop prev maxLen ≤ maxLen ∧
      ptr + getMatchLen m ptr stop prev maxLen ≤ stop ∧
      ∀ k < getMatchLen m ptr stop prev maxLen, m.getD (prev + k) 0 = m.getD (ptr + k) 0 :=
  matchRounds_spec hptr hmax fun k hk => absurd hk (Nat.not_lt_zero k)

/-! ## The standard search -/

theorem candidate_spec (hsrc : src + 3 ≤ ctx.uncEnd) (hmax : 3 ≤ ctx.maxLen) (o : Option Nat) :
    candidate m src ctx o = 0 ∨ 3 ≤ candidate m src ctx o ∧
      ∃ p, o = some p ∧ MatchAt m src ctx (candidate m src ctx o) p := by
  cases o with
  | none => exact .inl rfl
  | some p =>
    rw [candidate]
    split
    · rename_i h
      obtain ⟨hunc, hlt, h0, h1, h2⟩ := h
      have hfirst : ∀ k < 3, m.getD (p + k) 0 = m.getD (src + k) 0 := by
        intro k hk
        obtain rfl | rfl | rfl : k = 0 ∨ k = 1 ∨ k = 2 := by omega
        · exact h0
        · exact h1
        · exact h2
      refine .inr ⟨Nat.le_add_right _ _, p, rfl, ?_⟩
      split
      · rename_i h3
        obtain ⟨hle, hstop, hsame⟩ := getMatchLen_spec m (p + 3) hsrc
          (Nat.sub_pos_of_lt h3)
        refine ⟨hunc, hlt, by omega, by omega, fun k hk => ?_⟩
        by_cases hk3 : k < 3
        · exact hfirst k hk3
        · obtain ⟨j, rfl⟩ : ∃ j, k = 3 + j := ⟨k - 3, by omega⟩
          have hj := hsame j (by omega)
          rwa [Nat.add_assoc, Nat.add_assoc] at hj
      · exact ⟨hunc, hlt, hmax, hsrc, hfirst⟩
    · exact .inl rfl

/-- What a search for a match does. -/
structure Searched (m : Bytes) (src : Nat) (ctx : Lznt) (r : Nat × Lznt) : Prop where
  unc : r.2.unc = ctx.unc
  uncEnd : r.2.uncEnd = ctx.uncEnd
  maxLen : r.2.maxLen = ctx.maxLen
  found : r.1 = 0 ∨ 3 ≤ r.1 ∧ ∃ p, r.2.bestMatch = some p ∧ MatchAt m src ctx r.1 p

theorem longestMatchStd_spec (hsrc : src + 3 ≤ ctx.uncEnd) (hmax : 3 ≤ ctx.maxLen) :
    Searched m src ctx (longestMatchStd m src ctx) := by
  refine ⟨rfl, rfl, rfl, ?_⟩
  rw [longestMatchStd]
  dsimp only
  split
  · exact candidate_spec hsrc hmax _
  · exact candidate_spec hsrc hmax _

/-! ## The best search -/

theorem bestRound_spec {s : Nat × Lznt} (hsrc : src ≤ ctx.uncEnd) (hmax : 0 < ctx.maxLen)
    (hs : s.2.unc = ctx.unc ∧ s.2.uncEnd = ctx.uncEnd ∧ s.2.maxLen = ctx.maxLen ∧
      (s.1 = 0 ∨ ∃ p, s.2.bestMatch = some p ∧ MatchAt m src ctx s.1 p))
    (hunc : ctx.unc ≤ ptr) (hlt : ptr < src) :
    (bestRound m src s ptr).2.unc = ctx.unc ∧ (bestRound m src s ptr).2.uncEnd = ctx.uncEnd ∧
      (bestRound m src s ptr).2.maxLen = ctx.maxLen ∧ ((bestRound m src s ptr).1 = 0 ∨
        ∃ p, (bestRound m src s ptr).2.bestMatch = some p ∧
          MatchAt m src ctx (bestRound m src s ptr).1 p) := by
  obtain ⟨h₁, h₂, h₃, hfound⟩ := hs
  rw [bestRound, h₂, h₃]
  dsimp only
  split
  · obtain ⟨hle, hstop, hsame⟩ := getMatchLen_spec m ptr hsrc hmax
    exact ⟨h₁, h₂, h₃, .inr ⟨ptr, rfl, hunc, hlt, hle, hstop, hsame⟩⟩
  · exact ⟨h₁, h₂, h₃, hfound⟩

theorem longestMatchBest_spec (hsrc : src + 3 ≤ ctx.uncEnd) :
    Searched m src ctx (longestMatchBest m src ctx) := by
  rw [longestMatchBest]
  split
  · exact ⟨rfl, rfl, rfl, .inl rfl⟩
  · rename_i h
    have hfold : ∀ (ptrs : List Nat) (s : Nat × Lznt), (∀ q ∈ ptrs, ctx.unc ≤ q ∧ q < src) →
        (s.2.unc = ctx.unc ∧ s.2.uncEnd = ctx.uncEnd ∧ s.2.maxLen = ctx.maxLen ∧
          (s.1 = 0 ∨ ∃ p, s.2.bestMatch = some p ∧ MatchAt m src ctx s.1 p)) →
        (ptrs.foldl (bestRound m src) s).2.unc = ctx.unc ∧
          (ptrs.foldl (bestRound m src) s).2.uncEnd = ctx.uncEnd ∧
          (ptrs.foldl (bestRound m src) s).2.maxLen = ctx.maxLen ∧
          ((ptrs.foldl (bestRound m src) s).1 = 0 ∨
            ∃ p, (ptrs.foldl (bestRound m src) s).2.bestMatch = some p ∧
              MatchAt m src ctx (ptrs.foldl (bestRound m src) s).1 p) := by
      intro ptrs
      induction ptrs with
      | nil => exact fun s _ hs => hs
      | cons q ptrs ih =>
        intro s hptrs hs
        obtain ⟨hunc, hlt⟩ := hptrs q List.mem_cons_self
        exact ih _ (fun q' hq' => hptrs q' (List.mem_cons_of_mem q hq'))
          (bestRound_spec (by omega) (by omega) hs hunc hlt)
    have hptrs : ∀ q ∈ List.range' ctx.unc (src - ctx.unc), ctx.unc ≤ q ∧ q < src := by
      intro q hq
      rw [List.mem_range'_1] at hq
      omega
    obtain ⟨h₁, h₂, h₃, hfound⟩ := hfold _ (0, ctx) hptrs ⟨rfl, rfl, rfl, .inl rfl⟩
    refine ⟨h₁, h₂, h₃, ?_⟩
    dsimp only
    split
    · rename_i h3
      rcases hfound with h0 | hfound
      · omega
      · exact .inr ⟨h3, hfound⟩
    · exact .inl rfl

theorem longestMatch_spec (std : Bool) (hsrc : src + 3 ≤ ctx.uncEnd) (hmax : 3 ≤ ctx.maxLen) :
    Searched m src ctx (longestMatch std m src ctx) := by
  cases std with
  | true => exact longestMatchStd_spec hsrc hmax
  | false => exact longestMatchBest_spec hsrc

end

/-! ## The tables -/

theorem sMaxOff_eq : ∀ i < 9, sMaxOff[i]? = some (2 ^ (4 + i)) := by decide

theorem sMaxLen_eq : ∀ i < 9, sMaxLen.getD i 0 = 2 ^ (12 - i) + 2 := by decide

/-- No entry before this one reaches the position. -/
def Below (pos i : Nat) : Prop := i ≤ 8 ∧ ∀ j < i, 2 ^ (4 + j) < pos

/-- The first entry that reaches the position. -/
def IsIndex (pos i : Nat) : Prop := Below pos i ∧ pos ≤ 2 ^ (4 + i)

section
variable {pos i j fuel : Nat}

theorem Below.zero (pos : Nat) : Below pos 0 := ⟨Nat.zero_le _, fun _ hj => by omega⟩

theorem Below.mono {pos' : Nat} (h : Below pos i) (hle : pos ≤ pos') : Below pos' i :=
  ⟨h.1, fun j hj => Nat.lt_of_lt_of_le (h.2 j hj) hle⟩

theorem IsIndex.unique (hi : IsIndex pos i) (hj : IsIndex pos j) : i = j := by
  rcases Nat.lt_trichotomy i j with hlt | rfl | hlt
  · exact absurd hi.2 (Nat.not_le_of_lt (hj.1.2 i hlt))
  · rfl
  · exact absurd hj.2 (Nat.not_le_of_lt (hi.1.2 j hlt))

theorem correctIndex_spec (hpos : pos ≤ lzntChunkSize) (h : Below pos i) (hfuel : 9 ≤ i + fuel) :
    ∃ j, correctIndex pos fuel i = some j ∧ IsIndex pos j := by
  induction fuel generalizing i with
  | zero =>
    have hle := h.1
    omega
  | succ fuel ih =>
    have hle := h.1
    rw [correctIndex, sMaxOff_eq i (by omega)]
    dsimp only
    split
    · rename_i hlt
      have hne : i ≠ 8 := by
        rintro rfl
        exact absurd hpos (Nat.not_le_of_lt hlt)
      refine ih ⟨by omega, fun j hj => ?_⟩ (by omega)
      rcases Nat.lt_succ_iff_lt_or_eq.mp hj with hj | rfl
      · exact h.2 j hj
      · exact hlt
    · rename_i hnot
      exact ⟨i, rfl, h, Nat.le_of_not_lt hnot⟩

/-! ## Short pairs -/

variable {offset len : Nat}

theorem makePair_eq (hi : i ≤ 8) (hoff : offset ≤ 2 ^ (4 + i)) (ho : 0 < offset)
    (hlen : len ≤ 2 ^ (12 - i) + 2) (hl : 3 ≤ len) :
    makePair offset len i = (offset - 1) * 2 ^ (12 - i) + (len - 3) ∧
      makePair offset len i < 2 ^ 16 := by
  have hpos : 0 < 2 ^ (12 - i) := Nat.two_pow_pos _
  have hlow : len - 3 < 2 ^ (12 - i) := by omega
  have hmask : (len - 3) &&& ((1 <<< (12 - i)) - 1) = len - 3 := by
    rw [Nat.one_shiftLeft, Nat.and_two_pow_sub_one_eq_mod, Nat.mod_eq_of_lt hlow]
  have hsum : (offset - 1) * 2 ^ (12 - i) + (len - 3) < 2 ^ 16 := by
    have hsplit : (2 : Nat) ^ 16 = 2 ^ (4 + i) * 2 ^ (12 - i) := by
      rw [← Nat.pow_add]
      congr 1
      omega
    have hmul : (offset - 1 + 1) * 2 ^ (12 - i) ≤ 2 ^ (4 + i) * 2 ^ (12 - i) :=
      Nat.mul_le_mul_right _ (by omega)
    rw [Nat.add_mul, Nat.one_mul] at hmul
    omega
  have heq : makePair offset len i = (offset - 1) * 2 ^ (12 - i) + (len - 3) := by
    rw [makePair, hmask, ← Nat.shiftLeft_add_eq_or_of_lt hlow, Nat.shiftLeft_eq,
      Nat.mod_eq_of_lt hsum]
  exact ⟨heq, heq ▸ hsum⟩

theorem parse_makePair (hi : i ≤ 8) (hoff : offset ≤ 2 ^ (4 + i)) (ho : 0 < offset)
    (hlen : len ≤ 2 ^ (12 - i) + 2) (hl : 3 ≤ len) :
    parsePair (makePair offset len i) i = (offset, len) := by
  have hpos : 0 < 2 ^ (12 - i) := Nat.two_pow_pos _
  have hlow : len - 3 < 2 ^ (12 - i) := by omega
  have hdiv : ((offset - 1) * 2 ^ (12 - i) + (len - 3)) / 2 ^ (12 - i) = offset - 1 := by
    rw [Nat.mul_comm, Nat.mul_add_div hpos, Nat.div_eq_of_lt hlow, Nat.add_zero]
  have hmod : ((offset - 1) * 2 ^ (12 - i) + (len - 3)) % 2 ^ (12 - i) = len - 3 := by
    rw [Nat.mul_comm, Nat.mul_add_mod, Nat.mod_eq_of_lt hlow]
  rw [parsePair, (makePair_eq hi hoff ho hlen hl).1, Nat.shiftRight_eq_div_pow, hdiv,
    Nat.one_shiftLeft, Nat.and_two_pow_sub_one_eq_mod, hmod]
  exact Prod.ext (by dsimp only; omega) (by dsimp only; omega)

end

end UolaOs.Ntfs3
