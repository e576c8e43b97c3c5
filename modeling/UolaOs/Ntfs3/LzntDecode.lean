import UolaOs.Ntfs3.LzntMatch

/-!
# Decoding a chunk

* `Encodes`: tokens, one behind the other, and their bytes;
* `decompressChunk_groups`: what groups of eight tokens and a last group are decompressed to.
-/

namespace UolaOs.Ntfs3

def isCopy : Token UInt8 → Bool
  | .literal _ => false
  | .copy _ _ => true

/-- The bytes of a token, with the index of its position. -/
def tokenBytes (index : Nat) : Token UInt8 → Bytes
  | .literal b => [b]
  | .copy offset length => Endian.little.put 2 (makePair offset length index)

/-- A copy is long enough for a short pair, and not too long. -/
def Codable (index : Nat) : Token UInt8 → Prop
  | .literal _ => True
  | .copy offset length => offset ≤ 2 ^ (4 + index) ∧ 3 ≤ length ∧ length ≤ 2 ^ (12 - index) + 2

/-- From `pos` up to `stop` the data are these tokens, which are these bytes. -/
inductive Encodes (data : Bytes) : Nat → Nat → List (Token UInt8) → Bytes → Prop
  | nil (pos : Nat) : Encodes data pos pos [] []
  | cons {pos stop index : Nat} {t : Token UInt8} {ts : List (Token UInt8)} {bs : Bytes}
      (hindex : IsIndex pos index) (ht : t.Fits data pos) (hcode : Codable index t)
      (hts : Encodes data (pos + t.size) stop ts bs) :
      Encodes data pos stop (t :: ts) (tokenBytes index t ++ bs)

/-- The bits from `bit` on say which tokens are copies. -/
def HasFlags (ch : UInt8) (bit : Nat) (ts : List (Token UInt8)) : Prop :=
  ∀ j t, ts[j]? = some t → (ch.toNat &&& (1 <<< (bit + j)) = 0 ↔ isCopy t = false)

/-- From `pos` up to `stop` the data are groups of eight tokens, with their control bytes. -/
inductive Groups (data : Bytes) : Nat → Nat → Bytes → Prop
  | nil (pos : Nat) : Groups data pos pos []
  | cons {pos mid stop : Nat} {ts : List (Token UInt8)} {bs gs : Bytes} {ch : UInt8}
      (hts : Encodes data pos mid ts bs) (hlen : ts.length = 8) (hflags : HasFlags ch 0 ts)
      (hgs : Groups data mid stop gs) : Groups data pos stop (ch :: (bs ++ gs))

/-- The end of a group: the next control byte, and the group behind it. -/
def startGroup (room fuel : Nat) (up : Bytes) (index : Nat) : Bytes → Except Errno Bytes
  | [] => .ok up
  | ch :: cmpr => decompressRounds room fuel ⟨up, cmpr, ch, 0, index⟩

section
variable {data bs : Bytes} {pos stop mid index room bit fuel : Nat} {t : Token UInt8}
  {ts : List (Token UInt8)} {ch : UInt8}

theorem Encodes.le (h : Encodes data pos stop ts bs) : pos ≤ stop := by
  induction h with
  | nil pos => exact Nat.le_refl pos
  | cons hindex ht hcode hts ih => exact Nat.le_trans (Nat.le_add_right _ _) ih

theorem Encodes.append {us : List (Token UInt8)} {cs : Bytes} (h : Encodes data pos mid ts bs)
    (h' : Encodes data mid stop us cs) : Encodes data pos stop (ts ++ us) (bs ++ cs) := by
  induction h with
  | nil pos => exact h'
  | cons hindex ht hcode hts ih =>
    rw [List.append_assoc]
    exact .cons hindex ht hcode (ih h')

theorem Groups.le (h : Groups data pos stop bs) : pos ≤ stop := by
  induction h with
  | nil pos => exact Nat.le_refl pos
  | cons hts hlen hflags hgs ih => exact Nat.le_trans hts.le ih

theorem Groups.snoc {gs : Bytes} (h : Groups data pos mid gs) (hts : Encodes data mid stop ts bs)
    (hlen : ts.length = 8) (hflags : HasFlags ch 0 ts) :
    Groups data pos stop (gs ++ ch :: bs) := by
  induction h with
  | nil pos =>
    have hone := Groups.cons hts hlen hflags (.nil stop)
    rwa [List.append_nil] at hone
  | cons hts' hlen' hflags' hgs ih =>
    rw [List.cons_append, List.append_assoc]
    exact .cons hts' hlen' hflags' (ih hts)

theorem length_tokenBytes_pos (index : Nat) (t : Token UInt8) : 0 < (tokenBytes index t).length := by
  cases t with
  | literal b => exact Nat.one_pos
  | copy offset length =>
    rw [tokenBytes, Endian.length_put]
    decide

/-! ## A token -/

theorem size_pos (hcode : Codable index t) : 0 < t.size := by
  cases t with
  | literal b => exact Nat.one_pos
  | copy offset length => exact Nat.lt_of_lt_of_le (by decide) hcode.2.1

theorem length_take_of_fits (ht : t.Fits data pos) : (data.take pos).length = pos := by
  apply List.length_take_of_le
  cases t with
  | literal b => exact Nat.le_of_lt (List.getElem?_eq_some_iff.mp ht).1
  | copy offset length => exact Nat.le_trans (Nat.le_add_right _ _) ht.2.2.1

/-- A token is read back. -/
theorem decompressItem_token (ht : t.Fits data pos) (hindex : IsIndex pos index)
    (hcode : Codable index t) (hpos : pos ≤ lzntChunkSize) (hroom : pos + t.size ≤ room)
    (hflag : ch.toNat &&& (1 <<< bit) = 0 ↔ isCopy t = false) (tail : Bytes) {start : Nat}
    (hstart : Below pos start) :
    decompressItem room ⟨data.take pos, tokenBytes index t ++ tail, ch, bit, start⟩ =
      .ok ⟨data.take (pos + t.size), tail, ch, bit, index⟩ := by
  have hlen := length_take_of_fits ht
  obtain ⟨j, hj, hisj⟩ := correctIndex_spec hpos hstart (by omega : 9 ≤ start + 10)
  obtain rfl := hisj.unique hindex
  rw [decompressItem]
  dsimp only
  rw [hlen, hj]
  dsimp only
  cases t with
  | literal b =>
    rw [if_pos (hflag.mpr rfl)]
    simp only [tokenBytes, List.singleton_append, List.take_succ_cons, List.take_zero,
      List.drop_succ_cons, List.drop_zero, take_succ_of_getElem? ht, Token.size]
  | copy offset length =>
    obtain ⟨hoff, hthree, hmax⟩ := hcode
    obtain ⟨ho, hle, hend, hsame⟩ := ht
    have hi := hindex.1.1
    have hnot : ¬ ch.toNat &&& (1 <<< bit) = 0 := fun h => Bool.noConfusion (hflag.mp h)
    have hput : (Endian.little.put 2 (makePair offset length j)).length = 2 := Endian.length_put _ _ _
    have hlen2 : ¬ (Endian.little.put 2 (makePair offset length j) ++ tail).length < 2 := by
      rw [List.length_append, hput]
      omega
    have hlength : (if room ≤ pos + length then room - pos else length) = length := by
      rw [Token.size] at hroom
      split <;> omega
    rw [if_neg hnot, tokenBytes, if_neg hlen2, List.take_left' hput, List.drop_left' hput,
      Endian.get_put_of_lt _ (makePair_eq hi hoff ho hmax hthree).2,
      parse_makePair hi hoff ho hmax hthree]
    dsimp only
    rw [if_neg (by omega), hlength, copyBack_take ho hle hend hsame]
    rfl

/-! ## A group -/

theorem HasFlags.head (h : HasFlags ch bit (t :: ts)) :
    ch.toNat &&& (1 <<< bit) = 0 ↔ isCopy t = false := h 0 t rfl

theorem HasFlags.tail (h : HasFlags ch bit (t :: ts)) : HasFlags ch (bit + 1) ts := by
  intro j u hu
  have hnext := h (j + 1) u hu
  rwa [← Nat.add_assoc, Nat.add_right_comm] at hnext

theorem next_bit : ∀ bit < 8, (bit + 1) &&& 7 = if bit = 7 then 0 else bit + 1 := by decide

theorem decompressRounds_end {s : Decoder} (h : s.cmpr = []) : decompressRounds room fuel s =
    .ok s.up := by
  cases fuel with
  | zero => rfl
  | succ fuel => rw [decompressRounds, if_neg (fun hand => hand.2 h)]

/-- The tokens of a group, or the last of them. -/
theorem decompressRounds_tokens (h : Encodes data pos stop ts bs) (tail : Bytes)
    (hbit : bit + ts.length ≤ 8) (hlt : bit < 8) (hroom : stop ≤ room)
    (hstop : stop ≤ lzntChunkSize) (hflags : HasFlags ch bit ts) {start : Nat}
    (hstart : Below pos start) :
    ∃ index, Below stop index ∧ ∀ fuel,
      decompressRounds room (ts.length + fuel) ⟨data.take pos, bs ++ tail, ch, bit, start⟩ =
        if bit + ts.length = 8 then startGroup room fuel (data.take stop) index tail
        else decompressRounds room fuel ⟨data.take stop, tail, ch, bit + ts.length, index⟩ := by
  induction h generalizing bit start with
  | nil pos =>
    refine ⟨start, hstart, fun fuel => ?_⟩
    rw [List.length_nil, Nat.zero_add, Nat.add_zero, if_neg (Nat.ne_of_lt hlt), List.nil_append]
  | @cons pos stop i t ts bs hindex ht hcode hts ih =>
    have hle := hts.le
    have hsize := size_pos hcode
    have hlen := length_take_of_fits ht
    rw [List.length_cons] at hbit ⊢
    have hne : tokenBytes i t ++ bs ++ tail ≠ [] := by
      apply List.ne_nil_of_length_pos
      have htoken := length_tokenBytes_pos i t
      rw [List.length_append, List.length_append]
      omega
    have hitem := decompressItem_token ht hindex hcode (by omega) (Nat.le_trans hle hroom)
      hflags.head (bs ++ tail) hstart
    have hbelow : Below (pos + t.size) i := hindex.1.mono (Nat.le_add_right _ _)
    have hround (fuel : Nat) : decompressRounds room (ts.length + 1 + fuel)
        ⟨data.take pos, tokenBytes i t ++ bs ++ tail, ch, bit, start⟩ =
          if bit = 7 then startGroup room (ts.length + fuel) (data.take (pos + t.size)) i (bs ++ tail)
          else decompressRounds room (ts.length + fuel)
            ⟨data.take (pos + t.size), bs ++ tail, ch, bit + 1, i⟩ := by
      have hfuel : ts.length + 1 + fuel = ts.length + fuel + 1 := by omega
      rw [hfuel, decompressRounds, if_pos ⟨by dsimp only; omega, hne⟩, List.append_assoc, hitem]
      simp only [Except.bind, next_bit bit hlt]
      by_cases h7 : bit = 7
      · simp only [if_pos h7]
        cases bs ++ tail <;> rfl
      · simp only [if_neg h7, if_neg (Nat.succ_ne_zero bit)]
    by_cases h7 : bit = 7
    · -- the group ends here
      obtain rfl : ts = [] := List.length_eq_zero_iff.mp (by omega)
      cases hts with
      | nil pos =>
        refine ⟨i, hbelow, fun fuel => ?_⟩
        rw [hround, if_pos h7, h7, List.nil_append, List.length_nil, Nat.zero_add, if_pos rfl]
    · obtain ⟨index, hindex', hrun⟩ := @ih (bit + 1) (by omega) (by omega) hroom hstop
        hflags.tail i hbelow
      refine ⟨index, hindex', fun fuel => ?_⟩
      have hassoc : bit + (ts.length + 1) = bit + 1 + ts.length := by omega
      rw [hround, if_neg h7, hrun, hassoc]

theorem Encodes.length_le (h : Encodes data pos stop ts bs) : ts.length ≤ bs.length := by
  induction h with
  | nil pos => exact Nat.le_refl 0
  | @cons pos stop i t ts bs hindex ht hcode hts ih =>
    have htoken := length_tokenBytes_pos i t
    rw [List.length_cons, List.length_append]
    omega

/-- Full groups. -/
theorem startGroup_groups {gs : Bytes} (h : Groups data pos stop gs) (tail : Bytes)
    (hroom : stop ≤ room) (hstop : stop ≤ lzntChunkSize) {start : Nat} (hstart : Below pos start) :
    ∃ index used, Below stop index ∧ used ≤ gs.length ∧ ∀ fuel,
      startGroup room (used + fuel) (data.take pos) start (gs ++ tail) =
        startGroup room fuel (data.take stop) index tail := by
  induction h generalizing start with
  | nil pos =>
    refine ⟨start, 0, hstart, Nat.le_refl 0, fun fuel => ?_⟩
    rw [Nat.zero_add, List.nil_append]
  | @cons pos mid stop ts bs gs ch hts hlen hflags hgs ih =>
    have hle := hgs.le
    have hbytes := hts.length_le
    obtain ⟨i, hi, htokens⟩ := decompressRounds_tokens hts (gs ++ tail) (Nat.le_of_eq (by omega))
      (by decide) (Nat.le_trans hle hroom) (Nat.le_trans hle hstop) hflags hstart
    obtain ⟨index, used, hbelow, hused, hrun⟩ := ih hroom hstop hi
    refine ⟨index, ts.length + used, hbelow, ?_, fun fuel => ?_⟩
    · rw [List.length_cons, List.length_append]
      omega
    · rw [List.cons_append, List.append_assoc, startGroup, Nat.add_assoc, htokens,
        if_pos (by omega), hrun]

/-- What a chunk ends with: the control byte of the last group and its tokens, or nothing when the
last group is empty and there is no room for its control byte. -/
def LastGroup (data : Bytes) (mid stop : Nat) (bs : Bytes) : Prop :=
  (mid = stop ∧ bs = []) ∨ ∃ ch ts cs, bs = ch :: cs ∧ Encodes data mid stop ts cs ∧ ts.length < 8 ∧
    HasFlags ch 0 ts

theorem decompressChunk_groups {gs : Bytes} (hgs : Groups data 0 mid gs)
    (hlast : LastGroup data mid stop bs) (hroom : stop ≤ room) (hstop : stop ≤ lzntChunkSize) :
    decompressChunk room (gs ++ bs) = .ok (data.take stop) := by
  have hstart : decompressChunk room (gs ++ bs) =
      startGroup room (gs ++ bs).length (data.take 0) 0 (gs ++ bs) := by
    rw [decompressChunk]
    cases gs ++ bs <;> rfl
  have hmid : mid ≤ stop := by
    rcases hlast with ⟨h, -⟩ | ⟨ch, ts, cs, -, hts, -⟩
    · exact Nat.le_of_eq h
    · exact hts.le
  obtain ⟨index, used, hbelow, hused, hrun⟩ := startGroup_groups hgs bs
    (Nat.le_trans hmid hroom) (Nat.le_trans hmid hstop) (Below.zero 0)
  obtain ⟨fuel, hfuel⟩ : ∃ fuel, (gs ++ bs).length = used + (fuel + bs.length) :=
    ⟨gs.length - used, by rw [List.length_append]; omega⟩
  rw [hstart, hfuel, hrun]
  rcases hlast with ⟨rfl, rfl⟩ | ⟨ch, ts, cs, rfl, hts, hlen, hflags⟩
  · rfl
  · have hbytes := hts.length_le
    obtain ⟨i, -, htokens⟩ := decompressRounds_tokens hts [] (by omega) (by decide) hroom hstop
      hflags hbelow
    obtain ⟨rest, hrest⟩ : ∃ rest, fuel + (ch :: cs).length = ts.length + rest :=
      ⟨fuel + (ch :: cs).length - ts.length, by rw [List.length_cons]; omega⟩
    rw [List.append_nil] at htokens
    rw [startGroup, hrest, htokens, if_neg (by omega), decompressRounds_end rfl]

end

end UolaOs.Ntfs3
