import UolaOs.Ntfs3.LzntEncode

/-!
# Compressing and decompressing

* `compressChunk_spec`: a chunk is decompressed to the bytes that it was made from;
* `lznt_roundTrip`: so is all that `compress_lznt` writes.
-/

namespace UolaOs.Ntfs3

/-- Where the chunk at `unc` ends. -/
def chunkEnd (m : Bytes) (unc : Nat) : Nat :=
  if unc + lzntChunkSize < m.length then unc + lzntChunkSize else m.length

/-- What is asked of a compressed chunk. -/
structure ChunkOk (m : Bytes) (unc size : Nat) (cmpr : Bytes) (allZeros : Bool) : Prop where
  length : cmpr.length ≤ size
  header : 2 ≤ cmpr.length ∧ ∀ rest, half (cmpr ++ rest) 0 ≠ 0
  zeros : allZeros = true → ∀ i, unc ≤ i → i < chunkEnd m unc → m.getD i 0 = 0
  read : ∀ rest, decompressPiece m.length (cmpr ++ rest) (m.take unc) =
    .ok (chunkData m unc (chunkEnd m unc), rest)

section
variable {m : Bytes} {unc size : Nat}

theorem chunkEnd_le (m : Bytes) (unc : Nat) : chunkEnd m unc ≤ m.length := by
  rw [chunkEnd]
  split <;> omega

theorem chunkEnd_sub_le (hunc : unc < m.length) : chunkEnd m unc - unc ≤ lzntChunkSize := by
  rw [chunkEnd]
  split <;> omega

theorem lt_chunkEnd (hunc : unc < m.length) : unc < chunkEnd m unc := by
  have hpos : 0 < lzntChunkSize := by decide
  rw [chunkEnd]
  split <;> omega

/-! ## Headers -/

/-- The header of a chunk that is compressed. -/
theorem header_eq {n : Nat} (hn : n < 0x1000) :
    n ||| 0xb000 = 0xb000 + n ∧ (n ||| 0xb000) < 2 ^ 16 := by
  have hor : n ||| 0xb000 = 0xb000 + n := by
    have hadd := Nat.shiftLeft_add_eq_or_of_lt (b := n) (i := 12) hn 11
    rw [Nat.or_comm]
    exact hadd.symm
  exact ⟨hor, by rw [hor]; omega⟩

theorem header_use {x : UInt16} {n : Nat} (hn : n < 0x1000) (hx : x.toNat = 0xb000 + n) :
    (x &&& 0xfff).toNat = n ∧ x &&& 0x8000 ≠ 0 ∧ x ≠ 0 := by
  refine ⟨?_, ?_, ?_⟩
  · have hmask : (0xfff : UInt16).toNat = 2 ^ 12 - 1 := rfl
    rw [UInt16.toNat_and, hmask, Nat.and_two_pow_sub_one_eq_mod, hx]
    omega
  · intro h
    have hbit : x.toNat &&& (1 <<< 15) = 0 := by
      have hto := congrArg UInt16.toNat h
      rwa [UInt16.toNat_and] at hto
    rw [and_one_shiftLeft, Nat.testBit_eq_decide_div_mod_eq, hx] at hbit
    have hdiv : (0xb000 + n) / 2 ^ 15 % 2 = 1 := by omega
    rw [hdiv] at hbit
    cases hbit
  · rintro rfl
    have hzero : (0 : UInt16).toNat = 0 := rfl
    omega

theorem compressedHeader {n : Nat} (hn : n < 0x1000) (bs : Bytes) :
    half (Endian.little.put 2 (n ||| 0xb000) ++ bs) 0 = UInt16.ofNat (n ||| 0xb000) := by
  have hx := UInt16.toNat_ofNat_of_lt' (header_eq hn).2
  have hshape : (Endian.little.put 2 (n ||| 0xb000) ++ bs).drop 0 =
      Endian.little.put 2 (UInt16.ofNat (n ||| 0xb000)).toNat ++ bs := by
    rw [List.drop_zero, hx]
  exact (half_next hshape).1

/-- The parts of what follows a compressed chunk's header. -/
theorem read_compressed {data rest out piece : Bytes} {n : Nat} (hn : n < 0x1000)
    (hlen : data.length = n + 1) (hout : out = m.take unc) (hunc : unc ≤ m.length)
    (hpiece : decompressChunk (m.length - unc) data = .ok piece) :
    decompressPiece m.length (Endian.little.put 2 (n ||| 0xb000) ++ data ++ rest) out =
      .ok (piece, rest) := by
  obtain ⟨hor, hlt⟩ := header_eq hn
  have hput := Endian.length_put .little 2 (n ||| 0xb000)
  have hx : (UInt16.ofNat (n ||| 0xb000)).toNat = n ||| 0xb000 := UInt16.toNat_ofNat_of_lt' hlt
  have hhead : half (Endian.little.put 2 (n ||| 0xb000) ++ data ++ rest) 0 =
      UInt16.ofNat (n ||| 0xb000) := by
    rw [List.append_assoc, compressedHeader hn]
  obtain ⟨huse, hflag, -⟩ := header_use hn (hx.trans hor)
  have houtlen : out.length = unc := by
    rw [hout]
    exact List.length_take_of_le hunc
  have hdrop : (Endian.little.put 2 (n ||| 0xb000) ++ data ++ rest).drop (3 + n) = rest := by
    apply List.drop_left'
    rw [List.length_append, hput, hlen]
    omega
  have hload : load (Endian.little.put 2 (n ||| 0xb000) ++ data ++ rest) 2 (3 + n - 2) = data := by
    have hn2 : 3 + n - 2 = data.length := by omega
    rw [List.append_assoc, load_append_right hput, hn2, List.take_left' rfl]
  unfold decompressPiece
  dsimp only
  rw [hhead, huse, if_neg, if_pos hflag, houtlen, hload, hpiece, hdrop]
  · rfl
  · rw [List.length_append, List.length_append, hput, hlen]
    omega

/-! ## A chunk as it is -/

theorem length_readUnc (m : Bytes) (behind : Nat → UInt8) (p n : Nat) :
    (readUnc m behind p n).length = n := by
  rw [readUnc, List.length_map, List.length_range]

theorem take_readUnc (behind : Nat → UInt8) {n k : Nat} (hk : k ≤ n) (hend : unc + k ≤ m.length) :
    (readUnc m behind unc n).take k = load m unc k := by
  apply List.ext_getElem?
  intro i
  by_cases hi : i < k
  · rw [List.getElem?_take_of_lt hi, readUnc, List.getElem?_map, List.getElem?_range (by omega),
      load, List.getElem?_take_of_lt hi, List.getElem?_drop, List.getElem?_eq_getElem (by omega),
      Option.map_some, List.getD_eq_getElem?_getD, List.getElem?_eq_getElem (by omega),
      Option.getD_some]
  · rw [List.getElem?_eq_none, List.getElem?_eq_none]
    · rw [load, List.length_take]
      omega
    · rw [List.length_take]
      omega

theorem rawHeader (bs : Bytes) : half ([0xff, 0x3f] ++ bs) 0 = 0x3fff := by
  have hput : Endian.little.put 2 (0x3fff : UInt16).toNat = [0xff, 0x3f] := by decide
  have hshape : ([0xff, 0x3f] ++ bs).drop 0 = Endian.little.put 2 (0x3fff : UInt16).toNat ++ bs := by
    rw [List.drop_zero, hput]
  exact (half_next hshape).1

theorem read_raw (behind : Nat → UInt8) (hunc : unc < m.length) (rest : Bytes) :
    decompressPiece m.length ([0xff, 0x3f] ++ readUnc m behind unc lzntChunkSize ++ rest)
      (m.take unc) = .ok (chunkData m unc (chunkEnd m unc), rest) := by
  have hread := length_readUnc m behind unc lzntChunkSize
  have hsize : lzntChunkSize = 4096 := rfl
  have hle := chunkEnd_sub_le hunc
  have hout : (m.take unc).length = unc := List.length_take_of_le (Nat.le_of_lt hunc)
  have htwo : ([0xff, 0x3f] : Bytes).length = 2 := rfl
  have huse : 3 + ((0x3fff : UInt16) &&& 0xfff).toNat = 4098 := by decide
  have huncUse : (if m.length < unc + lzntChunkSize then m.length - unc else lzntChunkSize) =
      chunkEnd m unc - unc := by
    rw [chunkEnd]
    split <;> split <;> omega
  have hlen : ([0xff, 0x3f] ++ readUnc m behind unc lzntChunkSize ++ rest).length =
      4098 + rest.length := by
    rw [List.length_append, List.length_append, hread, htwo, hsize]
  have hdrop : ([0xff, 0x3f] ++ readUnc m behind unc lzntChunkSize ++ rest).drop 4098 = rest := by
    apply List.drop_left'
    rw [List.length_append, hread, htwo, hsize]
  have hload : load ([0xff, 0x3f] ++ readUnc m behind unc lzntChunkSize ++ rest) 2
      (chunkEnd m unc - unc) = chunkData m unc (chunkEnd m unc) := by
    have hend := chunkEnd_le m unc
    have hlt := lt_chunkEnd hunc
    rw [List.append_assoc, load_append_right htwo, List.take_append_of_le_length (by omega),
      take_readUnc behind hle (by omega), chunkData]
  unfold decompressPiece
  dsimp only
  rw [List.append_assoc, rawHeader, ← List.append_assoc, huse, hout, huncUse, hload, hdrop, hlen,
    if_neg (by omega), if_neg (by decide), if_neg (by omega)]
  rfl

/-! ## A chunk -/

/-- The variables at the start of a chunk. -/
theorem start_inv (hunc : unc < m.length) (ctx : Lznt) (last : Nat) :
    Coder.Inv m unc (chunkEnd m unc) last
      ⟨{ ctx with unc := unc, uncEnd := chunkEnd m unc, maxLen := sMaxLen.getD 0 0 },
        0, 0, unc, [], [], 0, 0⟩ := by
  refine ⟨rfl, rfl, rfl, ?_, Nat.le_refl _, Nat.le_of_lt (lt_chunkEnd hunc), Nat.succ_pos 7, ?_,
    .inl rfl, fun _ i hi hlt => absurd hi (Nat.not_le_of_lt hlt)⟩
  · exact Below.zero _
  · rw [Nat.sub_self]
    exact ⟨0, [], .nil 0, .nil 0, rfl, hasFlags_nil _ _, Nat.one_pos⟩

/-- The last group of a chunk. -/
theorem lastGroup_of_inv {last : Nat} {s : Coder} (h : s.Inv m unc (chunkEnd m unc) last)
    (hroom : s.group = [] ∨ s.cp ≤ last) :
    ∃ mid, Groups (chunkData m unc (chunkEnd m unc)) 0 mid s.front ∧
      LastGroup (chunkData m unc (chunkEnd m unc)) mid (s.up - unc)
        (if s.cp2 < last then s.ohdr :: s.group else s.group) := by
  obtain ⟨mid, ts, hgs, hts, hlen, hflags, -⟩ := h.grouped
  have hcnt := h.cnt
  have hcp := cp2_lt_cp s
  refine ⟨mid, hgs, ?_⟩
  split
  · exact .inr ⟨_, ts, _, rfl, hts, by omega, hflags⟩
  · rename_i hnot
    have hgroup : s.group = [] := hroom.resolve_right (by omega)
    rw [hgroup] at hts ⊢
    refine .inl ⟨?_, rfl⟩
    generalize hbs : ([] : Bytes) = bs at hts
    cases hts with
    | nil pos => rfl
    | @cons pos stop index t ts bs hindex ht hcode hts =>
      have hpos := length_tokenBytes_pos index t
      have hlen := congrArg List.length hbs
      rw [List.length_nil, List.length_append] at hlen
      omega

/-- A chunk that is compressed. -/
theorem done_spec (hunc : unc < m.length) {s : Coder}
    (h : s.Inv m unc (chunkEnd m unc) (min (lzntChunkSize + 2) size))
    (hup : s.up = chunkEnd m unc) :
    ChunkOk m unc size
      (Endian.little.put 2 (((s.front ++ if s.cp2 < min (lzntChunkSize + 2) size then
        s.ohdr :: s.group else s.group).length - 1) ||| 0xb000) ++
        (s.front ++ if s.cp2 < min (lzntChunkSize + 2) size then s.ohdr :: s.group else s.group))
      (s.notZero == 0) := by
  have hsize := chunkEnd_sub_le hunc
  have hend := chunkEnd_le m unc
  have hlt := lt_chunkEnd hunc
  have h4096 : lzntChunkSize = 4096 := rfl
  obtain ⟨hcp2, hroom⟩ := h.room.resolve_left (by omega)
  obtain ⟨mid, hgs, hlast⟩ := lastGroup_of_inv h hroom
  have hcp2_eq : s.cp2 = 2 + s.front.length := rfl
  have hcp_eq : s.cp = s.cp2 + 1 + s.group.length := rfl
  rw [hup] at hlast
  generalize hlastEq : min (lzntChunkSize + 2) size = last at hcp2 hroom hlast
  generalize htail : (if s.cp2 < last then s.ohdr :: s.group else s.group) = tail at hlast
  have hle : (s.front ++ tail).length + 2 ≤ last := by
    rw [List.length_append, ← htail]
    split
    · rcases hroom with hnil | hcp
      · rw [hnil]
        simp only [List.length_cons, List.length_nil]
        omega
      · rw [List.length_cons]
        omega
    · rw [hroom.resolve_right (by omega), List.length_nil]
      omega
  have hpos : 0 < (s.front ++ tail).length := by
    rw [List.length_append]
    rcases hlast with ⟨hmid, rfl⟩ | ⟨ch, ts, cs, rfl, -⟩
    · generalize s.front = front at hgs
      cases hgs with
      | nil => omega
      | cons hts hlen hflags hgs => exact Nat.succ_pos _
    · rw [List.length_cons]
      omega
  have hlen : (s.front ++ tail).length = (s.front ++ tail).length - 1 + 1 := by omega
  have hn : (s.front ++ tail).length - 1 < 0x1000 := by omega
  have hdata : (chunkData m unc (chunkEnd m unc)).take (chunkEnd m unc - unc) =
      chunkData m unc (chunkEnd m unc) := by
    rw [← length_chunkData hend, List.take_length]
  have hpiece := decompressChunk_groups hgs hlast (by omega : _ ≤ m.length - unc) hsize
  rw [hdata] at hpiece
  have hput := Endian.length_put .little 2 (((s.front ++ tail).length - 1) ||| 0xb000)
  refine ⟨?_, ⟨?_, fun rest => ?_⟩, fun hz i hi hlti => ?_, fun rest => ?_⟩
  · rw [List.length_append, hput]
    omega
  · rw [List.length_append, hput]
    omega
  · obtain ⟨hor, hlt16⟩ := header_eq hn
    have hx := UInt16.toNat_ofNat_of_lt' hlt16
    rw [List.append_assoc, compressedHeader hn]
    exact (header_use hn (hx.trans hor)).2.2
  · rw [← hup] at hlti
    exact h.zeros (eq_of_beq hz) i hi hlti
  · exact read_compressed hn hlen rfl (Nat.le_of_lt hunc) hpiece

theorem compressChunk_spec (std : Bool) (behind : Nat → UInt8) (size : Nat)
    (hunc : unc < m.length) (ctx : Lznt) :
    compressChunk std m behind unc size ctx = .tooSmall ∨
      ∃ cmpr allZeros ctx', compressChunk std m behind unc size ctx = .done cmpr allZeros ctx' ∧
        ChunkOk m unc size cmpr allZeros := by
  have hsize := chunkEnd_sub_le hunc
  have hend := chunkEnd_le m unc
  have hlt := lt_chunkEnd hunc
  have h4096 : lzntChunkSize = 4096 := rfl
  rw [compressChunk, ← chunkEnd]
  dsimp only
  rcases compressRounds_inv std (start_inv hunc ctx (min (lzntChunkSize + 2) size)) hend hsize
    (Nat.le_refl _) with ⟨ctx', herr⟩ | ⟨s, hok, hinv, hup⟩
  · dsimp only at herr
    rw [herr]
    dsimp only
    split
    · exact .inl rfl
    · rename_i hlast
      refine .inr ⟨_, _, _, rfl, ?_, ⟨?_, fun rest => ?_⟩, fun h => Bool.noConfusion h,
        fun rest => read_raw behind hunc rest⟩
      · rw [List.length_append, length_readUnc, h4096]
        rw [h4096] at hlast
        simp only [List.length_cons, List.length_nil]
        omega
      · rw [List.length_append]
        exact Nat.le_add_right 2 _
      · rw [List.append_assoc, rawHeader]
        decide
  · dsimp only at hok
    rw [hok]
    dsimp only
    refine .inr ⟨_, _, _, rfl, ?_⟩
    exact done_spec hunc hinv hup

/-! ## All chunks -/

/-- What is asked of the chunks from `unc` on. -/
structure ChunksOk (m : Bytes) (unc : Nat) (cmpr : Bytes) : Prop where
  header : 2 ≤ cmpr.length ∧ ∀ rest, half (cmpr ++ rest) 0 ≠ 0
  read : ∀ rest fuel, cmpr.length ≤ fuel →
    decompressCycle m.length fuel (cmpr ++ rest) (m.take unc) = .ok m

/-- A chunk, and those behind it. -/
theorem chunksOk_cons {cmpr chunks : Bytes} {allZeros : Bool} (hunc : unc < m.length)
    (h : ChunkOk m unc size cmpr allZeros)
    (hrest : (chunkEnd m unc = m.length ∧ chunks = []) ∨
      chunkEnd m unc = unc + lzntChunkSize ∧ chunkEnd m unc < m.length ∧
        ChunksOk m (unc + lzntChunkSize) chunks) :
    ChunksOk m unc (cmpr ++ chunks) := by
  have hle := chunkEnd_le m unc
  have hlt := lt_chunkEnd hunc
  have hnext : m.take unc ++ chunkData m unc (chunkEnd m unc) = m.take (chunkEnd m unc) := by
    have hsplit : chunkEnd m unc = unc + (chunkEnd m unc - unc) := by omega
    rw [chunkData, load]
    conv_rhs => rw [hsplit, List.take_add]
  refine ⟨⟨?_, fun rest => ?_⟩, fun rest fuel hfuel => ?_⟩
  · rw [List.length_append]
    exact Nat.le_trans h.header.1 (Nat.le_add_right _ _)
  · rw [List.append_assoc]
    exact h.header.2 _
  · have htwo := h.header.1
    rw [List.length_append] at hfuel
    obtain ⟨fuel, rfl⟩ : ∃ n, fuel = n + 1 := ⟨fuel - 1, by omega⟩
    rw [decompressCycle, List.append_assoc, h.read]
    simp only [Except.bind, hnext]
    rcases hrest with ⟨hend, rfl⟩ | ⟨hend, hltEnd, hchunks⟩
    · rw [hend, List.take_length, if_pos (Nat.le_refl _)]
    · have hlen : (m.take (chunkEnd m unc)).length = chunkEnd m unc :=
        List.length_take_of_le hle
      have hdata : (chunkData m unc (chunkEnd m unc)).length = lzntChunkSize := by
        rw [length_chunkData hle]
        omega
      have hmore : ¬ (chunks ++ rest).length < 2 := by
        have htwo' := hchunks.header.1
        rw [List.length_append]
        omega
      rw [hlen, if_neg (Nat.not_le_of_lt hltEnd), if_neg hmore,
        if_neg (hchunks.header.2 rest), hdata, if_neg (Nat.lt_irrefl _), hend]
      exact hchunks.read rest fuel (by omega)

theorem compressCycle_spec (std : Bool) (behind : Nat → UInt8) {fuel : Nat} {out : Bytes}
    {isZero : Bool} {ctx : Lznt} (hunc : unc < m.length) (hfuel : m.length ≤ unc + fuel) :
    compressCycle std m behind size fuel unc out isZero ctx = .tooSmall ∨
      ∃ chunks z, compressCycle std m behind size fuel unc out isZero ctx = .done (out ++ chunks) z ∧
        ChunksOk m unc chunks ∧ (out ++ chunks).length ≤ max out.length size ∧
        (z = true → isZero = true ∧ ∀ i, unc ≤ i → i < m.length → m.getD i 0 = 0) := by
  induction fuel generalizing unc out isZero ctx with
  | zero => omega
  | succ fuel ih =>
    rw [compressCycle, if_pos hunc]
    rcases compressChunk_spec std behind (size - out.length) hunc ctx with
      hsmall | ⟨cmpr, allZeros, ctx', hdone, hok⟩
    · rw [hsmall]
      exact .inl rfl
    · rw [hdone]
      dsimp only
      have hlength := hok.length
      have hlen : (out ++ cmpr).length = out.length + cmpr.length := List.length_append
      by_cases hend : unc + lzntChunkSize < m.length
      · have hchunkEnd : chunkEnd m unc = unc + lzntChunkSize := if_pos hend
        have hpos : 0 < lzntChunkSize := by decide
        rcases @ih (unc + lzntChunkSize) (out ++ cmpr) (isZero && allZeros) ctx' hend (by omega)
          with hsmall | ⟨chunks, z, hrest, hchunks, hle, hz⟩
        · exact .inl hsmall
        · refine .inr ⟨cmpr ++ chunks, z, ?_, chunksOk_cons hunc hok
            (.inr ⟨hchunkEnd, by omega, hchunks⟩), ?_, fun htrue => ?_⟩
          · rw [hrest, List.append_assoc]
          · rw [← List.append_assoc]
            omega
          · obtain ⟨hand, hzeros⟩ := hz htrue
            rw [Bool.and_eq_true] at hand
            refine ⟨hand.1, fun i hi hlt => ?_⟩
            by_cases hin : i < unc + lzntChunkSize
            · exact hok.zeros hand.2 i hi (by omega)
            · exact hzeros i (by omega) hlt
      · have hchunkEnd : chunkEnd m unc = m.length := if_neg hend
        have hlast : compressCycle std m behind size fuel (unc + lzntChunkSize) (out ++ cmpr)
            (isZero && allZeros) ctx' = .done (out ++ cmpr) (isZero && allZeros) := by
          cases fuel with
          | zero => rfl
          | succ fuel => rw [compressCycle, if_neg hend]
        refine .inr ⟨cmpr, isZero && allZeros, hlast, ?_, by omega, fun htrue => ?_⟩
        · have hone := chunksOk_cons hunc hok (.inl ⟨hchunkEnd, rfl⟩)
          rwa [List.append_nil] at hone
        · rw [Bool.and_eq_true] at htrue
          refine ⟨htrue.1, fun i hi hlt => hok.zeros htrue.2 i hi ?_⟩
          omega

end

/-- **Round trip.** Either search for matches leaves what is decompressed to the bytes that it was
made from, whatever follows it, unless the buffer is too small. It stays within the buffer, and says
that all is zero only of zeros. -/
theorem lznt_roundTrip (std : Bool) (m : Bytes) (behind : Nat → UInt8) (size : Nat)
    (hm : m ≠ []) :
    compressLznt std m behind size = .tooSmall ∨
      ∃ cmpr z, compressLznt std m behind size = .done cmpr z ∧ cmpr.length ≤ size ∧
        (∀ rest, decompressLznt (cmpr ++ rest) m.length = .ok m) ∧
        (z = true → ∀ b ∈ m, b = 0) := by
  have hpos := List.length_pos_of_ne_nil hm
  rcases compressCycle_spec std behind hpos (Nat.le_of_eq (Nat.zero_add m.length).symm) with
    hsmall | ⟨cmpr, z, hdone, hok, hle, hz⟩
  · exact .inl hsmall
  · rw [List.nil_append] at hdone hle
    refine .inr ⟨cmpr, z, hdone, ?_, fun rest => ?_, fun htrue b hb => ?_⟩
    · rwa [List.length_nil, Nat.zero_max] at hle
    · have htwo := hok.header.1
      have hnot : ¬ (cmpr ++ rest).length < 2 := by
        rw [List.length_append]
        omega
      have hread := hok.read rest (cmpr ++ rest).length
        (by rw [List.length_append]; exact Nat.le_add_right _ _)
      rw [List.take_zero] at hread
      rw [decompressLznt, if_neg hnot, hread]
    · obtain ⟨i, hi, rfl⟩ := List.getElem_of_mem hb
      have hzero := (hz htrue).2 i (Nat.zero_le _) hi
      rwa [List.getD_eq_getElem?_getD, List.getElem?_eq_getElem hi, Option.getD_some] at hzero

/-- Three bytes, a pair for the six behind them, and another byte. -/
theorem lznt_roundTrip_small :
    decompressLznt [6, 0xb0, 8, 1, 2, 3, 3, 0x20, 4] 10 = .ok [1, 2, 3, 1, 2, 3, 1, 2, 3, 4] := by
  have hcompress : compressLznt true [1, 2, 3, 1, 2, 3, 1, 2, 3, 4] (fun _ => 0) 100 =
    .done [6, 0xb0, 8, 1, 2, 3, 3, 0x20, 4] false := rfl
  rcases lznt_roundTrip true [1, 2, 3, 1, 2, 3, 1, 2, 3, 4] (fun _ => 0) 100 (by decide) with
    hsmall | ⟨cmpr, z, hdone, -, hread, -⟩
  · rw [hcompress] at hsmall
    cases hsmall
  · rw [hcompress] at hdone
    obtain ⟨rfl, -⟩ := Compressed.done.inj hdone
    exact hread []

end UolaOs.Ntfs3
