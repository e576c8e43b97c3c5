import UolaOs.Nvram.Durability

/-!
# Where a commit writes

The stores of `nvram_commit`, by their offset from the header, for a store anywhere in 32 bits of
addresses.

* `inArea_pad`: when the padding stays in the mapping;
* `commit_inArea_iff`: when all of them, and the recorded length, lie in the area.
-/

namespace UolaOs.Nvram

/-- A mapping of `size` bytes at `addr`, with the header at `offset`. -/
structure Site where
  addr : Nat
  size : Nat
  offset : Nat
  addr_words : 4 ∣ addr
  size_words : 4 ∣ size
  offset_words : 4 ∣ offset
  room : offset + headerSize ≤ size
  fits : addr + size ≤ 2 ^ 32

/-- The bytes from the header to the end of the mapping. -/
def Site.space (s : Site) : Nat := s.size - s.offset

/-- A store: its offset from the header, and how many bytes it writes. -/
abbrev Store := Nat × Nat

/-- The stores of the inner loop over one chain. -/
def chainStores (endPos : Nat) (out : Bytes) : List Tuple → List Store
  | [] => []
  | t :: c =>
    if headerSize + out.length + t.name.length + 1 + t.value.length + 1 > endPos then []
    else (headerSize + out.length, tupleSize t) :: chainStores endPos (out ++ tupleText t) c

/-- Write out all tuples. -/
def tableStores (endPos : Nat) (T : Chains) : Bytes × List Store :=
  (List.finRange 257).foldl (fun p i =>
    (writeChain endPos p.1 (T i), p.2 ++ chainStores endPos p.1 (T i))) ([], [])

/-- The stores of `_nvram_rehash`: each `=` is overwritten and put back. `pos` is where the memory
`m` starts. -/
def rehashStores (pos : Nat) (m : Bytes) : List Store :=
  match _hs : readCStr m with
  | none => []
  | some (s, rest) =>
    if s.bytes = [] then []
    else
      match s.splitAt 61 with
      | none => []
      | some (name, _) =>
        (pos + name.length, 1) :: (pos + name.length, 1) :: rehashStores (pos + s.length + 1) rest
termination_by m.length
decreasing_by
  rw [readCStr_spec _hs]
  simp

section
variable (s : Site) (T : Chains)

/-- Where `ptr` is behind the terminating zero byte. -/
def commitPtr : Nat := headerSize + (writeTable (s.space - 2) T).length + 1

/-- `header->len` -/
def commitLen : Nat := roundUp (commitPtr s T + 1) 4

/-- All stores of `nvram_commit`. Behind the zero byte lies `rest`. -/
def commitStores (rest : Bytes) : List Store :=
  let text := tableStores (s.space - 2) T
  let ptr := headerSize + text.1.length
  -- the words of the header, and the cleared data area
  [(0, 4), (8, 4), (12, 4), (16, 4), (headerSize, s.space - headerSize)] ++ text.2 ++
    [(ptr, 1), (ptr + 1, padLength (s.addr + s.offset + (ptr + 1))), (4, 4), (8, 4)] ++
      rehashStores headerSize (text.1 ++ 0 :: rest)

/-- A store stays in the mapping. -/
def InArea (r : Store) : Prop := ∀ p, r.1 ≤ p → p < r.1 + r.2 → p < s.space

end

/-! ## The text -/

section
variable {s : Site} {T : Chains} {endPos : Nat}

theorem chainStores_le {out : Bytes} {c : List Tuple} :
    ∀ r ∈ chainStores endPos out c, r.1 + r.2 ≤ endPos := by
  induction c generalizing out with
  | nil => exact fun r hr => absurd hr List.not_mem_nil
  | cons t c ih =>
    intro r hr
    rw [chainStores] at hr
    split at hr
    · cases hr
    · next hfit =>
      obtain rfl | hr := List.mem_cons.mp hr
      · rw [tupleSize]
        omega
      · exact ih r hr

theorem tableStores_spec (endPos : Nat) (T : Chains) : (tableStores endPos T).1 = writeTable endPos T ∧
    ∀ r ∈ (tableStores endPos T).2, r.1 + r.2 ≤ endPos := by
  have hloop (is : List (Fin 257)) (p : Bytes × List Store) (hp : ∀ r ∈ p.2, r.1 + r.2 ≤ endPos) :
      let q := is.foldl (fun p i =>
        (writeChain endPos p.1 (T i), p.2 ++ chainStores endPos p.1 (T i))) p
      q.1 = is.foldl (fun out i => writeChain endPos out (T i)) p.1 ∧
        ∀ r ∈ q.2, r.1 + r.2 ≤ endPos := by
    induction is generalizing p with
    | nil => exact ⟨rfl, hp⟩
    | cons i is ih =>
      refine ih _ fun r hr => ?_
      obtain hr | hr := List.mem_append.mp hr
      · exact hp r hr
      · exact chainStores_le r hr
  exact hloop (List.finRange 257) ([], []) fun r hr => absurd hr List.not_mem_nil

/-- The text as the packing of the chains. -/
theorem length_writeTable : (writeTable endPos T).length =
    Packing.total tupleSize (Packing.packed tupleSize (endPos - headerSize)
      ((List.finRange 257).map T)) := by
  rw [writeTable_eq, length_text]

theorem rehashStores_of_read {pos : Nat} {m rest : Bytes} {s : CStr}
    (hs : readCStr m = some (s, rest)) :
    rehashStores pos m =
      if s.bytes = [] then []
      else match s.splitAt 61 with
        | none => []
        | some (name, _) => (pos + name.length, 1) :: (pos + name.length, 1) ::
            rehashStores (pos + s.length + 1) rest := by
  rw [rehashStores]
  split
  · next hn => cases hn.symm.trans hs
  · next s' rest' hs' =>
    obtain ⟨rfl, rfl⟩ := Prod.mk.injEq .. ▸ Option.some.injEq .. ▸ hs'.symm.trans hs
    rfl

/-- The reader stays in the text. -/
theorem rehashStores_lt {ts : List Tuple} {rest : Bytes} {pos : Nat} :
    ∀ r ∈ rehashStores pos (ts.flatMap tupleText ++ 0 :: rest),
      r.1 + r.2 ≤ pos + (ts.flatMap tupleText).length := by
  induction ts generalizing pos with
  | nil =>
    intro r hr
    have hread : readCStr (0 :: rest) = some (CStr.empty, rest) := readCStr_stored CStr.empty rest
    rw [List.flatMap_nil, List.nil_append, rehashStores_of_read hread,
      if_pos (show CStr.empty.bytes = [] from rfl)] at hr
    cases hr
  | cons t ts ih =>
    intro r hr
    let s : CStr := ⟨t.name.bytes ++ 61 :: t.value.bytes, by simp [t.name.nulFree, t.value.nulFree]⟩
    have hread : readCStr ((t :: ts).flatMap tupleText ++ 0 :: rest) =
        some (s, ts.flatMap tupleText ++ 0 :: rest) := by
      have := readCStr_stored s (ts.flatMap tupleText ++ 0 :: rest)
      simpa [CStr.stored, tupleText, s] using this
    have hlen : ((t :: ts).flatMap tupleText).length =
        s.length + 1 + (ts.flatMap tupleText).length := by
      rw [List.flatMap_cons, List.length_append, length_tupleText, tupleSize, CStr.length,
        CStr.length, CStr.length, List.length_append, List.length_cons]
      omega
    rw [rehashStores_of_read hread] at hr
    split at hr
    · cases hr
    split at hr
    · cases hr
    · next name value hsplit =>
      obtain ⟨hbytes, -⟩ := CStr.splitAt_spec hsplit
      have hname : name.length + 1 ≤ s.length := by
        rw [CStr.length, CStr.length, hbytes, List.length_append, List.length_cons]
        omega
      rw [hlen]
      obtain rfl | hr := List.mem_cons.mp hr
      · dsimp only
        omega
      obtain rfl | hr := List.mem_cons.mp hr
      · dsimp only
        omega
      · have := ih r hr
        omega

end

/-! ## The padding -/

/-- Above 2 GiB the remainder is negative, and a word too many is cleared. -/
theorem padLength_high {x : Nat} (hlo : 2 ^ 31 ≤ x) (hhi : x < 2 ^ 32) (hx : x % 4 ≠ 0) :
    padLength x = 8 - x % 4 := by
  have hmod : Int.bmod x (2 ^ 32) = -((2 ^ 32 - x : Nat) : Int) := by
    rw [Int.bmod_def]
    omega
  have hrem : Int.tmod (-((2 ^ 32 - x : Nat) : Int)) 4 = -(((2 ^ 32 - x) % 4 : Nat) : Int) := by
    rw [Int.neg_tmod]
    rfl
  unfold padLength
  rw [hmod, hrem]
  dsimp only
  rw [if_pos (by omega)]
  omega

theorem padLength_words {x : Nat} (hdvd : 4 ∣ x) : padLength x = 0 := by
  have hrem : Int.tmod (Int.bmod x (2 ^ 32)) 4 = 0 := by
    rw [Int.bmod_def]
    split
    · exact Int.tmod_eq_zero_of_dvd (by omega)
    · exact Int.tmod_eq_zero_of_dvd (by omega)
  unfold padLength
  rw [hrem]
  rfl

section
variable (s : Site) (T : Chains)

/-- The header, the text of the tuples that find room, and the zero byte. -/
def textEnd : Nat :=
  headerSize + Packing.total tupleSize (Packing.packed tupleSize (s.space - 2 - headerSize)
    ((List.finRange 257).map T)) + 1

/-- There is a word behind the header, and the padding ends in the store: the address of its start
is below 2 GiB or that of a word, or there is a word more than needed. -/
def RoomToPad : Prop :=
  headerSize + 4 ≤ s.space ∧
    (s.addr + s.offset + textEnd s T < 2 ^ 31 ∨ 4 ∣ textEnd s T ∨
      roundUp (textEnd s T) 4 + 4 ≤ s.space)

end

section
variable {s : Site} {T : Chains} {rest : Bytes}

theorem commitPtr_eq : commitPtr s T = textEnd s T := by
  rw [commitPtr, length_writeTable, textEnd]

theorem textEnd_le (h : headerSize + 4 ≤ s.space) : textEnd s T + 1 ≤ s.space := by
  have := Packing.total_packed_le tupleSize (s.space - 2 - headerSize) ((List.finRange 257).map T)
  rw [textEnd]
  omega

theorem inArea_of_le {r : Store} (h : r.1 + r.2 ≤ s.space) : InArea s r :=
  fun _ _ hp => Nat.lt_of_lt_of_le hp h

theorem inArea_iff {r : Store} (h : r.2 ≠ 0) : InArea s r ↔ r.1 + r.2 ≤ s.space :=
  ⟨fun hin => by have := hin (r.1 + r.2 - 1) (by omega) (by omega); omega, inArea_of_le⟩

theorem space_words : 4 ∣ s.space := Nat.dvd_sub s.size_words s.offset_words

/-- When the padding stays in the area. -/
theorem inArea_pad (h : headerSize + 4 ≤ s.space) :
    InArea s (textEnd s T, padLength (s.addr + s.offset + textEnd s T)) ↔ RoomToPad s T := by
  have hend := textEnd_le (T := T) h
  have hfits := s.fits
  have hroom := s.room
  have hspace := space_words (s := s)
  have haddr := s.addr_words
  have hoffset := s.offset_words
  rw [RoomToPad, and_iff_right h]
  generalize textEnd s T = e at hend
  by_cases hwords : 4 ∣ e
  · rw [padLength_words (by omega)]
    refine iff_of_true (fun p hlo hhi => ?_) (.inr (.inl hwords))
    dsimp only at hlo hhi
    omega
  by_cases hlow : s.addr + s.offset + e < 2 ^ 31
  · have hpad := padLength_of_lt hlow
    have hup := roundUp_lt (s.addr + s.offset + e) (show 0 < 4 by decide)
    have hdvd := dvd_roundUp (s.addr + s.offset + e) 4
    exact iff_of_true (inArea_of_le (by dsimp only; omega)) (.inl hlow)
  · have hpad : padLength (s.addr + s.offset + e) = 8 - e % 4 := by
      rw [padLength_high (Nat.not_lt.mp hlow) (by rw [Site.space] at hend; omega) (by omega)]
      omega
    have hup : roundUp e 4 + 4 = e + (8 - e % 4) := by
      rw [roundUp]
      omega
    rw [hpad, inArea_iff (by dsimp only; omega), or_iff_right hlow, or_iff_right hwords, hup]

/-- The padding is a store behind the zero byte. -/
theorem mem_commitStores (s : Site) (T : Chains) (rest : Bytes) :
    (textEnd s T, padLength (s.addr + s.offset + textEnd s T)) ∈ commitStores s T rest := by
  obtain ⟨htext, -⟩ := tableStores_spec (s.space - 2) T
  rw [← commitPtr_eq, commitPtr, ← htext]
  simp [commitStores, Nat.add_assoc]

/-- **A commit stays in the mapping**, and so does the length it records, when there is room for
the padding. -/
theorem commit_inArea_iff (s : Site) (T : Chains) (rest : Bytes) :
    (∀ r ∈ commitStores s T rest, InArea s r) ∧ commitLen s T ≤ s.space ↔ RoomToPad s T := by
  obtain ⟨htext, hstores⟩ := tableStores_spec (s.space - 2) T
  have hptr : headerSize + (writeTable (s.space - 2) T).length + 1 = textEnd s T := commitPtr_eq
  have hpad := mem_commitStores s T rest
  have hzero : (headerSize + (tableStores (s.space - 2) T).1.length, 1) ∈ commitStores s T rest := by
    simp [commitStores]
  constructor
  · rintro ⟨hall, -⟩
    have hterm := (inArea_iff (s := s) (Nat.one_ne_zero)).mp (hall _ hzero)
    have hwords := space_words (s := s)
    have hroom : headerSize + 4 ≤ s.space := by
      rw [headerSize] at hterm ⊢
      omega
    exact (inArea_pad hroom).mp (hall _ hpad)
  · intro hroom
    have hend := textEnd_le (T := T) hroom.1
    rw [commitLen, commitPtr_eq, roundUp_le_iff (by decide) space_words]
    refine ⟨fun r hr => ?_, hend⟩
    have hwrite := writeTable_eq (s.space - 2) T
    simp only [commitStores, htext, List.mem_append, List.mem_cons, List.not_mem_nil,
      or_false] at hr
    have hword (k : Nat) (hk : k + 4 ≤ 24) : InArea s (k, 4) :=
      inArea_of_le (Nat.le_trans hk hroom.1)
    obtain ((hhead | hr) | htail) | hr := hr
    · obtain rfl | rfl | rfl | rfl | rfl := hhead
      · exact hword 0 (by decide)
      · exact hword 8 (by decide)
      · exact hword 12 (by decide)
      · exact hword 16 (by decide)
      · exact inArea_of_le (Nat.le_of_eq (Nat.add_sub_cancel' (by have := hroom.1; omega)))
    · exact inArea_of_le ((hstores r hr).trans (Nat.sub_le _ _))
    · obtain rfl | rfl | rfl | rfl := htail
      · exact inArea_of_le (by dsimp only; omega)
      · have := (inArea_pad hroom.1).mpr hroom
        rwa [← hptr] at this
      · exact hword 4 (by decide)
      · exact hword 8 (by decide)
    · rw [hwrite] at hr
      have := rehashStores_lt r hr
      rw [← hwrite] at this
      exact inArea_of_le (by omega)

end

/-! ## A full store -/

theorem dvd_highAddr : 4 ∣ 0xB6F00000 := by decide

theorem dvd_highSize : 4 ∣ 0x8000 := by decide

theorem dvd_highOffset : 4 ∣ 0 := by decide

theorem high_room : 0 + headerSize ≤ 0x8000 := by decide

theorem high_fits : 0xB6F00000 + 0x8000 ≤ 2 ^ 32 := by decide

/-- A partition of 32 KiB at a high address. -/
def highSite : Site where
  addr := 0xB6F00000
  size := 0x8000
  offset := 0
  addr_words := dvd_highAddr
  size_words := dvd_highSize
  offset_words := dvd_highOffset
  room := high_room
  fits := high_fits

theorem textEnd_full : textEnd highSite (fillA 32662).nvram_hash = 32767 := by
  have htotal := total_fillA (show 32662 < 0x8000 by decide)
  have hspace : (fillA 32662).area.space = 0x8000 := by rw [fillA_area]; rfl
  have hcap : highSite.space - 2 - headerSize = capacity (fillA 32662) := by
    rw [capacity, hspace]
    rfl
  have hall : committed (fillA 32662) = ChainTable.entries (fillA 32662).nvram_hash :=
    fits_iff.mp (by rw [Fits, htotal, hspace]; decide)
  rw [textEnd, hcap, ← committed, hall, htotal]
  rfl

/-- One byte of padding would do, but five are cleared. -/
theorem not_commit_inArea : ¬ ∀ (s : Site) (T : Chains) (rest : Bytes),
    (∀ r ∈ commitStores s T rest, InArea s r) ∧ commitLen s T ≤ s.space := by
  intro h
  have hpad := (h highSite (fillA 32662).nvram_hash []).1 _ (mem_commitStores ..)
  have hroom := (inArea_pad (by decide)).mp hpad
  rw [RoomToPad, textEnd_full] at hroom
  revert hroom
  decide

end UolaOs.Nvram
