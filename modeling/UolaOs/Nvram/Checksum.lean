import UolaOs.Nvram.Durability

/-!
# The checksum of the nvram store

`nvram_commit` computes the checksum in two pieces, `do_info` over the image.

* `hndcrc8_injective`, `hndcrc8_set_ne`: no step of the checksum loses anything;
* `checksum_committed`: a commit stores the checksum of its image, and one changed byte shows.
-/

namespace UolaOs.Nvram

/-- The checksums that `do_info` prints: the stored and the calculated one. -/
def doInfo (tg : Target) (mmap : Bytes) (offset : Nat) : Nat × Nat :=
  let len := wordAt tg mmap (offset + 4)
  let crc := hndcrc8 (load mmap (offset + NVRAM_CRC_START_POSITION)
    ((len + 2 ^ 32 - NVRAM_CRC_START_POSITION) % 2 ^ 32)) 0xff
  (wordAt tg mmap (offset + 8) &&& 0xFF, crc.toNat)

/-! ## The table -/

theorem length_crc8Table : crc8Table.length = 256 := by decide +kernel

/-- The numbers of a list as the bits of one number. -/
def bitSet (l : List Nat) : Nat := l.foldr (fun x bits => bits ||| 2 ^ x) 0

theorem mem_of_testBit_bitSet {l : List Nat} {n : Nat} (h : (bitSet l).testBit n = true) :
    n ∈ l := by
  induction l with
  | nil => simp [bitSet] at h
  | cons x l ih =>
    rw [bitSet, List.foldr_cons, Nat.testBit_or, Bool.or_eq_true, Nat.testBit_two_pow] at h
    rcases h with h | h
    · exact List.mem_cons_of_mem _ (ih h)
    · rw [of_decide_eq_true h]
      exact List.mem_cons_self

/-- As many numbers as bits, with every bit below set. -/
theorem nodup_of_bitSet {l : List Nat} (h : bitSet l = 2 ^ l.length - 1) : l.Nodup := by
  have hsub : List.range l.length ⊆ l := by
    intro n hn
    apply mem_of_testBit_bitSet
    rw [h, Nat.testBit_two_pow_sub_one]
    exact decide_eq_true (List.mem_range.mp hn)
  have hperm := (List.nodup_range.subperm hsub).perm_of_length_le (by rw [List.length_range])
  exact hperm.nodup_iff.mp List.nodup_range

theorem nodup_crc8Table : crc8Table.Nodup :=
  List.Nodup.of_map UInt8.toNat (nodup_of_bitSet (by decide +kernel))

theorem crc8Table_injective {a b : UInt8}
    (h : crc8Table.getD a.toNat 0 = crc8Table.getD b.toNat 0) : a = b := by
  have hlt (c : UInt8) : c.toNat < crc8Table.length := by
    rw [length_crc8Table]
    exact c.toNat_lt
  rw [List.getD_eq_getElem?_getD, List.getD_eq_getElem?_getD, List.getElem?_eq_getElem (hlt a),
    List.getElem?_eq_getElem (hlt b), Option.getD_some, Option.getD_some,
    nodup_crc8Table.getElem_inj_iff] at h
  exact UInt8.toNat_inj.mp h

theorem hndcrc8_append (a b : Bytes) (crc : UInt8) :
    hndcrc8 (a ++ b) crc = hndcrc8 b (hndcrc8 a crc) := List.foldl_append

/-- The data carries every difference of the checksum along. -/
theorem hndcrc8_injective (data : Bytes) : Function.Injective (hndcrc8 data) := by
  induction data with
  | nil => exact fun _ _ h => h
  | cons b data ih =>
    intro c d h
    have hstep : c ^^^ b = d ^^^ b := crc8Table_injective (ih h)
    exact UInt8.xor_left_inj b |>.mp hstep

/-- **One changed byte** changes the checksum. -/
theorem hndcrc8_set_ne {data : Bytes} {i : Nat} {a b : UInt8} (ha : data[i]? = some a)
    (hne : b ≠ a) (crc : UInt8) : hndcrc8 (data.set i b) crc ≠ hndcrc8 data crc := by
  induction data generalizing i crc with
  | nil => cases ha
  | cons x data ih =>
    cases i with
    | zero =>
      obtain rfl := Option.some.inj ha
      intro h
      have hstep : crc ^^^ b = crc ^^^ x := crc8Table_injective (hndcrc8_injective data h)
      exact hne (UInt8.xor_right_inj crc |>.mp hstep)
    | succ i => exact ih ha _

/-! ## Words of the header -/

theorem put_little_drop (n : Nat) : (Endian.little.put 4 n).drop 1 = leBytes 3 (n / 256) := rfl

/-- The low byte of a word is not among its upper bytes. -/
theorem put_little_or {n c : Nat} (hc : c < 256) :
    (Endian.little.put 4 (n ||| c)).drop 1 = (Endian.little.put 4 n).drop 1 := by
  have hdiv := Nat.or_div_two_pow (a := n) (b := c) (n := 8)
  rw [put_little_drop, put_little_drop, show 256 = 2 ^ 8 from rfl, hdiv,
    Nat.div_eq_of_lt (show c < 2 ^ 8 from hc), Nat.or_zero]

theorem headerParams_mod (tg : Target) (h : Handle) : (headerParams tg h).1 % 256 = 0 := by
  have hlow (n : Nat) : (NVRAM_VERSION <<< 8 ||| n <<< 16) % 256 = 0 := by
    rw [show 256 = 2 ^ 8 from rfl, Nat.or_mod_two_pow, Nat.shiftLeft_eq n]
    rw [show n * 2 ^ 16 = n * 2 ^ 8 * 2 ^ 8 by ring, Nat.mul_mod_left]
    rfl
  unfold headerParams
  dsimp only
  split
  · exact hlow _
  · exact hlow _

section
variable {tg : Target} {h : Handle} {data : Bytes} {len : Nat}

/-- Behind its checksum, a header is the zeroed copy that the checksum is taken of. -/
theorem drop_commitHeader (he : tg.endian = .little) :
    (commitHeader tg h data len).drop NVRAM_CRC_START_POSITION =
      (tg.endian.put 4 0 ++ tg.endian.put 4 0 ++ tg.endian.put 4 (headerParams tg h).1 ++
        tg.endian.put 4 (headerParams tg h).2.1 ++
          tg.endian.put 4 (headerParams tg h).2.2).drop NVRAM_CRC_START_POSITION := by
  have hdrop (a b c d e : Bytes) (ha : a.length = 4) (hb : b.length = 4) (hc : c.length = 4) :
      (a ++ b ++ c ++ d ++ e).drop NVRAM_CRC_START_POSITION = c.drop 1 ++ (d ++ e) := by
    have hab : (a ++ b).length = 8 := by rw [List.length_append, ha, hb]
    rw [List.append_assoc, List.append_assoc, show NVRAM_CRC_START_POSITION = 8 + 1 from rfl,
      ← List.drop_drop, List.drop_left' hab, List.drop_append_of_le_length (by omega)]
  rw [commitHeader, headerBytes, hdrop _ _ _ _ _ (by simp) (by simp) (by simp),
    hdrop _ _ _ _ _ (by simp) (by simp) (by simp), he, put_little_or (UInt8.toNat_lt _)]

/-- The words of a header that lies in an image. -/
theorem load_header {a b c : Nat} (hroom : h.area.offset + headerSize ≤ data.length) :
    let m := poke data h.area.offset (headerBytes tg len a b c)
    load m (h.area.offset + 4) 4 = tg.endian.put 4 len ∧
      load m (h.area.offset + 8) 4 = tg.endian.put 4 a := by
  have hlen := length_headerBytes tg len a b c
  have hload : load (poke data h.area.offset (headerBytes tg len a b c)) h.area.offset headerSize =
      headerBytes tg len a b c := by
    rw [← hlen]
    exact load_poke_self (by rw [hlen]; exact hroom)
  have hword (k : Nat) (hk : k + 4 ≤ headerSize) :
      load (poke data h.area.offset (headerBytes tg len a b c)) (h.area.offset + k) 4 =
        load (headerBytes tg len a b c) k 4 := by
    rw [← load_load hk, hload]
  constructor
  · rw [hword 4 (by decide), headerBytes, List.append_assoc, List.append_assoc, List.append_assoc,
      load_append_right (Endian.length_put _ _ _), List.take_left' (Endian.length_put _ _ _)]
  · rw [hword 8 (by decide), headerBytes, List.append_assoc, List.append_assoc,
      load_append_right (by simp), List.take_left' (Endian.length_put _ _ _)]

end

/-! ## A committed image -/

section
variable {tg : Target} {h h' : Handle}

/-- A written image is a header over its own data. -/
theorem writeBack_header {w : Handle} (hw : writeBack tg h = some w) :
    w.area = h.area ∧ ∃ data : Bytes, data.length = h.area.length ∧
      w.mmap = poke data h.area.offset
        (commitHeader tg h data (roundUp (writtenLength h + 2) 4)) := by
  simp only [writeBack, writeTable_committed] at hw
  split at hw
  · cases hw
  · obtain rfl := Option.some.inj hw
    rw [writtenLength, ← length_text]
    refine ⟨rfl, _, ?_, rfl⟩
    exact length_commitData h _ _

/-- **The two computations agree** on what `nvram_commit` writes out. -/
theorem doInfo_writeBack {w : Handle} (he : tg.endian = .little) (hw : writeBack tg h = some w) :
    (doInfo tg w.mmap w.area.offset).1 = (doInfo tg w.mmap w.area.offset).2 := by
  obtain ⟨warea, data, hdata, hmmap⟩ := writeBack_header hw
  obtain ⟨-, hlen⟩ := writeBack_words hw
  have hroom : h.area.offset + headerSize ≤ data.length := by
    have := h.area.room
    rw [hdata, headerSize]
    rw [NVRAM_MIN_SPACE] at this
    omega
  generalize hn : roundUp (writtenLength h + 2) 4 = len at hmmap hlen
  have hlow : headerSize ≤ len := by
    have := le_roundUp (writtenLength h + 2) (show 0 < 4 by decide)
    rw [hn, writtenLength] at this
    omega
  have hhigh : len < 2 ^ 32 := hlen ▸ wordAt_lt _ _
  have hheader := length_commitHeader tg h data len
  -- what `do_info` reads is the header behind the checksum, and the data
  have hread : load w.mmap (h.area.offset + NVRAM_CRC_START_POSITION)
      (len - NVRAM_CRC_START_POSITION) =
        (commitHeader tg h data len).drop NVRAM_CRC_START_POSITION ++
          load data (h.area.offset + headerSize) (len - headerSize) := by
    have hsplit : len - NVRAM_CRC_START_POSITION =
        headerSize - NVRAM_CRC_START_POSITION + (len - headerSize) := by
      rw [NVRAM_CRC_START_POSITION, headerSize] at *
      omega
    have hfirst : load (load w.mmap h.area.offset headerSize) NVRAM_CRC_START_POSITION
        (headerSize - NVRAM_CRC_START_POSITION) =
          (commitHeader tg h data len).drop NVRAM_CRC_START_POSITION := by
      rw [hmmap, ← hheader, load_poke_self (by rw [hheader]; exact hroom), ← drop_eq_load rfl]
    rw [hsplit, load_add, ← load_load (n := headerSize) (by decide), hfirst, Nat.add_assoc,
      Nat.add_sub_cancel' (by decide), hmmap,
      load_poke_of_disjoint (by rw [hheader]; exact hroom) (.inr (by rw [hheader]))]
  have hstored : load w.mmap (h.area.offset + 8) 4 = tg.endian.put 4 ((headerParams tg h).1 |||
      (hndcrc8 (load w.mmap (h.area.offset + NVRAM_CRC_START_POSITION)
        (len - NVRAM_CRC_START_POSITION)) 0xff).toNat) := by
    rw [hread, hndcrc8_append, drop_commitHeader he, hmmap]
    exact (load_header hroom).2
  have hwrap : (len + 2 ^ 32 - NVRAM_CRC_START_POSITION) % 2 ^ 32 =
      len - NVRAM_CRC_START_POSITION := by
    rw [headerSize] at hlow
    rw [NVRAM_CRC_START_POSITION]
    omega
  simp only [doInfo, warea, hlen, hwrap]
  rw [wordAt, hstored, Endian.get_put, show 0xFF = 2 ^ 8 - 1 from rfl,
    Nat.and_two_pow_sub_one_eq_mod, show 256 ^ 4 = 2 ^ 8 * 2 ^ 24 from rfl, Nat.mod_mul_right_mod,
    Nat.or_mod_two_pow, headerParams_mod, Nat.zero_or]
  exact Nat.mod_eq_of_lt (UInt8.toNat_lt _)

theorem low_little (bs : Bytes) :
    Endian.little.get bs &&& 0xFF = (bs[0]?.getD 0).toNat := by
  rw [show 0xFF = 2 ^ 8 - 1 from rfl, Nat.and_two_pow_sub_one_eq_mod]
  cases bs with
  | nil => rfl
  | cons b bs =>
    have := b.toNat_lt
    change (b.toNat + 256 * leNat bs) % 2 ^ 8 = b.toNat
    omega

/-- A changed byte among those that a piece of memory is read from. -/
theorem load_poke_set {m : Bytes} {s n p : Nat} {b : UInt8} (hp : p < m.length) (hs : s ≤ p) :
    load (poke m p [b]) s n = (load m s n).set (p - s) b := by
  apply List.ext_getElem?
  intro i
  have hroom : p + [b].length ≤ m.length := hp
  by_cases hi : i < n
  · have hget (m : Bytes) : (load m s n)[i]? = m[s + i]? := by
      have := @getElem?_load s n (s + i) (by omega) (by omega) m
      rwa [Nat.add_sub_cancel_left] at this
    rw [hget, getElem?_poke hroom, List.getElem?_set, hget]
    by_cases heq : p - s = i
    · have hlen : i < (load m s n).length := by
        rw [load, List.length_take, List.length_drop]
        omega
      rw [if_pos heq, heq, if_pos hlen, if_pos ⟨by omega, by rw [List.length_singleton]; omega⟩,
        show s + i - p = 0 by omega]
      rfl
    · rw [if_neg heq, if_neg]
      rw [List.length_singleton]
      omega
  · have hout (m : Bytes) : (load m s n).length ≤ i := by
      rw [load, List.length_take]
      omega
    rw [List.getElem?_eq_none (hout _), List.getElem?_eq_none]
    rw [List.length_set]
    exact hout _

/-- **The checksum of a committed image.** `do_info` finds the stored one, and after a change of
one byte behind it, another one. -/
theorem checksum_committed (he : tg.endian = .little) {r : Int}
    (hc : nvramCommit tg h = some (h', r)) :
    let info := doInfo tg h'.mmap h'.area.offset
    info.1 = info.2 ∧
    ∀ i a b, NVRAM_CRC_START_POSITION ≤ i → i < headerLen tg h' →
      h'.mmap[h'.area.offset + i]? = some a → b ≠ a →
        let info' := doInfo tg (poke h'.mmap (h'.area.offset + i) [b]) h'.area.offset
        info'.1 = info.1 ∧ info'.2 ≠ info.1 := by
  obtain ⟨h₁, hr, heq⟩ := Option.map_eq_some_iff.mp hc
  obtain ⟨rfl, rfl⟩ := Prod.mk.injEq .. ▸ heq
  obtain ⟨w, hw, hr⟩ := Option.bind_eq_some_iff.mp hr
  obtain ⟨-, -, -, area, mmap, -⟩ := nvramRehash_spec hr
  have hagree := doInfo_writeBack he hw
  rw [← area, ← mmap] at hagree
  refine ⟨hagree, fun i a b hlo hhi ha hne => ?_⟩
  rw [NVRAM_CRC_START_POSITION] at hlo
  obtain ⟨hp, hget⟩ := List.getElem?_eq_some_iff.mp ha
  have hlen : wordAt tg (poke h₁.mmap (h₁.area.offset + i) [b]) (h₁.area.offset + 4) =
      headerLen tg h₁ := by
    rw [wordAt, load_poke_of_disjoint hp (.inl (by omega)), headerLen, wordAt]
  have hstored : (doInfo tg (poke h₁.mmap (h₁.area.offset + i) [b]) h₁.area.offset).1 =
      (doInfo tg h₁.mmap h₁.area.offset).1 := by
    have hbyte (m : Bytes) : (load m (h₁.area.offset + 8) 4)[0]? = m[h₁.area.offset + 8]? := by
      rw [load, List.getElem?_take_of_lt (by decide), List.getElem?_drop, Nat.add_zero]
    simp only [doInfo, wordAt, he, low_little, hbyte]
    rw [getElem?_poke hp, if_neg (by omega)]
  have hread : (load h₁.mmap (h₁.area.offset + NVRAM_CRC_START_POSITION)
      ((headerLen tg h₁ + 2 ^ 32 - NVRAM_CRC_START_POSITION) % 2 ^ 32))[i - 9]? = some a := by
    have hlt : headerLen tg h₁ < 2 ^ 32 := wordAt_lt _ _
    have := @getElem?_load (h₁.area.offset + NVRAM_CRC_START_POSITION)
      ((headerLen tg h₁ + 2 ^ 32 - NVRAM_CRC_START_POSITION) % 2 ^ 32) (h₁.area.offset + i)
      (by rw [NVRAM_CRC_START_POSITION]; omega) (by rw [NVRAM_CRC_START_POSITION]; omega) h₁.mmap
    rw [ha, Nat.add_sub_add_left] at this
    exact this
  refine ⟨hstored, ?_⟩
  rw [hagree]
  simp only [doInfo, hlen]
  rw [load_poke_set hp (by rw [NVRAM_CRC_START_POSITION]; omega), Nat.add_sub_add_left]
  exact fun heq => hndcrc8_set_ne hread hne 0xff (UInt8.toNat_inj.mp heq)

end

theorem checksum_committed_filled : ∃ h', nvramCommit mipsel (fillA 1) = some (h', 0) ∧
    let info := doInfo mipsel h'.mmap h'.area.offset
    info.1 = info.2 ∧
    ∀ i a b, NVRAM_CRC_START_POSITION ≤ i → i < headerLen mipsel h' →
      h'.mmap[h'.area.offset + i]? = some a → b ≠ a →
        let info' := doInfo mipsel (poke h'.mmap (h'.area.offset + i) [b]) h'.area.offset
        info'.1 = info.1 ∧ info'.2 ≠ info.1 := by
  obtain ⟨h', hc⟩ := fillA_commits 1
  exact ⟨h', hc, checksum_committed rfl hc⟩

end UolaOs.Nvram
