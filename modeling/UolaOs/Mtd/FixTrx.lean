import UolaOs.Lib.Crc32
import UolaOs.Lib.FlashArea

/-!
# Fixing the TRX header on the device

`mtd_fixtrx` of trx.c: the length and the CRC of the header are those of the data that is read from
the good blocks behind it.

* `readGood_spec`: what the loop over the chunks reads;
* `mtdFixtrx_spec`: the header, everything else on the device, and a second run.
-/

namespace UolaOs.Mtd

/-- The host and the flash. `bad` is what MEMGETBADBLOCK answers; the last three say which
allocations, which MEMERASE and which writes succeed. -/
structure Setup where
  endian : Endian
  /-- The width of `size_t`. -/
  sizeBits : Nat
  erasesize : Nat
  nand : Bool
  bad : Nat → Bool
  allocates : Nat → Bool
  erases : Nat → Bool
  writes : Nat → Bool
  sizeBits_le : 32 ≤ sizeBits
  pow : ∃ k, erasesize = 2 ^ k

namespace Setup

variable (d : Setup)

/-- A `size_t`. -/
def size (x : Nat) : Nat := x % 2 ^ d.sizeBits

/-- `x & ~(erasesize - 1)` -/
def blockOf (x : Nat) : Nat := x &&& (2 ^ d.sizeBits - d.erasesize)

/-- `STORE32_LE`, as the number that the field then has: on a little-endian host the macro does not
cut the `size_t` that it gets. -/
def store32Le (x : Nat) : Nat :=
  match d.endian with
  | .little => x
  | .big => x % 2 ^ 32

/-- `mtd_block_is_bad`, or `none` where the program exits. The offset is an `int`, and the ioctl
refuses a negative one and one behind the device. -/
def blockIsBad (m : Bytes) (offset : Nat) : Option Bool :=
  let o := offset % 2 ^ 32
  if d.nand then if o < 2 ^ 31 ∧ o < m.length then some (d.bad o) else none else some false

/-- The bytes of a round: up to the end of the block. -/
def readChunk (data_offset data_size : Nat) : Nat :=
  min (d.erasesize - (data_offset &&& (d.erasesize - 1))) data_size

theorem erasesize_pos : 0 < d.erasesize := by
  obtain ⟨k, hk⟩ := d.pow
  rw [hk]
  exact Nat.two_pow_pos k

theorem readChunk_pos {data_offset data_size : Nat} (h : data_size ≠ 0) :
    0 < d.readChunk data_offset data_size := by
  have hpos := d.erasesize_pos
  have hle : data_offset &&& (d.erasesize - 1) ≤ d.erasesize - 1 := Nat.and_le_right
  rw [readChunk]
  omega

/-- The loop over the chunks: the bytes that are read, or `none` where the program exits. -/
def readGood (m : Bytes) (data_offset data_size : Nat) : Option Bytes :=
  if _h : data_size = 0 then some []
  else
    let read_chunk := d.readChunk data_offset data_size
    match d.blockIsBad m (d.blockOf data_offset) with
    | none => none
    | some true => readGood m (d.size (data_offset + read_chunk)) (data_size - read_chunk)
    | some false =>
      let chunk := load m data_offset read_chunk
      if chunk.length ≠ read_chunk then none
      else
        (readGood m (d.size (data_offset + read_chunk)) (data_size - read_chunk)).map (chunk ++ ·)
termination_by data_size
decreasing_by all_goals exact Nat.sub_lt (Nat.pos_of_ne_zero _h) (d.readChunk_pos _h)

end Setup

/-! ## The header -/

/-- `TRX_MAGIC` -/
def trxMagic : Nat := 0x30524448

/-- `TRX_CRC32_DATA_OFFSET`, and the offset of `flag_version`. -/
def trxCrc32DataOffset : Nat := 12

/-- `TRX_CRC32_DATA_SIZE` -/
def trxCrc32DataSize : Nat := 16

/-- `struct trx_header` at `off`. -/
def headerMagic (m : Bytes) (off : Nat) : Nat := Endian.little.get (load m off 4)
def headerLen (m : Bytes) (off : Nat) : Nat := Endian.little.get (load m (off + 4) 4)
def headerCrc32 (m : Bytes) (off : Nat) : Nat := Endian.little.get (load m (off + 8) 4)

/-- `crc32buf` -/
def crc32buf (buf : Bytes) : UInt32 := crc32 0xffffffff buf

namespace Setup

variable (d : Setup)

/-- The range that is asked for, from the data size of the command line. -/
def dataSize (data_size : Nat) : Nat :=
  if data_size ≠ 0 then d.size (data_size + trxCrc32DataSize)
  else d.size (d.erasesize + 2 ^ d.sizeBits - trxCrc32DataOffset)

/-- The end of `mtd_fixtrx`, with the block of the header and the header in it. -/
def rewriteTrx (first_block : Bytes) (block_offset offset : Nat) (buf : Bytes) :
    Option Int × List FlashOp :=
  let len := d.store32Le (buf.length + trxCrc32DataOffset)
  let crc := d.store32Le (crc32buf buf).toNat
  if headerLen first_block offset = len ∧ headerCrc32 first_block offset = crc then (some 0, [])
  else
    let first_block := poke first_block (offset + 4) (Endian.little.put 4 len)
    let first_block := poke first_block (offset + 8) (Endian.little.put 4 crc)
    if ¬ d.erases block_offset then (none, [])
    else
      let ops := [.erase block_offset d.erasesize]
      if ¬ d.writes block_offset then (none, ops)
      else (some 0, ops ++ [.program block_offset first_block])

/-- `mtd_fixtrx` on a device with the contents `m`: what it returns, or `none` where the program
exits, and what it does to the flash. -/
def mtdFixtrx (m : Bytes) (offset data_size : Nat) : Option Int × List FlashOp :=
  let data_offset := d.size (offset + trxCrc32DataOffset)
  let data_size := d.dataSize data_size
  let block_offset := d.blockOf offset
  let offset := offset - block_offset
  if m.length < d.size (data_offset + data_size) then (none, [])
  else if ¬ d.allocates d.erasesize then (none, [])
  else
    let first_block := load m block_offset d.erasesize
    if first_block.length ≠ d.erasesize then (none, [])
    else if headerMagic first_block offset ≠ trxMagic then (none, [])
    else if ¬ d.allocates data_size then (none, [])
    else
      match d.readGood m data_offset data_size with
      | none => (none, [])
      | some buf => d.rewriteTrx first_block block_offset offset buf

/-! ## What is read -/

/-- Whether the address lies in a bad block. -/
def inBad (i : Nat) : Bool := d.nand && d.bad (i / d.erasesize * d.erasesize)

/-- The bytes from `a` on that lie in good blocks, of the next `n`. -/
def goodBytes (m : Bytes) (a n : Nat) : Bytes :=
  (List.range' a n).filterMap fun i => if d.inBad i then none else m[i]?

section
variable {d : Setup} {m bs : Bytes} {a n i k : Nat}

theorem lt_size (h : a < 2 ^ 32) : a < 2 ^ d.sizeBits :=
  Nat.lt_of_lt_of_le h (Nat.pow_le_pow_right (by decide) d.sizeBits_le)

theorem size_of_lt (h : a < 2 ^ 32) : d.size a = a := Nat.mod_eq_of_lt (lt_size h)

theorem store32Le_of_lt (d : Setup) (h : a < 2 ^ 32) : d.store32Le a = a := by
  rw [store32Le]
  cases d.endian with
  | little => rfl
  | big => exact Nat.mod_eq_of_lt h

theorem blockOf_eq (hes : d.erasesize < 2 ^ 32) (ha : a < 2 ^ d.sizeBits) :
    d.blockOf a = a / d.erasesize * d.erasesize := by
  obtain ⟨k, hk⟩ := d.pow
  rw [hk] at hes
  have hlt : k < 32 := (Nat.pow_lt_pow_iff_right (by decide)).mp hes
  rw [blockOf, hk, and_clearLow ha (Nat.le_trans (Nat.le_of_lt hlt) d.sizeBits_le)]

theorem readChunk_eq : d.readChunk a n = min (d.erasesize - a % d.erasesize) n := by
  obtain ⟨k, hk⟩ := d.pow
  rw [readChunk, hk, Nat.and_two_pow_sub_one_eq_mod]

/-- The block of an address in the chunk at `a`. -/
theorem block_of_chunk (hlo : a ≤ i) (hhi : i < a + d.readChunk a n) :
    i / d.erasesize = a / d.erasesize := by
  rw [readChunk_eq] at hhi
  have hdiv := Nat.div_add_mod a d.erasesize
  have hsum : i = d.erasesize * (a / d.erasesize) + (a % d.erasesize + (i - a)) := by omega
  have hzero : (a % d.erasesize + (i - a)) / d.erasesize = 0 := Nat.div_eq_of_lt (by omega)
  rw [hsum, Nat.mul_add_div d.erasesize_pos, hzero, Nat.add_zero]

theorem goodBytes_add (a n k : Nat) :
    d.goodBytes m a (n + k) = d.goodBytes m a n ++ d.goodBytes m (a + n) k := by
  rw [goodBytes, ← List.range'_append_1, List.filterMap_append, goodBytes, goodBytes]

theorem goodBytes_good (h : ∀ i, a ≤ i → i < a + n → d.inBad i = false) :
    d.goodBytes m a n = load m a n := by
  induction n generalizing a with
  | zero => simp [goodBytes, load]
  | succ n ih =>
    have hrest : d.goodBytes m (a + 1) n = load m (a + 1) n :=
      ih fun i hlo hhi => h i (by omega) (by omega)
    have hone : d.goodBytes m a 1 = load m a 1 := by
      have ha := h a (Nat.le_refl a) (by omega)
      rw [goodBytes, List.range'_one, load, List.filterMap_cons, ha, if_neg Bool.false_ne_true,
        List.filterMap_nil]
      cases hm : m.drop a with
      | nil => rw [List.getElem?_eq_none (List.drop_eq_nil_iff.mp hm)]; rfl
      | cons x xs =>
        have hx : m[a]? = some x := by
          have hdrop : (m.drop a)[0]? = m[a + 0]? := List.getElem?_drop
          rw [hm] at hdrop
          exact hdrop.symm
        rw [hx]
        rfl
    rw [Nat.add_comm n 1, goodBytes_add, load_add, hone, hrest]

theorem goodBytes_bad (h : ∀ i, a ≤ i → i < a + n → d.inBad i = true) :
    d.goodBytes m a n = [] := by
  refine List.filterMap_eq_nil_iff.mpr fun i hi => ?_
  obtain ⟨hlo, hhi⟩ := List.mem_range'_1.mp hi
  rw [if_pos (h i hlo hhi)]

/-- What a round finds out about the block of its chunk. -/
theorem blockIsBad_spec {b : Bool} (hes : d.erasesize ≤ m.length) (hlt : m.length < 2 ^ 31)
    (ha : a ≤ m.length + d.erasesize) (h : d.blockIsBad m (d.blockOf a) = some b) :
    (∀ i, a ≤ i → i < a + d.readChunk a n → d.inBad i = b) ∧
      (b = true → a / d.erasesize * d.erasesize < m.length) := by
  have hle := Nat.div_mul_le_self a d.erasesize
  rw [blockIsBad, blockOf_eq (by omega) (lt_size (by omega)), Nat.mod_eq_of_lt (by omega)] at h
  have hblock (hb : (d.nand && d.bad (a / d.erasesize * d.erasesize)) = b) (i : Nat) (hlo : a ≤ i)
      (hhi : i < a + d.readChunk a n) : d.inBad i = b := by
    rw [inBad, block_of_chunk hlo hhi, hb]
  cases hnand : d.nand with
  | false =>
    rw [hnand] at h
    obtain rfl : false = b := Option.some.inj h
    exact ⟨hblock (by rw [hnand, Bool.false_and]), fun hb => Bool.noConfusion hb⟩
  | true =>
    rw [hnand, if_pos rfl] at h
    obtain ⟨hin, hb⟩ := Option.ite_none_right_eq_some.mp h
    exact ⟨hblock (by rw [hnand, Bool.true_and]; exact Option.some.inj hb), fun _ => hin.2⟩

theorem readChunk_le : a + d.readChunk a n ≤ a / d.erasesize * d.erasesize + d.erasesize := by
  have hdiv := Nat.div_add_mod' a d.erasesize
  have hmod := Nat.mod_lt a d.erasesize_pos
  rw [readChunk_eq]
  omega

/-- **The loop.** It reads the bytes in good blocks, and reads the same from a device that has the
same contents there. -/
theorem readGood_spec (hes : d.erasesize ≤ m.length) (hlt : m.length < 2 ^ 31)
    (ha : a ≤ m.length + d.erasesize) (h : d.readGood m a n = some bs) :
    bs = d.goodBytes m a n ∧ bs.length ≤ m.length - a ∧
      ∀ m' : Bytes, m'.length = m.length → (∀ i, a ≤ i → m'[i]? = m[i]?) →
        d.readGood m' a n = some bs := by
  induction hn : n using Nat.strongRecOn generalizing a n bs with
  | ind n ih =>
    subst hn
    rw [readGood] at h
    by_cases hzero : n = 0
    · rw [dif_pos hzero] at h
      obtain rfl := Option.some.inj h
      subst hzero
      refine ⟨rfl, Nat.zero_le _, fun m' _ _ => ?_⟩
      rw [readGood, dif_pos rfl]
    rw [dif_neg hzero] at h
    dsimp only at h
    have hpos : 0 < d.readChunk a n := d.readChunk_pos hzero
    have hchunk := readChunk_le (d := d) (a := a) (n := n)
    have hsplit : d.goodBytes m a n = d.goodBytes m a (d.readChunk a n) ++
        d.goodBytes m (a + d.readChunk a n) (n - d.readChunk a n) := by
      rw [← goodBytes_add, Nat.add_sub_cancel' (readChunk_eq ▸ Nat.min_le_right _ _)]
    have hsame (m' : Bytes) (hlen : m'.length = m.length) :
        d.blockIsBad m' (d.blockOf a) = d.blockIsBad m (d.blockOf a) := by
      rw [blockIsBad, blockIsBad, hlen]
    cases hbad : d.blockIsBad m (d.blockOf a) with
    | none =>
      rw [hbad] at h
      cases h
    | some b =>
      rw [hbad] at h
      obtain ⟨hall, hin⟩ := blockIsBad_spec (n := n) hes hlt ha hbad
      cases b with
      | true =>
        dsimp only at h
        have hin := hin rfl
        rw [size_of_lt (by omega)] at h
        obtain ⟨hbs, hle, hagain⟩ := ih _ (by omega) (by omega) h rfl
        refine ⟨?_, by omega, fun m' hlen hm' => ?_⟩
        · rw [hsplit, goodBytes_bad hall, List.nil_append, ← hbs]
        · rw [readGood, dif_neg hzero]
          dsimp only
          rw [hsame m' hlen, hbad]
          dsimp only
          rw [size_of_lt (by omega)]
          exact hagain m' hlen fun i hi => hm' i (by omega)
      | false =>
        dsimp only at h
        obtain ⟨hlen, h⟩ := Option.ite_none_left_eq_some.mp h
        obtain ⟨rest, hrest, rfl⟩ := Option.map_eq_some_iff.mp h
        have hlen := not_not.mp hlen
        have hfit : a + d.readChunk a n ≤ m.length := by
          rw [load, List.length_take, List.length_drop] at hlen
          omega
        rw [size_of_lt (by omega)] at hrest
        obtain ⟨hbs, hle, hagain⟩ := ih _ (by omega) (by omega) hrest rfl
        refine ⟨?_, by rw [List.length_append, hlen]; omega, fun m' hlen' hm' => ?_⟩
        · rw [hsplit, goodBytes_good hall, ← hbs]
        · have hload : load m' a (d.readChunk a n) = load m a (d.readChunk a n) :=
            load_congr fun i hlo _ => hm' i hlo
          rw [readGood, dif_neg hzero]
          dsimp only
          rw [hsame m' hlen', hbad]
          dsimp only
          rw [hload, if_neg (not_not.mpr hlen), size_of_lt (by omega),
            hagain m' hlen' fun i hi => hm' i (by omega)]
          rfl

end

/-! ## The header is fixed -/

/-- The program gets to the header with the bytes `buf`. -/
structure Ready (d : Setup) (m : Bytes) (offset data_size : Nat) (buf : Bytes) : Prop where
  fits : ¬ m.length <
    d.size (d.size (offset + trxCrc32DataOffset) + d.dataSize data_size)
  block : d.allocates d.erasesize = true
  length : (load m (d.blockOf offset) d.erasesize).length = d.erasesize
  magic : headerMagic (load m (d.blockOf offset) d.erasesize) (offset - d.blockOf offset) = trxMagic
  buffer : d.allocates (d.dataSize data_size) = true
  read : d.readGood m (d.size (offset + trxCrc32DataOffset)) (d.dataSize data_size) = some buf

section
variable {d : Setup} {m m' buf : Bytes} {offset data_size : Nat} {r : Int}

theorem Ready.eq (h : d.Ready m offset data_size buf) :
    d.mtdFixtrx m offset data_size = d.rewriteTrx (load m (d.blockOf offset) d.erasesize)
      (d.blockOf offset) (offset - d.blockOf offset) buf := by
  rw [mtdFixtrx]
  dsimp only
  rw [if_neg h.fits, if_neg (not_not.mpr h.block), if_neg (not_not.mpr h.length),
    if_neg (not_not.mpr h.magic), if_neg (not_not.mpr h.buffer), h.read]

theorem ready_of_some (h : (d.mtdFixtrx m offset data_size).1 = some r) :
    ∃ buf, d.Ready m offset data_size buf := by
  rw [mtdFixtrx] at h
  dsimp only at h
  split at h
  · cases h
  rename_i hfits
  split at h
  · cases h
  rename_i hblock
  split at h
  · cases h
  rename_i hlength
  split at h
  · cases h
  rename_i hmagic
  split at h
  · cases h
  rename_i hbuffer
  cases hread : d.readGood m (d.size (offset + trxCrc32DataOffset)) (d.dataSize data_size) with
  | none =>
    rw [hread] at h
    cases h
  | some buf =>
    exact ⟨buf, hfits, not_not.mp hblock, not_not.mp hlength, not_not.mp hmagic,
      not_not.mp hbuffer, hread⟩

/-- The header lies in its block, and the block on the device. -/
structure InBlock (d : Setup) (m : Bytes) (offset : Nat) : Prop where
  le : d.blockOf offset ≤ offset
  room : offset - d.blockOf offset + 28 ≤ d.erasesize
  fits : d.blockOf offset + d.erasesize ≤ m.length

theorem Ready.inBlock (h : d.Ready m offset data_size buf) (hdev : m.length < 2 ^ 31)
    (hoffset : offset < 2 ^ d.sizeBits) (hheader : offset % d.erasesize + 28 ≤ d.erasesize) :
    d.InBlock m offset := by
  have hlength := h.length
  rw [load, List.length_take, List.length_drop] at hlength
  have hblock := d.blockOf_eq (by omega) hoffset
  have hdiv := Nat.div_add_mod' offset d.erasesize
  exact ⟨by omega, by omega, by omega⟩

/-- The fields of the header in its block. -/
theorem InBlock.load_header (h : d.InBlock m offset) {j : Nat} (hj : j + 4 ≤ 28) :
    load (load m (d.blockOf offset) d.erasesize) (offset - d.blockOf offset + j) 4 =
      load m (offset + j) 4 := by
  have hroom := h.room
  rw [load_load (by omega), ← Nat.add_assoc, Nat.add_sub_cancel' h.le]

/-- The device with these numbers in the header. -/
def withFields (m : Bytes) (offset len crc : Nat) : Bytes :=
  poke (poke m (offset + 4) (Endian.little.put 4 len)) (offset + 8) (Endian.little.put 4 crc)

section
variable {len crc : Nat}

theorem length_withFields (m : Bytes) (offset len crc : Nat) :
    (withFields m offset len crc).length = m.length := by
  rw [withFields, length_poke, length_poke]

theorem getElem?_withFields (hfit : offset + 12 ≤ m.length) {i : Nat}
    (hi : ¬ (offset + 4 ≤ i ∧ i < offset + 12)) : (withFields m offset len crc)[i]? = m[i]? := by
  rw [withFields, getElem?_poke (by rw [length_poke, Endian.length_put]; omega),
    getElem?_poke (by rw [Endian.length_put]; omega), Endian.length_put, Endian.length_put,
    if_neg (by omega), if_neg (by omega)]

theorem headerLen_withFields (hfit : offset + 12 ≤ m.length) (hlen : len < 2 ^ 32) :
    headerLen (withFields m offset len crc) offset = len := by
  have hself : load (poke m (offset + 4) (Endian.little.put 4 len)) (offset + 4)
      (Endian.little.put 4 len).length = Endian.little.put 4 len :=
    load_poke_self (by rw [Endian.length_put]; omega)
  rw [Endian.length_put] at hself
  rw [headerLen, withFields, load_poke_of_disjoint (by rw [length_poke, Endian.length_put]; omega)
    (by omega), hself, Endian.get_put_of_lt _ hlen]

theorem headerCrc32_withFields (hfit : offset + 12 ≤ m.length) (hcrc : crc < 2 ^ 32) :
    headerCrc32 (withFields m offset len crc) offset = crc := by
  have hself : load (poke (poke m (offset + 4) (Endian.little.put 4 len)) (offset + 8)
      (Endian.little.put 4 crc)) (offset + 8) (Endian.little.put 4 crc).length =
      Endian.little.put 4 crc :=
    load_poke_self (by rw [length_poke, Endian.length_put]; omega)
  rw [Endian.length_put] at hself
  rw [headerCrc32, withFields, hself, Endian.get_put_of_lt _ hcrc]

/-- The block of the header, written back with these numbers. -/
theorem InBlock.poke_fields (h : d.InBlock m offset) :
    poke m (d.blockOf offset) (poke (poke (load m (d.blockOf offset) d.erasesize)
      (offset - d.blockOf offset + 4) (Endian.little.put 4 len))
      (offset - d.blockOf offset + 8) (Endian.little.put 4 crc)) = withFields m offset len crc := by
  obtain ⟨hle, hroom, hfit⟩ := h
  have hat (j : Nat) : d.blockOf offset + (offset - d.blockOf offset + j) = offset + j := by omega
  rw [poke_load (by rw [Endian.length_put]; omega) hfit, hat,
    poke_load (by rw [Endian.length_put]; omega) (by rwa [length_poke]), hat, ← withFields]
  refine poke_load_of_agree hfit (length_withFields _ _ _ _) fun i hi => ?_
  exact getElem?_withFields (by omega) (by omega)

end

/-- The device after a run. -/
def afterFix (d : Setup) (m : Bytes) (offset data_size : Nat) : Bytes :=
  (d.mtdFixtrx m offset data_size).2.foldl FlashOp.apply m

/-- The end of a run, by the header on the device. -/
theorem InBlock.rewriteTrx_eq (h : d.InBlock m offset) (buf : Bytes) :
    let len := d.store32Le (buf.length + trxCrc32DataOffset)
    let crc := d.store32Le (crc32buf buf).toNat
    d.rewriteTrx (load m (d.blockOf offset) d.erasesize) (d.blockOf offset)
      (offset - d.blockOf offset) buf =
      if headerLen m offset = len ∧ headerCrc32 m offset = crc then (some 0, [])
      else if ¬ d.erases (d.blockOf offset) then (none, [])
      else if ¬ d.writes (d.blockOf offset) then (none, [.erase (d.blockOf offset) d.erasesize])
      else (some 0, [.erase (d.blockOf offset) d.erasesize, .program (d.blockOf offset)
        (poke (poke (load m (d.blockOf offset) d.erasesize) (offset - d.blockOf offset + 4)
          (Endian.little.put 4 len)) (offset - d.blockOf offset + 8)
          (Endian.little.put 4 crc))]) := by
  intro len crc
  rw [rewriteTrx, headerLen, headerCrc32, h.load_header (by decide), h.load_header (by decide),
    ← headerLen, ← headerCrc32]
  rfl

/-- What the end of a run that returns does. -/
theorem InBlock.rewriteTrx_spec (h : d.InBlock m offset)
    (hret : (d.rewriteTrx (load m (d.blockOf offset) d.erasesize) (d.blockOf offset)
      (offset - d.blockOf offset) buf).1 = some r) :
    let len := d.store32Le (buf.length + trxCrc32DataOffset)
    let crc := d.store32Le (crc32buf buf).toNat
    let m' := (d.rewriteTrx (load m (d.blockOf offset) d.erasesize) (d.blockOf offset)
      (offset - d.blockOf offset) buf).2.foldl FlashOp.apply m
    (headerLen m offset = len ∧ headerCrc32 m offset = crc ∧ m' = m) ∨
      m' = withFields m offset len crc := by
  intro len crc
  rw [h.rewriteTrx_eq] at hret ⊢
  split
  · rename_i hsame
    exact .inl ⟨hsame.1, hsame.2, rfl⟩
  rename_i hdiffers
  rw [if_neg hdiffers] at hret
  split
  · rename_i herases
    rw [if_pos herases] at hret
    cases hret
  rename_i herases
  rw [if_neg herases] at hret
  split
  · rename_i hwrites
    rw [if_pos hwrites] at hret
    cases hret
  have hblock : poke m (d.blockOf offset) (poke (poke (load m (d.blockOf offset) d.erasesize)
      (offset - d.blockOf offset + 4) (Endian.little.put 4 len))
      (offset - d.blockOf offset + 8) (Endian.little.put 4 crc)) = withFields m offset len crc :=
    h.poke_fields
  generalize hfixed : poke (poke (load m (d.blockOf offset) d.erasesize)
    (offset - d.blockOf offset + 4) (Endian.little.put 4 len))
    (offset - d.blockOf offset + 8) (Endian.little.put 4 crc) = fixed at hblock
  have hlength : fixed.length = d.erasesize := by
    rw [← hfixed, length_poke, length_poke, length_load h.fits]
  have hprogram : programAt (eraseAt m (d.blockOf offset) fixed.length) (d.blockOf offset) fixed =
      poke m (d.blockOf offset) fixed := programAt_eraseAt (by rw [hlength]; exact h.fits)
  rw [hlength, hblock] at hprogram
  exact .inr hprogram

/-- A device that differs in these two fields only is read in the same way. -/
theorem Ready.congr (h : d.Ready m offset data_size buf) (hin : d.InBlock m offset)
    (hin' : d.InBlock m' offset) (hlength : m'.length = m.length)
    (hagree : ∀ i, ¬ (offset + 4 ≤ i ∧ i < offset + 12) → m'[i]? = m[i]?)
    (hread : d.readGood m' (d.size (offset + trxCrc32DataOffset)) (d.dataSize data_size) =
      some buf) : d.Ready m' offset data_size buf := by
  have hload : load m' (offset + 0) 4 = load m (offset + 0) 4 :=
    load_congr fun i hlo hhi => hagree i (by omega)
  refine ⟨hlength ▸ h.fits, h.block, length_load hin'.fits, ?_, h.buffer, hread⟩
  rw [← hin'.load_header (by decide), ← hin.load_header (by decide)] at hload
  exact (congrArg Endian.little.get hload).trans h.magic

end

end Setup

section
variable {d : Setup} {m : Bytes} {offset data_size : Nat}

/-- **Fixing the header.** When `mtd_fixtrx` returns, the length and the CRC in the header are those
of the bytes in good blocks from the offset 12 behind the header on, no other byte of the device has
changed, and a second run neither erases nor writes. -/
theorem mtdFixtrx_spec (hdev : m.length < 2 ^ 31) (hoffset : offset < 2 ^ d.sizeBits)
    (hheader : offset % d.erasesize + 28 ≤ d.erasesize)
    (h : (d.mtdFixtrx m offset data_size).1 = some 0) :
    let m' := d.afterFix m offset data_size
    let bytes := d.goodBytes m (offset + 12) (d.dataSize data_size)
    headerLen m' offset = 12 + bytes.length ∧ headerCrc32 m' offset = (crc32buf bytes).toNat ∧
      m'.length = m.length ∧
      (∀ i, ¬ (offset + 4 ≤ i ∧ i < offset + 12) → m'[i]? = m[i]?) ∧
      d.mtdFixtrx m' offset data_size = (some 0, []) := by
  intro m' bytes
  obtain ⟨buf, hready⟩ := Setup.ready_of_some h
  have hin := hready.inBlock hdev hoffset hheader
  have hread := hready.read
  have hle := hin.le
  have hroom := hin.room
  have hfit := hin.fits
  have hstart : d.size (offset + trxCrc32DataOffset) = offset + 12 :=
    Setup.size_of_lt (by rw [trxCrc32DataOffset]; omega)
  rw [hstart] at hread
  obtain ⟨hbytes, hshort, hagain⟩ := Setup.readGood_spec (by omega) hdev (by omega) hread
  have hlen : d.store32Le (buf.length + trxCrc32DataOffset) = buf.length + 12 :=
    d.store32Le_of_lt (by rw [trxCrc32DataOffset]; omega)
  have hcrc : d.store32Le (crc32buf buf).toNat = (crc32buf buf).toNat :=
    d.store32Le_of_lt (crc32buf buf).toNat_lt
  -- both ways to return leave these numbers, and the next run finds them
  have hfields : headerLen m' offset = buf.length + 12 ∧
      headerCrc32 m' offset = (crc32buf buf).toNat ∧ m'.length = m.length ∧
      ∀ i, ¬ (offset + 4 ≤ i ∧ i < offset + 12) → m'[i]? = m[i]? := by
    have hrun := hready.eq
    rw [hrun] at h
    have hend := hin.rewriteTrx_spec h
    rw [hlen, hcrc, ← hrun] at hend
    rcases hend with ⟨hlenEq, hcrcEq, hsame⟩ | hwith
    · have hsame : m' = m := hsame
      rw [hsame]
      exact ⟨hlenEq, hcrcEq, rfl, fun _ _ => rfl⟩
    · have hwith : m' = Setup.withFields m offset (buf.length + 12) (crc32buf buf).toNat := hwith
      rw [hwith]
      exact ⟨Setup.headerLen_withFields (by omega) (by omega),
        Setup.headerCrc32_withFields (by omega) (crc32buf buf).toNat_lt,
        Setup.length_withFields _ _ _ _, fun i hi => Setup.getElem?_withFields (by omega) hi⟩
  obtain ⟨hlen', hcrc', hlength', hagree⟩ := hfields
  have hin' : d.InBlock m' offset := ⟨hle, hroom, by omega⟩
  have hready' : d.Ready m' offset data_size buf := by
    refine hready.congr hin hin' hlength' hagree ?_
    rw [hstart]
    exact hagain m' hlength' fun i hi => hagree i (by omega)
  have hbuf : bytes = buf := hbytes.symm
  rw [hbuf]
  refine ⟨by omega, hcrc', hlength', hagree, ?_⟩
  rw [hready'.eq, hin'.rewriteTrx_eq, hlen, hcrc]
  exact if_pos ⟨hlen', hcrc'⟩

end

section

theorem le_32 : 32 ≤ 32 := Nat.le_refl 32

theorem pow_32 : ∃ k, 32 = 2 ^ k := ⟨5, rfl⟩

/-- NAND flash with erase blocks of 32 bytes, of which the second is bad. -/
def nandSetup : Setup where
  endian := .big
  sizeBits := 32
  erasesize := 32
  nand := true
  bad := fun o => o == 32
  allocates := fun _ => true
  erases := fun o => o != 32
  writes := fun o => o != 32
  sizeBits_le := le_32
  pow := pow_32

/-- The magic of a header in front of what has to be described. -/
def unfixedTrx : Bytes := [0x48, 0x44, 0x52, 0x30] ++ List.replicate 92 0x61

theorem mtdFixtrx_spec_nand :
    headerLen (nandSetup.afterFix unfixedTrx 0 64) 0 = 60 ∧
      nandSetup.mtdFixtrx (nandSetup.afterFix unfixedTrx 0 64) 0 64 = (some 0, []) := by
  have hrun : (nandSetup.mtdFixtrx unfixedTrx 0 64).1 = some 0 := by decide +kernel
  obtain ⟨hlen, -, -, -, hagain⟩ := mtdFixtrx_spec (by decide) (by decide) (by decide) hrun
  have hbytes : (nandSetup.goodBytes unfixedTrx (0 + 12) (nandSetup.dataSize 64)).length = 48 := by
    decide
  exact ⟨by rw [hlen, hbytes], hagain⟩

end

end UolaOs.Mtd
