import UolaOs.Lib.Md5

/-!
# Two implementations of MD5

`Openwall` is the one of firmware-utils and `Rsa` that of package/system/mtd. Fed in any pieces,
both give `Md5.digest`.
-/

namespace UolaOs.Seama

/-- The stream of the bytes of a message. -/
abbrev md5Feed (message : Bytes) : Md5.State × Bytes := feed Md5.compress 64 (Md5.init, []) message

/-! ## package/system/mtd/src/md5.c -/

namespace Rsa

/-- `MD5_CTX` -/
structure Ctx where
  i0 : UInt32
  i1 : UInt32
  buf : Md5.State
  inBytes : Bytes

/-- `MD5_Init` -/
def init : Ctx := ⟨0, 0, Md5.init, List.replicate 64 0⟩

/-- The number of bytes that wait. -/
def Ctx.mdi (ctx : Ctx) : Nat := ((ctx.i0 >>> 3) &&& 0x3f).toNat

/-- A round of the loop of `MD5_Update`: `mdi`, `buf` and `in`. -/
def put (c : Nat × Md5.State × Bytes) (b : UInt8) : Nat × Md5.State × Bytes :=
  let (mdi, buf, inBytes) := c
  let inBytes := inBytes.set mdi b
  if mdi + 1 = 0x40 then (0, Md5.compress buf inBytes, inBytes) else (mdi + 1, buf, inBytes)

/-- `MD5_Update` -/
def update (ctx : Ctx) (data : Bytes) : Ctx :=
  let inLen := UInt32.ofNat data.length
  let r := (data.take inLen.toNat).foldl put (ctx.mdi, ctx.buf, ctx.inBytes)
  let i1 := if ctx.i0 + (inLen <<< 3) < ctx.i0 then ctx.i1 + 1 else ctx.i1
  { i0 := ctx.i0 + (inLen <<< 3)
    i1 := i1 + (inLen >>> 29)
    buf := r.2.1
    inBytes := r.2.2 }

/-- `PADDING` -/
def paddingBytes : Bytes := 0x80 :: List.replicate 63 0

/-- The words of the last block: the bytes that wait and the number of bits. -/
def lastWords (ctx : Ctx) (inBytes : Bytes) (i : Nat) : UInt32 :=
  if i = 14 then ctx.i0 else if i = 15 then ctx.i1 else Md5.word inBytes i

/-- `MD5_Final` -/
def final (ctx : Ctx) : Bytes :=
  let padLen := if ctx.mdi < 56 then 56 - ctx.mdi else 120 - ctx.mdi
  let padded := update ctx (paddingBytes.take padLen)
  (Md5.transform padded.buf (lastWords ctx padded.inBytes)).bytes

end Rsa

/-! ## tools/firmware-utils/src/md5.c -/

namespace Openwall

def F (x y z : UInt32) : UInt32 := z ^^^ (x &&& (y ^^^ z))
def G (x y z : UInt32) : UInt32 := y ^^^ (z &&& (x ^^^ y))
def H (x y z : UInt32) : UInt32 := (x ^^^ y) ^^^ z
def H2 (x y z : UInt32) : UInt32 := x ^^^ (y ^^^ z)
def I (x y z : UInt32) : UInt32 := y ^^^ (x ||| ~~~z)

def round1 : List Md5.Step :=
  [⟨0, 7, 0xd76aa478⟩, ⟨1, 12, 0xe8c7b756⟩, ⟨2, 17, 0x242070db⟩, ⟨3, 22, 0xc1bdceee⟩,
    ⟨4, 7, 0xf57c0faf⟩, ⟨5, 12, 0x4787c62a⟩, ⟨6, 17, 0xa8304613⟩, ⟨7, 22, 0xfd469501⟩,
    ⟨8, 7, 0x698098d8⟩, ⟨9, 12, 0x8b44f7af⟩, ⟨10, 17, 0xffff5bb1⟩, ⟨11, 22, 0x895cd7be⟩,
    ⟨12, 7, 0x6b901122⟩, ⟨13, 12, 0xfd987193⟩, ⟨14, 17, 0xa679438e⟩, ⟨15, 22, 0x49b40821⟩]

def round2 : List Md5.Step :=
  [⟨1, 5, 0xf61e2562⟩, ⟨6, 9, 0xc040b340⟩, ⟨11, 14, 0x265e5a51⟩, ⟨0, 20, 0xe9b6c7aa⟩,
    ⟨5, 5, 0xd62f105d⟩, ⟨10, 9, 0x02441453⟩, ⟨15, 14, 0xd8a1e681⟩, ⟨4, 20, 0xe7d3fbc8⟩,
    ⟨9, 5, 0x21e1cde6⟩, ⟨14, 9, 0xc33707d6⟩, ⟨3, 14, 0xf4d50d87⟩, ⟨8, 20, 0x455a14ed⟩,
    ⟨13, 5, 0xa9e3e905⟩, ⟨2, 9, 0xfcefa3f8⟩, ⟨7, 14, 0x676f02d9⟩, ⟨12, 20, 0x8d2a4c8a⟩]

def round3 : List Md5.Step :=
  [⟨5, 4, 0xfffa3942⟩, ⟨8, 11, 0x8771f681⟩, ⟨11, 16, 0x6d9d6122⟩, ⟨14, 23, 0xfde5380c⟩,
    ⟨1, 4, 0xa4beea44⟩, ⟨4, 11, 0x4bdecfa9⟩, ⟨7, 16, 0xf6bb4b60⟩, ⟨10, 23, 0xbebfbc70⟩,
    ⟨13, 4, 0x289b7ec6⟩, ⟨0, 11, 0xeaa127fa⟩, ⟨3, 16, 0xd4ef3085⟩, ⟨6, 23, 0x04881d05⟩,
    ⟨9, 4, 0xd9d4d039⟩, ⟨12, 11, 0xe6db99e5⟩, ⟨15, 16, 0x1fa27cf8⟩, ⟨2, 23, 0xc4ac5665⟩]

def round4 : List Md5.Step :=
  [⟨0, 6, 0xf4292244⟩, ⟨7, 10, 0x432aff97⟩, ⟨14, 15, 0xab9423a7⟩, ⟨5, 21, 0xfc93a039⟩,
    ⟨12, 6, 0x655b59c3⟩, ⟨3, 10, 0x8f0ccc92⟩, ⟨10, 15, 0xffeff47d⟩, ⟨1, 21, 0x85845dd1⟩,
    ⟨8, 6, 0x6fa87e4f⟩, ⟨15, 10, 0xfe2ce6e0⟩, ⟨6, 15, 0xa3014314⟩, ⟨13, 21, 0x4e0811a1⟩,
    ⟨4, 6, 0xf7537e82⟩, ⟨11, 10, 0xbd3af235⟩, ⟨2, 15, 0x2ad7d2bb⟩, ⟨9, 21, 0xeb86d391⟩]

/-- A round of `body`. In round 3 the forms of `H` alternate. -/
def block (s : Md5.State) (ptr : Bytes) : Md5.State :=
  let x := Md5.word ptr
  let t := round1.foldl (Md5.step F x) s
  let t := round2.foldl (Md5.step G x) t
  let t := round3.zipIdx.foldl (fun t k => Md5.step (if k.2 % 2 = 0 then H else H2) x t k.1) t
  (round4.foldl (Md5.step I x) t).add s

/-- `body`: `size / 64` blocks -/
def body (s : Md5.State) (data : Bytes) (size : Nat) : Md5.State :=
  blocks block 64 (size / 64) s data

/-- `MD5_CTX` -/
structure Ctx where
  lo : UInt32
  hi : UInt32
  abcd : Md5.State
  buffer : Bytes

/-- `MD5_Init` -/
def init : Ctx := ⟨0, 0, Md5.init, List.replicate 64 0⟩

/-- `MD5_Update` once no bytes wait any more. -/
def updateBlocks (ctx : Ctx) (data : Bytes) : Ctx :=
  if 64 ≤ data.length then
    let whole := data.length / 64 * 64
    { ctx with
      abcd := body ctx.abcd data whole
      buffer := poke ctx.buffer 0 (data.drop whole) }
  else { ctx with buffer := poke ctx.buffer 0 data }

/-- `MD5_Update` -/
def update (ctx : Ctx) (data : Bytes) : Ctx :=
  let lo := UInt32.ofNat ((ctx.lo.toNat + data.length) % 2 ^ 29)
  let hi := (if lo < ctx.lo then ctx.hi + 1 else ctx.hi) + UInt32.ofNat (data.length / 2 ^ 29)
  let used := (ctx.lo &&& 0x3f).toNat
  let ctx := { ctx with lo := lo, hi := hi }
  if used ≠ 0 then
    let available := 64 - used
    if data.length < available then { ctx with buffer := poke ctx.buffer used data }
    else
      let buffer := poke ctx.buffer used (data.take available)
      updateBlocks { ctx with abcd := body ctx.abcd buffer 64, buffer := buffer }
        (data.drop available)
  else updateBlocks ctx data

/-- `MD5_Final` -/
def final (ctx : Ctx) : Bytes :=
  let used := (ctx.lo &&& 0x3f).toNat
  let buffer := ctx.buffer.set used 0x80
  let used := used + 1
  let available := 64 - used
  let (abcd, buffer, used) :=
    if available < 8 then
      let buffer := poke buffer used (List.replicate available 0)
      (body ctx.abcd buffer 64, buffer, 0)
    else (ctx.abcd, buffer, used)
  let buffer := poke buffer used (List.replicate (64 - used - 8) 0)
  let buffer := poke buffer 56 (leBytes 4 (ctx.lo <<< 3).toNat ++ leBytes 4 ctx.hi.toNat)
  (body abcd buffer 64).bytes

end Openwall

/-! ## Counting bits -/

theorem toNat_low6 (x : UInt32) : (x &&& 0x3f).toNat = x.toNat % 64 := by
  rw [UInt32.toNat_and]
  exact Nat.and_two_pow_sub_one_eq_mod x.toNat 6

theorem leBytes_add (j k n : Nat) : leBytes (j + k) n = leBytes j n ++ leBytes k (n / 256 ^ j) := by
  induction j generalizing n with
  | zero => simp [leBytes]
  | succ j ih =>
    rw [Nat.add_right_comm, leBytes, leBytes, ih, List.cons_append, Nat.div_div_eq_div_mul,
      Nat.pow_succ']

theorem leBytes_mod (k n : Nat) : leBytes k (n % 256 ^ k) = leBytes k n := by
  rw [← leNat_leBytes k n]
  have h := leBytes_leNat (leBytes k n)
  rwa [length_leBytes] at h

/-- The number of bits as two words. -/
theorem leBytes_bits {n : Nat} {low high : UInt32} (hl : low.toNat = 8 * n % 2 ^ 32)
    (hh : high.toNat = 8 * n / 2 ^ 32 % 2 ^ 32) :
    leBytes 4 low.toNat ++ leBytes 4 high.toNat = leBytes 8 (8 * n) := by
  rw [hl, hh, leBytes_add 4 4]
  exact congrArg₂ _ (leBytes_mod 4 _) (leBytes_mod 4 _)

/-- The bytes that wait stand at the front of the buffer of a block. -/
structure Waiting (x : Md5.State × Bytes) (message : Bytes) (chain : Md5.State) (buffer : Bytes) :
    Prop where
  fed : x = md5Feed message
  chain : chain = x.1
  buffer : ∃ rest, buffer = x.2 ++ rest ∧ x.2.length + rest.length = 64

section
variable {x : Md5.State × Bytes} {message : Bytes} {chain : Md5.State} {buffer : Bytes}

theorem Waiting.length (h : Waiting x message chain buffer) : x.2.length = message.length % 64 := by
  rw [h.fed, feed_waiting (by decide)]
  exact congrArg (· % 64) (Nat.zero_add _)

end

theorem waiting_nil : Waiting (Md5.init, []) [] Md5.init (List.replicate 64 0) :=
  ⟨rfl, rfl, List.replicate 64 0, rfl, by rw [List.length_replicate]; rfl⟩

namespace Rsa

/-! ## The reference code -/

structure Rep (ctx : Ctx) (message : Bytes) : Prop where
  waiting : Waiting (md5Feed message) message ctx.buf ctx.inBytes
  low : ctx.i0.toNat = 8 * message.length % 2 ^ 32
  high : ctx.i1.toNat = 8 * message.length / 2 ^ 32 % 2 ^ 32

section
variable {ctx : Ctx} {message : Bytes}

theorem rep_init : Rep init [] := ⟨waiting_nil, rfl, rfl⟩

theorem Rep.mdi (h : Rep ctx message) : ctx.mdi = (md5Feed message).2.length := by
  have hshift : (ctx.i0 >>> 3).toNat = ctx.i0.toNat / 8 := by
    rw [UInt32.toNat_shiftRight]
    exact Nat.shiftRight_eq_div_pow _ 3
  rw [h.waiting.length, Ctx.mdi, toNat_low6, hshift, h.low]
  omega

/-- The loop feeds byte by byte. -/
theorem put_feedByte {x : Md5.State × Bytes} {chain : Md5.State} {buffer rest : Bytes}
    (hc : chain = x.1) (hb : buffer = x.2 ++ rest) (hl : x.2.length + rest.length = 64)
    (hx : x.2.length < 64) (b : UInt8) :
    ∃ rest', put (x.2.length, chain, buffer) b =
        ((feedByte Md5.compress 64 x b).2.length, (feedByte Md5.compress 64 x b).1,
          (feedByte Md5.compress 64 x b).2 ++ rest') ∧
      (feedByte Md5.compress 64 x b).2.length + rest'.length = 64 := by
  subst hc hb
  obtain ⟨r, rest, rfl⟩ := List.exists_cons_of_length_pos (l := rest) (by omega)
  have hset : (x.2 ++ r :: rest).set x.2.length b = x.2 ++ [b] ++ rest := by
    rw [List.set_append_right _ _ (Nat.le_refl _), Nat.sub_self, List.set_cons_zero,
      List.append_assoc, List.singleton_append]
  rw [List.length_cons] at hl
  by_cases hfull : x.2.length + 1 = 64
  · obtain rfl : rest = [] := List.length_eq_zero_iff.mp (by omega)
    have hfeed : feedByte Md5.compress 64 x b = (Md5.compress x.1 (x.2 ++ [b]), []) := if_pos hfull
    refine ⟨x.2 ++ [b], ?_, ?_⟩
    · rw [hfeed, put]
      dsimp only
      rw [if_pos hfull, hset, List.append_nil, List.nil_append]
      rfl
    · rw [hfeed, List.length_append]
      simpa using hfull
  · have hfeed : feedByte Md5.compress 64 x b = (x.1, x.2 ++ [b]) := if_neg hfull
    refine ⟨rest, ?_, ?_⟩
    · rw [hfeed, put]
      dsimp only
      rw [if_neg hfull, hset, List.length_append, List.length_singleton]
    · rw [hfeed, List.length_append, List.length_singleton]
      omega

theorem foldl_put {x : Md5.State × Bytes} {rest : Bytes} (hl : x.2.length + rest.length = 64)
    (hx : x.2.length < 64) (data : Bytes) :
    ∃ rest', data.foldl put (x.2.length, x.1, x.2 ++ rest) =
        ((feed Md5.compress 64 x data).2.length, (feed Md5.compress 64 x data).1,
          (feed Md5.compress 64 x data).2 ++ rest') ∧
      (feed Md5.compress 64 x data).2.length + rest'.length = 64 := by
  induction data generalizing x rest with
  | nil => exact ⟨rest, rfl, hl⟩
  | cons b data ih =>
    obtain ⟨rest₁, hput, hl₁⟩ := put_feedByte rfl rfl hl hx b
    have hlt : (feedByte Md5.compress 64 x b).2.length < 64 := by
      have hwait : (feed Md5.compress 64 x [b]).2.length = _ := feed_waiting hx
      rw [feed, List.foldl_cons, List.foldl_nil] at hwait
      rw [hwait]
      exact Nat.mod_lt _ (by decide)
    obtain ⟨rest₂, hfold, hl₂⟩ := ih hl₁ hlt
    exact ⟨rest₂, by rw [List.foldl_cons, hput, hfold]; rfl, hl₂⟩

/-- The count of bits with its carry. -/
theorem bits_add {i0 i1 inLen : UInt32} {m n : Nat} (hl : i0.toNat = 8 * m % 2 ^ 32)
    (hh : i1.toNat = 8 * m / 2 ^ 32 % 2 ^ 32) (hn : inLen.toNat = n) :
    (i0 + (inLen <<< 3)).toNat = 8 * (m + n) % 2 ^ 32 ∧
      ((if i0 + (inLen <<< 3) < i0 then i1 + 1 else i1) + (inLen >>> 29)).toNat =
        8 * (m + n) / 2 ^ 32 % 2 ^ 32 := by
  have hlt := inLen.toNat_lt
  have hshl : (inLen <<< 3).toNat = 8 * n % 2 ^ 32 := by
    rw [UInt32.toNat_shiftLeft, hn]
    show n <<< 3 % 2 ^ 32 = _
    rw [Nat.shiftLeft_eq, Nat.mul_comm]
  have hshr : (inLen >>> 29).toNat = n / 2 ^ 29 := by
    rw [UInt32.toNat_shiftRight, hn]
    exact Nat.shiftRight_eq_div_pow _ 29
  have hsum : (i0 + (inLen <<< 3)).toNat = 8 * (m + n) % 2 ^ 32 := by
    rw [UInt32.toNat_add, hl, hshl]
    omega
  refine ⟨hsum, ?_⟩
  rw [UInt32.toNat_add, hshr]
  split
  · rename_i hlt
    rw [UInt32.lt_iff_toNat_lt, hsum, hl] at hlt
    rw [UInt32.toNat_add, hh, show (1 : UInt32).toNat = 1 from rfl]
    omega
  · rename_i hlt
    rw [UInt32.lt_iff_toNat_lt, hsum, hl] at hlt
    rw [hh]
    omega

theorem Rep.update (h : Rep ctx message) {data : Bytes} (hd : data.length < 2 ^ 32) :
    Rep (update ctx data) (message ++ data) := by
  have hn : (UInt32.ofNat data.length).toNat = data.length := UInt32.toNat_ofNat_of_lt' hd
  obtain ⟨hlow, hhigh⟩ := bits_add h.low h.high hn
  obtain ⟨rest, hrest, hlen⟩ := h.waiting.buffer
  have hx : (md5Feed message).2.length < 64 := by
    rw [h.waiting.length]
    exact Nat.mod_lt _ (by decide)
  obtain ⟨rest', hfold, hlen'⟩ := foldl_put hlen hx data
  rw [← feed_append] at hfold hlen'
  have hloop : (data.take (UInt32.ofNat data.length).toNat).foldl put
      (ctx.mdi, ctx.buf, ctx.inBytes) = ((md5Feed (message ++ data)).2.length,
        (md5Feed (message ++ data)).1, (md5Feed (message ++ data)).2 ++ rest') := by
    rw [hn, List.take_length, h.mdi, h.waiting.chain, hrest, hfold]
  refine ⟨⟨rfl, ?_, rest', ?_, hlen'⟩, ?_, ?_⟩
  · rw [Rsa.update, hloop]
  · rw [Rsa.update, hloop]
  · rw [List.length_append]
    exact hlow
  · rw [List.length_append]
    exact hhigh

/-- A word of a block is made of its own four bytes. -/
theorem word_congr {a b : Bytes} {i : Nat} (h : load a (4 * i) 4 = load b (4 * i) 4) :
    Md5.word a i = Md5.word b i := by
  rw [Md5.word, Md5.word, h]

theorem word_at {p bs rest : Bytes} {i : Nat} {x : UInt32} (hp : p.length = 4 * i)
    (hb : bs = leBytes 4 x.toNat) : Md5.word (p ++ (bs ++ rest)) i = x := by
  have hlen : bs.length = 4 := by rw [hb, length_leBytes]
  rw [Md5.word, load_append_right hp, List.take_left' hlen, hb, leNat_leBytes,
    Nat.mod_eq_of_lt (by exact x.toNat_lt), UInt32.ofNat_toNat]

/-- The last block as words. -/
theorem lastWords_eq {bs rest : Bytes} (hlen : bs.length = 56) (hrest : rest.length = 8) :
    lastWords ctx (bs ++ rest) =
      Md5.word (bs ++ (leBytes 4 ctx.i0.toNat ++ leBytes 4 ctx.i1.toNat)) := by
  funext i
  rw [lastWords]
  by_cases h14 : i = 14
  · rw [if_pos h14, word_at (by omega) rfl]
  · rw [if_neg h14]
    by_cases h15 : i = 15
    · have hp : (bs ++ leBytes 4 ctx.i0.toNat).length = 4 * i := by
        rw [List.length_append, length_leBytes]
        omega
      rw [if_pos h15, ← List.append_assoc, ← List.append_nil (leBytes 4 ctx.i1.toNat),
        word_at hp rfl]
    · rw [if_neg h15]
      apply word_congr
      rcases Nat.lt_or_gt_of_ne h14 with hlt | hgt
      · rw [load, load, List.drop_append_of_le_length (by omega),
          List.drop_append_of_le_length (by omega), List.take_append_of_le_length (by simp; omega),
          List.take_append_of_le_length (by simp; omega)]
      · rw [load, load, List.drop_eq_nil_of_le (by simp; omega),
          List.drop_eq_nil_of_le (by simp; omega)]

/-- The reference code makes the digest. -/
theorem Rep.final (h : Rep ctx message) : final ctx = Md5.digest message := by
  have hmdi : ctx.mdi = message.length % 64 := h.mdi.trans h.waiting.length
  have hlt : message.length % 64 < 64 := Nat.mod_lt _ (by decide)
  generalize hpad : (if ctx.mdi < 56 then 56 - ctx.mdi else 120 - ctx.mdi) = padLen
  have hzeros : padLen = (119 - message.length % 64) % 64 + 1 := by
    rw [← hpad, hmdi]
    split <;> omega
  have htake : paddingBytes.take padLen =
      0x80 :: List.replicate ((119 - message.length % 64) % 64) 0 := by
    rw [hzeros, paddingBytes, List.take_succ_cons, List.take_replicate, Nat.min_eq_left (by omega)]
  have hrep : Rep (Rsa.update ctx (paddingBytes.take padLen))
      (message ++ paddingBytes.take padLen) := h.update (by rw [htake]; simp; omega)
  have hwait : (md5Feed (message ++ paddingBytes.take padLen)).2.length = 56 := by
    rw [hrep.waiting.length, htake, List.length_append, List.length_cons, List.length_replicate]
    omega
  obtain ⟨rest, hin, hlen⟩ := hrep.waiting.buffer
  have hfill : md5Feed (message ++ Md5.padding message.length) =
      (Md5.compress (md5Feed (message ++ paddingBytes.take padLen)).1
        ((md5Feed (message ++ paddingBytes.take padLen)).2 ++
          (leBytes 4 ctx.i0.toNat ++ leBytes 4 ctx.i1.toNat)), []) := by
    rw [leBytes_bits h.low h.high, Md5.padding, ← htake, ← List.append_assoc, md5Feed, feed_append]
    refine feed_fill (List.ne_nil_of_length_pos ?_) ?_
    · rw [length_leBytes]
      decide
    · rw [hwait, length_leBytes]
  rw [Rsa.final, hpad, hrep.waiting.chain, hin, lastWords_eq hwait (by omega)]
  exact (congrArg (fun x => x.1.bytes) hfill).symm

end

end Rsa

namespace Openwall

/-! ## The code of firmware-utils -/

theorem F_eq : F = Md5.F := by
  funext x y z
  apply UInt32.toBitVec_inj.mp
  ext i hi
  simp only [F, Md5.F, UInt32.toBitVec_xor, UInt32.toBitVec_and, UInt32.toBitVec_or,
    UInt32.toBitVec_not, BitVec.getElem_xor, BitVec.getElem_and, BitVec.getElem_or,
    BitVec.getElem_not]
  cases x.toBitVec[i] <;> cases y.toBitVec[i] <;> cases z.toBitVec[i] <;> rfl

theorem G_eq : G = Md5.G := by
  funext x y z
  apply UInt32.toBitVec_inj.mp
  ext i hi
  simp only [G, Md5.G, UInt32.toBitVec_xor, UInt32.toBitVec_and, UInt32.toBitVec_or,
    UInt32.toBitVec_not, BitVec.getElem_xor, BitVec.getElem_and, BitVec.getElem_or,
    BitVec.getElem_not]
  cases x.toBitVec[i] <;> cases y.toBitVec[i] <;> cases z.toBitVec[i] <;> rfl

theorem H2_eq : H2 = H := by
  funext x y z
  exact (UInt32.xor_assoc x y z).symm

theorem foldl_zipIdx {α β : Type} {f : β → α → β} {g : β → α × Nat → β}
    (h : ∀ b a i, g b (a, i) = f b a) (l : List α) (n : Nat) (b : β) :
    (l.zipIdx n).foldl g b = l.foldl f b := by
  induction l generalizing n b with
  | nil => rfl
  | cons a l ih => rw [List.zipIdx_cons, List.foldl_cons, List.foldl_cons, h, ih]

theorem add_comm (s t : Md5.State) : s.add t = t.add s := by
  simp only [Md5.State.add, UInt32.add_comm]

/-- A round of `body` is the transformation of the reference code. -/
theorem block_eq : block = Md5.compress := by
  funext s ptr
  have hH (x : Nat → UInt32) (t : Md5.State) (k : Md5.Step) (i : Nat) :
      Md5.step (if i % 2 = 0 then H else H2) x t k = Md5.step Md5.H x t k := by
    rw [H2_eq, ite_self]
    rfl
  rw [block, foldl_zipIdx (f := Md5.step Md5.H (Md5.word ptr)) fun t k i => hH _ t k i, F_eq, G_eq,
    add_comm]
  rfl

structure Rep (ctx : Ctx) (message : Bytes) : Prop where
  waiting : Waiting (md5Feed message) message ctx.abcd ctx.buffer
  low : ctx.lo.toNat = message.length % 2 ^ 29
  high : ctx.hi.toNat = message.length / 2 ^ 29 % 2 ^ 32

section
variable {ctx : Ctx} {message : Bytes}

theorem rep_init : Rep init [] := ⟨waiting_nil, rfl, rfl⟩

theorem Rep.used (h : Rep ctx message) : (ctx.lo &&& 0x3f).toNat = (md5Feed message).2.length := by
  rw [h.waiting.length, toNat_low6, h.low]
  omega

theorem body_block {s : Md5.State} {ptr : Bytes} (h : ptr.length = 64) :
    body s ptr 64 = Md5.compress s ptr := by
  rw [body, block_eq, show 64 / 64 = 1 from rfl, blocks, blocks, List.take_of_length_le (by omega)]

/-- No bytes wait, and whole blocks are taken at once. -/
theorem waiting_updateBlocks {lo hi : UInt32} {buffer : Bytes} {s : Md5.State}
    (hfed : md5Feed message = (s, [])) (hb : buffer.length = 64) (data : Bytes) :
    Waiting (md5Feed (message ++ data)) (message ++ data) (updateBlocks ⟨lo, hi, s, buffer⟩ data).abcd
      (updateBlocks ⟨lo, hi, s, buffer⟩ data).buffer := by
  have hfront {bs : Bytes} (h : bs.length < 64) :
      ∃ rest, poke buffer 0 bs = bs ++ rest ∧ bs.length + rest.length = 64 := by
    refine ⟨buffer.drop bs.length, ?_, by rw [List.length_drop]; omega⟩
    exact poke_append (p := []) rfl (by omega)
  have hfeed : md5Feed (message ++ data) = feed Md5.compress 64 (s, []) data := by
    rw [md5Feed, feed_append, ← md5Feed, hfed]
  by_cases hlong : 64 ≤ data.length
  · have hsplit := List.take_append_drop (data.length / 64 * 64) data
    have htake : (data.take (data.length / 64 * 64)).length = data.length / 64 * 64 :=
      List.length_take_of_le (Nat.div_mul_le_self _ _)
    have hshort : (data.drop (data.length / 64 * 64)).length < 64 := by
      rw [List.length_drop]
      omega
    have hall : md5Feed (message ++ data) =
        (body s data (data.length / 64 * 64), data.drop (data.length / 64 * 64)) := by
      rw [hfeed]
      conv_lhs => rw [← hsplit]
      rw [feed_append, feed_blocks (by decide) htake, feed_short (by simpa using hshort),
        List.nil_append, body, Nat.mul_div_cancel _ (by decide), block_eq, blocks_take]
    rw [updateBlocks, if_pos hlong]
    exact ⟨rfl, by rw [hall], by rw [hall]; exact hfront hshort⟩
  · have hall : md5Feed (message ++ data) = (s, data) := by
      rw [hfeed, feed_short (by rw [List.length_nil]; omega), List.nil_append]
    rw [updateBlocks, if_neg hlong]
    exact ⟨rfl, by rw [hall], by rw [hall]; exact hfront (by omega)⟩

/-- The count of bytes with its carry. -/
theorem bytes_add {lo hi : UInt32} {m : Nat} (hl : lo.toNat = m % 2 ^ 29)
    (hh : hi.toNat = m / 2 ^ 29 % 2 ^ 32) (n : Nat) :
    (UInt32.ofNat ((lo.toNat + n) % 2 ^ 29)).toNat = (m + n) % 2 ^ 29 ∧
      ((if UInt32.ofNat ((lo.toNat + n) % 2 ^ 29) < lo then hi + 1 else hi) +
        UInt32.ofNat (n / 2 ^ 29)).toNat = (m + n) / 2 ^ 29 % 2 ^ 32 := by
  have hsum : (UInt32.ofNat ((lo.toNat + n) % 2 ^ 29)).toNat = (m + n) % 2 ^ 29 := by
    rw [UInt32.toNat_ofNat_of_lt' (by simp only [UInt32.size]; omega), hl]
    omega
  refine ⟨hsum, ?_⟩
  rw [UInt32.toNat_add, UInt32.toNat_ofNat']
  split
  · rename_i hlt
    rw [UInt32.lt_iff_toNat_lt, hsum, hl] at hlt
    rw [UInt32.toNat_add, hh, show (1 : UInt32).toNat = 1 from rfl]
    omega
  · rename_i hlt
    rw [UInt32.lt_iff_toNat_lt, hsum, hl] at hlt
    rw [hh]
    omega

/-- Past the counters, the pieces of a message go where the bytes one by one would. -/
theorem Rep.waiting_update (h : Rep ctx message) (data : Bytes) :
    Waiting (md5Feed (message ++ data)) (message ++ data) (update ctx data).abcd
      (update ctx data).buffer := by
  obtain ⟨rest, hb, hlen⟩ := h.waiting.buffer
  have hused := h.used
  have hlt : (md5Feed message).2.length < 64 := by
    rw [h.waiting.length]
    exact Nat.mod_lt _ (by decide)
  unfold update
  dsimp only
  rw [hused]
  by_cases h0 : (md5Feed message).2.length = 0
  · have hnil := List.length_eq_zero_iff.mp h0
    rw [if_neg (not_not.mpr h0)]
    refine waiting_updateBlocks (Prod.ext h.waiting.chain.symm hnil) ?_ data
    rw [hb, List.length_append, hlen]
  · rw [if_pos h0]
    by_cases hshort : data.length < 64 - (md5Feed message).2.length
    · have hall : md5Feed (message ++ data) = ((md5Feed message).1, (md5Feed message).2 ++ data) := by
        rw [md5Feed, feed_append, ← md5Feed, feed_short (by omega)]
      rw [if_pos hshort]
      refine ⟨rfl, by rw [hall]; exact h.waiting.chain, rest.drop data.length, ?_, ?_⟩
      · rw [hall, hb, poke_append rfl (by omega), List.append_assoc]
      · rw [hall, List.length_append, List.length_drop]
        omega
    · rw [if_neg hshort]
      have htake : (data.take (64 - (md5Feed message).2.length)).length = rest.length := by
        rw [List.length_take]
        omega
      have hbuf : poke ctx.buffer (md5Feed message).2.length
          (data.take (64 - (md5Feed message).2.length)) =
            (md5Feed message).2 ++ data.take (64 - (md5Feed message).2.length) := by
        rw [hb, poke_append rfl (by omega), htake, List.drop_length, List.append_nil]
      have hfull : ((md5Feed message).2 ++
          data.take (64 - (md5Feed message).2.length)).length = 64 := by
        rw [List.length_append]
        omega
      rw [hbuf, body_block hfull, h.waiting.chain]
      have hfed : md5Feed (message ++ data.take (64 - (md5Feed message).2.length)) =
          (Md5.compress (md5Feed message).1 ((md5Feed message).2 ++
            data.take (64 - (md5Feed message).2.length)), []) := by
        rw [md5Feed, feed_append, ← md5Feed]
        exact feed_fill (List.ne_nil_of_length_pos (by rw [htake]; omega)) (by rw [htake]; omega)
      have hjoin : message ++ data = message ++ data.take (64 - (md5Feed message).2.length) ++
          data.drop (64 - (md5Feed message).2.length) := by
        rw [List.append_assoc, List.take_append_drop]
      rw [hjoin]
      exact waiting_updateBlocks hfed hfull _

theorem Rep.update (h : Rep ctx message) (data : Bytes) : Rep (update ctx data) (message ++ data) := by
  obtain ⟨hlo, hhi⟩ := bytes_add h.low h.high data.length
  have hcount : (Openwall.update ctx data).lo =
        UInt32.ofNat ((ctx.lo.toNat + data.length) % 2 ^ 29) ∧
      (Openwall.update ctx data).hi =
        (if UInt32.ofNat ((ctx.lo.toNat + data.length) % 2 ^ 29) < ctx.lo then ctx.hi + 1
          else ctx.hi) + UInt32.ofNat (data.length / 2 ^ 29) := by
    unfold Openwall.update updateBlocks
    dsimp only
    split
    · split
      · exact ⟨rfl, rfl⟩
      · split <;> exact ⟨rfl, rfl⟩
    · split <;> exact ⟨rfl, rfl⟩
  refine ⟨h.waiting_update data, ?_, ?_⟩
  · rw [hcount.1, List.length_append, hlo]
  · rw [hcount.2, List.length_append, hhi]

/-- The last bytes of the padding go behind what fills up the buffer. -/
theorem poke_bits {bs rest bits : Bytes} (hb : bs.length = 56) (hrest : rest.length = 8)
    (hbits : bits.length = 8) : poke (bs ++ rest) 56 bits = bs ++ bits := by
  rw [poke_append hb (by omega), hbits, ← hrest, List.drop_length, List.append_nil]

/-- The code of firmware-utils makes the digest. -/
theorem Rep.final (h : Rep ctx message) : final ctx = Md5.digest message := by
  obtain ⟨rest, hb, hlen⟩ := h.waiting.buffer
  have hused := h.used
  have hwait := h.waiting.length
  have hlow : (ctx.lo <<< 3).toNat = 8 * message.length % 2 ^ 32 := by
    rw [UInt32.toNat_shiftLeft, h.low]
    show (message.length % 2 ^ 29) <<< 3 % 2 ^ 32 = _
    rw [Nat.shiftLeft_eq]
    omega
  have hhigh : ctx.hi.toNat = 8 * message.length / 2 ^ 32 % 2 ^ 32 := by
    rw [h.high]
    omega
  have hbits := leBytes_bits hlow hhigh
  have hlbits : (leBytes 8 (8 * message.length)).length = 8 := length_leBytes _ _
  have hchain := h.waiting.chain
  generalize hx : md5Feed message = x at *
  have hlt : message.length % 64 < 64 := Nat.mod_lt _ (by decide)
  obtain ⟨r, rest, rfl⟩ := List.exists_cons_of_length_pos (l := rest) (by omega)
  rw [List.length_cons] at hlen
  have hset : ctx.buffer.set x.2.length 0x80 = x.2 ++ [0x80] ++ rest := by
    rw [hb, List.set_append_right _ _ (Nat.le_refl _), Nat.sub_self, List.set_cons_zero,
      List.append_assoc, List.singleton_append]
  have hmark : (x.2 ++ [(0x80 : UInt8)]).length = x.2.length + 1 := by
    rw [List.length_append, List.length_singleton]
  have hdigest : Md5.digest message =
      (feed Md5.compress 64 x (Md5.padding message.length)).1.bytes := by
    rw [Md5.digest, feed_append, ← hx]
  rw [hdigest]
  unfold Openwall.final
  dsimp only
  rw [hused, hset, hbits]
  by_cases hroom : 64 - (x.2.length + 1) < 8
  · have hpad : Md5.padding message.length =
        ([0x80] ++ List.replicate (64 - (x.2.length + 1)) 0) ++
          (List.replicate 56 0 ++ leBytes 8 (8 * message.length)) := by
      have hzeros : (119 - message.length % 64) % 64 = 64 - (x.2.length + 1) + 56 := by omega
      rw [Md5.padding, hzeros, ← List.replicate_append_replicate, List.append_assoc,
        List.cons_append, List.cons_append, List.append_assoc]
      rfl
    have hone : (x.2 ++ ([(0x80 : UInt8)] ++ List.replicate (64 - (x.2.length + 1)) 0)).length = 64 := by
      simp only [List.length_append, List.length_singleton, List.length_replicate]
      omega
    have htwo : (List.replicate 56 0 ++ leBytes 8 (8 * message.length)).length = 64 := by
      rw [List.length_append, List.length_replicate, hlbits]
    have hfirst : poke (x.2 ++ [0x80] ++ rest) (x.2.length + 1)
        (List.replicate (64 - (x.2.length + 1)) 0) =
          x.2 ++ ([0x80] ++ List.replicate (64 - (x.2.length + 1)) 0) := by
      rw [poke_append hmark (by rw [List.length_replicate]; omega), List.length_replicate,
        List.drop_eq_nil_of_le (by omega), List.append_nil, List.append_assoc]
    have hclear {b : Bytes} (hb : b.length = 64) :
        poke (poke b 0 (List.replicate 56 0)) 56 (leBytes 8 (8 * message.length)) =
          List.replicate 56 0 ++ leBytes 8 (8 * message.length) := by
      have hzero : poke b 0 (List.replicate 56 0) = List.replicate 56 0 ++ b.drop 56 :=
        poke_append (p := []) rfl (by rw [List.length_replicate]; omega)
      rw [hzero, poke_bits List.length_replicate (by rw [List.length_drop]; omega) hlbits]
    have hfill : feed Md5.compress 64 x
        ([0x80] ++ List.replicate (64 - (x.2.length + 1)) 0) =
          (Md5.compress x.1 (x.2 ++ ([0x80] ++ List.replicate (64 - (x.2.length + 1)) 0)), []) :=
      feed_fill (by simp) (by rwa [List.length_append] at hone)
    rw [if_pos hroom]
    dsimp only
    rw [hfirst, body_block hone, hclear hone, body_block htwo, hpad, feed_append, hfill,
      feed_block (by decide) htwo, hchain]
  · have hpad : Md5.padding message.length =
        [0x80] ++ List.replicate (64 - (x.2.length + 1) - 8) 0 ++
          leBytes 8 (8 * message.length) := by
      have hzeros : (119 - message.length % 64) % 64 = 64 - (x.2.length + 1) - 8 := by omega
      rw [Md5.padding, hzeros]
      rfl
    have hfront : (x.2 ++ [0x80] ++ List.replicate (64 - (x.2.length + 1) - 8) (0 : UInt8)).length =
        56 := by
      rw [List.length_append, hmark, List.length_replicate]
      omega
    have hall : (x.2 ++ [0x80] ++ List.replicate (64 - (x.2.length + 1) - 8) 0 ++
        leBytes 8 (8 * message.length)).length = 64 := by
      rw [List.length_append, hfront, hlbits]
    have hassoc : x.2 ++ [0x80] ++ List.replicate (64 - (x.2.length + 1) - 8) 0 ++
        leBytes 8 (8 * message.length) = x.2 ++ Md5.padding message.length := by
      rw [hpad]
      simp only [List.append_assoc]
    have hfill : feed Md5.compress 64 x (Md5.padding message.length) =
        (Md5.compress x.1 (x.2 ++ Md5.padding message.length), []) := by
      rw [hassoc] at hall
      exact feed_fill (List.cons_ne_nil _ _) (by rwa [List.length_append] at hall)
    rw [if_neg hroom]
    dsimp only
    rw [poke_append hmark (by rw [List.length_replicate]; omega), ← List.append_assoc,
      poke_bits hfront (by rw [List.length_drop, List.length_replicate]; omega) hlbits,
      body_block hall, hassoc, hfill, hchain]

end

end Openwall

example : Openwall.final (Openwall.update Openwall.init [0x61]) =
    Rsa.final (Rsa.update Rsa.init [0x61]) := by decide +kernel

end UolaOs.Seama
