import Mathlib.Logic.Function.Basic
import UolaOs.Lib.Bytes
import UolaOs.Lib.Lz77

/-!
# LZNT1

`compress_lznt` and `decompress_lznt` of lznt.c. A pointer is an offset in the buffer that it
points to. The control byte of a group of eight is written when the group ends: `front` is what
lies before that byte, `group` what lies behind it.
-/

namespace UolaOs.Ntfs3

/-- `LZNT_CHUNK_SIZE` -/
def lzntChunkSize : Nat := 0x1000

/-- `s_max_len` -/
def sMaxLen : List Nat := [0x1002, 0x802, 0x402, 0x202, 0x102, 0x82, 0x42, 0x22, 0x12]

/-- `s_max_off` -/
def sMaxOff : List Nat := [0x10, 0x20, 0x40, 0x80, 0x100, 0x200, 0x400, 0x800, 0x1000]

/-- `while (unc + s_max_off[index] < up) index += 1`, none where it leaves the table. -/
def correctIndex (up : Nat) : Nat → Nat → Option Nat
  | 0, _ => none
  | fuel + 1, index =>
    match sMaxOff[index]? with
    | none => none
    | some off => if off < up then correctIndex up fuel (index + 1) else some index

/-- `make_pair` -/
def makePair (offset len index : Nat) : Nat :=
  (((offset - 1) <<< (12 - index)) ||| ((len - 3) &&& ((1 <<< (12 - index)) - 1))) % 2 ^ 16

/-- `parse_pair`: the offset and the length. -/
def parsePair (pair index : Nat) : Nat × Nat :=
  (1 + pair >>> (12 - index), 3 + (pair &&& ((1 <<< (12 - index)) - 1)))

/-! ## Matches -/

/-- `struct lznt_hash` -/
structure LzntHash where
  p1 : Option Nat
  p2 : Option Nat

/-- `struct lznt`, less `std`. -/
structure Lznt where
  unc : Nat
  uncEnd : Nat
  bestMatch : Option Nat
  maxLen : Nat
  hash : Nat → LzntHash

/-- The loop of `get_match_len`. It ends before `fuel` does when that is at least `stop - ptr`. -/
def matchRounds (m : Bytes) (ptr stop prev maxLen : Nat) : Nat → Nat → Nat
  | 0, len => len
  | fuel + 1, len =>
    if ptr + len < stop ∧ m.getD (ptr + len) 0 = m.getD (prev + len) 0 then
      if len + 1 < maxLen then matchRounds m ptr stop prev maxLen fuel (len + 1) else len + 1
    else len

/-- `get_match_len` -/
def getMatchLen (m : Bytes) (ptr stop prev maxLen : Nat) : Nat :=
  matchRounds m ptr stop prev maxLen (stop - ptr) 0

/-- The index in the hash table. -/
def hashIndex (m : Bytes) (src : Nat) : Nat :=
  let b (i : Nat) : UInt32 := (m.getD (src + i) 0).toUInt32
  ((((40543 : UInt32) * ((((b 0 <<< 4) ^^^ b 1) <<< 4) ^^^ b 2)) >>> 4) &&& 0xfff).toNat

/-- The length of a match at one of the two pointers of a hash. -/
def candidate (m : Bytes) (src : Nat) (ctx : Lznt) : Option Nat → Nat
  | none => 0
  | some p =>
    if ctx.unc ≤ p ∧ p < src ∧ m.getD p 0 = m.getD src 0 ∧
        m.getD (p + 1) 0 = m.getD (src + 1) 0 ∧ m.getD (p + 2) 0 = m.getD (src + 2) 0 then
      3 + (if 3 < ctx.maxLen then getMatchLen m (src + 3) ctx.uncEnd (p + 3) (ctx.maxLen - 3) else 0)
    else 0

/-- `longest_match_std` -/
def longestMatchStd (m : Bytes) (src : Nat) (ctx : Lznt) : Nat × Lznt :=
  let i := hashIndex m src
  let len1 := candidate m src ctx (ctx.hash i).p1
  let len2 := candidate m src ctx (ctx.hash i).p2
  (if len1 < len2 then len2 else len1,
    { ctx with
      bestMatch := if len1 < len2 then (ctx.hash i).p2 else (ctx.hash i).p1
      hash := Function.update ctx.hash i ⟨some src, (ctx.hash i).p1⟩ })

/-- A round of the loop of `longest_match_best`. -/
def bestRound (m : Bytes) (src : Nat) (s : Nat × Lznt) (ptr : Nat) : Nat × Lznt :=
  let len := getMatchLen m src s.2.uncEnd ptr s.2.maxLen
  if s.1 ≤ len then (len, { s.2 with bestMatch := some ptr }) else s

/-- `longest_match_best` -/
def longestMatchBest (m : Bytes) (src : Nat) (ctx : Lznt) : Nat × Lznt :=
  if src ≤ ctx.unc ∨ ctx.maxLen = 0 then (0, ctx)
  else
    let s := (List.range' ctx.unc (src - ctx.unc)).foldl (bestRound m src) (0, ctx)
    (if 3 ≤ s.1 then s.1 else 0, s.2)

/-- The function that `match` points to. -/
def longestMatch (std : Bool) : Bytes → Nat → Lznt → Nat × Lznt :=
  if std then longestMatchStd else longestMatchBest

/-! ## Compression -/

/-- The variables of `compress_chunk`. -/
structure Coder where
  ctx : Lznt
  cnt : Nat
  idx : Nat
  up : Nat
  front : Bytes
  group : Bytes
  ohdr : UInt8
  notZero : UInt8

namespace Coder

/-- `cp2 - cmpr` -/
def cp2 (s : Coder) : Nat := 2 + s.front.length

/-- `cp - cmpr` -/
def cp (s : Coder) : Nat := s.cp2 + 1 + s.group.length

/-- `cnt = (cnt + 1) & 7`, and what follows it. -/
def count (s : Coder) : Coder :=
  let cnt := (s.cnt + 1) &&& 7
  if cnt = 0 then
    { s with cnt := cnt, front := s.front ++ s.ohdr :: s.group, group := [], ohdr := 0 }
  else { s with cnt := cnt }

/-- A byte as it is. -/
def literal (s : Coder) (b : UInt8) : Coder :=
  { s with group := s.group ++ [b], notZero := s.notZero ||| b, up := s.up + 1 }

/-- A short pair. -/
def pair (s : Coder) (maxLen : Nat) : Coder :=
  { s with
    group := s.group ++ Endian.little.put 2 (makePair (s.up - s.ctx.bestMatch.getD 0) maxLen s.idx)
    ohdr := s.ohdr ||| UInt8.ofNat (1 <<< s.cnt)
    up := s.up + maxLen }

end Coder

/-- Why the loop of `compress_chunk` is left. -/
inductive Stop where
  | notCompressed (ctx : Lznt)
  /-- An index behind the end of a table. -/
  | fault

/-- A round of the loop of `compress_chunk`. -/
def compressRound (std : Bool) (m : Bytes) (last : Nat) (s : Coder) : Except Stop Coder :=
  match correctIndex (s.up - s.ctx.unc) 10 s.idx with
  | none => .error .fault
  | some idx =>
    let ctx := if idx = s.idx then s.ctx else { s.ctx with maxLen := sMaxLen.getD idx 0 }
    let r := if s.up + 3 ≤ ctx.uncEnd then longestMatch std m s.up ctx else (0, ctx)
    let s := { s with ctx := r.2, idx := idx }
    if r.1 = 0 then
      if last ≤ s.cp then .error (.notCompressed s.ctx)
      else .ok (s.literal (m.getD s.up 0)).count
    else if last ≤ s.cp + 1 then .error (.notCompressed s.ctx)
    else .ok (s.pair r.1).count

/-- The loop of `compress_chunk`. There are no more rounds than bytes. -/
def compressRounds (std : Bool) (m : Bytes) (last : Nat) : Nat → Coder → Except Stop Coder
  | 0, s => .ok s
  | fuel + 1, s =>
    if s.up < s.ctx.uncEnd then
      (compressRound std m last s).bind fun s => compressRounds std m last fuel s
    else .ok s

/-- What `compress_chunk` leaves: the compressed chunk, unless it is too small, and whether the
return value is `LZNT_ERROR_ALL_ZEROS`. -/
inductive Chunk where
  | done (cmpr : Bytes) (allZeros : Bool) (ctx : Lznt)
  | tooSmall
  | fault

/-- `memcpy` from the buffer and from what lies behind it. -/
def readUnc (m : Bytes) (behind : Nat → UInt8) (p n : Nat) : Bytes :=
  (List.range n).map fun i => m.getD (p + i) (behind (p + i))

/-- `compress_chunk` from `unc` on, with `size` bytes left for it. -/
def compressChunk (std : Bool) (m : Bytes) (behind : Nat → UInt8) (unc size : Nat) (ctx : Lznt) :
    Chunk :=
  let uncEnd := if unc + lzntChunkSize < m.length then unc + lzntChunkSize else m.length
  let last := min (lzntChunkSize + 2) size
  let ctx := { ctx with unc := unc, uncEnd := uncEnd, maxLen := sMaxLen.getD 0 0 }
  match compressRounds std m last (uncEnd - unc) ⟨ctx, 0, 0, unc, [], [], 0, 0⟩ with
  | .ok s =>
    let data := s.front ++ if s.cp2 < last then s.ohdr :: s.group else s.group
    .done (Endian.little.put 2 ((data.length - 1) ||| 0xb000) ++ data) (s.notZero == 0) s.ctx
  | .error (.notCompressed ctx) =>
    if last < lzntChunkSize + 2 then .tooSmall
    else .done ([0xff, 0x3f] ++ readUnc m behind unc lzntChunkSize) false ctx
  | .error .fault => .fault

/-- What `compress_lznt` leaves: the chunks, and whether all are zero. -/
inductive Compressed where
  | done (cmpr : Bytes) (isZero : Bool)
  | tooSmall
  | fault

/-- The compression cycle, with what is in the buffer so far. -/
def compressCycle (std : Bool) (m : Bytes) (behind : Nat → UInt8) (size : Nat) :
    Nat → Nat → Bytes → Bool → Lznt → Compressed
  | 0, _, out, isZero, _ => .done out isZero
  | fuel + 1, unc, out, isZero, ctx =>
    if unc < m.length then
      match compressChunk std m behind unc (size - out.length) ctx with
      | .done cmpr allZeros ctx =>
        compressCycle std m behind size fuel (unc + lzntChunkSize) (out ++ cmpr)
          (isZero && allZeros) ctx
      | .tooSmall => .tooSmall
      | .fault => .fault
    else .done out isZero

/-- `compress_lznt` of `m` to a buffer of `size` bytes. It returns the size of `m` when that is too
small, 0 when all is zero, and else the length of what it wrote. -/
def compressLznt (std : Bool) (m : Bytes) (behind : Nat → UInt8) (size : Nat) : Compressed :=
  compressCycle std m behind size m.length 0 [] true
    ⟨0, 0, none, 0, fun _ => ⟨none, none⟩⟩

/-! ## Decompression -/

inductive Errno where
  | einval
  /-- An index behind the end of a table. -/
  | fault
  deriving DecidableEq

/-- The variables of `decompress_chunk`: what is written, and what is left to read. -/
structure Decoder where
  up : Bytes
  cmpr : Bytes
  ch : UInt8
  bit : Nat
  index : Nat

/-- A round of the loop of `decompress_chunk`, up to `next`. -/
def decompressItem (room : Nat) (s : Decoder) : Except Errno Decoder :=
  match correctIndex s.up.length 10 s.index with
  | none => .error .fault
  | some index =>
    if s.ch.toNat &&& (1 <<< s.bit) = 0 then
      .ok { s with up := s.up ++ s.cmpr.take 1, cmpr := s.cmpr.drop 1, index := index }
    else if s.cmpr.length < 2 then .error .einval
    else
      let r := parsePair (Endian.little.get (s.cmpr.take 2)) index
      if s.up.length < r.1 then .error .einval
      else
        let length := if room ≤ s.up.length + r.2 then room - s.up.length else r.2
        .ok { s with up := copyBack s.up r.1 length, cmpr := s.cmpr.drop 2, index := index }

/-- The loop of `decompress_chunk`. There are no more rounds than bytes. -/
def decompressRounds (room : Nat) : Nat → Decoder → Except Errno Bytes
  | 0, s => .ok s.up
  | fuel + 1, s =>
    if s.up.length < room ∧ s.cmpr ≠ [] then
      (decompressItem room s).bind fun s =>
        let bit := (s.bit + 1) &&& 7
        if bit = 0 then
          match s.cmpr with
          | [] => .ok s.up
          | ch :: cmpr => decompressRounds room fuel { s with cmpr := cmpr, ch := ch, bit := bit }
        else decompressRounds room fuel { s with bit := bit }
    else .ok s.up

/-- `decompress_chunk` to a buffer of `room` bytes. -/
def decompressChunk (room : Nat) (cmpr : Bytes) : Except Errno Bytes :=
  decompressRounds room cmpr.length ⟨[], cmpr.drop 1, cmpr.getD 0 0, 0, 0⟩

/-- A chunk with this header, and what is behind it. -/
def decompressPiece (uncSize : Nat) (cmpr out : Bytes) : Except Errno (Bytes × Bytes) :=
  let chunkHdr := half cmpr 0
  let cmprUse := 3 + (chunkHdr &&& 0xfff).toNat
  if cmpr.length < cmprUse then .error .einval
  else
    let piece : Except Errno Bytes :=
      if chunkHdr &&& 0x8000 ≠ 0 then
        decompressChunk (uncSize - out.length) (load cmpr 2 (cmprUse - 2))
      else
        let uncUse := if uncSize < out.length + lzntChunkSize then uncSize - out.length
          else lzntChunkSize
        if cmpr.length < 2 + uncUse then .error .einval else .ok (load cmpr 2 uncUse)
    piece.map fun piece => (piece, cmpr.drop cmprUse)

/-- The loop of `decompress_lznt`, with what is written so far. A chunk ends where the buffer does
at the latest. -/
def decompressCycle (uncSize : Nat) : Nat → Bytes → Bytes → Except Errno Bytes
  | 0, _, out => .ok out
  | fuel + 1, cmpr, out =>
    (decompressPiece uncSize cmpr out).bind fun r =>
      let next := out ++ r.1
      if uncSize ≤ next.length then .ok next
      else if r.2.length < 2 then .ok next
      else if half r.2 0 = 0 then .ok next
      else if r.1.length < lzntChunkSize then
        let t1 := lzntChunkSize - r.1.length
        if uncSize ≤ next.length + t1 then .ok next
        else decompressCycle uncSize fuel r.2 (next ++ List.replicate t1 0)
      else decompressCycle uncSize fuel r.2 next

/-- `decompress_lznt` to a buffer of `uncSize` bytes: what the number that it returns counts. -/
def decompressLznt (cmpr : Bytes) (uncSize : Nat) : Except Errno Bytes :=
  if cmpr.length < 2 then .error .einval
  else decompressCycle uncSize cmpr.length cmpr []

end UolaOs.Ntfs3
