import UolaOs.Lib.Bytes
import UolaOs.Lib.Transducer

/-!
# There and back

`pc1crypt.c`: the cipher, which mixes each byte of the text with the key, and the loop over the
file with its buffers.

* `pc1Decrypt_pc1Encrypt`: both directions come to the same state;
* `thereAndBack_iff`: the files that come back.
-/

namespace UolaOs.Pc1crypt

/-! ## The cipher -/

/-- `struct pc1_ctx` -/
structure Ctx where
  ax : UInt16
  bx : UInt16
  cx : UInt16
  dx : UInt16
  si : UInt16
  tmp : UInt16
  x1a2 : UInt16
  x1a0 : Vector UInt16 8
  res : UInt16
  i : UInt16
  inter : UInt16
  cfc : UInt16
  cfd : UInt16
  compte : UInt16
  cle : Vector UInt8 17
  deriving DecidableEq

def pc1Code (pc1 : Ctx) : Ctx :=
  let pc1 := { pc1 with dx := pc1.x1a2 + pc1.i }
  let pc1 := { pc1 with ax := pc1.x1a0.getD pc1.i.toNat 0 }
  let pc1 := { pc1 with cx := 0x015a, bx := 0x4e35 }
  -- the registers change places
  let pc1 := { pc1 with tmp := pc1.ax, ax := pc1.si, si := pc1.ax }
  let pc1 := { pc1 with tmp := pc1.ax, ax := pc1.dx, dx := pc1.ax }
  let pc1 := if pc1.ax ≠ 0 then { pc1 with ax := pc1.ax * pc1.bx } else pc1
  let pc1 := { pc1 with tmp := pc1.ax, ax := pc1.cx, cx := pc1.ax }
  let pc1 :=
    if pc1.ax ≠ 0 then { pc1 with ax := pc1.ax * pc1.si, cx := pc1.ax * pc1.si + pc1.cx } else pc1
  let pc1 := { pc1 with tmp := pc1.ax, ax := pc1.si, si := pc1.ax }
  let pc1 := { pc1 with ax := pc1.ax * pc1.bx }
  let pc1 := { pc1 with dx := pc1.cx + pc1.dx }
  let pc1 := { pc1 with ax := pc1.ax + 1 }
  let pc1 := { pc1 with x1a2 := pc1.dx, x1a0 := pc1.x1a0.setIfInBounds pc1.i.toNat pc1.ax }
  { pc1 with res := pc1.ax ^^^ pc1.dx, i := pc1.i + 1 }

/-- Two bytes of the key as a word. -/
def keyWord (pc1 : Ctx) (n : Nat) : UInt16 :=
  (pc1.cle.getD (2 * n) 0).toUInt16 * 256 + (pc1.cle.getD (2 * n + 1) 0).toUInt16

/-- One of the parts of `pc1_assemble` behind the first. -/
def pc1AssembleNext (pc1 : Ctx) (n : Nat) : Ctx :=
  let word := pc1.x1a0.getD (n - 1) 0 ^^^ keyWord pc1 n
  let pc1 := pc1Code { pc1 with x1a0 := pc1.x1a0.setIfInBounds n word }
  { pc1 with inter := pc1.inter ^^^ pc1.res }

def pc1Assemble (pc1 : Ctx) : Ctx :=
  let pc1 := pc1Code { pc1 with x1a0 := pc1.x1a0.setIfInBounds 0 (keyWord pc1 0) }
  let pc1 := { pc1 with inter := pc1.res }
  let pc1 := [1, 2, 3, 4, 5, 6, 7].foldl pc1AssembleNext pc1
  { pc1 with i := 0 }

/-- The random byte: `cfc` and `cfd` are the halves of `inter`. -/
def pc1Random (pc1 : Ctx) : Ctx :=
  let pc1 := pc1Assemble pc1
  { pc1 with cfc := pc1.inter >>> 8, cfd := pc1.inter &&& 255 }

/-- The loop that mixes the byte of the text with the key. -/
def pc1Mix (pc1 : Ctx) (c : UInt16) : Ctx :=
  let cle := (List.range 16).foldl
    (fun cle k => cle.setIfInBounds k (cle.getD k 0 ^^^ c.toUInt8)) pc1.cle
  { pc1 with cle := cle, compte := 16 }

def pc1Decrypt (pc1 : Ctx) (c : UInt16) : Ctx × UInt8 :=
  let pc1 := pc1Random pc1
  let c := c ^^^ (pc1.cfc ^^^ pc1.cfd)
  (pc1Mix pc1 c, c.toUInt8)

def pc1Encrypt (pc1 : Ctx) (c : UInt16) : Ctx × UInt8 :=
  let pc1 := pc1Random pc1
  (pc1Mix pc1 c, (c ^^^ (pc1.cfc ^^^ pc1.cfd)).toUInt8)

/-- `"Remsaalps!123456"` -/
def pc1Key : Vector UInt8 17 :=
  #v[82, 101, 109, 115, 97, 97, 108, 112, 115, 33, 49, 50, 51, 52, 53, 54, 0]

def pc1Init : Ctx where
  ax := 0
  bx := 0
  cx := 0
  dx := 0
  si := 0
  tmp := 0
  x1a2 := 0
  x1a0 := Vector.replicate 8 0
  res := 0
  i := 0
  inter := 0
  cfc := 0
  cfd := 0
  compte := 0
  cle := pc1Key

/-! ## The program -/

def pc1Byte (decrypt : Bool) (pc1 : Ctx) (b : UInt8) : Ctx × UInt8 :=
  if decrypt then pc1Decrypt pc1 b.toUInt16 else pc1Encrypt pc1 b.toUInt16

/-- `pc1_decrypt_buf` and `pc1_encrypt_buf` -/
def pc1Buf (decrypt : Bool) : Ctx → Bytes → Ctx × Bytes := transduce (pc1Byte decrypt)

def bufSize : Nat := 64 * 1024

/-- The loop of `main` on what is left of the input file; the output that it writes. -/
def cryptLoop (decrypt : Bool) (pc1 : Ctx) (total : Nat) (infile : Bytes) : Bytes :=
  if 0 < total then
    let datalen := if bufSize < total then bufSize else total
    let (pc1, buf) := pc1Buf decrypt pc1 (infile.take datalen)
    buf ++ cryptLoop decrypt pc1 (total - datalen) (infile.drop datalen)
  else []
  termination_by total
  decreasing_by
    have hsize : bufSize = 65536 := rfl
    split <;> omega

/-- The output file for an input file. Its size becomes an `unsigned`. -/
def pc1crypt (decrypt : Bool) (infile : Bytes) : Bytes :=
  cryptLoop decrypt pc1Init (infile.length % 2 ^ 32) infile

/-- A whole run with other buffers. -/
def cryptBufs (decrypt : Bool) (bufs : List Bytes) : Bytes :=
  transduceParts (pc1Byte decrypt) pc1Init bufs

/-! ## Both directions -/

/-- Decryption gets back the byte, and mixes the same into the key. -/
theorem pc1Decrypt_pc1Encrypt (pc1 : Ctx) (b : UInt8) :
    pc1Byte true pc1 (pc1Byte false pc1 b).2 = ((pc1Byte false pc1 b).1, b) := by
  rw [pc1Byte, pc1Byte, if_pos rfl, if_neg Bool.false_ne_true, pc1Decrypt, pc1Encrypt]
  dsimp only
  generalize pc1Random pc1 = s
  generalize s.cfc ^^^ s.cfd = random
  have hback : ((b.toUInt16 ^^^ random).toUInt8.toUInt16 ^^^ random).toUInt8 = b := by
    simp only [UInt16.toUInt8_xor, UInt8.toUInt8_toUInt16, UInt8.xor_assoc, UInt8.xor_self,
      UInt8.xor_zero]
  have hmix : pc1Mix s ((b.toUInt16 ^^^ random).toUInt8.toUInt16 ^^^ random) =
      pc1Mix s b.toUInt16 := by
    rw [pc1Mix, pc1Mix, hback, UInt8.toUInt8_toUInt16]
  rw [hmix, hback]

theorem transduce_back (pc1 : Ctx) (bs : Bytes) :
    (transduce (pc1Byte true) pc1 (transduce (pc1Byte false) pc1 bs).2).2 = bs := by
  rw [transduce_transduce pc1Decrypt_pc1Encrypt]

/-- The loop with its buffers codes the first `total` bytes. -/
theorem cryptLoop_eq (decrypt : Bool) (pc1 : Ctx) (total : Nat) (infile : Bytes) :
    cryptLoop decrypt pc1 total infile =
      (transduce (pc1Byte decrypt) pc1 (infile.take total)).2 := by
  induction pc1, total, infile using cryptLoop.induct decrypt with
  | case1 pc1 total infile hpos datalen pc1' buf hbuf ih =>
    have hle : datalen ≤ total := by
      show (if bufSize < total then bufSize else total) ≤ total
      split_ifs <;> omega
    have hsplit : infile.take total =
        infile.take datalen ++ (infile.drop datalen).take (total - datalen) := by
      rw [← List.take_add, Nat.add_sub_cancel' hle]
    have hbuf' : transduce (pc1Byte decrypt) pc1 (infile.take datalen) = (pc1', buf) := hbuf
    rw [cryptLoop, if_pos hpos, hsplit, transduce_append, hbuf']
    show (pc1Buf decrypt pc1 (infile.take datalen)).2 ++ cryptLoop decrypt
      (pc1Buf decrypt pc1 (infile.take datalen)).1 (total - datalen) (infile.drop datalen) = _
    rw [hbuf, ih]
  | case2 pc1 total infile hpos =>
    rw [cryptLoop, if_neg hpos, Nat.eq_zero_of_not_pos hpos]
    rfl

theorem pc1crypt_eq (decrypt : Bool) (infile : Bytes) :
    pc1crypt decrypt infile =
      (transduce (pc1Byte decrypt) pc1Init (infile.take (infile.length % 2 ^ 32))).2 :=
  cryptLoop_eq _ _ _ _

theorem length_pc1crypt (decrypt : Bool) (infile : Bytes) :
    (pc1crypt decrypt infile).length = infile.length % 2 ^ 32 := by
  rw [pc1crypt_eq, length_transduce, List.length_take, Nat.min_eq_left (Nat.mod_le _ _)]

/-- What comes back is what was read of the file. -/
theorem pc1crypt_pc1crypt (file : Bytes) :
    pc1crypt true (pc1crypt false file) = file.take (file.length % 2 ^ 32) := by
  rw [pc1crypt_eq true, length_pc1crypt, Nat.mod_mod,
    List.take_of_length_le (Nat.le_of_eq (length_pc1crypt _ _)), pc1crypt_eq, transduce_back]

/-- **There and back.** The files that come back are those shorter than 4 GiB; with any other
buffers, all that they held comes back. -/
theorem thereAndBack_iff (file : Bytes) (bufs bufs' : List Bytes) :
    (pc1crypt true (pc1crypt false file) = file ↔ file.length < 2 ^ 32) ∧
      (bufs'.flatten = cryptBufs false bufs → cryptBufs true bufs' = bufs.flatten) := by
  constructor
  · rw [pc1crypt_pc1crypt]
    constructor
    · intro h
      have hlen := congrArg List.length h
      rw [List.length_take, Nat.min_eq_left (Nat.mod_le _ _)] at hlen
      exact hlen ▸ Nat.mod_lt _ (by decide)
    · intro hlt
      rw [Nat.mod_eq_of_lt hlt, List.take_length]
  · intro hbufs
    rw [cryptBufs, transduceParts_eq, hbufs, cryptBufs, transduceParts_eq, transduce_back]

/-- A file of 4 GiB: nothing is read of it. -/
theorem not_thereAndBack : ¬ pc1crypt true (pc1crypt false (List.replicate (2 ^ 32) 0)) =
    List.replicate (2 ^ 32) 0 := by
  intro h
  have hlen := congrArg List.length h
  rw [length_pc1crypt, length_pc1crypt, List.length_replicate, Nat.mod_self] at hlen
  exact absurd hlen (by decide)

end UolaOs.Pc1crypt
