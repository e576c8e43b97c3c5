import Mathlib.Data.List.GetD
import UolaOs.Lib.BlockCipher
import UolaOs.Lib.BlockHash
import UolaOs.Ead.Replay

/-!
# Encrypted messages byte by byte

`ead_encrypt_message` and `ead_decrypt_message` of ead-crypt.c, over a block cipher with the
interface of aes.c and the hash of sha1.c.

* `bytes_ofBytes`: a message as it lies in memory;
* `decryptMessage_encryptMessage`: an encrypted message is decrypted if the receive counter allows,
  and refused otherwise.
-/

namespace UolaOs.Ead.Crypt

/-! ## sha1.c -/

/-- The five words of a digest. -/
structure Digest where
  a : UInt32
  b : UInt32
  c : UInt32
  d : UInt32
  e : UInt32
  deriving DecidableEq

def rol32 (word shift : UInt32) : UInt32 := (word <<< shift) ||| (word >>> (32 - shift))

def f1 (x y z : UInt32) : UInt32 := z ^^^ (x &&& (y ^^^ z))
def f2 (x y z : UInt32) : UInt32 := x ^^^ y ^^^ z
def f3 (x y z : UInt32) : UInt32 := (x &&& y) + (z &&& (x ^^^ y))

/-- The first 16 words of `W`. -/
def loadWords (block : Bytes) : List UInt32 :=
  (List.range 16).map fun i => UInt32.ofNat (Endian.big.get (load block (4 * i) 4))

/-- The loop over the other 64. -/
def expandWords (w : List UInt32) : List UInt32 :=
  (List.range 64).foldl (fun w i => w ++ [rol32
    (w.getD (i + 13) 0 ^^^ w.getD (i + 8) 0 ^^^ w.getD (i + 2) 0 ^^^ w.getD i 0) 1]) w

/-- A round with the function `f` and the constant `k`. -/
def shaRound (f : UInt32 → UInt32 → UInt32 → UInt32) (k : UInt32) (s : Digest) (w : UInt32) :
    Digest :=
  ⟨f s.b s.c s.d + k + rol32 s.a 5 + s.e + w, s.a, rol32 s.b 30, s.c, s.d⟩

/-- `sha_transform` -/
def shaTransform (digest : Digest) (block : Bytes) : Digest :=
  let w := expandWords (loadWords block)
  let s := (w.take 20).foldl (shaRound f1 0x5a827999) digest
  let s := ((w.drop 20).take 20).foldl (shaRound f2 0x6ed9eba1) s
  let s := ((w.drop 40).take 20).foldl (shaRound f3 0x8f1bbcdc) s
  let s := ((w.drop 60).take 20).foldl (shaRound f2 0xca62c1d6) s
  ⟨digest.a + s.a, digest.b + s.b, digest.c + s.c, digest.d + s.d, digest.e + s.e⟩

/-- `sha_init` -/
def shaInit : Digest := ⟨0x67452301, 0xefcdab89, 0x98badcfe, 0x10325476, 0xc3d2e1f0⟩

namespace Digest

/-- The words in network byte order. -/
def bytes (x : Digest) : Bytes :=
  Endian.big.put 4 x.a.toNat ++ (Endian.big.put 4 x.b.toNat ++ (Endian.big.put 4 x.c.toNat ++
    (Endian.big.put 4 x.d.toNat ++ Endian.big.put 4 x.e.toNat)))

def ofBytes (bs : Bytes) : Digest :=
  let word (i : Nat) := UInt32.ofNat (Endian.big.get (load bs (4 * i) 4))
  ⟨word 0, word 1, word 2, word 3, word 4⟩

end Digest

/-! ## The cipher -/

/-- What aes.c offers: under a key, decrypting a block of 16 bytes undoes encrypting it. -/
structure Rijndael where
  encrypt : Bytes → Bytes → Bytes
  decrypt : Bytes → Bytes → Bytes
  length_encrypt : ∀ key b, b.length = 16 → (encrypt key b).length = 16
  decrypt_encrypt : ∀ key b, b.length = 16 → decrypt key (encrypt key b) = b

/-- The variables of ead-crypt.c. `aes_enc_ctx` and `aes_dec_ctx` are both set up from `key`. -/
structure Party where
  key : Bytes
  ivs : Ivs

/-- `ead_set_key`. Of the key, the cipher takes the first 16 bytes. -/
def setKey (e : Endian) (skey : Bytes) (s : Party) : Party := ⟨load skey 0 16, s.ivs.setKey e skey⟩

/-! ## Messages -/

/-- `struct ead_msg_encrypted` with the memory behind it. -/
structure Enc where
  hash : Bytes
  iv : Bytes
  pad : UInt8
  data : Bytes
  deriving DecidableEq

/-- `sizeof(struct ead_msg_encrypted)` -/
def encSize : UInt32 := 25

/-- `EAD_ENC_PAD` -/
def encPad : UInt32 := 64

namespace Enc

def bytes (m : Enc) : Bytes := m.hash ++ (m.iv ++ m.pad :: m.data)

def ofBytes (bs : Bytes) : Enc := ⟨load bs 0 20, load bs 20 4, bs.getD 24 0, bs.drop 25⟩

end Enc

/-- The rounds of a loop that takes `n` from an `int` as long as it is positive. -/
def whileRounds (n : Nat) (len : UInt32) : Nat := (len.toInt32.toInt.toNat + (n - 1)) / n

/-- `ead_hash_message`; the hash of the message is set to zero. -/
def hashMessage (m : Enc) (len : UInt32) : Digest × Enc :=
  let m := { m with hash := List.replicate 20 0 }
  (blocks shaTransform 64 (whileRounds 64 len) shaInit m.bytes, m)

/-- `ead_encrypt_message`: `msg->len`, and the bytes from the message on. `data` is the payload of
`len` bytes and what is behind it. -/
def encryptMessage (aes : Rijndael) (s : Party) (data : Bytes) (len : UInt32) :
    (UInt32 × Bytes) × Party :=
  let len := len + encSize
  let pad := (encPad - len % encPad) % encPad
  let enclen := len + pad
  let r := s.ivs.getTxIv
  let h := hashMessage ⟨[], Endian.big.put 4 r.1.toNat, pad.toUInt8, data⟩ enclen
  let m := { h.2 with hash := h.1.bytes }
  ((enclen, mapBlocks (aes.encrypt s.key) 16 (whileRounds 16 enclen) m.bytes),
    { s with ivs := r.2 })

/-- `ead_decrypt_message` on a message with this `msg->len` and these bytes: what it returns and
leaves there. -/
def decryptMessage (aes : Rijndael) (s : Party) (len : UInt32) (bs : Bytes) :
    (Int × Enc) × Party :=
  if len = 0 ∨ 0 < len.toInt32.toInt.tmod 64 then ((0, Enc.ofBytes bs), s)
  else
    let m := Enc.ofBytes (mapBlocks (aes.decrypt s.key) 16 (whileRounds 16 len) bs)
    if encPad.toUInt8 ≤ m.pad then ((0, m), s)
    else
      let r := s.ivs.checkRxIv (UInt32.ofNat (Endian.big.get m.iv))
      if r.1 then
        let hashOld := Digest.ofBytes m.hash
        let h := hashMessage m len
        if hashOld ≠ h.1 then ((0, h.2), { s with ivs := r.2 })
        else (((len - (m.pad.toUInt32 + encSize)).toInt32.toInt, h.2), { s with ivs := r.2 })
      else ((0, m), s)

/-! ## Memory -/

section
variable {m : Enc} {x : Digest}

theorem length_bytes (x : Digest) : x.bytes.length = 20 := by
  simp only [Digest.bytes, List.length_append, Endian.length_put]

theorem get_put_word (w : UInt32) : UInt32.ofNat (Endian.big.get (Endian.big.put 4 w.toNat)) = w := by
  rw [Endian.get_put_of_lt _ w.toNat_lt, UInt32.ofNat_toNat]

theorem digest_ofBytes (x : Digest) : Digest.ofBytes x.bytes = x := by
  have hwords : Digest.ofBytes x.bytes =
      ⟨UInt32.ofNat (Endian.big.get (Endian.big.put 4 x.a.toNat)),
        UInt32.ofNat (Endian.big.get (Endian.big.put 4 x.b.toNat)),
        UInt32.ofNat (Endian.big.get (Endian.big.put 4 x.c.toNat)),
        UInt32.ofNat (Endian.big.get (Endian.big.put 4 x.d.toNat)),
        UInt32.ofNat (Endian.big.get (Endian.big.put 4 x.e.toNat))⟩ := rfl
  rw [hwords]
  simp only [get_put_word]

/-- A message in memory. -/
theorem enc_ofBytes (hhash : m.hash.length = 20) (hiv : m.iv.length = 4) :
    Enc.ofBytes m.bytes = m := by
  obtain ⟨hash, iv, pad, data⟩ := m
  dsimp only at hhash hiv
  have hfront : (hash ++ iv).length = 24 := by rw [List.length_append, hhash, hiv]
  have hbytes : (Enc.mk hash iv pad data).bytes = (hash ++ iv) ++ pad :: data := by
    rw [Enc.bytes, List.append_assoc]
  have hload : load ((hash ++ iv) ++ pad :: data) 0 20 = hash := by
    rw [load, List.drop_zero, List.append_assoc, List.take_left' hhash]
  have hloadIv : load ((hash ++ iv) ++ pad :: data) 20 4 = iv := by
    rw [List.append_assoc, load_append_right hhash, List.take_left' hiv]
  have hpad : ((hash ++ iv) ++ pad :: data).getD 24 0 = pad := by
    rw [List.getD_append_right _ _ _ _ (Nat.le_of_eq hfront), hfront]
    rfl
  have hdata : ((hash ++ iv) ++ pad :: data).drop 25 = data := by
    rw [← List.drop_drop (i := 1) (j := 24), List.drop_left' hfront]
    rfl
  rw [hbytes, Enc.ofBytes, hload, hloadIv, hpad, hdata]

theorem length_enc_bytes (hhash : m.hash.length = 20) (hiv : m.iv.length = 4) :
    m.bytes.length = 25 + m.data.length := by
  rw [Enc.bytes, List.length_append, List.length_append, List.length_cons, hhash, hiv]
  omega

end

/-! ## Lengths -/

section
variable {n : UInt32}

/-- The padding of a message. -/
def padOf (n : UInt32) : UInt32 := (encPad - (n + encSize) % encPad) % encPad

/-- The padded length, as `msg->len` has it. -/
def enclenOf (n : UInt32) : UInt32 := n + encSize + padOf n

theorem padOf_spec (h : n.toNat < 2 ^ 31) :
    (padOf n).toNat < 64 ∧ (enclenOf n).toNat = n.toNat + 25 + (padOf n).toNat ∧
      64 ∣ (enclenOf n).toNat := by
  have hsum : (n + encSize).toNat = n.toNat + 25 := by
    have h25 : encSize.toNat = 25 := rfl
    rw [UInt32.toNat_add, h25, Nat.mod_eq_of_lt (by omega)]
  have hpad : (padOf n).toNat = (64 - (n.toNat + 25) % 64) % 64 := by
    have hmod : ((n + encSize) % encPad).toNat = (n.toNat + 25) % 64 := by
      rw [UInt32.toNat_mod, hsum]
      rfl
    have hle : (n + encSize) % encPad ≤ encPad := by
      rw [UInt32.le_iff_toNat_le, hmod]
      exact Nat.le_of_lt (Nat.mod_lt _ (by decide))
    rw [padOf, UInt32.toNat_mod, UInt32.toNat_sub_of_le _ _ hle, hmod]
    rfl
  have hlen : (enclenOf n).toNat = n.toNat + 25 + (padOf n).toNat := by
    rw [enclenOf, UInt32.toNat_add, hsum]
    exact Nat.mod_eq_of_lt (by omega)
  exact ⟨by omega, hlen, by omega⟩

theorem toInt_eq (x : UInt32) :
    x.toInt32.toInt = if x.toNat < 2 ^ 31 then (x.toNat : Int) else (x.toNat : Int) - 2 ^ 32 := by
  have hint : x.toInt32.toInt = x.toBitVec.toInt := rfl
  have hnat : x.toBitVec.toNat = x.toNat := rfl
  rw [hint, BitVec.toInt_eq_toNat_cond, hnat]
  by_cases h : x.toNat < 2 ^ 31
  · rw [if_pos h, if_pos (by omega)]
  · rw [if_neg h, if_neg (by omega)]
    rfl

/-- The rounds cover the message, or there are none. -/
theorem whileRounds_mul_le (x : UInt32) {k : Nat} (hk : 0 < k) (h : k ∣ x.toNat) :
    whileRounds k x * k ≤ x.toNat := by
  rw [whileRounds, toInt_eq]
  split
  · rw [Int.toNat_natCast, ← roundUp, roundUp_of_dvd hk h]
  · have hlt := x.toNat_lt
    have hneg : ((x.toNat : Int) - 2 ^ 32).toNat = 0 := by omega
    rw [hneg, Nat.zero_add, Nat.div_eq_of_lt (by omega), Nat.zero_mul]
    exact Nat.zero_le _

theorem not_tmod_pos (x : UInt32) (h : 64 ∣ x.toNat) : ¬ 0 < x.toInt32.toInt.tmod 64 := by
  have hdvd : (64 : Int) ∣ x.toInt32.toInt := by
    rw [toInt_eq]
    split
    · exact Int.natCast_dvd_natCast.mpr h
    · exact Int.dvd_sub (Int.natCast_dvd_natCast.mpr h) (by decide)
  rw [Int.tmod_eq_zero_of_dvd hdvd]
  exact Int.lt_irrefl 0

end

/-! ## A message and its receiver -/

section
variable {aes : Rijndael} {s r : Party} {hash iv data rest payload behind key : Bytes} {pad : UInt8}
  {n : UInt32} {j : Nat}

theorem bytes_append (m : Enc) (rest : Bytes) :
    m.bytes ++ rest = { m with data := m.data ++ rest }.bytes := by
  simp only [Enc.bytes, List.append_assoc, List.cons_append]

theorem take_bytes {m : Enc} (hhash : m.hash.length = 20) (hiv : m.iv.length = 4) (j : Nat) :
    m.bytes.take (25 + j) = { m with data := m.data.take j }.bytes := by
  have hfront : (m.hash ++ (m.iv ++ [m.pad])).length = 25 := by
    rw [List.length_append, List.length_append, hhash, hiv]
    rfl
  have hbytes (data : Bytes) :
      { m with data := data }.bytes = (m.hash ++ (m.iv ++ [m.pad])) ++ data := by
    simp only [Enc.bytes, List.append_assoc, List.singleton_append]
  have hself : m.bytes = (m.hash ++ (m.iv ++ [m.pad])) ++ m.data := hbytes m.data
  rw [hself, ← hfront, List.take_length_add_append, ← hbytes]

/-- The hash does not depend on the stored hash, nor on what is behind the message. -/
theorem hashMessage_congr {m m' : Enc} (hiv : m.iv.length = 4) (hiv' : m'.iv = m.iv)
    (hpad : m'.pad = m.pad) (hdvd : 64 ∣ n.toNat) (hj : n.toNat = 25 + j)
    (hdata : m'.data.take j = m.data.take j) : (hashMessage m' n).1 = (hashMessage m n).1 := by
  have hzeros : (List.replicate 20 (0 : UInt8)).length = 20 := List.length_replicate
  have hcut (m : Enc) (hiv : m.iv.length = 4) :
      { m with hash := List.replicate 20 0 }.bytes.take n.toNat =
        { m with hash := List.replicate 20 0, data := m.data.take j }.bytes := by
    have htake := take_bytes (m := { m with hash := List.replicate 20 0 }) hzeros hiv j
    rwa [← hj] at htake
  have htake : { m' with hash := List.replicate 20 0 }.bytes.take n.toNat =
      { m with hash := List.replicate 20 0 }.bytes.take n.toNat := by
    rw [hcut m' (hiv' ▸ hiv), hcut m hiv, hiv', hpad, hdata]
  have hrounds := whileRounds_mul_le n (by decide) hdvd
  have hfront : { m' with hash := List.replicate 20 0 }.bytes.take (whileRounds 64 n * 64) =
      { m with hash := List.replicate 20 0 }.bytes.take (whileRounds 64 n * 64) := by
    have hmin := congrArg (List.take (whileRounds 64 n * 64)) htake
    rwa [List.take_take, List.take_take, Nat.min_eq_left hrounds] at hmin
  rw [hashMessage, hashMessage]
  dsimp only
  rw [← blocks_take, hfront, blocks_take]

/-- What is sent of a message is decrypted to it, with what the receiver has behind it. -/
theorem mapBlocks_sent {m : Enc} (hkey : r.key = s.key)
    (hlen : n.toNat ≤ m.bytes.length) (hdvd : 16 ∣ n.toNat) (rest : Bytes) :
    mapBlocks (aes.decrypt r.key) 16 (whileRounds 16 n)
      ((mapBlocks (aes.encrypt s.key) 16 (whileRounds 16 n) m.bytes).take n.toNat ++ rest) =
      m.bytes.take n.toNat ++ rest := by
  have hrounds := whileRounds_mul_le n (by decide) hdvd
  have htake : (m.bytes.take n.toNat).length = n.toNat := List.length_take_of_le hlen
  have hall : whileRounds 16 n * 16 ≤ (m.bytes.take n.toNat).length := by rwa [htake]
  have hsent : (mapBlocks (aes.encrypt s.key) 16 (whileRounds 16 n) m.bytes).take n.toNat =
      mapBlocks (aes.encrypt s.key) 16 (whileRounds 16 n) (m.bytes.take n.toNat) := by
    conv_lhs => rw [← List.take_append_drop n.toNat m.bytes]
    rw [mapBlocks_append hall, List.take_left']
    rw [length_mapBlocks (aes.length_encrypt s.key) hall, htake]
  rw [hsent, ← mapBlocks_append hall, hkey,
    mapBlocks_mapBlocks (aes.length_encrypt _) (aes.decrypt_encrypt _)]
  rw [List.length_append]
  omega

/-- The message that `ead_encrypt_message` puts together. -/
def plain (s : Party) (data : Bytes) (n : UInt32) : Enc :=
  let iv := Endian.big.put 4 s.ivs.getTxIv.1.toNat
  let pad := (padOf n).toUInt8
  ⟨(hashMessage ⟨[], iv, pad, data⟩ (enclenOf n)).1.bytes, iv, pad, data⟩

theorem encryptMessage_eq (aes : Rijndael) (s : Party) (data : Bytes) (n : UInt32) :
    encryptMessage aes s data n = ((enclenOf n, mapBlocks (aes.encrypt s.key) 16
      (whileRounds 16 (enclenOf n)) (plain s data n).bytes), { s with ivs := s.ivs.getTxIv.2 }) :=
  rfl

theorem plain_hash_length (s : Party) (data : Bytes) (n : UInt32) :
    (plain s data n).hash.length = 20 := length_bytes _

theorem plain_iv_length (s : Party) (data : Bytes) (n : UInt32) :
    (plain s data n).iv.length = 4 := Endian.length_put .big _ _

theorem padOf_toUInt8 (h : n.toNat < 2 ^ 31) :
    (padOf n).toUInt8.toUInt32 = padOf n ∧ ¬ encPad.toUInt8 ≤ (padOf n).toUInt8 := by
  obtain ⟨hpad, -⟩ := padOf_spec h
  have h8 : (padOf n).toUInt8.toNat = (padOf n).toNat := by
    rw [UInt32.toNat_toUInt8]
    exact Nat.mod_eq_of_lt (by omega)
  have h64 : encPad.toUInt8.toNat = 64 := rfl
  refine ⟨UInt32.toNat_inj.mp (by rw [UInt8.toNat_toUInt32, h8]), ?_⟩
  rw [UInt8.le_iff_toNat_le, h8, h64]
  omega

theorem enclenOf_sub (n : UInt32) : enclenOf n - (padOf n + encSize) = n := by
  rw [enclenOf, UInt32.add_assoc, UInt32.add_comm encSize, UInt32.add_sub_cancel]

/-- The message of `ead_encrypt_message` as a receiver has it, with `rest` behind it. -/
def received (s : Party) (data : Bytes) (n : UInt32) (rest : Bytes) : Enc :=
  { plain s data n with data := data.take (n.toNat + (padOf n).toNat) ++ rest }

theorem received_bytes (hlt : n.toNat < 2 ^ 31) (data rest : Bytes) :
    (plain s data n).bytes.take (enclenOf n).toNat ++ rest = (received s data n rest).bytes := by
  obtain ⟨-, hlen, -⟩ := padOf_spec hlt
  have hj : (enclenOf n).toNat = 25 + (n.toNat + (padOf n).toNat) := by omega
  rw [hj, take_bytes (plain_hash_length s data n) (plain_iv_length s data n), bytes_append]
  rfl

theorem received_hash (hlt : n.toNat < 2 ^ 31) {data : Bytes}
    (hroom : n.toNat + (padOf n).toNat ≤ data.length) (rest : Bytes) :
    (hashMessage (received s data n rest) (enclenOf n)).1 =
      Digest.ofBytes (received s data n rest).hash := by
  obtain ⟨-, hlen, hdvd⟩ := padOf_spec hlt
  have hj : (enclenOf n).toNat = 25 + (n.toNat + (padOf n).toNat) := by omega
  have htake : (data.take (n.toNat + (padOf n).toNat) ++ rest).take (n.toNat + (padOf n).toNat) =
      data.take (n.toNat + (padOf n).toNat) := by
    rw [List.take_left' (List.length_take_of_le hroom)]
  have hhash : (received s data n rest).hash = (hashMessage ⟨[], (plain s data n).iv,
      (plain s data n).pad, data⟩ (enclenOf n)).1.bytes := rfl
  rw [hhash, digest_ofBytes]
  exact hashMessage_congr (plain_iv_length s data n) rfl rfl hdvd hj htake

/-- What the receiver finds behind the cipher. -/
theorem decryptBlocks_sent (hlt : n.toNat < 2 ^ 31) {data : Bytes}
    (hroom : n.toNat + (padOf n).toNat ≤ data.length) (hkey : r.key = s.key) (rest : Bytes) :
    Enc.ofBytes (mapBlocks (aes.decrypt r.key) 16 (whileRounds 16 (enclenOf n))
      ((encryptMessage aes s data n).1.2.take (enclenOf n).toNat ++ rest)) =
      received s data n rest := by
  obtain ⟨-, hlen, hdvd⟩ := padOf_spec hlt
  have hbytes := length_enc_bytes (plain_hash_length s data n) (plain_iv_length s data n)
  have hdata : (plain s data n).data = data := rfl
  rw [encryptMessage_eq]
  dsimp only
  rw [mapBlocks_sent hkey (by rw [hbytes, hdata]; omega) (Nat.dvd_trans (by decide) hdvd),
    received_bytes hlt]
  exact enc_ofBytes (plain_hash_length s data n) (plain_iv_length s data n)

/-- **A message.** What was encrypted is decrypted to the payload and its length when the receive
counter allows its number, and refused otherwise. The receiver may have anything behind it. -/
theorem decryptMessage_encryptMessage (aes : Rijndael) (hlt : n.toNat < 2 ^ 31)
    (hn : n.toNat = payload.length) (hroom : (padOf n).toNat ≤ behind.length)
    (hkey : r.key = s.key) (rest : Bytes) :
    let p := (encryptMessage aes s (payload ++ behind) n).1
    let c := r.ivs.checkRxIv s.ivs.getTxIv.1
    ∃ m : Enc, m.data.take payload.length = payload ∧
      decryptMessage aes r p.1 (p.2.take p.1.toNat ++ rest) =
        ((if c.1 then (payload.length : Int) else 0, m), { r with ivs := c.2 }) := by
  intro p c
  obtain ⟨hpad, hlen, hdvd⟩ := padOf_spec hlt
  obtain ⟨hpad32, hpad64⟩ := padOf_toUInt8 hlt
  have hfits : n.toNat + (padOf n).toNat ≤ (payload ++ behind).length := by
    rw [List.length_append]
    omega
  have hp : p.1 = enclenOf n := rfl
  have hne : enclenOf n ≠ 0 := by
    intro hzero
    rw [hzero, UInt32.toNat_zero] at hlen
    omega
  have hgo : ¬ (enclenOf n = 0 ∨ 0 < (enclenOf n).toInt32.toInt.tmod 64) := fun h =>
    h.elim hne (not_tmod_pos _ hdvd)
  have hdata : ((payload ++ behind).take (n.toNat + (padOf n).toNat) ++ rest).take payload.length =
      payload := by
    rw [List.take_append_of_le_length, List.take_take, Nat.min_eq_left (by omega), List.take_left]
    rw [List.length_take]
    omega
  have hiv : UInt32.ofNat (Endian.big.get (received s (payload ++ behind) n rest).iv) =
      s.ivs.getTxIv.1 := get_put_word _
  rw [decryptMessage, hp, if_neg hgo]
  dsimp only
  rw [decryptBlocks_sent hlt hfits hkey]
  have hpadEq : (received s (payload ++ behind) n rest).pad = (padOf n).toUInt8 := rfl
  rw [hpadEq, if_neg hpad64, hiv]
  by_cases hc : c.1 = true
  · rw [if_pos hc, if_pos hc, received_hash hlt hfits, if_neg (not_not.mpr rfl), hpad32,
      enclenOf_sub, toInt_eq, if_pos hlt, hn]
    exact ⟨_, hdata, rfl⟩
  · have hkeep : c.2 = r.ivs := checkRxIv_false hc
    rw [if_neg hc, if_neg hc, hkeep]
    exact ⟨_, hdata, rfl⟩

end

end UolaOs.Ead.Crypt
