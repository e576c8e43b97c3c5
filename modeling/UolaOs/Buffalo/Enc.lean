import UolaOs.Lib.Cipher
import UolaOs.Lib.CString

/-!
# Buffalo firmware encryption

The format of buffalo-lib.c as buffalo-enc.c uses it. A file has a magic, a seed, the product, the
version, the data and a checksum; the first byte of an encrypted part is the seed of the next.
-/

namespace UolaOs.Buffalo

/-! ## The cipher -/

structure BcryptCtx where
  i : UInt8
  j : UInt8
  state : Bytes

/-- A round of the loop of `bcrypt_init`: `j` and `k` with the state. -/
def mix (key : Bytes) (c : Nat × Nat × Bytes) (i : Nat) : Nat × Nat × Bytes :=
  let (j, k, state) := c
  let t := state.getD i 0
  let k := (k + (key.getD j 0).toNat + t.toNat) % state.length
  ((j + 1) % key.length, k, (state.set i (state.getD k 0)).set k t)

/-- `bcrypt_init` -/
def bcryptInit (key : Bytes) (state_len : Nat) : BcryptCtx :=
  { i := 0
    j := 0
    state := ((List.range state_len).foldl (mix key)
      (0, 0, (List.range state_len).map UInt8.ofNat)).2.2 }

/-- A round of the loop of `bcrypt_process`. The indices are bytes, whatever the length. -/
def BcryptCtx.next (c : BcryptCtx) : UInt8 × BcryptCtx :=
  let i := UInt8.ofNat ((c.i.toNat + 1) % c.state.length)
  let si := c.state.getD i.toNat 0
  let j := UInt8.ofNat ((c.j.toNat + si.toNat) % c.state.length)
  let state := (c.state.set j.toNat si).set i.toNat (c.state.getD j.toNat 0)
  let k := ((state.getD i.toNat 0).toNat + (state.getD j.toNat 0).toNat) % c.state.length
  (state.getD k 0, ⟨i, j, state⟩)

/-- `BCRYPT_DEFAULT_STATE_LEN` -/
def bcryptDefaultStateLen : Nat := 256

def bcryptStart (seed : UInt8) (key : CStr) (len : Nat) (longstate : Bool) : BcryptCtx :=
  bcryptInit (seed :: key.bytes) (if longstate then len else bcryptDefaultStateLen)

/-- `bcrypt_buf` on the memory `m` -/
def bcryptBuf (seed : UInt8) (key : CStr) (m : Bytes) (src dst len : Nat) (longstate : Bool) :
    Bytes :=
  cryptAt BcryptCtx.next (bcryptStart seed key len longstate) m src dst len

/-- `buffalo_csum`. The bytes are signed. -/
def buffaloCsum (csum : UInt32) (buf : Bytes) : UInt32 :=
  buf.foldl
    (fun csum b =>
      (List.range 8).foldl
        (fun csum _ => (csum >>> 1) ^^^ if csum &&& 1 = 1 then 0xedb88320 else 0)
        (csum ^^^ b.toInt8.toInt32.toUInt32)) csum

/-! ## Encryption -/

/-- `ENC_MAGIC_LEN` -/
def encMagicLen : Nat := 6

/-- `ENC_PRODUCT_LEN` -/
def encProductLen : Nat := 32

/-- `ENC_VERSION_LEN` -/
def encVersionLen : Nat := 8

/-- `BCRYPT_MAX_KEYLEN` -/
def bcryptMaxKeylen : Nat := 254

/-- The options, as `check_params` lets them through. -/
structure Params where
  key : CStr
  magic : CStr
  product : CStr
  version : CStr
  seed : UInt8
  longstate : Bool
  /-- `-S` -/
  size : Nat
  key_le : key.length ≤ bcryptMaxKeylen
  magic_length : magic.length = encMagicLen - 1
  product_le : product.length ≤ encProductLen - 1
  version_le : version.length ≤ encVersionLen - 1
  size_lt : size < 2 ^ 31

/-- `put_be32` -/
def be32 (n : Nat) : Bytes := Endian.big.put 4 n

/-- `enc_compute_header_len` -/
def encComputeHeaderLen (product version : CStr) : Nat :=
  encMagicLen + 1 + product.length + 1 + version.length + 1 + 3 * 4

/-- `enc_compute_buf_len` -/
def encComputeBufLen (product version : CStr) (datalen : Nat) : Nat :=
  let ret := encComputeHeaderLen product version + datalen + 4
  ret + (4 - ret % 4)

section
variable (o : Params)

/-- The product and the version as `encrypt_buf` encrypts them. -/
def encProduct : Bytes :=
  bcryptBuf o.seed o.key o.product.stored 0 0 (o.product.length + 1) o.longstate

def encVersion : Bytes :=
  bcryptBuf ((encProduct o).getD 0 0) o.key o.version.stored 0 0 (o.version.length + 1)
    o.longstate

/-- The header that `encrypt_buf` writes. -/
def encHeader (datalen : UInt32) : Bytes :=
  o.magic.stored ++
    ([o.seed] ++
      (be32 (o.product.length + 1) ++
        (encProduct o ++ (be32 (o.version.length + 1) ++ (encVersion o ++ be32 datalen.toNat)))))

/-- The data that `encrypt_buf` leaves. -/
def encData (datalen csum : UInt32) (data : Bytes) : Bytes :=
  poke
    (bcryptBuf ((encVersion o).getD 0 0) o.key data 0 0 datalen.toNat o.longstate)
    datalen.toNat (be32 csum.toNat)

/-- The buffer with the file, and the length of the data in it. -/
def encLayout (heap : Nat → UInt8) (file : Bytes) : Bytes × Nat :=
  let hdrlen := encComputeHeaderLen o.product o.version
  if o.size ≠ 0 then
    let tail_dst := encComputeBufLen o.product o.version o.size
    let tail_len := file.length - o.size
    let tail_src := hdrlen + o.size
    let buf := poke ((List.range (tail_dst + tail_len)).map heap) hdrlen file
    let buf := poke buf tail_dst (load buf tail_src tail_len)
    (poke buf tail_src (List.replicate (tail_dst - tail_src) 0), o.size)
  else
    let totlen := encComputeBufLen o.product o.version file.length
    (poke ((List.range totlen).map heap) hdrlen file, file.length)

/-- `encrypt_file` to the bytes it writes; `heap` is what `malloc` leaves in the buffer. Reading
no bytes counts as a failure, and a size past the end of the file makes `memmove` run wild. -/
def encryptFile (heap : Nat → UInt8) (file : Bytes) : Option Bytes :=
  if file = [] ∨ file.length < o.size then none
  else
    let hdrlen := encComputeHeaderLen o.product o.version
    let (buf, src_len) := encLayout o heap file
    let datalen := UInt32.ofNat src_len
    let csum := buffaloCsum datalen (load buf hdrlen src_len)
    let data := encData o datalen csum (buf.drop hdrlen)
    some (poke (poke buf hdrlen data) 0 (encHeader o datalen))

end

/-! ## Decryption -/

/-- `struct enc_param`, the part that `decrypt_buf` fills in. -/
structure EncParam where
  magic : Bytes
  product : Bytes
  version : Bytes
  seed : UInt8
  datalen : UInt32
  csum : UInt32

/-- `CHECKLEN` and the bytes behind it. -/
def field (m : Bytes) (p len : Nat) : Option Bytes :=
  if m.length - p < len then none else some (load m p len)

/-- `get_be32` -/
def getBe32 (bs : Bytes) : Nat := Endian.big.get bs

def magicStart : Bytes := [0x73, 0x74, 0x61, 0x72, 0x74, 0]

def magicAsar1 : Bytes := [0x61, 0x73, 0x61, 0x72, 0x31, 0]

/-- `decrypt_buf`: what it fills in and leaves in the buffer when it returns 0. -/
def decryptBuf (key : CStr) (longstate : Bool) (m : Bytes) : Option (EncParam × Bytes) := do
  let magic ← field m 0 encMagicLen
  guard (magic = magicStart ∨ magic = magicAsar1)
  let seed ← field m 6 1
  let prodField ← field m 7 4
  let prod_len := getBe32 prodField
  guard (prod_len ≤ encProductLen)
  let productBytes ← field m 11 prod_len
  let product := poke (List.replicate encProductLen 0) 0 productBytes
  let verField ← field m (11 + prod_len) 4
  let ver_len := getBe32 verField
  guard (ver_len ≤ encVersionLen)
  let versionBytes ← field m (15 + prod_len) ver_len
  let version := poke (List.replicate encVersionLen 0) 0 versionBytes
  let lenField ← field m (15 + prod_len + ver_len) 4
  let datalen := getBe32 lenField
  let p := 19 + prod_len + ver_len
  let _ ← field m p datalen
  let m := bcryptBuf (version.getD 0 0) key m p 0 datalen longstate
  let csumField ← field m (p + datalen) 4
  let csum := UInt32.ofNat (getBe32 csumField)
  guard (buffaloCsum (UInt32.ofNat datalen) (load m 0 datalen) = csum)
  some
    ({ magic := magic
       product := bcryptBuf (seed.getD 0 0) key product 0 0 prod_len longstate
       version := bcryptBuf (product.getD 0 0) key version 0 0 ver_len longstate
       seed := seed.getD 0 0
       datalen := UInt32.ofNat datalen
       csum := csum }, m)

end UolaOs.Buffalo
