import UolaOs.Lib.BlockHash

/-!
# MD5

The message digest over blocks of 64 bytes, with the steps of the reference code.
-/

namespace UolaOs.Md5

/-- The chaining value. -/
structure State where
  a : UInt32
  b : UInt32
  c : UInt32
  d : UInt32
  deriving DecidableEq

def init : State := ⟨0x67452301, 0xefcdab89, 0x98badcfe, 0x10325476⟩

def F (x y z : UInt32) : UInt32 := (x &&& y) ||| (~~~x &&& z)
def G (x y z : UInt32) : UInt32 := (x &&& z) ||| (y &&& ~~~z)
def H (x y z : UInt32) : UInt32 := x ^^^ y ^^^ z
def I (x y z : UInt32) : UInt32 := y ^^^ (x ||| ~~~z)

def rotateLeft (x n : UInt32) : UInt32 := (x <<< n) ||| (x >>> (32 - n))

/-- A step: a word of the block, a shift and a constant. -/
structure Step where
  word : Nat
  shift : UInt32
  const : UInt32

/-- The roles of the four words turn with each step. -/
def step (f : UInt32 → UInt32 → UInt32 → UInt32) (x : Nat → UInt32) (s : State) (k : Step) :
    State :=
  ⟨s.d, rotateLeft (s.a + (f s.b s.c s.d + x k.word + k.const)) k.shift + s.b, s.b, s.c⟩

def round1 : List Step :=
  [⟨0, 7, 3614090360⟩, ⟨1, 12, 3905402710⟩, ⟨2, 17, 606105819⟩, ⟨3, 22, 3250441966⟩,
    ⟨4, 7, 4118548399⟩, ⟨5, 12, 1200080426⟩, ⟨6, 17, 2821735955⟩, ⟨7, 22, 4249261313⟩,
    ⟨8, 7, 1770035416⟩, ⟨9, 12, 2336552879⟩, ⟨10, 17, 4294925233⟩, ⟨11, 22, 2304563134⟩,
    ⟨12, 7, 1804603682⟩, ⟨13, 12, 4254626195⟩, ⟨14, 17, 2792965006⟩, ⟨15, 22, 1236535329⟩]

def round2 : List Step :=
  [⟨1, 5, 4129170786⟩, ⟨6, 9, 3225465664⟩, ⟨11, 14, 643717713⟩, ⟨0, 20, 3921069994⟩,
    ⟨5, 5, 3593408605⟩, ⟨10, 9, 38016083⟩, ⟨15, 14, 3634488961⟩, ⟨4, 20, 3889429448⟩,
    ⟨9, 5, 568446438⟩, ⟨14, 9, 3275163606⟩, ⟨3, 14, 4107603335⟩, ⟨8, 20, 1163531501⟩,
    ⟨13, 5, 2850285829⟩, ⟨2, 9, 4243563512⟩, ⟨7, 14, 1735328473⟩, ⟨12, 20, 2368359562⟩]

def round3 : List Step :=
  [⟨5, 4, 4294588738⟩, ⟨8, 11, 2272392833⟩, ⟨11, 16, 1839030562⟩, ⟨14, 23, 4259657740⟩,
    ⟨1, 4, 2763975236⟩, ⟨4, 11, 1272893353⟩, ⟨7, 16, 4139469664⟩, ⟨10, 23, 3200236656⟩,
    ⟨13, 4, 681279174⟩, ⟨0, 11, 3936430074⟩, ⟨3, 16, 3572445317⟩, ⟨6, 23, 76029189⟩,
    ⟨9, 4, 3654602809⟩, ⟨12, 11, 3873151461⟩, ⟨15, 16, 530742520⟩, ⟨2, 23, 3299628645⟩]

def round4 : List Step :=
  [⟨0, 6, 4096336452⟩, ⟨7, 10, 1126891415⟩, ⟨14, 15, 2878612391⟩, ⟨5, 21, 4237533241⟩,
    ⟨12, 6, 1700485571⟩, ⟨3, 10, 2399980690⟩, ⟨10, 15, 4293915773⟩, ⟨1, 21, 2240044497⟩,
    ⟨8, 6, 1873313359⟩, ⟨15, 10, 4264355552⟩, ⟨6, 15, 2734768916⟩, ⟨13, 21, 1309151649⟩,
    ⟨4, 6, 4149444226⟩, ⟨11, 10, 3174756917⟩, ⟨2, 15, 718787259⟩, ⟨9, 21, 3951481745⟩]

def State.add (s t : State) : State := ⟨s.a + t.a, s.b + t.b, s.c + t.c, s.d + t.d⟩

def transform (s : State) (x : Nat → UInt32) : State :=
  let t := round1.foldl (step F x) s
  let t := round2.foldl (step G x) t
  let t := round3.foldl (step H x) t
  s.add (round4.foldl (step I x) t)

/-- Word `i` of a block. -/
def word (block : Bytes) (i : Nat) : UInt32 := UInt32.ofNat (leNat (load block (4 * i) 4))

def compress (s : State) (block : Bytes) : State := transform s (word block)

/-- The bytes of a digest. -/
def State.bytes (s : State) : Bytes :=
  leBytes 4 s.a.toNat ++ (leBytes 4 s.b.toNat ++ (leBytes 4 s.c.toNat ++ leBytes 4 s.d.toNat))

@[simp] theorem State.length_bytes (s : State) : s.bytes.length = 16 := by
  simp [State.bytes]

/-- What fills up the last block of a message of `len` bytes. -/
def padding (len : Nat) : Bytes :=
  0x80 :: List.replicate ((119 - len % 64) % 64) 0 ++ leBytes 8 (8 * len)

def digest (message : Bytes) : Bytes :=
  (feed compress 64 (init, []) (message ++ padding message.length)).1.bytes

@[simp] theorem length_digest (message : Bytes) : (digest message).length = 16 :=
  State.length_bytes _

example : digest [] =
    [0xd4, 0x1d, 0x8c, 0xd9, 0x8f, 0x00, 0xb2, 0x04, 0xe9, 0x80, 0x09, 0x98, 0xec, 0xf8, 0x42,
      0x7e] := by decide +kernel

end UolaOs.Md5
