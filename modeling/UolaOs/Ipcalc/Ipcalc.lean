import UolaOs.Lib.CString
import UolaOs.Lib.Numeral
import Mathlib.Data.Nat.Bitwise

/-!
# Address ranges

ipcalc.sh, with the texts of its arguments and the lines that it prints.

* `ip2int_dotted`, `int2ip_eq`: addresses are read and printed with dots;
* `network_eq`, `broadcast_eq`: the masks of a prefix, in arithmetic;
* `ipcalc_range`: what is printed for an address, a mask and a range.
-/

namespace UolaOs.Ipcalc

/-! ## Numbers of awk -/

/-- An awk. The characters of a string are counted from 1; where `substr` begins in front of the
first one, the documentation leaves it open. -/
structure Awk where
  substr : Bytes → Nat → Option Nat → Bytes
  inside : ∀ s m n, 1 ≤ m → substr s m n = (s.drop (m - 1)).take (n.getD s.length)

/-- A text as a number: the digits that it starts with. -/
def toNumber (s : Bytes) : Nat := Nat.ofDigits 10 (takeDigits 10 s).reverse

/-- A number as a text. -/
def decimal (n : Nat) : Bytes :=
  if n = 0 then [0x30] else (Nat.digits 10 n).reverse.map (digitChar false)

/-- An argument of a bit function. -/
def u32 (x : Int) : Nat := (x % 2 ^ 32).toNat

def and (x y : Nat) : Nat := u32 x &&& u32 y
def or (x y : Nat) : Nat := u32 x ||| u32 y
def xor (x y : Nat) : Nat := u32 x ^^^ u32 y
def lshift (x n : Nat) : Nat := (u32 x <<< n) % 2 ^ 32
def rshift (x n : Nat) : Nat := u32 x >>> n

/-! ## The functions -/

def dot : UInt8 := 0x2e

def slash : UInt8 := 0x2f

def bitcount (c : Nat) : Nat :=
  let c := and (rshift c 1) 0x55555555 + and c 0x55555555
  let c := and (rshift c 2) 0x33333333 + and c 0x33333333
  let c := and (rshift c 4) 0x0f0f0f0f + and c 0x0f0f0f0f
  let c := and (rshift c 8) 0x00ff00ff + and c 0x00ff00ff
  and (rshift c 16) 0x0000ffff + and c 0x0000ffff

def ip2int (ip : Bytes) : Nat :=
  (ip.splitOn dot).foldl (fun ret a => or (lshift ret 8) (toNumber a)) 0

/-- One round of the loop of `int2ip`: `ret` and `ip`. -/
def int2ipStep (p : Bytes × Nat) : Bytes × Nat :=
  (decimal (and p.2 255) ++ dot :: p.1, rshift p.2 8)

def int2ip (ip : Int) : Bytes :=
  (int2ipStep (int2ipStep (int2ipStep (decimal (u32 ip &&& 255), u32 ip >>> 8)))).1

def compl32 (v : Nat) : Nat := xor v 0xffffffff

/-- A netmask from the length of its prefix, of at most 32. -/
def maskOf (bits : Nat) : Nat := compl32 (2 ^ (32 - bits) - 1)

/-! ## The program -/

/-- `ipaddr` and `netmask`, and the texts of `ARGV[3]` and `ARGV[4]`. -/
structure Args where
  ipaddr : Nat
  netmask : Nat
  start : Bytes
  num : Bytes

/-- The arguments; one that is not there is the empty text. -/
def readArgs (awk : Awk) (argv : List Bytes) : Args :=
  let arg1 := argv.getD 0 []
  let arg2 := argv.getD 1 []
  let arg3 := argv.getD 2 []
  let arg4 := argv.getD 3 []
  if slash ∈ arg1 then
    let slpos := arg1.idxOf slash + 1
    ⟨ip2int (awk.substr arg1 0 (some (slpos - 1))),
      maskOf (toNumber (awk.substr arg1 (slpos + 1) none)), arg2, arg3⟩
  else ⟨ip2int arg1, if dot ∈ arg2 then ip2int arg2 else maskOf (toNumber arg2), arg3, arg4⟩

namespace Args

variable (a : Args)

def network : Nat := and a.ipaddr a.netmask

def broadcast : Nat := or a.network (compl32 a.netmask)

/-- `start`, which is not below `limit`. -/
def first : Nat := max (or a.network (and (ip2int a.start) (compl32 a.netmask))) (a.network + 1)

/-- `end`, which is not above the second `limit`. -/
def last : Int := min (a.first + toNumber a.num) ((or a.network (compl32 a.netmask) : Int) - 1)

end Args

/-- The lines that are printed. The range is left out when there are at most two arguments. -/
def ipcalc (awk : Awk) (argv : List Bytes) : List Bytes :=
  let a := readArgs awk argv
  [ascii "IP=" ++ int2ip a.ipaddr, ascii "NETMASK=" ++ int2ip a.netmask,
    ascii "BROADCAST=" ++ int2ip a.broadcast, ascii "NETWORK=" ++ int2ip a.network,
    ascii "PREFIX=" ++ decimal (32 - bitcount (compl32 a.netmask))] ++
      if 3 < argv.length + 1 then
        [ascii "START=" ++ int2ip a.first, ascii "END=" ++ int2ip a.last]
      else []

/-! ## What is to be printed -/

/-- An address with dots. -/
def dotted (ip : Nat) : Bytes :=
  [dot].intercalate
    [decimal (ip / 2 ^ 24), decimal (ip / 2 ^ 16 % 2 ^ 8), decimal (ip / 2 ^ 8 % 2 ^ 8),
      decimal (ip % 2 ^ 8)]

/-- An address and the length of a prefix. -/
structure Subnet where
  ip : Nat
  lt : ip < 2 ^ 32
  bits : Nat
  one_le : 1 ≤ bits
  le_30 : bits ≤ 30

/-- A `substr` that takes a start in front of the first character as the first one. -/
def Awk.FromFirst (awk : Awk) : Prop := ∀ s n, awk.substr s 0 n = awk.substr s 1 n

namespace Subnet

variable (s : Subnet)

/-- How many addresses there are. -/
def size : Nat := 2 ^ (32 - s.bits)

def network : Nat := s.ip / s.size * s.size

def broadcast : Nat := s.network + (s.size - 1)

/-- The mask of the prefix. -/
def mask : Nat := 2 ^ 32 - s.size

/-- The two ways to write it. -/
def masks : List Bytes := [decimal s.bits, dotted s.mask]

/-- The lines for a range. -/
def lines (first last : Nat) : List Bytes :=
  [ascii "IP=" ++ dotted s.ip, ascii "NETMASK=" ++ dotted s.mask,
    ascii "BROADCAST=" ++ dotted s.broadcast, ascii "NETWORK=" ++ dotted s.network,
    ascii "PREFIX=" ++ decimal s.bits, ascii "START=" ++ dotted first,
    ascii "END=" ++ dotted last]

end Subnet

/-- The text of an address and the length of a prefix. -/
def slashed (s : Subnet) : Bytes := dotted s.ip ++ slash :: decimal s.bits

/-- What is printed for a start offset and a number, where `size` is how many addresses there are
to be between `START` and `END`. -/
structure Printed (awk : Awk) (s : Subnet) (start num : Bytes) (size : Nat → Nat) : Prop where
  range : ∃ first last, (∀ mask ∈ s.masks, ipcalc awk [dotted s.ip, mask, start, num] =
      s.lines first last) ∧ first < 2 ^ 32 ∧ last < 2 ^ 32 ∧
    (1 ≤ ip2int start → ip2int start ≤ s.size - 2 →
      s.network + 1 ≤ first ∧ first ≤ last ∧ last ≤ s.broadcast - 1) ∧
        last + 1 - first = size first

/-! ## Digits -/

section
variable {n : Nat} {c : UInt8}

theorem digit_decimal (h : c ∈ decimal n) : ∃ d < 10, c = digitChar false d := by
  rw [decimal] at h
  split_ifs at h
  · exact ⟨0, by decide, List.mem_singleton.mp h⟩
  · obtain ⟨d, hd, rfl⟩ := List.mem_map.mp h
    exact ⟨d, Nat.digits_lt_base (by decide) (List.mem_reverse.mp hd), rfl⟩

theorem dot_notMem_decimal (n : Nat) : dot ∉ decimal n := by
  intro h
  obtain ⟨d, hd, heq⟩ := digit_decimal h
  interval_cases d <;> exact absurd heq (by decide)

theorem slash_notMem_decimal (n : Nat) : slash ∉ decimal n := by
  intro h
  obtain ⟨d, hd, heq⟩ := digit_decimal h
  interval_cases d <;> exact absurd heq (by decide)

theorem takeDigits_map {ds : List Nat} (h : ∀ d ∈ ds, d < 10) :
    takeDigits 10 (ds.map (digitChar false)) = ds := by
  induction ds with
  | nil => rfl
  | cons d ds ih =>
    obtain ⟨hd, hds⟩ := List.forall_mem_cons.mp h
    rw [List.map_cons, takeDigits, digitValue_digitChar false (hd.trans (by decide))]
    dsimp only
    rw [if_pos hd, ih hds]

theorem toNumber_decimal (n : Nat) : toNumber (decimal n) = n := by
  rw [toNumber, decimal]
  split_ifs with hn
  · rw [hn]
    rfl
  · rw [takeDigits_map, List.reverse_reverse, Nat.ofDigits_digits]
    exact fun d hd => Nat.digits_lt_base (by decide) (List.mem_reverse.mp hd)

theorem u32_of_lt (h : n < 2 ^ 32) : u32 n = n := by
  rw [u32]
  omega

theorem u32_lt (x : Int) : u32 x < 2 ^ 32 := by
  rw [u32]
  omega

end

/-! ## Addresses as texts -/

section
variable {ip : Nat}

theorem or_lshift {ret a : Nat} (hret : ret < 2 ^ 24) (ha : a < 2 ^ 8) :
    or (lshift ret 8) a = ret * 2 ^ 8 + a := by
  have hshift : ret <<< 8 = ret * 2 ^ 8 := Nat.shiftLeft_eq ret 8
  have hlt : ret <<< 8 < 2 ^ 32 := by omega
  rw [lshift, u32_of_lt (by omega), Nat.mod_eq_of_lt hlt, or, u32_of_lt hlt, u32_of_lt (by omega),
    ← Nat.shiftLeft_add_eq_or_of_lt ha, hshift]

theorem dotted_parts (h : ip < 2 ^ 32) : ∃ a b c d : Nat, a < 2 ^ 8 ∧ b < 2 ^ 8 ∧ c < 2 ^ 8 ∧
    d < 2 ^ 8 ∧ ip = ((a * 2 ^ 8 + b) * 2 ^ 8 + c) * 2 ^ 8 + d ∧
      dotted ip = [dot].intercalate [decimal a, decimal b, decimal c, decimal d] :=
  ⟨ip / 2 ^ 24, ip / 2 ^ 16 % 2 ^ 8, ip / 2 ^ 8 % 2 ^ 8, ip % 2 ^ 8, by omega, by omega, by omega,
    by omega, by omega, rfl⟩

theorem octet_lt {n a : Nat} (hn : n < 2 ^ 16) (ha : a < 2 ^ 8) : n * 2 ^ 8 + a < 2 ^ 24 := by omega

/-- An address with dots is read. -/
theorem ip2int_dotted (h : ip < 2 ^ 32) : ip2int (dotted ip) = ip := by
  obtain ⟨a, b, c, d, ha, hb, hc, hd, rfl, htext⟩ := dotted_parts h
  clear h
  have hsplit : (dotted (((a * 2 ^ 8 + b) * 2 ^ 8 + c) * 2 ^ 8 + d)).splitOn dot =
      [decimal a, decimal b, decimal c, decimal d] := by
    rw [htext]
    refine List.splitOn_intercalate dot ?_ (List.cons_ne_nil _ _)
    simp [dot_notMem_decimal]
  rw [ip2int, hsplit]
  simp only [List.foldl_cons, List.foldl_nil, toNumber_decimal]
  have h8 : a < 2 ^ 24 := by omega
  have h16 : a * 2 ^ 8 + b < 2 ^ 24 := by omega
  have h24 : (a * 2 ^ 8 + b) * 2 ^ 8 + c < 2 ^ 24 := octet_lt (by omega) hc
  have hfirst : or (lshift 0 8) a = a :=
    (or_lshift (Nat.two_pow_pos 24) ha).trans (by rw [Nat.zero_mul, Nat.zero_add])
  rw [hfirst, or_lshift h8 hb, or_lshift h16 hc, or_lshift h24 hd]

theorem int2ipStep_eq {ip : Nat} (h : ip < 2 ^ 32) (ret : Bytes) :
    int2ipStep (ret, ip) = (decimal (ip % 2 ^ 8) ++ dot :: ret, ip / 2 ^ 8) := by
  have hmask : ip &&& 255 = ip % 2 ^ 8 := Nat.and_two_pow_sub_one_eq_mod ip 8
  have h255 : u32 ((255 : Nat) : Int) = 255 := u32_of_lt (by omega)
  rw [int2ipStep]
  dsimp only
  rw [and, rshift, u32_of_lt h, h255, hmask, Nat.shiftRight_eq_div_pow]

/-- An address is printed with dots. -/
theorem int2ip_eq (h : ip < 2 ^ 32) : int2ip ip = dotted ip := by
  have hmask : ip &&& 255 = ip % 2 ^ 8 := Nat.and_two_pow_sub_one_eq_mod ip 8
  have h1 : ip / 2 ^ 8 < 2 ^ 32 := by omega
  have h2 : ip / 2 ^ 8 / 2 ^ 8 < 2 ^ 32 := by omega
  have h3 : ip / 2 ^ 8 / 2 ^ 8 / 2 ^ 8 < 2 ^ 32 := by omega
  rw [int2ip, u32_of_lt h, hmask, Nat.shiftRight_eq_div_pow, int2ipStep_eq h1, int2ipStep_eq h2,
    int2ipStep_eq h3, dotted]
  have h16 : ip / 2 ^ 8 / 2 ^ 8 = ip / 2 ^ 16 := by omega
  have h24 : ip / 2 ^ 16 / 2 ^ 8 % 2 ^ 8 = ip / 2 ^ 24 := by omega
  rw [h16, h24]
  simp [List.intercalate]

/-- The text of a small number is itself read as an address. -/
theorem ip2int_decimal (h : ip < 2 ^ 32) : ip2int (decimal ip) = ip := by
  have hsplit : (decimal ip).splitOn dot = [decimal ip] :=
    List.splitOnP_eq_singleton fun x hx => beq_eq_false_iff_ne.mpr fun heq =>
      dot_notMem_decimal ip (heq ▸ hx)
  rw [ip2int, hsplit, List.foldl_cons, List.foldl_nil, toNumber_decimal, or, u32_of_lt h]
  exact Nat.zero_or ip

theorem slash_notMem_dotted (ip : Nat) : slash ∉ dotted ip := by
  have hdot : slash ≠ dot := by decide
  simp [dotted, List.intercalate, slash_notMem_decimal, hdot]

theorem dot_mem_dotted (ip : Nat) : dot ∈ dotted ip := by
  simp [dotted, List.intercalate]

end

/-! ## Masks -/

section
variable {k : Nat}

theorem testBit_ones (i : Nat) : (0xffffffff : Nat).testBit i = decide (i < 32) :=
  Nat.testBit_two_pow_sub_one 32 i

theorem compl32_compl32 {v : Nat} (h : v < 2 ^ 32) : compl32 (compl32 v) = v := by
  have hones : u32 ((0xffffffff : Nat) : Int) = 0xffffffff := u32_of_lt (by omega)
  have hlt : v ^^^ 0xffffffff < 2 ^ 32 := Nat.xor_lt_two_pow h (by omega)
  rw [compl32, compl32, xor, xor, hones, u32_of_lt h, u32_of_lt hlt, Nat.xor_assoc, Nat.xor_self,
    Nat.xor_zero]

/-- The mask of all but the last `k` bits. -/
theorem compl32_ones (hk : k ≤ 32) : compl32 (2 ^ k - 1) = 2 ^ 32 - 2 ^ k := by
  have hle : 2 ^ k ≤ 2 ^ 32 := Nat.pow_le_pow_right (by decide) hk
  have hones : u32 ((0xffffffff : Nat) : Int) = 0xffffffff := u32_of_lt (by omega)
  have hlow : 2 ^ k - 1 < 2 ^ 32 := by omega
  have hsum : 2 ^ 32 - 2 ^ k = 2 ^ 32 - 1 - (2 ^ k - 1) := by
    have hpos := Nat.two_pow_pos k
    omega
  rw [compl32, xor, hones, u32_of_lt hlow, hsum]
  apply Nat.eq_of_testBit_eq
  intro i
  rw [Nat.testBit_xor, testBit_ones, Nat.testBit_two_pow_sub_one, Nat.sub_sub,
    Nat.add_comm, Nat.testBit_two_pow_sub_succ hlow, Nat.testBit_two_pow_sub_one]
  by_cases h32 : i < 32 <;> by_cases hi : i < k
  · simp [h32, hi]
  · simp [h32, hi]
  · omega
  · simp [h32, hi]

theorem and_compl32 {x : Nat} (hx : x < 2 ^ 32) (hk : k ≤ 32) :
    and x (2 ^ 32 - 2 ^ k) = x / 2 ^ k * 2 ^ k := by
  have hpos := Nat.two_pow_pos k
  have hle : 2 ^ k ≤ 2 ^ 32 := Nat.pow_le_pow_right (by decide) hk
  have hsum : 2 ^ 32 - 2 ^ k = 2 ^ 32 - (2 ^ k - 1 + 1) := by omega
  rw [and, u32_of_lt hx, u32_of_lt (by omega), hsum]
  apply Nat.eq_of_testBit_eq
  intro i
  rw [Nat.testBit_and, Nat.testBit_two_pow_sub_succ (by omega), Nat.testBit_two_pow_sub_one,
    Nat.testBit_mul_two_pow, Nat.testBit_div_two_pow]
  by_cases hi : k ≤ i
  · have hnot : ¬ i < k := by omega
    by_cases h32 : i < 32
    · simp [hi, h32, hnot]
    · have hzero : x.testBit i = false :=
        Nat.testBit_lt_two_pow (hx.trans_le (Nat.pow_le_pow_right (by decide) (by omega)))
      simp [hi, h32, hzero]
  · have hlt : i < k := by omega
    simp [hi, hlt]

theorem and_ones {x : Nat} (hk : k ≤ 32) : and x (2 ^ k - 1) = u32 x % 2 ^ k := by
  have hle : 2 ^ k ≤ 2 ^ 32 := Nat.pow_le_pow_right (by decide) hk
  have hpos := Nat.two_pow_pos k
  rw [and, u32_of_lt (by omega : 2 ^ k - 1 < 2 ^ 32), Nat.and_two_pow_sub_one_eq_mod]

/-- Bits in front of the last `k`, with the last `k`. -/
theorem or_low {m low : Nat} (hm : m * 2 ^ k + low < 2 ^ 32) (hlow : low < 2 ^ k) :
    or (m * 2 ^ k) low = m * 2 ^ k + low := by
  rw [or, u32_of_lt (by omega), u32_of_lt (by omega), ← Nat.shiftLeft_eq,
    Nat.shiftLeft_add_eq_or_of_lt hlow]

theorem bitcount_ones : ∀ k < 32, bitcount (2 ^ k - 1) = k := by decide

end

/-! ## The lines of a call -/

namespace Subnet

variable (s : Subnet)

theorem size_le : s.size ≤ 2 ^ 31 :=
  Nat.pow_le_pow_right (by decide) (by have := s.one_le; omega)

theorem four_le_size : 4 ≤ s.size :=
  Nat.pow_le_pow_right (n := 2) (by decide) (by have := s.le_30; omega : 2 ≤ 32 - s.bits)

theorem size_dvd : s.size ∣ 2 ^ 32 := Nat.pow_dvd_pow 2 (by omega)

theorem bits_le : 32 - s.bits ≤ 32 := by omega

theorem maskOf_eq : maskOf s.bits = s.mask := compl32_ones s.bits_le

theorem compl32_mask : compl32 s.mask = s.size - 1 := by
  have hlt : s.size - 1 < 2 ^ 32 := by
    have := s.size_le
    omega
  rw [← s.maskOf_eq, maskOf]
  exact compl32_compl32 hlt

theorem network_add (j : Nat) (hj : j < s.size) : s.network + j < 2 ^ 32 := by
  obtain ⟨m, hm⟩ := s.size_dvd
  have hip := s.lt
  rw [hm] at hip ⊢
  have hdiv : s.ip / s.size < m := Nat.div_lt_of_lt_mul hip
  calc s.network + j < s.network + s.size := Nat.add_lt_add_left hj _
    _ = (s.ip / s.size + 1) * s.size := (Nat.succ_mul _ _).symm
    _ ≤ m * s.size := Nat.mul_le_mul_right _ hdiv
    _ = s.size * m := Nat.mul_comm _ _

theorem mask_lt : s.mask < 2 ^ 32 := by
  have := s.four_le_size
  rw [mask]
  omega

/-- Both ways to write the mask are read. -/
theorem readMask {text : Bytes} (h : text ∈ s.masks) :
    (if dot ∈ text then ip2int text else maskOf (toNumber text)) = s.mask := by
  rcases List.mem_cons.mp h with rfl | h
  · rw [if_neg (dot_notMem_decimal s.bits), toNumber_decimal, s.maskOf_eq]
  · rw [List.mem_singleton.mp h, if_pos (dot_mem_dotted s.mask), ip2int_dotted s.mask_lt]

/-- The arguments of a call, as they are read. -/
def args (start num : Bytes) : Args := ⟨s.ip, s.mask, start, num⟩

variable (start num : Bytes)

theorem network_eq : (s.args start num).network = s.network :=
  and_compl32 s.lt s.bits_le

/-- The network with a number of the host. -/
theorem or_host {j : Nat} (hj : j < s.size) : or s.network j = s.network + j :=
  or_low (s.network_add j hj) hj

theorem broadcast_eq : (s.args start num).broadcast = s.broadcast := by
  rw [Args.broadcast, s.network_eq, args, s.compl32_mask, broadcast]
  exact s.or_host (by have := s.four_le_size; omega)

/-- The offset is that of the host, and not the network itself. -/
theorem first_eq : (s.args start num).first =
    s.network + max (ip2int start % 2 ^ 32 % s.size) 1 := by
  have hhost : and (ip2int start) (s.size - 1) = ip2int start % 2 ^ 32 % s.size := by
    have hu32 : u32 (ip2int start) = ip2int start % 2 ^ 32 := by
      rw [u32]
      omega
    rw [size, and_ones s.bits_le, hu32]
  have hlt : ip2int start % 2 ^ 32 % s.size < s.size :=
    Nat.mod_lt _ (by have := s.four_le_size; omega)
  rw [Args.first, s.network_eq, args, s.compl32_mask, hhost, s.or_host hlt, Nat.add_max_add_left]

theorem last_eq : (s.args start num).last =
    ((min ((s.args start num).first + toNumber num) (s.broadcast - 1) : Nat) : Int) := by
  have hbroadcast : or (s.args start num).network (compl32 (s.args start num).netmask) =
      s.broadcast := s.broadcast_eq start num
  have hpos : 1 ≤ s.broadcast := by
    have := s.four_le_size
    rw [broadcast]
    omega
  rw [Args.last, hbroadcast, Nat.cast_min, Nat.cast_add, Nat.cast_sub hpos, Nat.cast_one]
  rfl

end Subnet

section
variable (awk : Awk) (s : Subnet) (start num : Bytes)

/-- The end of the range. -/
def lastOf : Nat := min ((s.args start num).first + toNumber num) (s.broadcast - 1)

theorem broadcast_lt : s.broadcast < 2 ^ 32 :=
  s.network_add _ (by have := s.four_le_size; omega)

theorem first_bounds : s.network + 1 ≤ (s.args start num).first ∧
    (s.args start num).first ≤ s.broadcast := by
  have hsize := s.four_le_size
  have hlt : ip2int start % 2 ^ 32 % s.size < s.size := Nat.mod_lt _ (by omega)
  rw [s.first_eq, Subnet.broadcast]
  generalize ip2int start % 2 ^ 32 % s.size = j at hlt
  omega

/-- The lines of a call with a range. -/
theorem ipcalc_lines {mask : Bytes} (hmask : mask ∈ s.masks) :
    ipcalc awk [dotted s.ip, mask, start, num] =
      s.lines (s.args start num).first (lastOf s start num) := by
  have hargs : readArgs awk [dotted s.ip, mask, start, num] = s.args start num := by
    rw [readArgs]
    simp only [List.getD_cons_zero, List.getD_cons_succ]
    rw [if_neg (slash_notMem_dotted s.ip), s.readMask hmask, ip2int_dotted s.lt]
    rfl
  have hbits : 32 - bitcount (compl32 s.mask) = s.bits := by
    have hone := s.one_le
    have hle := s.le_30
    rw [s.compl32_mask, Subnet.size, bitcount_ones _ (by omega)]
    omega
  have hnetwork : s.network < 2 ^ 32 := s.network_add 0 (by have := s.four_le_size; omega)
  have hbroadcast := broadcast_lt s
  have hfirst : (s.args start num).first < 2 ^ 32 :=
    (first_bounds s start num).2.trans_lt hbroadcast
  have hlast : lastOf s start num < 2 ^ 32 := by
    rw [lastOf]
    omega
  rw [ipcalc, hargs, s.network_eq, s.broadcast_eq, s.last_eq, ← lastOf, int2ip_eq hfirst,
    int2ip_eq hlast,
    int2ip_eq hnetwork, int2ip_eq hbroadcast]
  dsimp only [Subnet.args]
  rw [int2ip_eq s.lt, int2ip_eq s.mask_lt, hbits]
  rfl

/-- How many addresses are in the range: one more than its number, as long as there are some. -/
theorem size_range : lastOf s start num + 1 - (s.args start num).first =
    min (toNumber num + 1) (s.broadcast - (s.args start num).first) := by
  have hfirst := first_bounds s start num
  rw [lastOf]
  generalize (s.args start num).first = first at hfirst
  omega

theorem range_inside (hle : ip2int start ≤ s.size - 2) :
    s.network + 1 ≤ (s.args start num).first ∧
      (s.args start num).first ≤ lastOf s start num ∧ lastOf s start num ≤ s.broadcast - 1 := by
  have hsize := s.size_le
  have hfour := s.four_le_size
  have hmod : ip2int start % 2 ^ 32 % s.size = ip2int start := by
    rw [Nat.mod_eq_of_lt (by omega : ip2int start < 2 ^ 32), Nat.mod_eq_of_lt (by omega)]
  rw [lastOf, s.first_eq, hmod, Subnet.broadcast]
  omega

/-- The two calls have the same arguments. -/
theorem readArgs_slashed (hawk : awk.FromFirst) (rest : List Bytes) :
    readArgs awk (slashed s :: rest) = readArgs awk (dotted s.ip :: decimal s.bits :: rest) := by
  have hslash : slash ∈ slashed s := List.mem_append_right _ List.mem_cons_self
  have hidx : (slashed s).idxOf slash = (dotted s.ip).length := by
    rw [slashed, List.idxOf_append_of_notMem (slash_notMem_dotted s.ip), List.idxOf_cons_self]
    rfl
  have haddr : awk.substr (slashed s) 0 (some (dotted s.ip).length) = dotted s.ip := by
    rw [hawk, awk.inside _ 1 _ (Nat.le_refl 1), slashed]
    exact List.take_left
  have hbits : awk.substr (slashed s) ((dotted s.ip).length + 2) none = decimal s.bits := by
    have hstart : (dotted s.ip).length + 2 - 1 = (dotted s.ip).length + 1 := rfl
    rw [awk.inside _ _ _ (by omega), slashed, hstart, ← List.drop_drop, List.drop_left]
    refine List.take_of_length_le ?_
    rw [List.length_append, List.drop_one, List.tail_cons, List.length_cons, Option.getD_none]
    omega
  rw [readArgs, readArgs]
  simp only [List.getD_cons_zero, List.getD_cons_succ]
  rw [if_pos hslash, if_neg (slash_notMem_dotted s.ip), hidx, Nat.add_sub_cancel, haddr, hbits,
    if_neg (dot_notMem_decimal s.bits)]

/-- **The range of a call.** It has one more address than its number says, up to the last one of
the network. -/
theorem ipcalc_range : (∀ start num, Printed awk s start num fun first =>
      min (toNumber num + 1) (s.broadcast - first)) ∧
    (awk.FromFirst → ∀ rest : List Bytes, rest.length ≠ 1 →
      ipcalc awk (slashed s :: rest) = ipcalc awk (dotted s.ip :: decimal s.bits :: rest)) := by
  constructor
  · intro start num
    have hbroadcast := broadcast_lt s
    refine ⟨(s.args start num).first, lastOf s start num, fun mask hmask =>
      ipcalc_lines awk s start num hmask, (first_bounds s start num).2.trans_lt hbroadcast, ?_,
      fun _ => range_inside s start num, size_range s start num⟩
    rw [lastOf]
    omega
  · intro hawk rest hrest
    have hargs : (3 < (slashed s :: rest).length + 1) ↔
        3 < (dotted s.ip :: decimal s.bits :: rest).length + 1 := by
      simp only [List.length_cons]
      omega
    rw [ipcalc, ipcalc, readArgs_slashed awk s hawk, if_congr hargs rfl rfl]

end

/-! ## Ten more addresses -/

/-- An awk that takes a start of 0 as 1. -/
def fromFirst : Awk := ⟨fun s m n => (s.drop (m - 1)).take (n.getD s.length), fun _ _ _ _ => rfl⟩

theorem lines_injective {s : Subnet} {first first' last last' : Nat} (h1 : first < 2 ^ 32)
    (h2 : first' < 2 ^ 32) (h3 : last < 2 ^ 32) (h4 : last' < 2 ^ 32)
    (h : s.lines first last = s.lines first' last') : first = first' ∧ last = last' := by
  rw [Subnet.lines, Subnet.lines] at h
  simp only [List.cons.injEq, true_and, and_true] at h
  refine ⟨?_, ?_⟩
  · rw [← ip2int_dotted h1, List.append_cancel_left h.1, ip2int_dotted h2]
  · rw [← ip2int_dotted h3, List.append_cancel_left h.2, ip2int_dotted h4]

theorem homeAddress_lt : 0xc0a80101 < 2 ^ 32 := by decide

/-- 192.168.1.1/24 -/
def home : Subnet := ⟨0xc0a80101, homeAddress_lt, 24, by decide, by decide⟩

/-- Ten addresses from 192.168.1.100 on are eleven. -/
theorem ipcalc_eleven : ¬ Printed fromFirst home (decimal 100) (decimal 10) fun first =>
    min 10 (home.broadcast - first) := by
  rintro ⟨first, last, hlines, hfirst, hlast, -, hsize⟩
  have hmask : decimal home.bits ∈ home.masks := List.mem_cons_self
  have hbounds := first_bounds home (decimal 100) (decimal 10)
  have hbroadcast := broadcast_lt home
  have heq := (hlines _ hmask).symm.trans (ipcalc_lines fromFirst home _ _ hmask)
  obtain ⟨rfl, rfl⟩ := lines_injective hfirst (hbounds.2.trans_lt hbroadcast) hlast
    (by rw [lastOf]; omega) heq
  rw [size_range, toNumber_decimal, home.first_eq, ip2int_decimal (by decide)] at hsize
  exact absurd hsize (by decide)

end UolaOs.Ipcalc
