import Mathlib.Data.Int.Init
import UolaOs.Lib.Bytes

/-!
# Where ptgen puts the partitions

The loop that `gen_ptable` and `gen_gptable` of ptgen.c share, on a host with a `long` of 64 bits.

* `place`: the first sector of a partition and the one behind it, from the end of the one before;
* `exactStart`, `exactEnd`: the same in numbers that do not wrap;
* `place_exact`: they agree below sector `2 ^ 63`.
-/

namespace UolaOs.Ptgen

/-- `struct partinfo`, in units of 1 KiB. -/
structure Part where
  start : UInt64
  size : UInt64
  type : UInt8
  deriving DecidableEq

/-- The options. -/
structure Options where
  heads : Nat
  sectors : Nat
  /-- `kb_align`, in sectors. -/
  kbAlign : Nat
  /-- `ignore_null_sized_partition` -/
  ignoreNull : Bool
  active : Nat
  heads_pos : 0 < heads
  sectors_pos : 0 < sectors
  heads_lt : heads < 2 ^ 31
  sectors_lt : sectors < 2 ^ 31
  kbAlign_lt : kbAlign < 2 ^ 31

/-- An `unsigned long` as a `long`. -/
def signed (x : Nat) : Int := if x < 2 ^ 63 then x else x - 2 ^ 64

/-- A `long` as an `unsigned long`. -/
def ulong (x : Int) : Nat := (x % 2 ^ 64).toNat

/-- `DISK_SECTOR_SIZE` -/
def diskSectorSize : Nat := 512

namespace Options

variable (o : Options)

/-- `cyl_size`, a product of two `int`s. -/
def cylSize : Int :=
  let n : Nat := o.heads * o.sectors % 2 ^ 32
  if n < 2 ^ 31 then (n : Int) else (n : Int) - 2 ^ 32

/-- `round_to_cyl`, or `none` at a division by zero. -/
def roundToCyl (sect : Nat) : Option Nat :=
  if o.cylSize = 0 then none
  else some (ulong (signed sect + o.cylSize - (signed sect).tmod o.cylSize))

/-- `round_to_kb` -/
def roundToKb (sect : Nat) : Nat := ulong (((signed sect - 1).tdiv o.kbAlign + 1) * o.kbAlign)

/-- The start of a partition, or `none` if it is invalid. -/
def placeStart (sect : Nat) (p : Part) : Option Nat :=
  let start := (sect + o.sectors) % 2 ^ 64
  if p.start ≠ 0 then
    let explicit := p.start.toNat * 2 % 2 ^ 64
    if explicit < start then none else some explicit
  else if o.kbAlign ≠ 0 then some (o.roundToKb start) else some start

/-- `sect` behind a partition. -/
def placeEnd (start : Nat) (p : Part) : Option Nat :=
  let sect := (start + p.size.toNat * 2) % 2 ^ 64
  if o.kbAlign = 0 then o.roundToCyl sect else some sect

def place (sect : Nat) (p : Part) : Option (Nat × Nat) :=
  (o.placeStart sect p).bind fun start => (o.placeEnd start p).map fun sect => (start, sect)

/-- The loop over the partitions: where each is, unless it is null, and `sect` at the end. -/
def placeAll : Nat → List Part → Option (List (Option (Nat × Nat)) × Nat)
  | sect, [] => some ([], sect)
  | sect, p :: ps =>
    if p.size = 0 then
      if o.ignoreNull then (placeAll sect ps).map fun r => (none :: r.1, r.2) else none
    else
      (o.place sect p).bind fun q => (placeAll q.2 ps).map fun r => (some q :: r.1, r.2)

/-! ## Without wraparound -/

def exactStart (sect : Nat) (p : Part) : Nat :=
  if p.start ≠ 0 then 2 * p.start.toNat
  else if o.kbAlign ≠ 0 then roundUp (sect + o.sectors) o.kbAlign
  else sect + o.sectors

def exactEnd (start : Nat) (p : Part) : Nat :=
  let sect := start + 2 * p.size.toNat
  if o.kbAlign = 0 then sect + o.cylSize.toNat - sect % o.cylSize.toNat else sect

end Options

section
variable {o : Options} {sect start x : Nat} {p : Part} {q : Nat × Nat}

theorem signed_of_lt (h : x < 2 ^ 63) : signed x = x := if_pos h

theorem ulong_of_lt (h : x < 2 ^ 64) : ulong x = x := by
  rw [ulong]
  omega

theorem cylSize_bounds (o : Options) : -2 ^ 31 ≤ o.cylSize ∧ o.cylSize < 2 ^ 31 := by
  rw [Options.cylSize]
  split <;> omega

theorem roundToKb_of_lt (hkb : o.kbAlign ≠ 0) (hpos : 0 < x) (hx : roundUp x o.kbAlign < 2 ^ 63) :
    o.roundToKb x = roundUp x o.kbAlign := by
  have hle := le_roundUp x (Nat.pos_of_ne_zero hkb)
  have hnat : ((x : Int) - 1).tdiv o.kbAlign + 1 = ((x + (o.kbAlign - 1)) / o.kbAlign : Nat) := by
    have hpred : (x : Int) - 1 = ((x - 1 : Nat) : Int) := by omega
    have hshift : x + (o.kbAlign - 1) = x - 1 + o.kbAlign := by omega
    rw [hpred, hshift, Nat.add_div_right _ (Nat.pos_of_ne_zero hkb), ← Int.ofNat_tdiv]
    rfl
  rw [Options.roundToKb, signed_of_lt (by omega), hnat, ← Int.natCast_mul, ← roundUp,
    ulong_of_lt (by omega)]

theorem roundToCyl_spec {y : Nat} (hx : x < 2 ^ 63) (h : o.roundToCyl x = some y) :
    (0 < o.cylSize → y = x + o.cylSize.toNat - x % o.cylSize.toNat ∧ x < y ∧ y < x + 2 ^ 31) ∧
      (¬ 0 < o.cylSize → y < x ∨ (2 ^ 64 - 2 ^ 32 ≤ y ∧ y < 2 ^ 64)) := by
  obtain ⟨hlo, hhi⟩ := cylSize_bounds o
  obtain ⟨hzero, hy⟩ := Option.ite_none_left_eq_some.mp h
  have hmod : (x : Int).tmod o.cylSize = x % o.cylSize :=
    Int.tmod_eq_emod_of_nonneg (Int.natCast_nonneg x)
  rw [Option.some.injEq, signed_of_lt (by omega), hmod, ulong] at hy
  have hnonneg := Int.emod_nonneg x hzero
  have hltAbs := Int.emod_lt_abs x hzero
  refine ⟨fun hpos => ?_, fun hneg => ?_⟩
  · obtain ⟨c, hc⟩ := Int.eq_ofNat_of_zero_le (Int.le_of_lt hpos)
    rw [hc] at hpos hy ⊢
    have hlt := Nat.mod_lt x (show 0 < c by omega)
    have hle := Nat.mod_le x c
    rw [← Int.natCast_emod] at hy
    rw [Int.toNat_natCast]
    omega
  · rw [abs_of_nonpos (Int.not_lt.mp hneg)] at hltAbs
    omega

theorem two_mul_start_le (o : Options) (sect : Nat) (p : Part) :
    2 * p.start.toNat ≤ o.exactStart sect p := by
  rw [Options.exactStart]
  by_cases hstart : p.start ≠ 0
  · rw [if_pos hstart]
  · rw [not_not.mp hstart]
    exact Nat.zero_le _

theorem exactStart_explicit (h : p.start ≠ 0) : o.exactStart sect p = 2 * p.start.toNat := if_pos h

theorem le_exactEnd (start : Nat) (p : Part) (hcyl : o.kbAlign = 0 → 0 < o.cylSize) :
    start + 2 * p.size.toNat ≤ o.exactEnd start p := by
  rw [Options.exactEnd]
  split
  · rename_i hkb
    have hlt := Nat.mod_lt (start + 2 * p.size.toNat) (Int.lt_toNat.mpr (hcyl hkb))
    omega
  · exact Nat.le_refl _

/-- A start that does not wrap is a track behind the partition before. -/
theorem placeStart_of_lt (hsect : sect < 2 ^ 63) (hx : o.exactStart sect p < 2 ^ 63)
    (h : o.placeStart sect p = some start) :
    start = o.exactStart sect p ∧ sect + o.sectors ≤ start := by
  have hlt := o.sectors_lt
  have hpos := o.sectors_pos
  have hexplicit := two_mul_start_le o sect p
  rw [Options.placeStart] at h
  dsimp only at h
  rw [Nat.mod_eq_of_lt (show sect + o.sectors < 2 ^ 64 by omega), Nat.mul_comm,
    Nat.mod_eq_of_lt (show 2 * p.start.toNat < 2 ^ 64 by omega)] at h
  rw [Options.exactStart] at hx ⊢
  by_cases hstart : p.start ≠ 0
  · rw [if_pos hstart] at h ⊢
    obtain ⟨hge, hs⟩ := Option.ite_none_left_eq_some.mp h
    have hs := Option.some.inj hs
    omega
  rw [if_neg hstart] at h hx ⊢
  by_cases hkb : o.kbAlign ≠ 0
  · rw [if_pos hkb] at h hx ⊢
    have hs := Option.some.inj h
    rw [roundToKb_of_lt hkb (by omega) hx] at hs
    rw [← hs]
    exact ⟨rfl, le_roundUp _ (Nat.pos_of_ne_zero hkb)⟩
  · rw [if_neg hkb] at h ⊢
    have hs := Option.some.inj h
    omega

/-- An end that does not wrap is behind the size of the partition. -/
theorem placeEnd_of_lt (hcyl : o.kbAlign = 0 → 0 < o.cylSize)
    (hstart : start + 2 * p.size.toNat < 2 ^ 63) (h : o.placeEnd start p = some x) :
    x = o.exactEnd start p ∧ x < start + 2 * p.size.toNat + 2 ^ 31 := by
  rw [Options.placeEnd, Nat.mul_comm,
    Nat.mod_eq_of_lt (show start + 2 * p.size.toNat < 2 ^ 64 by omega)] at h
  rw [Options.exactEnd]
  by_cases hkb : o.kbAlign = 0
  · rw [if_pos hkb] at h ⊢
    obtain ⟨heq, -, hle⟩ := (roundToCyl_spec (by omega) h).1 (hcyl hkb)
    exact ⟨heq, hle⟩
  · rw [if_neg hkb] at h ⊢
    have hx := Option.some.inj h
    omega

theorem place_eq_some (h : o.place sect p = some q) :
    o.placeStart sect p = some q.1 ∧ o.placeEnd q.1 p = some q.2 := by
  obtain ⟨start, hstart, h⟩ := Option.bind_eq_some_iff.mp h
  obtain ⟨last, hlast, rfl⟩ := Option.map_eq_some_iff.mp h
  exact ⟨hstart, hlast⟩

/-- A partition below sector `2 ^ 63`, in numbers that do not wrap. Where it is rounded up to a
cylinder, that is a positive `int`. -/
structure Options.RoomAt (o : Options) (sect : Nat) (p : Part) : Prop where
  lt : o.exactEnd (o.exactStart sect p) p < 2 ^ 63
  cyl : o.kbAlign = 0 → 0 < o.cylSize

/-- **A partition.** It is a track behind the one before, and has the size. -/
theorem place_exact (hsect : sect < 2 ^ 63) (hroom : o.RoomAt sect p)
    (h : o.place sect p = some q) :
    q.1 = o.exactStart sect p ∧ q.2 = o.exactEnd q.1 p ∧ sect + o.sectors ≤ q.1 ∧
      q.1 + 2 * p.size.toNat ≤ q.2 := by
  obtain ⟨hlt, hcyl⟩ := hroom
  have hsize := le_exactEnd (o.exactStart sect p) p hcyl
  obtain ⟨hs, he⟩ := place_eq_some h
  obtain ⟨heqStart, htrack⟩ := placeStart_of_lt hsect (by omega) hs
  rw [← heqStart] at hsize hlt
  obtain ⟨heqEnd, -⟩ := placeEnd_of_lt hcyl (by omega) he
  exact ⟨heqStart, heqEnd, htrack, by omega⟩

/-- The loop on a partition. -/
theorem placeAll_cons {ps : List Part} {r : List (Option (Nat × Nat)) × Nat}
    (h : o.placeAll sect (p :: ps) = some r) :
    (p.size = 0 ∧ ∃ rest, o.placeAll sect ps = some rest ∧ r = (none :: rest.1, rest.2)) ∨
      (p.size ≠ 0 ∧ ∃ q rest, o.place sect p = some q ∧ o.placeAll q.2 ps = some rest ∧
        r = (some q :: rest.1, rest.2)) := by
  rw [Options.placeAll] at h
  by_cases hsize : p.size = 0
  · rw [if_pos hsize] at h
    obtain ⟨-, h⟩ := Option.ite_none_right_eq_some.mp h
    obtain ⟨rest, hrest, rfl⟩ := Option.map_eq_some_iff.mp h
    exact .inl ⟨hsize, rest, hrest, rfl⟩
  · rw [if_neg hsize] at h
    obtain ⟨q, hq, h⟩ := Option.bind_eq_some_iff.mp h
    obtain ⟨rest, hrest, rfl⟩ := Option.map_eq_some_iff.mp h
    exact .inr ⟨hsize, q, rest, hq, hrest, rfl⟩

theorem length_placeAll {ps : List Part} {r : List (Option (Nat × Nat)) × Nat}
    (h : o.placeAll sect ps = some r) : r.1.length = ps.length := by
  induction ps generalizing sect r with
  | nil =>
    obtain rfl := Option.some.inj h
    rfl
  | cons p ps ih =>
    rcases placeAll_cons h with ⟨-, rest, hrest, rfl⟩ | ⟨-, q, rest, -, hrest, rfl⟩ <;>
      rw [List.length_cons, List.length_cons, ih hrest]

end

/-! ## All partitions -/

/-- All partitions end below sector `2 ^ 63`. -/
def Options.Room (o : Options) : Nat → List Part → Prop
  | _, [] => True
  | sect, p :: ps =>
    if p.size = 0 then o.Room sect ps
    else o.RoomAt sect p ∧ o.Room (o.exactEnd (o.exactStart sect p) p) ps

/-- Where the first partition that is not null starts. -/
def Options.firstStart (o : Options) (sect : Nat) (ps : List Part) : Option Nat :=
  (ps.find? fun p => p.size != 0).map (o.exactStart sect)

/-- What the loop found for partitions behind `sect`. -/
structure Options.Laid (o : Options) (sect : Nat) (ps : List Part)
    (r : List (Option (Nat × Nat)) × Nat) : Prop where
  length : r.1.length = ps.length
  apart : r.1.Pairwise fun a b => ∀ x ∈ a, ∀ y ∈ b, x.2 ≤ y.1
  bounds : ∀ q : Nat × Nat, some q ∈ r.1 → sect + o.sectors ≤ q.1 ∧ q.1 < q.2 ∧ q.2 ≤ r.2
  own : ∀ (i : Nat) (p : Part), ps[i]? = some p → (p.size = 0 ∧ r.1[i]? = some none) ∨
    (p.size ≠ 0 ∧ ∃ q : Nat × Nat, r.1[i]? = some (some q) ∧ q.1 + 2 * p.size.toNat ≤ q.2 ∧
      (p.start ≠ 0 → q.1 = 2 * p.start.toNat))
  le : sect ≤ r.2
  lt : r.2 < 2 ^ 63
  first : ∀ s, o.firstStart sect ps = some s →
    (∃ q, some q ∈ r.1 ∧ q.1 = s) ∧ ∀ q, some q ∈ r.1 → s ≤ q.1
  final : (o.firstStart sect ps = none ∧ (∀ q, some q ∉ r.1) ∧ r.2 = sect) ∨
    ∃ q, some q ∈ r.1 ∧ q.2 = r.2

section
variable {o : Options} {sect : Nat} {p : Part} {q : Nat × Nat} {ps : List Part}
  {r : List (Option (Nat × Nat)) × Nat}

theorem Options.Laid.nil (hsect : sect < 2 ^ 63) : o.Laid sect [] ([], sect) where
  length := rfl
  apart := List.Pairwise.nil
  bounds _ hq := absurd hq List.not_mem_nil
  own _ _ hp := by cases hp
  le := Nat.le_refl _
  lt := hsect
  first _ hs := by cases hs
  final := .inl ⟨rfl, fun _ => List.not_mem_nil, rfl⟩

theorem Options.Laid.null (h : o.Laid sect ps r) (hsize : p.size = 0) :
    o.Laid sect (p :: ps) (none :: r.1, r.2) := by
  have hfirst : o.firstStart sect (p :: ps) = o.firstStart sect ps := by
    rw [Options.firstStart, List.find?_cons_of_neg (by rw [hsize]; decide), ← Options.firstStart]
  have hmem {q : Nat × Nat} (hq : some q ∈ none :: r.1) : some q ∈ r.1 := by
    rcases List.mem_cons.mp hq with hq | hq
    · cases hq
    · exact hq
  refine ⟨congrArg Nat.succ h.length,
    List.Pairwise.cons (fun _ _ _ hx => absurd hx (Option.not_mem_none _)) h.apart,
    fun q hq => h.bounds q (hmem hq), fun i p' hp => ?_, h.le, h.lt, fun s hs => ?_, ?_⟩
  · cases i with
    | zero =>
      obtain rfl : p = p' := Option.some.inj hp
      exact .inl ⟨hsize, rfl⟩
    | succ i => exact h.own i p' hp
  · obtain ⟨⟨q, hq, hqs⟩, hall⟩ := h.first s (hfirst ▸ hs)
    exact ⟨⟨q, List.mem_cons_of_mem _ hq, hqs⟩, fun q hq => hall q (hmem hq)⟩
  · rcases h.final with ⟨hnone, hall, hend⟩ | ⟨q, hq, hend⟩
    · exact .inl ⟨hfirst.trans hnone, fun q hq => hall q (hmem hq), hend⟩
    · exact .inr ⟨q, List.mem_cons_of_mem _ hq, hend⟩

/-- A partition in front of others. -/
theorem Options.Laid.cons (h : o.Laid q.2 ps r) (hsize : p.size ≠ 0)
    (hstart : q.1 = o.exactStart sect p) (htrack : sect + o.sectors ≤ q.1)
    (hend : q.1 + 2 * p.size.toNat ≤ q.2) : o.Laid sect (p :: ps) (some q :: r.1, r.2) := by
  have hpos : 0 < p.size.toNat := by
    rw [Nat.pos_iff_ne_zero]
    exact fun hzero => hsize (UInt64.toNat_inj.mp hzero)
  have hle := h.le
  have hfirst : o.firstStart sect (p :: ps) = some q.1 := by
    rw [Options.firstStart, List.find?_cons_of_pos (by exact bne_iff_ne.mpr hsize),
      Option.map_some, hstart]
  have hmem {x : Nat × Nat} (hx : some x ∈ some q :: r.1) : x = q ∨ some x ∈ r.1 := by
    rcases List.mem_cons.mp hx with hx | hx
    · exact .inl (Option.some.inj hx)
    · exact .inr hx
  refine ⟨congrArg Nat.succ h.length, List.Pairwise.cons (fun b hb x hx y hy => ?_) h.apart,
    fun x hx => ?_,
    fun i p' hp => ?_, by omega, h.lt, fun s hs => ?_, ?_⟩
  · obtain rfl : q = x := Option.some.inj hx
    have hy : some y ∈ r.1 := by rwa [← Option.mem_def.mp hy]
    have hnext := (h.bounds y hy).1
    omega
  · rcases hmem hx with rfl | hx
    · exact ⟨htrack, by omega, h.le⟩
    · have hnext := h.bounds x hx
      omega
  · cases i with
    | zero =>
      obtain rfl : p = p' := Option.some.inj hp
      exact .inr ⟨hsize, q, rfl, hend, fun hne => hstart.trans (exactStart_explicit hne)⟩
    | succ i => exact h.own i p' hp
  · obtain rfl : q.1 = s := Option.some.inj (hfirst.symm.trans hs)
    refine ⟨⟨q, List.mem_cons_self, rfl⟩, fun x hx => ?_⟩
    rcases hmem hx with rfl | hx
    · exact Nat.le_refl _
    · have hnext := (h.bounds x hx).1
      omega
  · right
    rcases h.final with ⟨-, -, hend⟩ | ⟨x, hx, hend⟩
    · exact ⟨q, List.mem_cons_self, hend.symm⟩
    · exact ⟨x, List.mem_cons_of_mem _ hx, hend⟩

end

end UolaOs.Ptgen
