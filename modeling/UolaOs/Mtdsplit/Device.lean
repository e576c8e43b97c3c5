import UolaOs.Lib.Bytes

/-!
# Firmware splitters

What the parsers of mtdsplit share:

* `checkRootfsMagic` and `findRootfsFrom`: the search for a root filesystem of mtdsplit.c;
* `scan`: the search for a header on erase block boundaries, which keeps what the last header said
  when the image does not fit;
* `scan_cases`: where it ends, and with what.
-/

namespace UolaOs.Mtdsplit

/-- A flash device. The offsets of the parsers, which go at most one erase block further than the
device, are in the range of `size_t`. -/
structure Device where
  /-- The width of `size_t`. -/
  sizeBits : Nat
  flash : Bytes
  erasesize : Nat
  wide : 32 ≤ sizeBits
  erasesize_pos : 0 < erasesize
  room : flash.length + erasesize < 2 ^ sizeBits

/-! The fields of devices with offsets of 32 bits. -/

theorem sizeBits_32 : 32 ≤ 32 := Nat.le_refl _

theorem erasesize_pos_32 : 0 < 32 := Nat.succ_pos _

theorem erasesize_pos_64 : 0 < 64 := Nat.succ_pos _

theorem erasesize_pos_4096 : 0 < 4096 := Nat.succ_pos _

/-- `enum mtdsplit_part_type` -/
inductive PartType where
  | squashfs
  | jffs2
  | ubi
  deriving DecidableEq

inductive PartName where
  | kernel
  | rootfs
  | ubi
  deriving DecidableEq

/-- `struct mtd_partition` -/
structure Part where
  name : PartName
  offset : Nat
  size : Nat
  deriving DecidableEq

/-- `ROOTFS_PART_NAME`, or `UBI_PART_NAME` -/
def rootName (type : PartType) : PartName := if type = .ubi then .ubi else .rootfs

namespace Device

variable (d : Device) (e : Endian)

def size : Nat := d.flash.length

/-- A value in a `size_t`. -/
def trunc (n : Nat) : Nat := n % 2 ^ d.sizeBits

/-- `mtd_read`, where it reads everything. -/
def read (offset len : Nat) : Option Bytes :=
  if offset < d.size ∧ offset + len ≤ d.size then some (load d.flash offset len) else none

/-- `mtd_next_eb` -/
def nextEb (offset : Nat) : Nat := d.trunc (offset / d.erasesize * d.erasesize + d.erasesize)

/-- `mtd_check_rootfs_magic` -/
def checkRootfsMagic (offset : Nat) : Except Int PartType :=
  match d.read offset 4 with
  | none => .error (-22)
  | some magic =>
    if Endian.little.get magic = 0x73717368 then .ok .squashfs
    else if e.get magic = 0x19852003 then .ok .jffs2
    else if Endian.big.get magic = 0x55424923 then .ok .ubi
    else .error (-22)

end Device

section
variable {d : Device} {e : Endian} {offset : Nat}

theorem nextEb_eq (h : offset < d.size) :
    d.nextEb offset = offset / d.erasesize * d.erasesize + d.erasesize := by
  have hroom := d.room
  have hle := Nat.div_mul_le_self offset d.erasesize
  rw [Device.size] at h
  exact Nat.mod_eq_of_lt (by omega)

theorem lt_nextEb (h : offset < d.size) : offset < d.nextEb offset := by
  rw [nextEb_eq h]
  exact Nat.lt_div_mul_add d.erasesize_pos

end

namespace Device

variable (d : Device) (e : Endian)

/-- `mtd_find_rootfs_from` with the end of the device for `limit`. -/
def findRootfsFrom (offset : Nat) : Except Int (Nat × PartType) :=
  if h : offset < d.size then
    match d.checkRootfsMagic e offset with
    | .error _ => findRootfsFrom (d.nextEb offset)
    | .ok type => .ok (offset, type)
  else .error (-19)
termination_by d.size - offset
decreasing_by
  have := lt_nextEb h
  omega

/-- The loop of a parser that looks for a header of `len` bytes on erase block boundaries. `header`
is `none` when it looks outside of the buffer, and otherwise gives what a header holds that is
accepted; `imageSize` is the size of its image as a `size_t`. -/
def scan {α : Type} (len : Nat) (header : Bytes → Option (Option α)) (imageSize : α → Nat)
    (offset : Nat) (found : Option α) : Option (Nat × Option α) :=
  if offset < d.size then
    match d.read offset len with
    | none => scan len header imageSize (offset + d.erasesize) none
    | some buf =>
      match header buf with
      | none => none
      | some none => scan len header imageSize (offset + d.erasesize) none
      | some (some x) =>
        if d.size < d.trunc (offset + imageSize x) then
          scan len header imageSize (offset + d.erasesize) (some x)
        else some (offset, some x)
  else some (offset, found)
termination_by d.size - offset
decreasing_by all_goals have := d.erasesize_pos; omega

end Device

/-! ## The search for a root filesystem -/

section
variable {d : Device} {e : Endian} {offset : Nat}

theorem findRootfsFrom_found {type : PartType} (h : offset < d.size)
    (hmagic : d.checkRootfsMagic e offset = .ok type) :
    d.findRootfsFrom e offset = .ok (offset, type) := by
  rw [Device.findRootfsFrom, dif_pos h, hmagic]

theorem findRootfsFrom_next {ret : Int} (h : offset < d.size)
    (hmagic : d.checkRootfsMagic e offset = .error ret) :
    d.findRootfsFrom e offset = d.findRootfsFrom e (d.nextEb offset) := by
  rw [Device.findRootfsFrom, dif_pos h, hmagic]

theorem findRootfsFrom_end (h : d.size ≤ offset) : d.findRootfsFrom e offset = .error (-19) := by
  rw [Device.findRootfsFrom, dif_neg (Nat.not_lt.mpr h)]

theorem findRootfsFrom_ok {r : Nat} {type : PartType}
    (h : d.findRootfsFrom e offset = .ok (r, type)) :
    offset ≤ r ∧ r < d.size ∧ d.checkRootfsMagic e r = .ok type ∧
      (r = offset ∨ d.erasesize ∣ r) := by
  induction hn : d.size - offset using Nat.strongRecOn generalizing offset with
  | ind n ih =>
    by_cases hlt : offset < d.size
    · cases hmagic : d.checkRootfsMagic e offset with
      | error ret =>
        have hnext := lt_nextEb hlt
        rw [findRootfsFrom_next hlt hmagic] at h
        obtain ⟨hle, hr, ht, hdvd⟩ := ih _ (by omega) h rfl
        refine ⟨by omega, hr, ht, .inr ?_⟩
        rcases hdvd with rfl | hdvd
        · rw [nextEb_eq hlt, ← Nat.succ_mul]
          exact Nat.dvd_mul_left _ _
        · exact hdvd
      | ok t =>
        rw [findRootfsFrom_found hlt hmagic] at h
        cases h
        exact ⟨Nat.le_refl _, hlt, hmagic, .inl rfl⟩
    · rw [findRootfsFrom_end (Nat.le_of_not_lt hlt)] at h
      cases h

/-- A root filesystem is found right at the offset or at an erase block boundary behind it. -/
theorem findRootfsFrom_iff :
    (∃ x, d.findRootfsFrom e offset = .ok x) ↔
      ∃ r type, offset ≤ r ∧ r < d.size ∧ (r = offset ∨ d.erasesize ∣ r) ∧
        d.checkRootfsMagic e r = .ok type := by
  induction hn : d.size - offset using Nat.strongRecOn generalizing offset with
  | ind n ih =>
    by_cases hlt : offset < d.size
    · cases hmagic : d.checkRootfsMagic e offset with
      | error ret =>
        have hnext := lt_nextEb hlt
        have heq := nextEb_eq hlt
        rw [findRootfsFrom_next hlt hmagic, ih _ (by omega) rfl]
        constructor
        · rintro ⟨r, type, hle, hr, hdvd, ht⟩
          refine ⟨r, type, by omega, hr, .inr ?_, ht⟩
          rcases hdvd with rfl | hdvd
          · rw [heq, ← Nat.succ_mul]
            exact Nat.dvd_mul_left _ _
          · exact hdvd
        · rintro ⟨r, type, hle, hr, hdvd, ht⟩
          have hne : r ≠ offset := by
            rintro rfl
            cases hmagic.symm.trans ht
          have hdvd := hdvd.resolve_left hne
          refine ⟨r, type, ?_, hr, .inr hdvd, ht⟩
          -- the next boundary is not behind any other one
          obtain ⟨k, rfl⟩ := hdvd
          have hk : offset / d.erasesize < k :=
            (Nat.div_lt_iff_lt_mul d.erasesize_pos).mpr (by rw [Nat.mul_comm]; omega)
          rw [heq, ← Nat.succ_mul, Nat.mul_comm]
          exact Nat.mul_le_mul_left _ hk
      | ok t =>
        rw [findRootfsFrom_found hlt hmagic]
        exact iff_of_true ⟨_, rfl⟩ ⟨offset, t, Nat.le_refl _, hlt, .inl rfl, hmagic⟩
    · rw [findRootfsFrom_end (Nat.le_of_not_lt hlt)]
      refine iff_of_false (fun hx => ?_) fun hr => ?_
      · obtain ⟨x, hx⟩ := hx
        cases hx
      · obtain ⟨r, -, hle, hr, -⟩ := hr
        omega

end

/-! ## The search for a header -/

section
variable {α : Type} (d : Device) (len : Nat) (header : Bytes → Option (Option α))
  (imageSize : α → Nat)

/-- The header at an offset is accepted. -/
def Accepted (o : Nat) (x : α) : Prop := ∃ buf, d.read o len = some buf ∧ header buf = some (some x)

/-- The header at an offset makes the parser look outside of its buffer. -/
def Outside (o : Nat) : Prop := ∃ buf, d.read o len = some buf ∧ header buf = none

/-- No header from an offset up to another is taken: none is accepted with an image that fits. -/
def NoneTaken (a b : Nat) : Prop :=
  ∀ p, a ≤ p → p < b → d.erasesize ∣ p → ∀ x, Accepted d len header p x →
    d.size < d.trunc (p + imageSize x)

/-- The header that the search takes. -/
structure Taken (a o : Nat) (x : α) : Prop where
  le : a ≤ o
  lt : o < d.size
  aligned : d.erasesize ∣ o
  accepted : Accepted d len header o x
  fits : d.trunc (o + imageSize x) ≤ d.size
  first : NoneTaken d len header imageSize a o

/-- The header of the last erase block. -/
structure LastBlock (a o : Nat) : Prop where
  le : a ≤ o
  lt : o < d.size
  aligned : d.erasesize ∣ o
  last : d.size ≤ o + d.erasesize

/-- How the search ends. -/
inductive ScanEnd (a : Nat) (found : Option α) : Option (Nat × Option α) → Prop
  | outside {o : Nat} : a ≤ o → o < d.size → d.erasesize ∣ o → Outside d len header o →
      NoneTaken d len header imageSize a o → ScanEnd a found none
  | taken {o : Nat} {x : α} : Taken d len header imageSize a o x →
      (∀ p, a ≤ p → p ≤ o → d.erasesize ∣ p → ¬ Outside d len header p) →
      ScanEnd a found (some (o, some x))
  | exhausted {o : Nat} {y : Option α} : d.size ≤ o →
      NoneTaken d len header imageSize a d.size →
      (∀ p, a ≤ p → p < d.size → d.erasesize ∣ p → ¬ Outside d len header p) →
      (d.size ≤ a → o = a ∧ y = found) →
      (∀ b, LastBlock d a b →
        o = b + d.erasesize ∧ ∀ x, y = some x ↔ Accepted d len header b x) →
      ScanEnd a found (some (o, y))

variable {d len header imageSize} {a b o : Nat}

theorem Accepted.unique {x y : α} (hx : Accepted d len header o x)
    (hy : Accepted d len header o y) : x = y := by
  obtain ⟨buf, hbuf, hx⟩ := hx
  obtain ⟨buf', hbuf', hy⟩ := hy
  cases hbuf.symm.trans hbuf'
  cases hx.symm.trans hy
  rfl

theorem Accepted.not_outside {x : α} (hx : Accepted d len header o x) :
    ¬ Outside d len header o := by
  rintro ⟨buf', hbuf', hout⟩
  obtain ⟨buf, hbuf, hx⟩ := hx
  cases hbuf.symm.trans hbuf'
  cases hx.symm.trans hout

theorem LastBlock.unique {o' : Nat} (h : LastBlock d a o) (h' : LastBlock d b o') : o = o' := by
  obtain ⟨i, rfl⟩ := h.aligned
  obtain ⟨j, rfl⟩ := h'.aligned
  have hij : d.erasesize * i < d.erasesize * (j + 1) := Nat.lt_of_lt_of_le h.lt h'.last
  have hji : d.erasesize * j < d.erasesize * (i + 1) := Nat.lt_of_lt_of_le h'.lt h.last
  have := Nat.lt_of_mul_lt_mul_left hij
  have := Nat.lt_of_mul_lt_mul_left hji
  rw [show i = j by omega]

theorem exists_lastBlock (h : 0 < d.size) : ∃ o, LastBlock d 0 o := by
  refine ⟨(d.size - 1) / d.erasesize * d.erasesize, Nat.zero_le _, ?_, Nat.dvd_mul_left _ _, ?_⟩
  · have := Nat.div_mul_le_self (d.size - 1) d.erasesize
    omega
  · have := @Nat.lt_div_mul_add (d.size - 1) d.erasesize d.erasesize_pos
    omega

theorem Taken.unique {o' : Nat} {x y : α} (h : Taken d len header imageSize a o x)
    (h' : Taken d len header imageSize a o' y) : o = o' ∧ x = y := by
  rcases Nat.lt_trichotomy o o' with hlt | rfl | hlt
  · exact absurd (h'.first o h.le hlt h.aligned _ h.accepted) (Nat.not_lt.mpr h.fits)
  · exact ⟨rfl, h.accepted.unique h'.accepted⟩
  · exact absurd (h.first o' h'.le hlt h'.aligned _ h'.accepted) (Nat.not_lt.mpr h'.fits)

theorem Taken.not_noneTaken {b : Nat} {x : α} (h : Taken d len header imageSize a o x)
    (hb : o < b) : ¬ NoneTaken d len header imageSize a b := fun hnone =>
  absurd (hnone o h.le hb h.aligned _ h.accepted) (Nat.not_lt.mpr h.fits)

/-- The next boundary behind one. -/
theorem add_le_of_aligned {es p : Nat} (ha : es ∣ a) (hp : es ∣ p) (h : a < p) : a + es ≤ p := by
  have := Nat.le_of_dvd (by omega) (Nat.dvd_sub hp ha)
  omega

/-- A property of the boundaries from one on. -/
theorem forall_aligned {q : Nat → Prop} (hdvd : d.erasesize ∣ a) (ha : q a)
    (h : ∀ p, a + d.erasesize ≤ p → p < b → d.erasesize ∣ p → q p) :
    ∀ p, a ≤ p → p < b → d.erasesize ∣ p → q p := by
  intro p hle hlt hp
  rcases Nat.eq_or_lt_of_le hle with rfl | hlt'
  · exact ha
  · exact h p (add_le_of_aligned hdvd hp hlt') hlt hp

theorem LastBlock.of_next (h : LastBlock d (a + d.erasesize) o) : LastBlock d a o :=
  ⟨Nat.le_of_add_right_le h.le, h.lt, h.aligned, h.last⟩

/-- A block that is not taken, and the rest of the search. -/
theorem ScanEnd.cons {found y : Option α} {r : Option (Nat × Option α)} (hdvd : d.erasesize ∣ a)
    (hlt : a < d.size)
    (hrefused : ∀ x, Accepted d len header a x → d.size < d.trunc (a + imageSize x))
    (hinside : ¬ Outside d len header a) (hy : ∀ x, y = some x ↔ Accepted d len header a x)
    (h : ScanEnd d len header imageSize (a + d.erasesize) y r) :
    ScanEnd d len header imageSize a found r := by
  cases h with
  | @outside o hle ho haligned hout hnone =>
    exact .outside (by omega) ho haligned hout (forall_aligned hdvd hrefused hnone)
  | @taken o x htaken hall =>
    refine .taken ⟨by have := htaken.le; omega, htaken.lt, htaken.aligned, htaken.accepted,
      htaken.fits, forall_aligned hdvd hrefused htaken.first⟩ ?_
    intro p hle hpo
    exact forall_aligned hdvd hinside (fun p hle hlt => hall p hle (Nat.le_of_lt_succ hlt)) p hle
      (Nat.lt_succ_of_le hpo)
  | @exhausted o z ho hnone hall hend hlast =>
    refine .exhausted ho (forall_aligned hdvd hrefused hnone) (forall_aligned hdvd hinside hall)
      (fun hle => by omega) fun b hb => ?_
    by_cases hmore : a + d.erasesize < d.size
    · have hb' : LastBlock d (a + d.erasesize) b := by
        refine ⟨?_, hb.lt, hb.aligned, hb.last⟩
        have := hb.last
        exact add_le_of_aligned hdvd hb.aligned (by omega)
      exact hlast b hb'
    · -- this was the last block
      have hthis : LastBlock d a a := ⟨Nat.le_refl _, hlt, hdvd, Nat.le_of_not_lt hmore⟩
      obtain ⟨rfl, rfl⟩ := hend (Nat.le_of_not_lt hmore)
      rw [hb.unique hthis]
      exact ⟨rfl, hy⟩

theorem scan_end (found : Option α) (hdvd : d.erasesize ∣ a) :
    ScanEnd d len header imageSize a found (d.scan len header imageSize a found) := by
  induction hn : d.size - a using Nat.strongRecOn generalizing a found with
  | ind n ih =>
    have hpos := d.erasesize_pos
    rw [Device.scan]
    by_cases hlt : a < d.size
    · have hnext (found : Option α) := ih _ (by omega) found
        (Nat.dvd_add hdvd (Nat.dvd_refl d.erasesize)) rfl
      rw [if_pos hlt]
      cases hread : d.read a len with
      | none =>
        have hno (x : α) : ¬ Accepted d len header a x := by
          rintro ⟨buf, hbuf, -⟩
          cases hread.symm.trans hbuf
        refine (hnext none).cons hdvd hlt (fun x hx => absurd hx (hno x)) ?_ fun x => ?_
        · rintro ⟨buf, hbuf, -⟩
          cases hread.symm.trans hbuf
        · exact iff_of_false (fun h => by cases h) (hno x)
      | some buf =>
        dsimp only
        cases hheader : header buf with
        | none =>
          exact .outside (Nat.le_refl _) hlt hdvd ⟨buf, hread, hheader⟩ fun p hle hlt => by omega
        | some y =>
          have hin : ¬ Outside d len header a := by
            rintro ⟨buf', hbuf, hout⟩
            cases hread.symm.trans hbuf
            cases hheader.symm.trans hout
          have hacc (x : α) : y = some x ↔ Accepted d len header a x := by
            constructor
            · rintro rfl
              exact ⟨buf, hread, hheader⟩
            · rintro ⟨buf', hbuf, hx⟩
              cases hread.symm.trans hbuf
              cases hheader.symm.trans hx
              rfl
          cases y with
          | none =>
            refine (hnext none).cons hdvd hlt (fun x hx => ?_) hin hacc
            cases (hacc x).mpr hx
          | some x =>
            dsimp only
            split
            · rename_i hlong
              refine (hnext (some x)).cons hdvd hlt (fun z hz => ?_) hin hacc
              cases (hacc z).mpr hz
              exact hlong
            · rename_i hfits
              refine .taken ⟨Nat.le_refl _, hlt, hdvd, (hacc x).mp rfl, Nat.le_of_not_lt hfits,
                fun p hle hlt => by omega⟩ fun p hle hpo => ?_
              rw [Nat.le_antisymm hpo hle]
              exact fun _ => hin
    · rw [if_neg hlt]
      exact .exhausted (Nat.le_of_not_lt hlt) (fun p hle hp => by omega)
        (fun p hle hp => by omega) (fun _ => ⟨rfl, rfl⟩)
        fun b hb => by have := hb.le; have := hb.lt; omega

end

end UolaOs.Mtdsplit
