import UolaOs.Routerboot.Dynparts

/-!
# The partition table of RouterBOOT (routerbootpart.c)

* `partitionsParse`: `routerboot_partitions_parse`;
* `partitions_iff`: when the partitions follow one another inside the device.
-/

namespace UolaOs.Routerboot

/-- What is read of a device-tree node. -/
structure Node where
  label : Option Bytes
  nameProp : Option Bytes
  name : Bytes
  reg : Option Bytes
  size : Option Bytes
  n_addr_cells : Nat
  n_size_cells : Nat
  readOnly : Bool
  lock : Bool
  deriving DecidableEq

def Node.partname (n : Node) : Bytes := n.label.getD (n.nameProp.getD n.name)

/-- `struct mtd_partition` -/
structure Part where
  name : Bytes
  offset : Nat
  size : Nat
  mask_flags : Nat
  deriving DecidableEq

/-- `MTD_WRITEABLE` and `MTD_POWERUP_LOCK` -/
def Node.mask_flags (n : Node) : Nat :=
  (if n.readOnly then 0x400 else 0) ||| (if n.lock then 0x2000 else 0)

/-- `of_read_number`, in 64 bits. -/
def ofReadNumber (cell : Bytes) (size : Nat) : Nat :=
  (List.range size).foldl
    (fun r i => (r * 2 ^ 32 + Endian.big.get (load cell (4 * i) 4)) % 2 ^ 64) 0

/-- The entry of a well-known partition that was found. -/
def findEntry (parts : List Dynpart) (name : Bytes) : Option Dynpart :=
  parts.find? fun p => decide (name = p.name) && p.found

section
variable (d : Device) (dynparts : List Dynpart)

/-- `offset` and `size` of a node, in a `size_t`, unless a property has the wrong length. -/
def nodeRange (master_ofs : Nat) (n : Node) : Option (Nat × Nat) :=
  match n.reg with
  | some reg =>
    if reg.length / 4 ≠ n.n_addr_cells + n.n_size_cells then none
    else some (d.trunc (ofReadNumber reg n.n_addr_cells),
      d.trunc (ofReadNumber (reg.drop (4 * n.n_addr_cells)) n.n_size_cells))
  | none =>
    let range := match findEntry dynparts n.partname with
      | some p => (p.offset, p.size)
      | none => (master_ofs, 0)
    match n.size with
    | none => some (d.trunc range.1, d.trunc range.2)
    | some sz =>
      if sz.length / 4 ≠ n.n_size_cells then none
      else some (d.trunc range.1, d.trunc (ofReadNumber sz n.n_size_cells))

/-- The end of the previous partition, which comes first in the list. The sum has 64 bits. -/
def fixupEnd (offset : Nat) : List Part → Option (List Part)
  | [] => some []
  | prev :: parts =>
    if offset < (prev.offset + prev.size) % 2 ^ 64 then none
    else if prev.size = 0 then some ({ prev with size := offset - prev.offset } :: parts)
    else some (prev :: parts)

/-- `ALIGN` to blocks, of the end of a partition. -/
def nextOfs (offset size : Nat) : Nat :=
  d.trunc (d.trunc (offset + size) + (blockSize - 1)) / blockSize * blockSize

/-- The loop over the nodes. The last partition comes first in the list. -/
def placeNodes : Nat → List Part → List Node → Option (List Part)
  | _, parts, [] => some parts
  | master_ofs, parts, n :: ns =>
    match nodeRange d dynparts master_ofs n with
    | none => none
    | some (offset, size) =>
      match fixupEnd offset parts with
      | none => none
      | some parts =>
        if d.size < d.trunc (offset + size) then none
        else
          placeNodes (nextOfs d offset size) (⟨n.partname, offset, size, n.mask_flags⟩ :: parts) ns

end

/-- What is returned, and the entries that are left to the next device. -/
structure Parsed where
  ret : Except Int (List Part)
  dynparts : List Dynpart

/-- `routerboot_partitions_parse`. A device without a device-tree node has no children. -/
def partitionsParse (d : Device) (e : Endian) (fuel : Nat) (nodes : List Node) (kcalloc : Bool)
    (dynparts : List Dynpart) : Option Parsed :=
  if nodes = [] then some ⟨.ok [], dynparts⟩
  else if kcalloc = false then some ⟨.error (-12), dynparts⟩
  else
    (findDynparts d e fuel dynparts).map fun dynparts =>
      ⟨match placeNodes d dynparts 0 [] nodes with
        | none => .error (-22)
        | some parts => .ok parts.reverse, dynparts⟩

/-! ## Ranges -/

section
variable (d : Device) (dynparts : List Dynpart)

/-- The offsets and sizes of nodes, with dynamic ones behind the ones before them. -/
def ranges : Nat → List Node → Option (List (Nat × Nat))
  | _, [] => some []
  | master_ofs, n :: ns =>
    match nodeRange d dynparts master_ofs n with
    | none => none
    | some (offset, size) =>
      (ranges (nextOfs d offset size) ns).map fun rs => (offset, size) :: rs

/-- No range begins before the end of the one before it, nor the first before an offset. -/
def InOrder : Nat → List (Nat × Nat) → Prop
  | _, [] => True
  | offset, r :: rs => offset ≤ r.1 ∧ InOrder (r.1 + r.2) rs

/-- No node that passes the two checks has an offset and a size whose sum overflows. -/
def NoOverflow (nodes : List Node) : Prop :=
  ∀ rs, ranges d dynparts 0 nodes = some rs → InOrder 0 rs →
    (∀ r ∈ rs, d.trunc (r.1 + r.2) ≤ d.size) →
      ∀ r ∈ rs, r.1 + r.2 < 2 ^ 32 ∨ r.1 + r.2 ≤ d.size

/-- Each partition begins behind the end of those before it, and ends in the device. -/
structure Ordered (parts : List Part) : Prop where
  behind : parts.Pairwise fun p q => p.offset + p.size ≤ q.offset
  inside : ∀ p ∈ parts, p.offset + p.size ≤ d.size

/-- The partitions that are returned are in order. -/
def Sound (e : Endian) (nodes : List Node) : Prop :=
  ∀ fuel kcalloc parts dynparts',
    partitionsParse d e fuel nodes kcalloc dynparts = some ⟨.ok parts, dynparts'⟩ → Ordered d parts

end

section
variable {d : Device} {dynparts : List Dynpart} {master_ofs offset size : Nat} {n : Node}
  {ns : List Node} {parts parts' : List Part} {rs : List (Nat × Nat)}

theorem trunc_lt (n : Nat) : d.trunc n < 2 ^ d.sizeBits := Nat.mod_lt _ (Nat.two_pow_pos _)

theorem nodeRange_lt (h : nodeRange d dynparts master_ofs n = some (offset, size)) :
    offset < 2 ^ d.sizeBits ∧ size < 2 ^ d.sizeBits := by
  rw [nodeRange] at h
  split at h
  · split at h
    · cases h
    · cases h
      exact ⟨trunc_lt _, trunc_lt _⟩
  · dsimp only at h
    split at h
    · cases h
      exact ⟨trunc_lt _, trunc_lt _⟩
    · split at h
      · cases h
      · cases h
        exact ⟨trunc_lt _, trunc_lt _⟩

/-! ## The loop over the nodes -/

/-- Where the last partition ends, which comes first in the list. -/
def lastEnd : List Part → Nat
  | [] => 0
  | p :: _ => p.offset + p.size

theorem ranges_cons (h : nodeRange d dynparts master_ofs n = some (offset, size)) :
    ranges d dynparts master_ofs (n :: ns) =
      (ranges d dynparts (nextOfs d offset size) ns).map fun rs => (offset, size) :: rs := by
  rw [ranges, h]

/-- The partitions that are placed are in order: the last one comes first. -/
structure Placed (d : Device) (parts : List Part) : Prop where
  behind : parts.Pairwise fun q p => p.offset + p.size ≤ q.offset
  inside : ∀ p ∈ parts, p.offset + p.size ≤ d.size

theorem Placed.ordered (h : Placed d parts) : Ordered d parts.reverse :=
  ⟨List.pairwise_reverse.mpr h.behind, fun p hp => h.inside p (List.mem_reverse.mp hp)⟩

theorem Ordered.placed (h : Ordered d parts.reverse) : Placed d parts :=
  ⟨List.pairwise_reverse.mp h.behind, fun p hp => h.inside p (List.mem_reverse.mpr hp)⟩

theorem fixupEnd_none (hlast : lastEnd parts < 2 ^ 64) (hlt : offset < lastEnd parts) :
    fixupEnd offset parts = none := by
  cases parts with
  | nil => exact absurd hlt (Nat.not_lt_zero _)
  | cons prev parts =>
    rw [lastEnd] at hlast hlt
    rw [fixupEnd, Nat.mod_eq_of_lt hlast, if_pos hlt]

/-- A partition is placed behind the last one, whose end moves up to it when it had no size. -/
theorem fixupEnd_some (hlast : lastEnd parts < 2 ^ 64) (hle : lastEnd parts ≤ offset) :
    ∃ fixed, fixupEnd offset parts = some fixed ∧ ∀ p : Part, p.offset = offset →
      p.offset + p.size ≤ d.size → Placed d parts → Placed d (p :: fixed) := by
  cases parts with
  | nil =>
    refine ⟨[], rfl, fun p _ hin _ => ⟨List.pairwise_singleton _ _, fun q hq => ?_⟩⟩
    rw [List.mem_singleton.mp hq]
    exact hin
  | cons prev parts =>
    rw [lastEnd] at hlast hle
    obtain ⟨fixed, hfixed, hofs, hend⟩ : ∃ fixed, fixupEnd offset (prev :: parts) =
        some (fixed :: parts) ∧ fixed.offset = prev.offset ∧
          fixed.offset + fixed.size ≤ offset := by
      rw [fixupEnd, Nat.mod_eq_of_lt hlast, if_neg (Nat.not_lt.mpr hle)]
      split
      · exact ⟨_, rfl, rfl, by dsimp only; omega⟩
      · exact ⟨_, rfl, rfl, hle⟩
    refine ⟨_, hfixed, fun p hp hin hplaced => ?_⟩
    obtain ⟨hbehind, hrest⟩ := List.pairwise_cons.mp hplaced.behind
    refine ⟨List.pairwise_cons.mpr ⟨fun q hq => ?_, List.pairwise_cons.mpr ⟨?_, hrest⟩⟩,
      fun q hq => ?_⟩
    · rcases List.mem_cons.mp hq with rfl | hq
      · rw [hp]
        exact hend
      · have hq' := hbehind q hq
        omega
    · rw [hofs]
      exact hbehind
    · rcases List.mem_cons.mp hq with rfl | hq
      · exact hin
      rcases List.mem_cons.mp hq with rfl | hq
      · omega
      · exact hplaced.inside q (List.mem_cons_of_mem _ hq)

/-- The loop goes through exactly when the ranges pass both checks. -/
theorem placeNodes_iff (parts : List Part) (hbits : d.sizeBits = 32)
    (hlast : lastEnd parts < 2 ^ 64) :
    (∃ parts', placeNodes d dynparts master_ofs parts ns = some parts') ↔
      ∃ rs, ranges d dynparts master_ofs ns = some rs ∧ InOrder (lastEnd parts) rs ∧
        ∀ r ∈ rs, d.trunc (r.1 + r.2) ≤ d.size := by
  induction ns generalizing master_ofs parts with
  | nil => exact iff_of_true ⟨parts, rfl⟩ ⟨[], rfl, trivial, nofun⟩
  | cons n ns ih =>
    cases hrange : nodeRange d dynparts master_ofs n with
    | none =>
      rw [placeNodes, ranges, hrange]
      exact iff_of_false (fun ⟨_, h⟩ => by cases h) fun ⟨_, h, _⟩ => by cases h
    | some range =>
      obtain ⟨offset, size⟩ := range
      obtain ⟨hofs, hsz⟩ := nodeRange_lt hrange
      rw [hbits] at hofs hsz
      rw [placeNodes, ranges_cons hrange, hrange]
      dsimp only
      rcases Nat.lt_or_ge offset (lastEnd parts) with hlt | hle
      · rw [fixupEnd_none hlast hlt]
        refine iff_of_false (fun ⟨_, h⟩ => by cases h) ?_
        rintro ⟨rs, h, horder, -⟩
        obtain ⟨rs', -, rfl⟩ := Option.map_eq_some_iff.mp h
        exact absurd horder.1 (Nat.not_le.mpr hlt)
      · obtain ⟨fixed, hfixed, -⟩ := fixupEnd_some (d := d) hlast hle
        rw [hfixed]
        dsimp only
        split
        · rename_i hout
          refine iff_of_false (fun ⟨_, h⟩ => by cases h) ?_
          rintro ⟨rs, h, -, hin⟩
          obtain ⟨rs', -, rfl⟩ := Option.map_eq_some_iff.mp h
          exact absurd (hin _ List.mem_cons_self) (Nat.not_le.mpr hout)
        · rename_i hin
          have hend : lastEnd (⟨n.partname, offset, size, n.mask_flags⟩ :: fixed) < 2 ^ 64 := by
            rw [lastEnd]
            dsimp only
            omega
          rw [ih _ hend, lastEnd]
          constructor
          · rintro ⟨rs, hrs, horder, hall⟩
            refine ⟨(offset, size) :: rs, by rw [hrs]; rfl, ⟨hle, horder⟩, fun r hr => ?_⟩
            rcases List.mem_cons.mp hr with rfl | hr
            · exact Nat.le_of_not_lt hin
            · exact hall r hr
          · rintro ⟨rs, h, horder, hall⟩
            obtain ⟨rs', hrs', rfl⟩ := Option.map_eq_some_iff.mp h
            exact ⟨rs', hrs', horder.2, fun r hr => hall r (List.mem_cons_of_mem _ hr)⟩

/-- What one round of the loop does when it goes on. -/
theorem placeNodes_cons (h : placeNodes d dynparts master_ofs parts (n :: ns) = some parts') :
    ∃ offset size fixed, nodeRange d dynparts master_ofs n = some (offset, size) ∧
      fixupEnd offset parts = some fixed ∧
      placeNodes d dynparts (nextOfs d offset size)
        (⟨n.partname, offset, size, n.mask_flags⟩ :: fixed) ns = some parts' := by
  rw [placeNodes] at h
  split at h
  · cases h
  · rename_i offset size hrange
    split at h
    · cases h
    · rename_i fixed hfixed
      split at h
      · cases h
      · exact ⟨offset, size, fixed, hrange, hfixed, h⟩

theorem placeNodes_placed (hbits : d.sizeBits = 32) (hlast : lastEnd parts < 2 ^ 64)
    (h : placeNodes d dynparts master_ofs parts ns = some parts')
    (hrs : ranges d dynparts master_ofs ns = some rs) (hin : ∀ r ∈ rs, r.1 + r.2 ≤ d.size)
    (hparts : Placed d parts) : Placed d parts' := by
  induction ns generalizing master_ofs parts rs with
  | nil =>
    cases h
    exact hparts
  | cons n ns ih =>
    obtain ⟨offset, size, fixed, hrange, hfixed, hrest⟩ := placeNodes_cons h
    obtain ⟨hofs, hsz⟩ := nodeRange_lt hrange
    rw [hbits] at hofs hsz
    rw [ranges_cons hrange] at hrs
    obtain ⟨rs', hrs', rfl⟩ := Option.map_eq_some_iff.mp hrs
    have hle : lastEnd parts ≤ offset := by
      by_contra hlt
      rw [fixupEnd_none hlast (Nat.lt_of_not_le hlt)] at hfixed
      cases hfixed
    obtain ⟨fixed', hfixed', hplaced⟩ := fixupEnd_some (d := d) hlast hle
    cases hfixed.symm.trans hfixed'
    have hend : lastEnd (⟨n.partname, offset, size, n.mask_flags⟩ :: fixed) < 2 ^ 64 := by
      rw [lastEnd]
      dsimp only
      omega
    exact ih hend hrest hrs' (fun r hr => hin r (List.mem_cons_of_mem _ hr))
      (hplaced _ rfl (hin _ List.mem_cons_self) hparts)

/-- The last node has the range that it was given. -/
theorem placeNodes_last (h : placeNodes d dynparts master_ofs parts ns = some parts')
    (hrs : ranges d dynparts master_ofs ns = some rs) {r : Nat × Nat} (hr : r ∈ rs.getLast?) :
    ∃ p ∈ parts', p.offset = r.1 ∧ p.size = r.2 := by
  induction ns generalizing master_ofs parts rs with
  | nil =>
    cases hrs
    cases hr
  | cons n ns ih =>
    obtain ⟨offset, size, fixed, hrange, -, hrest⟩ := placeNodes_cons h
    rw [ranges_cons hrange] at hrs
    obtain ⟨rs', hrs', rfl⟩ := Option.map_eq_some_iff.mp hrs
    cases rs' with
    | nil =>
      cases ns with
      | nil =>
        cases hrest
        cases hr
        exact ⟨_, List.mem_cons_self, rfl, rfl⟩
      | cons n' ns =>
        obtain ⟨offset', size', fixed', hrange', -, -⟩ := placeNodes_cons hrest
        rw [ranges_cons hrange'] at hrs'
        obtain ⟨rs'', -, hcons⟩ := Option.map_eq_some_iff.mp hrs'
        cases hcons
    | cons r' rs' => exact ih hrest hrs' hr

/-- In ranges that are in order all but the last one end where the next begins. -/
theorem inOrder_end (horder : InOrder offset rs) {r : Nat × Nat} (hr : r ∈ rs) :
    r ∈ rs.getLast? ∨ ∃ s ∈ rs, r.1 + r.2 ≤ s.1 := by
  induction rs generalizing offset with
  | nil => cases hr
  | cons x rs ih =>
    cases rs with
    | nil =>
      left
      rw [List.mem_singleton.mp hr]
      rfl
    | cons y rs =>
      rcases List.mem_cons.mp hr with rfl | hr
      · exact .inr ⟨y, List.mem_cons_of_mem _ List.mem_cons_self, horder.2.1⟩
      · refine (ih horder.2 hr).imp id fun ⟨s, hs, hle⟩ => ?_
        exact ⟨s, List.mem_cons_of_mem _ hs, hle⟩

theorem ranges_lt (h : ranges d dynparts master_ofs ns = some rs) {r : Nat × Nat} (hr : r ∈ rs) :
    r.1 < 2 ^ d.sizeBits := by
  induction ns generalizing master_ofs rs with
  | nil =>
    cases h
    cases hr
  | cons n ns ih =>
    cases hrange : nodeRange d dynparts master_ofs n with
    | none =>
      rw [ranges, hrange] at h
      cases h
    | some range =>
      rw [ranges_cons hrange] at h
      obtain ⟨rs', hrs', rfl⟩ := Option.map_eq_some_iff.mp h
      rcases List.mem_cons.mp hr with rfl | hr
      · exact (nodeRange_lt hrange).1
      · exact ih hrs' hr

theorem partitionsParse_ok {e : Endian} {fuel : Nat} {nodes : List Node} {kcalloc : Bool}
    {dynparts' : List Dynpart}
    (h : partitionsParse d e fuel nodes kcalloc dynparts = some ⟨.ok parts, dynparts'⟩) :
    parts = [] ∨ findDynparts d e fuel dynparts = some dynparts' ∧
      placeNodes d dynparts' 0 [] nodes = some parts.reverse := by
  rw [partitionsParse] at h
  split at h
  · cases h
    exact .inl rfl
  split at h
  · cases h
  · obtain ⟨found, hfound, heq⟩ := Option.map_eq_some_iff.mp h
    refine .inr ?_
    cases hplace : placeNodes d found 0 [] nodes with
    | none =>
      rw [hplace] at heq
      cases heq
    | some placed =>
      rw [hplace] at heq
      cases heq
      exact ⟨hfound, by rw [hplace, List.reverse_reverse]⟩

/-- **The partitions are in order**, disjoint and inside the device exactly when the checks are
not passed by a node whose end overflows. -/
theorem partitions_iff (hbits : d.sizeBits = 32) (e : Endian) (dynparts : List Dynpart)
    (nodes : List Node) :
    Sound d dynparts e nodes ↔
      ∀ fuel dynparts', findDynparts d e fuel dynparts = some dynparts' →
        NoOverflow d dynparts' nodes := by
  constructor
  · intro h fuel dynparts' hfind rs hrs horder hall r hr
    obtain ⟨parts, hplace⟩ := (placeNodes_iff [] hbits (by decide)).mpr
      ⟨rs, hrs, horder, hall⟩
    have hne : nodes ≠ [] := by
      rintro rfl
      cases hrs
      cases hr
    have hordered : Ordered d parts.reverse := by
      refine h fuel true _ dynparts' ?_
      rw [partitionsParse, if_neg hne, if_neg (by decide), hfind, Option.map_some, hplace]
    rcases inOrder_end horder hr with hlast | ⟨s, hs, hle⟩
    · obtain ⟨p, hp, hofs, hsize⟩ := placeNodes_last hplace hrs hlast
      have hin := hordered.inside p (List.mem_reverse.mpr hp)
      rw [hofs, hsize] at hin
      exact .inr hin
    · have hlt := ranges_lt hrs hs
      rw [hbits] at hlt
      exact .inl (Nat.lt_of_le_of_lt hle hlt)
  · intro h fuel kcalloc parts dynparts' hparse
    rcases partitionsParse_ok hparse with rfl | ⟨hfind, hplace⟩
    · exact ⟨.nil, nofun⟩
    obtain ⟨rs, hrs, horder, hall⟩ := (placeNodes_iff [] hbits (by decide)).mp
      ⟨_, hplace⟩
    have hin (r : Nat × Nat) (hr : r ∈ rs) : r.1 + r.2 ≤ d.size := by
      rcases h fuel dynparts' hfind rs hrs horder hall r hr with hlt | hle
      · have htrunc := hall r hr
        rwa [Device.trunc, hbits, Nat.mod_eq_of_lt hlt] at htrunc
      · exact hle
    have hplaced := placeNodes_placed hbits (by decide) hplace hrs hin ⟨.nil, nofun⟩
    have hordered := hplaced.ordered
    rwa [List.reverse_reverse] at hordered

end

/-! ## A partition of almost 4 GiB -/

theorem wide_32 : 32 ≤ 32 := Nat.le_refl 32

/-- A small flash without signatures, and reads that do not fail. -/
def plainFlash : Device := ⟨32, [0, 0, 0, 0, 0, 0, 0, 0], fun _ => none, wide_32⟩

def fixedNode (reg : Bytes) : Node := ⟨none, none, [0x61], some reg, none, 1, 1, false, false⟩

/-- From 4 up to 2^32. -/
def longReg : Bytes := [0, 0, 0, 4, 0xff, 0xff, 0xff, 0xfc]

theorem not_sound_longReg :
    ¬ Sound plainFlash (rbDynparts .little) .little [fixedNode longReg] := by
  intro h
  have hordered := h 2 true [⟨[0x61], 4, 0xfffffffc, 0⟩] (rbDynparts .little) rfl
  exact absurd (hordered.inside _ List.mem_cons_self) (by decide)

theorem partitions_whole : Sound plainFlash (rbDynparts .little) .little
    [fixedNode [0, 0, 0, 0, 0, 0, 0, 8]] ↔
      ∀ fuel dynparts', findDynparts plainFlash .little fuel (rbDynparts .little) = some dynparts' →
        NoOverflow plainFlash dynparts' [fixedNode [0, 0, 0, 0, 0, 0, 0, 8]] :=
  partitions_iff rfl .little _ _

end UolaOs.Routerboot
