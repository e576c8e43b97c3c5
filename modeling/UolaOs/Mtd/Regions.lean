import Mathlib.Data.List.Pairwise
import Mathlib.Order.Interval.Set.Defs
import UolaOs.Lib.Extremes
import UolaOs.Mtd.Remap

/-!
# The flash regions of a directory

What `fis_remap` does to the flash ranges of the entries.

* `found_span`, `limit_eq`: what the two loops over the table find, in any order of the table;
* `newEntries_iff`: when the ranges of the new entries follow one another up to a bound;
* `fisRemap_regions_iff`: when they take the place of the old ones.
-/

namespace UolaOs.Mtd

/-! ## Ranges -/

section
variable (e : Endian)

/-- `hdr.flash_base` and `hdr.size` of an entry. -/
def entryBase (x : Bytes) : Nat := (word32 e x 16).toNat

def entrySize (x : Bytes) : Nat := (word32 e x 24).toNat

def flashRange (x : Bytes) : Set Nat := Set.Ico (entryBase e x) (entryBase e x + entrySize e x)

/-- No byte of the flash is in both ranges. -/
def NoOverlap (x y : Bytes) : Prop := ∀ a ∈ flashRange e x, a ∉ flashRange e y

/-- The ranges of the old partitions make up `[lo, hi)`. -/
structure Occupied (old : List FisPart) (entries : List Bytes) (lo hi : Nat) : Prop where
  within : ∀ x ∈ entries, Named old x → lo ≤ entryBase e x ∧ entryBase e x + entrySize e x ≤ hi
  covered : ∀ (a : Nat), lo ≤ a → a < hi → ∃ x ∈ entries, Named old x ∧ a ∈ flashRange e x

/-- The part of the table from the first old entry to the last one. -/
structure OldSpan (old : List FisPart) (before mid after : List Bytes) (first last : Bytes) :
    Prop where
  head : mid.head? = some first
  getLast : mid.getLast? = some last
  first : Named old first
  last : Named old last
  before : ∀ x ∈ before, ¬ Named old x
  after : ∀ x ∈ after, ¬ Named old x

end

section
variable {e : Endian} {es : Nat} {block : Bytes} {old new : List FisPart}
  {before mid after xs : List Bytes} {rest first last pre suf : Bytes}

/-! ## The loops over the table -/

theorem flashBase_append {x : Bytes} (hx : x.length = 256) (hblock : block = pre ++ (x ++ suf)) :
    flashBase e block pre.length = word32 e x 16 := by
  rw [flashBase, hblock, word32_append, word32, word32, load, load,
    List.drop_append_of_le_length (by omega), List.take_append_of_le_length (by
      rw [List.length_drop]
      omega)]

/-- The flash bases of a piece of the table. -/
theorem flashBases (hblock : block = pre ++ xs.flatten ++ suf) (hlen : ∀ x ∈ xs, x.length = 256) :
    (List.range' pre.length xs.length 256).map (flashBase e block) =
      xs.map fun x => word32 e x 16 := by
  induction xs generalizing pre with
  | nil => rfl
  | cons x xs ih =>
    have hx := hlen x List.mem_cons_self
    have hsplit : block = pre ++ (x ++ (xs.flatten ++ suf)) := by
      rw [hblock, List.flatten_cons]
      simp only [List.append_assoc]
    have hnext : (pre ++ x).length = pre.length + 256 := by rw [List.length_append, hx]
    rw [List.length_cons, List.range'_succ, List.map_cons, List.map_cons,
      flashBase_append hx hsplit, ← hnext]
    congr 1
    refine ih ?_ fun y hy => hlen y (List.mem_cons_of_mem x hy)
    rw [hsplit]
    simp only [List.append_assoc]

/-- Once the first old entry is known, it stays. -/
theorem fisScan_first {descs : List Nat} {s : FisScan} {d : Nat} (h : s.first = some d) :
    (descs.foldl (fun s desc => fisScan e block old desc s) s).first = some d := by
  induction descs generalizing s with
  | nil => exact h
  | cons c descs ih =>
    rw [List.foldl_cons]
    refine ih ?_
    rw [fisScan]
    split
    · rw [h]
      rfl
    · exact h

/-- The running maximum of the flash bases. -/
theorem fisScan_offset {descs : List Nat} (s : FisScan) :
    (descs.foldl (fun s desc => fisScan e block old desc s) s).offset.toNat =
      greatest (fun desc => (flashBase e block desc).toNat) descs s.offset.toNat := by
  induction descs generalizing s with
  | nil => rfl
  | cons d descs ih =>
    have hround : (fisScan e block old d s).offset.toNat =
        if s.offset.toNat < (flashBase e block d).toNat then (flashBase e block d).toNat
        else s.offset.toNat := by
      have hoffset : (fisScan e block old d s).offset =
          if s.offset < flashBase e block d then flashBase e block d else s.offset := by
        rw [fisScan]
        split <;> rfl
      rw [hoffset]
      simp only [UInt32.lt_iff_toNat_lt]
      split <;> rfl
    rw [List.foldl_cons, ih, hround]
    rfl

/-- An entry in its place in the table. -/
theorem Directory.split {entries a c : List Bytes} {x : Bytes} (h : Directory es block entries rest)
    (hsplit : entries = a ++ x :: c) :
    x.length = 256 ∧ a.flatten.length = 256 * a.length ∧
      block = a.flatten ++ (x ++ (c.flatten ++ rest)) := by
  have hlen (y : Bytes) (hy : y ∈ a ++ x :: c) : y.length = 256 := (h.used y (hsplit ▸ hy)).1
  refine ⟨hlen x (by simp), length_flatten_entries fun y hy => hlen y (by simp [hy]), ?_⟩
  rw [h.layout, hsplit]
  simp only [List.flatten_append, List.flatten_cons, List.append_assoc]

theorem isPart_at {entries a c : List Bytes} {x : Bytes} (h : Directory es block entries rest)
    (hsplit : entries = a ++ x :: c) :
    isPart block old (256 * a.length) = true ↔ Named old x := by
  obtain ⟨hx, ha, hblock⟩ := h.split hsplit
  rw [← ha]
  exact isPart_append hx hblock

theorem flashBase_at {entries a c : List Bytes} {x : Bytes} (h : Directory es block entries rest)
    (hsplit : entries = a ++ x :: c) :
    (flashBase e block (256 * a.length)).toNat = entryBase e x := by
  obtain ⟨hx, ha, hblock⟩ := h.split hsplit
  rw [← ha, flashBase_append hx hblock]
  rfl

theorem OldSpan.split (ho : OldSpan old before mid after first last) :
    (∃ m, mid = first :: m) ∧ ∃ m, mid = m ++ [last] :=
  ⟨List.head?_eq_some_iff.mp ho.head, List.getLast?_eq_some_iff.mp ho.getLast⟩

/-- The entries outside of the span are not old. -/
theorem OldSpan.others (h : Directory es block (before ++ mid ++ after) rest)
    (ho : OldSpan old before mid after first last) :
    (∀ d ∈ List.range' 0 before.length 256, isPart block old d = true ↔ False) ∧
      ∀ d ∈ List.range' (256 * (before.length + mid.length)) after.length 256,
        isPart block old d = true ↔ False := by
  have hlen : ∀ x ∈ before ++ mid ++ after, x.length = 256 := fun x hx => (h.used x hx).1
  have hbm : (before ++ mid).flatten.length = 256 * (before.length + mid.length) := by
    rw [length_flatten_entries fun x hx => hlen x (List.mem_append_left _ hx), List.length_append]
  have hfront : block = [] ++ before.flatten ++ (mid.flatten ++ (after.flatten ++ rest)) := by
    rw [h.layout]
    simp only [List.flatten_append, List.append_assoc, List.nil_append]
  have hback : block = (before ++ mid).flatten ++ after.flatten ++ rest := by
    rw [h.layout, List.flatten_append]
  refine ⟨?_, ?_⟩
  · exact isPart_entries hfront (fun x hx => hlen x (by simp [hx]))
      fun x hx => iff_of_false (ho.before x hx) id
  · rw [← hbm]
    exact isPart_entries hback (fun x hx => hlen x (by simp [hx]))
      fun x hx => iff_of_false (ho.after x hx) id

/-- The first and the last old entry, whatever is between them. -/
theorem found_span (h : Directory es block (before ++ mid ++ after) rest)
    (ho : OldSpan old before mid after first last) :
    Found e es block old before.length mid.length := by
  obtain ⟨hbefore, hafter⟩ := ho.others h
  obtain ⟨⟨m, hm⟩, ⟨m', hm'⟩⟩ := ho.split
  have hwalk := @walk_directory es block before mid after rest _ (fisScan e block old) h
    ⟨0, none, none⟩
  rw [offsets_split, List.foldl_append, List.foldl_append] at hwalk
  obtain ⟨f1, -⟩ := fisScan_other (e := e) hbefore ⟨0, none, none⟩
  generalize (List.range' 0 before.length 256).foldl _ _ = s1 at *
  have hsplit : before ++ mid ++ after = before ++ first :: (m ++ after) := by
    rw [hm, List.append_assoc, List.cons_append]
  have hfirst : isPart block old (256 * before.length) = true := (isPart_at h hsplit).mpr ho.first
  have hlast : isPart block old (256 * (before.length + mid.length - 1)) = true := by
    have hcount : before.length + mid.length - 1 = (before ++ m').length := by
      rw [hm', List.length_append, List.length_append, List.length_singleton]
      omega
    have hsplit' : before ++ mid ++ after = (before ++ m') ++ last :: after := by
      rw [hm']
      simp only [List.append_assoc, List.singleton_append]
    rw [hcount]
    exact (isPart_at h hsplit').mpr ho.last
  have hpos : 0 < mid.length := by
    rw [hm]
    exact Nat.succ_pos _
  obtain ⟨o, hcount⟩ := Nat.exists_eq_succ_of_ne_zero (Nat.ne_of_gt hpos)
  have hfound : ((List.range' (256 * before.length) mid.length 256).foldl
      (fun s desc => fisScan e block old desc s) s1).first = some (256 * before.length) := by
    rw [hcount, List.range'_succ, List.foldl_cons]
    refine fisScan_first ?_
    rw [fisScan, if_pos hfirst, f1]
    rfl
  have hfound' : ((List.range' (256 * before.length) mid.length 256).foldl
      (fun s desc => fisScan e block old desc s) s1).last =
        some (256 * (before.length + mid.length - 1)) := by
    have hend : 256 * before.length + 256 * o = 256 * (before.length + mid.length - 1) := by
      omega
    rw [← hend] at hlast ⊢
    rw [hcount, Nat.succ_eq_add_one, List.range'_concat, List.foldl_append]
    simp only [List.foldl_cons, List.foldl_nil]
    rw [fisScan, if_pos hlast]
  generalize (List.range' (256 * before.length) mid.length 256).foldl _ _ = s2 at *
  obtain ⟨f3, l3⟩ := fisScan_other (e := e) hafter s2
  exact ⟨by rw [hwalk, f3, hfound], by rw [hwalk, l3, hfound']⟩

/-! ## The space that is available -/

/-- The end of the space: the next flash base above those of the first and the last old entry. -/
def spaceEnd (e : Endian) (entries : List Bytes) (first last : Bytes) : Nat :=
  next (entries.map (entryBase e)) (max (entryBase e first) (entryBase e last))

def spaceStart (e : Endian) (first last : Bytes) : Nat := min (entryBase e first) (entryBase e last)

/-- The running minimum of the flash bases above a bound. -/
theorem least_offset {descs : List Nat} (top offset : UInt32) :
    (descs.foldl (fun offset desc =>
        if flashBase e block desc > top ∧ flashBase e block desc < offset then
          flashBase e block desc
        else offset) offset).toNat =
      least (fun desc => (flashBase e block desc).toNat)
        (fun desc => top.toNat < (flashBase e block desc).toNat) descs offset.toNat := by
  induction descs generalizing offset with
  | nil => rfl
  | cons d descs ih =>
    rw [List.foldl_cons, ih, least, least, List.foldl_cons]
    congr 1
    simp only [gt_iff_lt, UInt32.lt_iff_toNat_lt]
    split <;> rfl

/-- What the second loop finds behind the entry at `top`. -/
theorem limit_eq (h : Directory es block (before ++ mid ++ after) rest) {top : Nat}
    (htop : top ∈ List.range' 0 (before.length + mid.length + after.length) 256) :
    (fisWalk es block (fun desc offset =>
        if flashBase e block desc > flashBase e block top ∧ flashBase e block desc < offset then
          flashBase e block desc
        else offset) es 0 (fisWalk es block (fisScan e block old) es 0 ⟨0, none,
          none⟩).offset).toNat =
      next ((before ++ mid ++ after).map (entryBase e)) (flashBase e block top).toNat := by
  have hlen : ∀ x ∈ before ++ mid ++ after, x.length = 256 := fun x hx => (h.used x hx).1
  have hbases : (List.range' 0 (before.length + mid.length + after.length) 256).map
      (fun desc => (flashBase e block desc).toNat) =
        (before ++ mid ++ after).map (entryBase e) := by
    have hlayout : block = [] ++ (before ++ mid ++ after).flatten ++ rest := h.layout
    have hmap := congrArg (List.map UInt32.toNat) (flashBases (e := e) hlayout hlen)
    rw [List.map_map, List.map_map, List.length_append, List.length_append] at hmap
    exact hmap
  rw [walk_directory h, walk_directory h]
  generalize List.range' 0 (before.length + mid.length + after.length) 256 = descs at *
  rw [← hbases, ← next_scan (Nat.zero_le _) ⟨top, htop, rfl⟩]
  rw [least_offset, fisScan_offset]
  rfl

/-- `fis_remap` from the move on. -/
theorem fisRemap_span (h : Directory es block (before ++ mid ++ after) rest)
    (ho : OldSpan old before mid after first last) :
    ∃ base size : UInt32, base.toNat = spaceStart e first last ∧
      size.toNat = spaceEnd e (before ++ mid ++ after) first last - base.toNat ∧
      fisRemap e es block old new =
        (fisMove es block (256 * (before.length + new.length))
          (256 * (before.length + mid.length))).bind
            fun moved => fisWrite e es new (256 * before.length) base size moved := by
  have hfound := found_span (e := e) h ho
  obtain ⟨⟨m, hm⟩, ⟨m', hm'⟩⟩ := ho.split
  have hcount : before.length + mid.length - 1 = (before ++ m').length := by
    rw [hm', List.length_append, List.length_append, List.length_singleton]
    omega
  have hsplit : before ++ mid ++ after = before ++ first :: (m ++ after) := by
    rw [hm, List.append_assoc, List.cons_append]
  have hsplit' : before ++ mid ++ after = (before ++ m') ++ last :: after := by
    rw [hm']
    simp only [List.append_assoc, List.singleton_append]
  have hfirst : (flashBase e block (256 * before.length)).toNat = entryBase e first :=
    flashBase_at h hsplit
  have hlast : (flashBase e block (256 * (before.length + mid.length - 1))).toNat =
      entryBase e last := by
    rw [hcount]
    exact flashBase_at h hsplit'
  have hdesc : 256 * before.length + new.length * 256 = 256 * (before.length + new.length) := by
    omega
  have hpos : 0 < mid.length := by
    rw [hm]
    exact Nat.succ_pos _
  have hend : 256 * (before.length + mid.length - 1) + 256 = 256 * (before.length + mid.length) :=
      by
    omega
  unfold fisRemap
  dsimp only
  rw [hfound.first, hfound.last]
  dsimp only
  rw [hdesc, hend]
  generalize hf : 256 * before.length = f at *
  generalize hl : 256 * (before.length + mid.length - 1) = l at *
  have hstart : (flashBase e block
      (if flashBase e block f > flashBase e block l then l else f)).toNat =
        spaceStart e first last := by
    rw [spaceStart, ← hfirst, ← hlast]
    simp only [gt_iff_lt, UInt32.lt_iff_toNat_lt]
    split <;> omega
  have htop : (flashBase e block
      (if flashBase e block f > flashBase e block l then f else l)).toNat =
        max (entryBase e first) (entryBase e last) := by
    rw [← hfirst, ← hlast]
    simp only [gt_iff_lt, UInt32.lt_iff_toNat_lt]
    split <;> omega
  have hmem : (if flashBase e block f > flashBase e block l then f else l) ∈
      List.range' 0 (before.length + mid.length + after.length) 256 := by
    rw [List.mem_range']
    split
    · exact ⟨before.length, by omega, by omega⟩
    · exact ⟨before.length + mid.length - 1, by omega, by omega⟩
  have hlimit := @limit_eq e es block old _ _ _ _ h _ hmem
  rw [htop, ← spaceEnd] at hlimit
  have hle : spaceStart e first last ≤ spaceEnd e (before ++ mid ++ after) first last :=
    (min_le_max).trans (le_next _ _)
  generalize fisWalk es block _ es 0
    (fisWalk es block (fisScan e block old) es 0 ⟨0, none, none⟩).offset = limit at *
  generalize flashBase e block
    (if flashBase e block f > flashBase e block l then l else f) = base at *
  refine ⟨base, limit - base, hstart, ?_, ?_⟩
  · rw [UInt32.toNat_sub_of_le _ _ (by
      rw [UInt32.le_iff_toNat_le, hstart, hlimit]
      exact hle), hlimit]
  · cases fisMove es block (256 * (before.length + new.length))
        (256 * (before.length + mid.length)) with
    | none => rfl
    | some moved => rfl

theorem fisMove_outside {desc last : Nat} (hlast : last ≤ es) (h : es < desc) :
    fisMove es block desc last = none := by
  rw [fisMove_up (by omega)]
  exact if_neg (by omega)

/-- The stores need room for the new entries, and as many of them as the span has. -/
theorem fisRemap_none (h : Directory es block (before ++ mid ++ after) rest)
    (ho : OldSpan old before mid after first last) (hint : es < 2 ^ 31)
    (hroom : ¬ (mid.length ≤ new.length ∧ 256 * (before.length + new.length) ≤ es)) :
    fisRemap e es block old new = none := by
  obtain ⟨base, size, -, -, hrun⟩ := @fisRemap_span e es block old new _ _ _ _ _ _ h ho
  have htotal := h.length_le
  rw [hrun]
  by_cases hle : mid.length ≤ new.length
  · rw [fisMove_outside (by omega) (by omega)]
    rfl
  · rw [fisMove_shrink hint (by omega) (by omega)]
    rfl

/-- What is left of the table: the entries before the span, the new ones, and what follows it as far
as the block reaches. -/
theorem fisRemap_some (h : Directory es block (before ++ mid ++ after) rest)
    (ho : OldSpan old before mid after first last) (hint : es < 2 ^ 31)
    (hle : mid.length ≤ new.length) (hfit : 256 * (before.length + new.length) ≤ es) :
    ∃ base size : UInt32, base.toNat = spaceStart e first last ∧
      size.toNat = spaceEnd e (before ++ mid ++ after) first last - base.toNat ∧
      fisRemap e es block old new =
        some (before.flatten ++ (newEntries e new base size).flatten ++
          (after.flatten ++ rest).take (es - 256 * (before.length + new.length))) := by
  have hlen : ∀ x ∈ before ++ mid ++ after, x.length = 256 := fun x hx => (h.used x hx).1
  have hb : before.flatten.length = 256 * before.length :=
    length_flatten_entries fun x hx => hlen x (by simp [hx])
  have hbm : (before ++ mid).flatten.length = 256 * (before.length + mid.length) := by
    rw [length_flatten_entries fun x hx => hlen x (List.mem_append_left _ hx), List.length_append]
  have ha : after.flatten.length = 256 * after.length :=
    length_flatten_entries fun x hx => hlen x (by simp [hx])
  have htotal := h.length_le
  obtain ⟨base, size, hbase, hsize, hrun⟩ := @fisRemap_span e es block old new _ _ _ _ _ _ h ho
  refine ⟨base, size, hbase, hsize, ?_⟩
  have hall : block = (before ++ mid).flatten ++ (after.flatten ++ rest) := by
    rw [h.layout]
    simp only [List.flatten_append, List.append_assoc]
  have hdrop : block.drop (256 * (before.length + mid.length)) = after.flatten ++ rest := by
    rw [hall, List.drop_left' hbm]
  have hfront : block.take (256 * (before.length + new.length)) = before.flatten ++
      (block.drop (256 * before.length)).take (256 * new.length) := by
    rw [Nat.mul_add, List.take_add, hall, List.flatten_append, List.append_assoc,
      List.take_left' hb]
  have hmid : ((block.drop (256 * before.length)).take (256 * new.length)).length =
      256 * new.length := by
    rw [List.length_take, List.length_drop, h.length]
    omega
  have htail : ((after.flatten ++ rest).take
      (es - 256 * (before.length + new.length))).length =
        es - 256 * (before.length + new.length) := by
    rw [List.length_take, List.length_append, ha]
    omega
  have hwrite : fisWrite e es new before.flatten.length base size
      (before.flatten ++ (block.drop (256 * before.length)).take (256 * new.length) ++
        (after.flatten ++ rest).take (es - 256 * (before.length + new.length))) =
      some (before.flatten ++ (newEntries e new base size).flatten ++
        (after.flatten ++ rest).take (es - 256 * (before.length + new.length))) := by
    refine fisWrite_eq hmid ?_
    rw [List.length_append, List.length_append, hmid, hb, htail]
    omega
  rw [hb] at hwrite
  rw [hrun, fisMove_grow h.length hint (by omega) hfit, hdrop, hfront, Option.bind_some, hwrite]

/-! ## The new entries -/

theorem fisImageDesc_region (part : FisPart) (offset size : UInt32) :
    entryBase e (fisImageDesc e part offset size) = offset.toNat ∧
      entrySize e (fisImageDesc e part offset size) = size.toNat := by
  have hfield (i : Nat) {v : UInt32} {length : UInt32} {tail : Bytes}
      (h : [(4, offset.toNat), (4, part.loadaddr.toNat), (4, size.toNat),
        (4, part.loadaddr.toNat), (4, length.toNat)][i]? = some (4, v.toNat)) :
      word32 e (part.name ++ (e.putAll [(4, offset.toNat), (4, part.loadaddr.toNat),
        (4, size.toNat), (4, part.loadaddr.toNat), (4, length.toNat)] ++ tail))
          (16 + ([4, 4, 4, 4, 4].take i).sum) = v := by
    rw [← part.name16, word32_append]
    exact word32_field e rfl _ i h
  exact ⟨congrArg UInt32.toNat (hfield 0 rfl), congrArg UInt32.toNat (hfield 2 rfl)⟩

/-- The sizes that are given. -/
def totalSize (parts : List FisPart) : Nat := (parts.map fun part => part.size.toNat).sum

/-- The last partition takes the rest of the space. -/
def TakesRest (parts : List FisPart) : Prop := ∃ part, parts.getLast? = some part ∧ part.size = 0

/-- Entries whose ranges follow one another. -/
def InARow (e : Endian) (entries : List Bytes) : Prop :=
  entries.IsChain fun x y => entryBase e y = entryBase e x + entrySize e x

theorem takesRest_singleton {part : FisPart} : TakesRest [part] ↔ part.size = 0 := by
  refine ⟨?_, fun h => ⟨part, rfl, h⟩⟩
  rintro ⟨last, hlast, hzero⟩
  rw [← Option.some.inj hlast] at hzero
  exact hzero

theorem takesRest_cons {part next : FisPart} {parts : List FisPart} :
    TakesRest (part :: next :: parts) ↔ TakesRest (next :: parts) := by
  rw [TakesRest, TakesRest, List.getLast?_cons_cons]

theorem partSize_toNat (part : FisPart) (size : UInt32) :
    (if part.size > 0 then part.size else size).toNat =
      if part.size = 0 then size.toNat else part.size.toNat := by
  simp only [gt_iff_lt, UInt32.lt_iff_toNat_lt, ← UInt32.toNat_inj, UInt32.toNat_zero]
  split <;> split <;> omega

/-- **New ranges.** They follow one another up to `hi` exactly if the given sizes fit, and the space
does if the last one takes the rest of it. -/
theorem newEntries_iff {parts : List FisPart} {offset size : UInt32} {hi : Nat} (hne : parts ≠ [])
    (hhi : hi < 2 ^ 32) (hsizes : ∀ part ∈ parts.dropLast, part.size ≠ 0) :
    (InARow e (newEntries e parts offset size) ∧
        ∀ x ∈ newEntries e parts offset size, entryBase e x + entrySize e x ≤ hi) ↔
      offset.toNat + totalSize parts ≤ hi ∧
        (TakesRest parts → totalSize parts ≤ size.toNat ∧ offset.toNat + size.toNat ≤ hi) := by
  induction parts generalizing offset size with
  | nil => exact absurd rfl hne
  | cons part parts ih =>
    obtain ⟨hbase, hsize⟩ := fisImageDesc_region (e := e) part offset
      (if part.size > 0 then part.size else size)
    rw [partSize_toNat] at hsize
    cases parts with
    | nil =>
      have htotal : totalSize [part] = part.size.toNat := Nat.add_zero _
      rw [newEntries, newEntries, takesRest_singleton, htotal]
      have hsingle : InARow e
          [fisImageDesc e part offset (if part.size > 0 then part.size else size)] :=
        .singleton _
      simp only [hsingle, true_and, List.mem_singleton, forall_eq]
      rw [hbase, hsize]
      by_cases hzero : part.size = 0
      · rw [if_pos hzero, hzero, UInt32.toNat_zero]
        simp only [forall_const]
        omega
      · rw [if_neg hzero]
        simp only [hzero, false_imp_iff, and_true]
    | cons next parts =>
      have hzero : part.size ≠ 0 := hsizes part (by simp)
      have hpos : part.size > 0 := by
        rw [gt_iff_lt, UInt32.lt_iff_toNat_lt, UInt32.toNat_zero]
        exact Nat.pos_of_ne_zero fun h => hzero (UInt32.toNat_inj.mp h)
      have htotal : totalSize (part :: next :: parts) =
          part.size.toNat + totalSize (next :: parts) := rfl
      have hmem : ∀ q ∈ (next :: parts).dropLast, q.size ≠ 0 := fun q hq => hsizes q (by
        rw [List.dropLast_cons_cons]
        exact List.mem_cons_of_mem part hq)
      have hih := @ih (offset + part.size) (size - part.size) (List.cons_ne_nil _ _) hmem
      have hnext : ∃ y ys, newEntries e (next :: parts) (offset + part.size) (size - part.size) =
          y :: ys ∧ entryBase e y = (offset + part.size).toNat :=
        ⟨_, _, rfl, (fisImageDesc_region next _ _).1⟩
      obtain ⟨y, ys, htail, hy⟩ := hnext
      rw [if_pos hpos] at hbase hsize
      rw [if_neg hzero] at hsize
      rw [newEntries, if_pos hpos, htotal, takesRest_cons]
      rw [htail] at hih ⊢
      rw [InARow] at hih ⊢
      rw [List.isChain_cons_cons, List.forall_mem_cons, hbase, hsize, hy]
      have hsub := UInt32.toNat_sub size part.size
      have hlt := size.toNat_lt
      have hlt' := part.size.toNat_lt
      by_cases hfit : offset.toNat + part.size.toNat ≤ hi
      · have hadd : (offset + part.size).toNat = offset.toNat + part.size.toNat := by
          rw [UInt32.toNat_add]
          exact Nat.mod_eq_of_lt (Nat.lt_of_le_of_lt hfit hhi)
        rw [hadd] at hih ⊢
        constructor
        · rintro ⟨⟨-, hchain⟩, -, hall⟩
          obtain ⟨hsum, hrest⟩ := hih.mp ⟨hchain, hall⟩
          refine ⟨by omega, fun htakes => ?_⟩
          have hspace := hrest htakes
          omega
        · rintro ⟨hsum, hrest⟩
          obtain ⟨hchain, hall⟩ := hih.mpr ⟨by omega, fun htakes => by
            have hspace := hrest htakes
            omega⟩
          exact ⟨⟨rfl, hchain⟩, hfit, hall⟩
      · refine iff_of_false (fun h => hfit h.2.1) fun h => hfit ?_
        omega

theorem InARow.le_base {x : Bytes} (h : InARow e (x :: xs)) :
    ∀ y ∈ x :: xs, entryBase e x ≤ entryBase e y := by
  induction xs generalizing x with
  | nil =>
    intro y hy
    rw [List.mem_singleton.mp hy]
  | cons z zs ih =>
    obtain ⟨hnext, hrest⟩ := List.isChain_cons_cons.mp h
    intro y hy
    rcases List.mem_cons.mp hy with rfl | hy
    · exact le_refl _
    · have hle := ih hrest y hy
      omega

theorem length_of_entry {parts : List FisPart} (h : List.Forall₂ (EntryOf e) parts xs) :
    ∀ x ∈ xs, x.length = 256 := by
  induction h with
  | nil => exact fun x hx => absurd hx List.not_mem_nil
  | cons hentry _ ih => exact List.forall_mem_cons.mpr ⟨hentry.length, ih⟩

theorem flatten_inj {ys : List Bytes} (hx : ∀ x ∈ xs, x.length = 256)
    (hy : ∀ y ∈ ys, y.length = 256) (hlen : xs.length = ys.length)
    (h : xs.flatten = ys.flatten) : xs = ys := by
  induction xs generalizing ys with
  | nil => exact (List.length_eq_zero_iff.mp hlen.symm).symm
  | cons x xs ih =>
    cases ys with
    | nil => cases hlen
    | cons y ys =>
      rw [List.flatten_cons, List.flatten_cons] at h
      obtain ⟨rfl, hrest⟩ := List.append_inj h
        ((hx x List.mem_cons_self).trans (hy y List.mem_cons_self).symm)
      rw [ih (fun z hz => hx z (List.mem_cons_of_mem _ hz))
        (fun z hz => hy z (List.mem_cons_of_mem _ hz)) (Nat.succ_inj.mp hlen) hrest]

/-- What takes the place of the old ranges overlaps no other entry. -/
theorem Occupied.disjoint {entries : List Bytes} {lo hi : Nat} {x y : Bytes}
    (hocc : Occupied e old entries lo hi)
    (hdisjoint : entries.Pairwise fun x y => NoOverlap e x y)
    (hlo : lo ≤ entryBase e x) (hhi : entryBase e x + entrySize e x ≤ hi) (hy : y ∈ entries)
    (hother : ¬ Named old y) : NoOverlap e x y := by
  intro a hax hay
  obtain ⟨hle, hlt⟩ := Set.mem_Ico.mp hax
  obtain ⟨z, hz, hnamed, haz⟩ := hocc.covered a (hlo.trans hle) (Nat.lt_of_lt_of_le hlt hhi)
  have hne : z ≠ y := by
    rintro rfl
    exact hother hnamed
  have hsymm : Std.Symm fun x y : Bytes => NoOverlap e x y := ⟨fun _ _ h b hb hb' => h b hb' hb⟩
  exact hdisjoint.forall hz hy hne a haz hay

/-- The new entries stand where the old ones were in the table, and their ranges take the place of
the old ones. -/
structure InPlace (e : Endian) (es : Nat) (block : Bytes) (old new : List FisPart)
    (before after : List Bytes) (rest : Bytes) (lo hi : Nat) (entries : List Bytes) : Prop where
  run : fisRemap e es block old new = some (before.flatten ++ entries.flatten ++
    (after.flatten ++ rest).take (es - 256 * (before.length + new.length)))
  described : List.Forall₂ (EntryOf e) new entries
  consecutive : InARow e entries
  inside : ∀ x ∈ entries, lo ≤ entryBase e x ∧ entryBase e x + entrySize e x ≤ hi
  disjoint : ∀ x ∈ entries, ∀ y ∈ before ++ after, NoOverlap e x y

/-- The new entries start where the space does. -/
theorem InPlace.entries_eq {lo hi : Nat} {entries : List Bytes}
    (hin : InPlace e es block old new before after rest lo hi entries)
    (h : Directory es block (before ++ mid ++ after) rest)
    (ho : OldSpan old before mid after first last) (hint : es < 2 ^ 31) :
    mid.length ≤ new.length ∧ 256 * (before.length + new.length) ≤ es ∧
      ∃ base size : UInt32, base.toNat = spaceStart e first last ∧
        size.toNat = spaceEnd e (before ++ mid ++ after) first last - base.toNat ∧
        entries = newEntries e new base size := by
  have hroom : mid.length ≤ new.length ∧ 256 * (before.length + new.length) ≤ es := by
    by_contra hno
    have hnone := fisRemap_none (e := e) h ho hint hno
    rw [hin.run] at hnone
    cases hnone
  obtain ⟨base, size, hbase, hsize, hrun⟩ :=
    @fisRemap_some e es block old new _ _ _ _ _ _ h ho hint hroom.1 hroom.2
  have hentries := newEntries_entry (e := e) new base size
  refine ⟨hroom.1, hroom.2, base, size, hbase, hsize, ?_⟩
  have heq := Option.some.inj (hin.run.symm.trans hrun)
  refine flatten_inj (length_of_entry hin.described) (length_of_entry hentries)
    (hin.described.length_eq.symm.trans hentries.length_eq) ?_
  exact List.append_cancel_left (List.append_cancel_right heq)

theorem sizes_of_validate (hv : fisValidate es block old new = 1) :
    ∀ part ∈ new.dropLast, part.size ≠ 0 := by
  intro part hpart hzero
  have hany : new.dropLast.any (·.size == 0) = true :=
    List.any_eq_true.mpr ⟨part, hpart, beq_iff_eq.mpr hzero⟩
  rw [fisValidate, if_pos hany] at hv
  cases hv

/-- **Regions.** The new ranges take the place of the old ones exactly if the stores have room, the
given sizes fit into what the old ranges made up from the start of the space on, and so does the
space if the last partition takes the rest of it. -/
theorem fisRemap_regions_iff {lo hi : Nat} (h : Directory es block (before ++ mid ++ after) rest)
    (ho : OldSpan old before mid after first last)
    (hdisjoint : (before ++ mid ++ after).Pairwise fun x y =>
      NoOverlap e x y)
    (hocc : Occupied e old (before ++ mid ++ after) lo hi)
    (hnext : ∃ y ∈ before ++ mid ++ after, ¬ Named old y ∧ hi ≤ entryBase e y)
    (hv : fisValidate es block old new = 1) (hint : es < 2 ^ 31) :
    (∃ entries, InPlace e es block old new before after rest lo hi entries) ↔
      mid.length ≤ new.length ∧ 256 * (before.length + new.length) ≤ es ∧
        spaceStart e first last + totalSize new ≤ hi ∧
        (TakesRest new →
          spaceStart e first last + totalSize new ≤
              spaceEnd e (before ++ mid ++ after) first last ∧
            spaceEnd e (before ++ mid ++ after) first last ≤ hi) := by
  obtain ⟨⟨m, hm⟩, -⟩ := ho.split
  have hhi : hi < 2 ^ 32 := by
    obtain ⟨y, -, -, hy⟩ := hnext
    exact Nat.lt_of_le_of_lt hy (word32 e y 16).toNat_lt
  have hsizes := sizes_of_validate hv
  have hspace : spaceStart e first last ≤ spaceEnd e (before ++ mid ++ after) first last :=
    min_le_max.trans (le_next _ _)
  have hne (hle : mid.length ≤ new.length) : new ≠ [] := by
    rintro rfl
    rw [hm] at hle
    exact absurd hle (Nat.not_succ_le_zero _)
  constructor
  · rintro ⟨entries, hin⟩
    obtain ⟨hle, hfit, base, size, hbase, hsize, rfl⟩ := hin.entries_eq h ho hint
    obtain ⟨hsum, hrest⟩ := (newEntries_iff (hne hle) hhi hsizes).mp
      ⟨hin.consecutive, fun x hx => (hin.inside x hx).2⟩
    rw [← hbase] at hspace ⊢
    refine ⟨hle, hfit, hsum, fun htakes => ?_⟩
    have hspace' := hrest htakes
    omega
  · rintro ⟨hle, hfit, hsum, hrest⟩
    obtain ⟨base, size, hbase, hsize, hrun⟩ :=
      @fisRemap_some e es block old new _ _ _ _ _ _ h ho hint hle hfit
    rw [← hbase] at hspace hsum hrest
    obtain ⟨hchain, hupper⟩ := (@newEntries_iff e new base size hi (hne hle) hhi hsizes).mpr
      ⟨hsum, fun htakes => by
        have hspace' := hrest htakes
        omega⟩
    have hlo : lo ≤ base.toNat := by
      have hfirst : first ∈ mid := hm ▸ List.mem_cons_self
      have hlast : last ∈ mid := List.mem_of_getLast? ho.getLast
      have hlo₁ := (hocc.within first (by simp [hfirst]) ho.first).1
      have hlo₂ := (hocc.within last (by simp [hlast]) ho.last).1
      rw [hbase, spaceStart]
      exact le_min hlo₁ hlo₂
    have hlower : ∀ x ∈ newEntries e new base size, lo ≤ entryBase e x := by
      obtain ⟨part, parts, rfl⟩ := List.exists_cons_of_ne_nil (hne hle)
      rw [newEntries] at hchain ⊢
      intro x hx
      have hge := hchain.le_base x hx
      rw [(fisImageDesc_region _ _ _).1] at hge
      exact hlo.trans hge
    refine ⟨_, hrun, newEntries_entry new base size, hchain,
      fun x hx => ⟨hlower x hx, hupper x hx⟩, fun x hx y hy => ?_⟩
    have hmem : y ∈ before ++ mid ++ after := by
      rcases List.mem_append.mp hy with hy | hy <;> simp [hy]
    have hother : ¬ Named old y := by
      rcases List.mem_append.mp hy with hy | hy
      · exact ho.before y hy
      · exact ho.after y hy
    exact hocc.disjoint hdisjoint (hlower x hx) (hupper x hx) hmem hother

end

/-! ## A partition that is split -/

/-- An entry with a name of one letter. -/
def regionEntry (letter : UInt8) (base size : UInt32) : Bytes :=
  fisImageDesc .big (fisPart letter 0) base size

/-- The entries `a` and `b` of 4 KiB each. -/
def dirRegions : Bytes :=
  [regionEntry 0x61 0x1000 0x1000, regionEntry 0x62 0x2000 0x1000].flatten ++
    List.replicate 512 0xff

theorem regionEntry_used {letter : UInt8} {base size : UInt32} (h0 : letter ≠ 0)
    (hff : letter ≠ 0xff) : UsedEntry (regionEntry letter base size) :=
  ⟨length_fisImageDesc .big _ _ _, h0, hff⟩

theorem named_regionEntry {letter c : UInt8} {base size s : UInt32} :
    Named [fisPart c s] (regionEntry letter base size) ↔
      strncmpEq (letter :: List.replicate 15 0) (c :: List.replicate 15 0) 16 = true := by
  have hname : (regionEntry letter base size).take 16 = letter :: List.replicate 15 0 :=
    List.take_left' rfl
  rw [Named, hname]
  simp only [List.any_cons, List.any_nil, Bool.or_false]
  rfl

theorem region_a : entryBase .big (regionEntry 0x61 0x1000 0x1000) = 0x1000 ∧
    entrySize .big (regionEntry 0x61 0x1000 0x1000) = 0x1000 := fisImageDesc_region _ _ _

theorem region_b : entryBase .big (regionEntry 0x62 0x2000 0x1000) = 0x2000 ∧
    entrySize .big (regionEntry 0x62 0x2000 0x1000) = 0x1000 := fisImageDesc_region _ _ _

theorem dirRegions_directory :
    Directory 1024 dirRegions ([] ++ [regionEntry 0x61 0x1000 0x1000] ++
      [regionEntry 0x62 0x2000 0x1000]) (List.replicate 512 0xff) where
  layout := rfl
  length := by
    simp only [dirRegions, regionEntry, List.flatten_cons, List.flatten_nil, List.length_append,
      length_fisImageDesc, List.length_replicate, List.length_nil]
  used := by
    intro x hx
    simp only [List.nil_append, List.singleton_append, List.mem_cons, List.not_mem_nil,
      or_false] at hx
    rcases hx with rfl | rfl
    · exact regionEntry_used (by decide) (by decide)
    · exact regionEntry_used (by decide) (by decide)
  ends := Or.inr rfl

theorem dirRegions_span : OldSpan [fisPart 0x61 0] [] [regionEntry 0x61 0x1000 0x1000]
    [regionEntry 0x62 0x2000 0x1000] (regionEntry 0x61 0x1000 0x1000)
    (regionEntry 0x61 0x1000 0x1000) where
  head := rfl
  getLast := rfl
  first := named_regionEntry.mpr (by decide)
  last := named_regionEntry.mpr (by decide)
  before := fun x hx => absurd hx List.not_mem_nil
  after := by
    intro x hx
    rw [List.mem_singleton.mp hx, named_regionEntry]
    decide

theorem dirRegions_occupied : Occupied .big [fisPart 0x61 0]
    ([] ++ [regionEntry 0x61 0x1000 0x1000] ++ [regionEntry 0x62 0x2000 0x1000]) 0x1000 0x2000 where
  within := by
    intro x hx hnamed
    simp only [List.nil_append, List.singleton_append, List.mem_cons, List.not_mem_nil,
      or_false] at hx
    rcases hx with rfl | rfl
    · rw [region_a.1, region_a.2]
      exact ⟨by decide, by decide⟩
    · rw [named_regionEntry] at hnamed
      exact absurd hnamed (by decide)
  covered := by
    intro a hlo hhi
    refine ⟨regionEntry 0x61 0x1000 0x1000, by simp, named_regionEntry.mpr (by decide), ?_⟩
    rw [flashRange, region_a.1, region_a.2]
    exact ⟨hlo, hhi⟩

theorem dirRegions_disjoint :
    ([] ++ [regionEntry 0x61 0x1000 0x1000] ++ [regionEntry 0x62 0x2000 0x1000]).Pairwise
      fun x y => NoOverlap .big x y := by
  refine List.pairwise_pair.mpr ?_
  rw [NoOverlap, flashRange, flashRange, region_a.1, region_a.2, region_b.1, region_b.2]
  intro a ha hb
  exact Nat.not_lt_of_le hb.1 ha.2

theorem dirRegions_validate {size : UInt32} (h : size ≠ 0) :
    fisValidate 1024 dirRegions [fisPart 0x61 0] [fisPart 0x63 size, fisPart 0x64 0] = 1 := by
  have ho : OldEntries [fisPart 0x61 0] [] [regionEntry 0x61 0x1000 0x1000]
      [regionEntry 0x62 0x2000 0x1000] := by
    refine ⟨fun x hx => ?_, dirRegions_span.before, dirRegions_span.after⟩
    rw [List.mem_singleton.mp hx]
    exact dirRegions_span.first
  have hsize : ¬ [fisPart 0x63 size, fisPart 0x64 0].dropLast.any (·.size == 0) = true := by
    simp only [List.dropLast_cons_cons, List.dropLast_singleton, List.any_cons, List.any_nil,
      Bool.or_false, beq_iff_eq]
    exact h
  rw [validate_eq dirRegions_directory ho, if_neg hsize]
  rfl

theorem dirRegions_space :
    spaceStart .big (regionEntry 0x61 0x1000 0x1000) (regionEntry 0x61 0x1000 0x1000) = 0x1000 ∧
      spaceEnd .big ([] ++ [regionEntry 0x61 0x1000 0x1000] ++ [regionEntry 0x62 0x2000 0x1000])
        (regionEntry 0x61 0x1000 0x1000) (regionEntry 0x61 0x1000 0x1000) = 0x2000 := by
  rw [spaceStart, spaceEnd, List.nil_append, List.singleton_append, List.map_cons, List.map_cons,
    List.map_nil, region_a.1, region_b.1]
  exact ⟨by decide, next_eq (by simp) (by decide) (by decide)⟩

/-- Half of `a`, and the rest of it. -/
theorem fisRemap_regions_split : ∃ entries, InPlace .big 1024 dirRegions [fisPart 0x61 0]
    [fisPart 0x63 0x800, fisPart 0x64 0] [] [regionEntry 0x62 0x2000 0x1000]
    (List.replicate 512 0xff) 0x1000 0x2000 entries := by
  refine (fisRemap_regions_iff dirRegions_directory dirRegions_span dirRegions_disjoint
    dirRegions_occupied ?_ (dirRegions_validate (by decide)) (by decide)).mpr ?_
  · refine ⟨regionEntry 0x62 0x2000 0x1000, by simp, ?_, ?_⟩
    · rw [named_regionEntry]
      decide
    · rw [region_b.1]
  · rw [dirRegions_space.1, dirRegions_space.2]
    exact ⟨by decide, by decide, by decide, fun _ => ⟨by decide, by decide⟩⟩

/-- More than `a` has: the first new range reaches into `b`. -/
theorem fisRemap_regions_overlap :
    Directory 1024 dirRegions ([] ++ [regionEntry 0x61 0x1000 0x1000] ++
        [regionEntry 0x62 0x2000 0x1000]) (List.replicate 512 0xff) ∧
      OldSpan [fisPart 0x61 0] [] [regionEntry 0x61 0x1000 0x1000]
        [regionEntry 0x62 0x2000 0x1000] (regionEntry 0x61 0x1000 0x1000)
        (regionEntry 0x61 0x1000 0x1000) ∧
      ([] ++ [regionEntry 0x61 0x1000 0x1000] ++ [regionEntry 0x62 0x2000 0x1000]).Pairwise
        (fun x y => NoOverlap .big x y) ∧
      Occupied .big [fisPart 0x61 0] ([] ++ [regionEntry 0x61 0x1000 0x1000] ++
        [regionEntry 0x62 0x2000 0x1000]) 0x1000 0x2000 ∧
      fisValidate 1024 dirRegions [fisPart 0x61 0] [fisPart 0x63 0x1800, fisPart 0x64 0] = 1 ∧
      ¬ ∃ entries, InPlace .big 1024 dirRegions [fisPart 0x61 0]
        [fisPart 0x63 0x1800, fisPart 0x64 0] [] [regionEntry 0x62 0x2000 0x1000]
        (List.replicate 512 0xff) 0x1000 0x2000 entries := by
  have hv : fisValidate 1024 dirRegions [fisPart 0x61 0] [fisPart 0x63 0x1800, fisPart 0x64 0] =
      1 :=
    dirRegions_validate (by decide)
  refine ⟨dirRegions_directory, dirRegions_span, dirRegions_disjoint, dirRegions_occupied, hv, ?_⟩
  rintro ⟨entries, hin⟩
  obtain ⟨-, -, base, size, hbase, -, rfl⟩ :=
    hin.entries_eq dirRegions_directory dirRegions_span (by decide)
  obtain ⟨hsum, -⟩ := (newEntries_iff (List.cons_ne_nil _ _) (by decide)
    (sizes_of_validate hv)).mp ⟨hin.consecutive, fun x hx => (hin.inside x hx).2⟩
  rw [hbase, dirRegions_space.1] at hsum
  exact absurd hsum (by decide)

end UolaOs.Mtd
