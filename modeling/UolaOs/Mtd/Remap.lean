import Mathlib.Data.List.Forall2
import UolaOs.Mtd.Fis
import UolaOs.Mtd.Nodes

/-!
# Remapping a FIS directory

* `Directory`: a block as its entries and the bytes behind the table;
* `fisWalk_eq`: the loops over the table meet its entries in order;
* `fisMove_grow`, `fisMove_shrink`, `fisWrite_eq`: what the stores leave;
* `fisRemap_iff`: exactly the old entries are replaced, with erased bytes behind the table, when
  the table does not shrink and the bytes behind it are erased.
-/

namespace UolaOs.Mtd

/-! ## Directories -/

/-- An entry that does not end the table. -/
def UsedEntry (x : Bytes) : Prop := x.length = 256 ∧ x.headD 0 ≠ 0 ∧ x.headD 0 ≠ 0xff

/-- A directory block: its entries and what follows the table. -/
structure Directory (es : Nat) (block : Bytes) (entries : List Bytes) (rest : Bytes) : Prop where
  layout : block = entries.flatten ++ rest
  length : block.length = es
  used : ∀ x ∈ entries, UsedEntry x
  ends : rest.headD 0 = 0 ∨ rest.headD 0 = 0xff

/-- The entry has the name of one of the parts. -/
def Named (old : List FisPart) (x : Bytes) : Prop :=
  old.any (fun part => strncmpEq (x.take 16) part.name 16) = true

/-- A directory in which the entries of the old partitions follow one another. -/
structure OldEntries (old : List FisPart) (before olds after : List Bytes) : Prop where
  olds : ∀ x ∈ olds, Named old x
  before : ∀ x ∈ before, ¬ Named old x
  after : ∀ x ∈ after, ¬ Named old x

/-- What a new entry says of its partition. -/
structure EntryOf (e : Endian) (part : FisPart) (x : Bytes) : Prop where
  length : x.length = 256
  name : x.take 16 = part.name
  mem_base : word32 e x 20 = part.loadaddr
  entry_point : word32 e x 28 = part.loadaddr
  size : 0 < part.size → word32 e x 24 = part.size
  data_length : 0 < part.length → word32 e x 32 = part.length
  crc : word32 e x 252 = part.crc

theorem length_flatten_entries {xs : List Bytes} (h : ∀ x ∈ xs, x.length = 256) :
    xs.flatten.length = 256 * xs.length := by
  induction xs with
  | nil => rfl
  | cons x xs ih =>
    rw [List.flatten_cons, List.length_append, h x (by simp), ih fun y hy => h y (by simp [hy]),
      List.length_cons]
    omega

section
variable {es : Nat} {block : Bytes} {old : List FisPart}

/-! ## The loops over the table -/

section
variable {σ : Type} {body : Nat → σ → σ}

theorem fisFree_append {pre suf : Bytes} :
    fisFree (pre ++ suf) pre.length = (suf.headD 0 == 0 || suf.headD 0 == 0xff) := by
  rw [fisFree, List.drop_left]

/-- A loop over the table runs its body at each entry. -/
theorem fisWalk_eq {xs : List Bytes} {pre rest : Bytes} (hblock : block = pre ++ xs.flatten ++ rest)
    (hlen : block.length = es) (hused : ∀ x ∈ xs, UsedEntry x)
    (hends : rest.headD 0 = 0 ∨ rest.headD 0 = 0xff) {fuel : Nat} (hf : xs.length ≤ fuel) (s : σ) :
    fisWalk es block body fuel pre.length s =
      (List.range' pre.length xs.length 256).foldl (fun s desc => body desc s) s := by
  induction xs generalizing pre fuel s with
  | nil =>
    have hfree : fisFree block pre.length = true := by
      rw [hblock, List.flatten_nil, List.append_nil, fisFree_append]
      rcases hends with h | h <;> rw [h] <;> rfl
    cases fuel with
    | zero => rfl
    | succ fuel =>
      rw [fisWalk, if_neg fun h => h.2 hfree]
      rfl
  | cons x xs ih =>
    obtain ⟨hx, h0, hff⟩ := hused x (by simp)
    obtain ⟨fuel, rfl⟩ : ∃ f, fuel = f + 1 := ⟨fuel - 1, by
      rw [List.length_cons] at hf
      omega⟩
    have hsplit : block = pre ++ (x ++ (xs.flatten ++ rest)) := by
      rw [hblock, List.flatten_cons]
      simp only [List.append_assoc]
    have hgo : pre.length < es ∧ ¬ fisFree block pre.length := by
      constructor
      · rw [← hlen, hsplit]
        simp only [List.length_append, hx]
        omega
      · have hhead : (x ++ (xs.flatten ++ rest)).headD 0 = x.headD 0 := by
          cases x with
          | nil => cases hx
          | cons b t => rfl
        rw [hsplit, fisFree_append, hhead, beq_eq_false_iff_ne.mpr h0,
          beq_eq_false_iff_ne.mpr hff]
        exact Bool.false_ne_true
    have hnext : (pre ++ x).length = pre.length + 256 := by rw [List.length_append, hx]
    rw [fisWalk, if_pos hgo, List.length_cons, List.range'_succ, List.foldl_cons, ← hnext]
    apply ih
    · rw [hsplit]
      simp only [List.append_assoc]
    · exact fun y hy => hused y (by simp [hy])
    · exact Nat.le_of_succ_le_succ hf

end

/-- The test for an old name looks at the entry it stands on. -/
theorem isPart_append {pre x suf : Bytes} (hx : x.length = 256)
    (hblock : block = pre ++ (x ++ suf)) :
    isPart block old pre.length = true ↔ Named old x := by
  have hname : hdrName block pre.length = x.take 16 := by
    rw [hblock, hdrName, load_append_right rfl, List.take_append_of_le_length (by omega)]
  rw [isPart, hname]
  rfl

/-- The same for all entries of a piece of the table. -/
theorem isPart_entries {xs : List Bytes} {pre suf : Bytes} {P : Prop}
    (hblock : block = pre ++ xs.flatten ++ suf) (hlen : ∀ x ∈ xs, x.length = 256)
    (h : ∀ x ∈ xs, Named old x ↔ P) :
    ∀ desc ∈ List.range' pre.length xs.length 256, isPart block old desc = true ↔ P := by
  induction xs generalizing pre with
  | nil => simp
  | cons x xs ih =>
    intro desc hdesc
    have hsplit : block = pre ++ (x ++ (xs.flatten ++ suf)) := by
      rw [hblock, List.flatten_cons]
      simp only [List.append_assoc]
    rw [List.length_cons, List.range'_succ] at hdesc
    rcases List.mem_cons.mp hdesc with rfl | hdesc
    · rw [isPart_append (hlen x (by simp)) hsplit]
      exact h x (by simp)
    · have hnext : (pre ++ x).length = pre.length + 256 := by
        rw [List.length_append, hlen x (by simp)]
      rw [← hnext] at hdesc
      refine ih ?_ (fun y hy => hlen y (by simp [hy])) (fun y hy => h y (by simp [hy])) desc hdesc
      rw [hsplit]
      simp only [List.append_assoc]

/-! ## The first and the last old entry -/

section
variable {e : Endian}

theorem fisScan_other {descs : List Nat} (h : ∀ d ∈ descs, isPart block old d = true ↔ False)
    (s : FisScan) :
    (descs.foldl (fun s desc => fisScan e block old desc s) s).first = s.first ∧
      (descs.foldl (fun s desc => fisScan e block old desc s) s).last = s.last := by
  induction descs generalizing s with
  | nil => exact ⟨rfl, rfl⟩
  | cons d descs ih =>
    obtain ⟨hfirst, hlast⟩ := ih (fun x hx => h x (by simp [hx])) (fisScan e block old d s)
    have hd : fisScan e block old d s = { s with offset := _ } :=
      if_neg fun hp => (h d (by simp)).mp hp
    rw [List.foldl_cons, hfirst, hlast, hd]
    exact ⟨rfl, rfl⟩

theorem fisScan_old {descs : List Nat} (h : ∀ d ∈ descs, isPart block old d = true ↔ True)
    (s : FisScan) :
    (descs.foldl (fun s desc => fisScan e block old desc s) s).first = s.first.or descs.head? ∧
      (descs.foldl (fun s desc => fisScan e block old desc s) s).last =
        descs.getLast?.or s.last := by
  induction descs generalizing s with
  | nil => simp
  | cons d descs ih =>
    obtain ⟨hfirst, hlast⟩ := ih (fun x hx => h x (by simp [hx])) (fisScan e block old d s)
    have hd : fisScan e block old d s = { offset := _, first := _, last := some d } :=
      if_pos ((h d (by simp)).mpr trivial)
    rw [List.foldl_cons, hfirst, hlast, hd]
    constructor
    · cases s.first <;> simp
    · cases descs with
      | nil => rfl
      | cons d' descs => simp [List.getLast?_cons]

end

/-- What the loops over a table with contiguous old entries find. -/
structure Found (e : Endian) (es : Nat) (block : Bytes) (old : List FisPart) (b o : Nat) : Prop where
  first : (fisWalk es block (fisScan e block old) es 0 ⟨0, none, none⟩).first = some (256 * b)
  last : (fisWalk es block (fisScan e block old) es 0 ⟨0, none, none⟩).last =
    some (256 * (b + o - 1))

section
variable {e : Endian} {before olds after : List Bytes} {rest : Bytes}

theorem Directory.length_le (h : Directory es block (before ++ olds ++ after) rest) :
    256 * (before.length + olds.length + after.length) + rest.length = es := by
  have := length_flatten_entries fun x hx => (h.used x hx).1
  rw [← h.length, h.layout, List.length_append, this, List.length_append, List.length_append]

/-- The offsets of the entries, cut where the old entries begin and end. -/
theorem offsets_split (b o a : Nat) :
    List.range' 0 (b + o + a) 256 =
      List.range' 0 b 256 ++ List.range' (256 * b) o 256 ++ List.range' (256 * (b + o)) a 256 := by
  rw [← List.range'_append, ← List.range'_append, Nat.zero_add, Nat.zero_add]

theorem parts_of_old (h : Directory es block (before ++ olds ++ after) rest)
    (ho : OldEntries old before olds after) :
    (∀ d ∈ List.range' 0 before.length 256, isPart block old d = true ↔ False) ∧
    (∀ d ∈ List.range' (256 * before.length) olds.length 256, isPart block old d = true ↔ True) ∧
    ∀ d ∈ List.range' (256 * (before.length + olds.length)) after.length 256,
      isPart block old d = true ↔ False := by
  have hlen : ∀ x ∈ before ++ olds ++ after, x.length = 256 := fun x hx => (h.used x hx).1
  have hb : before.flatten.length = 256 * before.length :=
    length_flatten_entries fun x hx => hlen x (by simp [hx])
  have hbo : (before.flatten ++ olds.flatten).length = 256 * (before.length + olds.length) := by
    rw [List.length_append, hb, length_flatten_entries fun x hx => hlen x (by simp [hx])]
    omega
  have hall : block = before.flatten ++ (olds.flatten ++ (after.flatten ++ rest)) := by
    rw [h.layout]
    simp only [List.flatten_append, List.append_assoc]
  have h1 : block = [] ++ before.flatten ++ (olds.flatten ++ (after.flatten ++ rest)) := hall
  have h2 : block = before.flatten ++ olds.flatten ++ (after.flatten ++ rest) := by
    rw [hall, List.append_assoc]
  have h3 : block = before.flatten ++ olds.flatten ++ after.flatten ++ rest := by
    rw [h2, List.append_assoc]
    simp only [List.append_assoc]
  refine ⟨?_, ?_, ?_⟩
  · exact isPart_entries h1 (fun x hx => hlen x (by simp [hx]))
      fun x hx => iff_of_false (ho.before x hx) id
  · rw [← hb]
    exact isPart_entries h2 (fun x hx => hlen x (by simp [hx]))
      fun x hx => iff_of_true (ho.olds x hx) trivial
  · rw [← hbo]
    exact isPart_entries h3 (fun x hx => hlen x (by simp [hx]))
      fun x hx => iff_of_false (ho.after x hx) id

theorem walk_directory {σ : Type} {body : Nat → σ → σ}
    (h : Directory es block (before ++ olds ++ after) rest) (s : σ) :
    fisWalk es block body es 0 s =
      (List.range' 0 (before.length + olds.length + after.length) 256).foldl
        (fun s desc => body desc s) s := by
  have hle := h.length_le
  have hf : (before ++ olds ++ after).length ≤ es := by
    rw [List.length_append, List.length_append]
    omega
  have hwalk : fisWalk es block body es ([] : Bytes).length s = _ :=
    fisWalk_eq h.layout h.length h.used h.ends hf s
  rwa [List.length_append, List.length_append] at hwalk

theorem found_old (h : Directory es block (before ++ olds ++ after) rest)
    (ho : OldEntries old before olds after) (h1 : olds ≠ []) :
    Found e es block old before.length olds.length := by
  obtain ⟨hbefore, holds, hafter⟩ := parts_of_old h ho
  have hwalk := @walk_directory es block before olds after rest _ (fisScan e block old) h
    ⟨0, none, none⟩
  rw [offsets_split, List.foldl_append, List.foldl_append] at hwalk
  obtain ⟨f1, l1⟩ := fisScan_other (e := e) hbefore ⟨0, none, none⟩
  generalize (List.range' 0 before.length 256).foldl _ _ = s1 at *
  obtain ⟨f2, l2⟩ := fisScan_old (e := e) holds s1
  generalize (List.range' (256 * before.length) olds.length 256).foldl _ _ = s2 at *
  obtain ⟨f3, l3⟩ := fisScan_other (e := e) hafter s2
  obtain ⟨o, ho'⟩ : ∃ o, olds.length = o + 1 :=
    ⟨olds.length - 1, by have := List.length_pos_iff.mpr h1; omega⟩
  constructor
  · rw [hwalk, f3, f2, f1, ho', List.range'_succ]
    rfl
  · rw [hwalk, l3, l2, ho', List.range'_concat, List.getLast?_concat]
    change some _ = some _
    congr 1
    omega

/-- What `fis_validate` counts. -/
theorem validate_eq (h : Directory es block (before ++ olds ++ after) rest)
    (ho : OldEntries old before olds after) (new : List FisPart) :
    fisValidate es block old new =
      if new.dropLast.any (·.size == 0) then -1
      else if olds.length = old.length then 1 else -1 := by
  obtain ⟨hbefore, holds, hafter⟩ := parts_of_old h ho
  have count {descs : List Nat} {P : Prop} [Decidable P]
      (hp : ∀ d ∈ descs, isPart block old d = true ↔ P) (k : Nat) :
      descs.foldl (fun found desc => if isPart block old desc then found + 1 else found) k =
        if P then k + descs.length else k := by
    induction descs generalizing k with
    | nil => simp
    | cons d descs ih =>
      rw [List.foldl_cons, ih (fun x hx => hp x (by simp [hx])), List.length_cons]
      by_cases hP : P
      · rw [if_pos hP, if_pos hP, if_pos ((hp d (by simp)).mpr hP)]
        omega
      · rw [if_neg hP, if_neg hP, if_neg fun h => hP ((hp d (by simp)).mp h)]
  have hfound : fisWalk es block
      (fun desc found => if isPart block old desc then found + 1 else found) es 0 0 =
        olds.length := by
    rw [walk_directory h 0, offsets_split, List.foldl_append, List.foldl_append, count hbefore,
      count holds, count hafter]
    simp
  rw [fisValidate, hfound]

theorem validate_old (h : Directory es block (before ++ olds ++ after) rest)
    (ho : OldEntries old before olds after) {new : List FisPart}
    (hv : fisValidate es block old new = 1) : olds.length = old.length := by
  rw [validate_eq h ho] at hv
  split at hv
  · cases hv
  · split at hv
    · assumption
    · cases hv

end

/-! ## The stores -/

theorem sizeT_of_le {a b : Nat} (h : b ≤ a) (ha : a < 2 ^ 31) : sizeT a b = a - b := by
  unfold sizeT
  omega

theorem fisMove_up {desc last : Nat} (h : last < desc) :
    fisMove es block desc last = fisMemmove es block desc last (sizeT es desc) := by
  rw [fisMove, if_pos (by omega)]
  dsimp only
  rw [if_pos h]
  cases fisMemmove es block desc last (sizeT es desc) with
  | none => rfl
  | some moved => exact if_neg (by omega)

theorem fisMove_down {desc last : Nat} (h : desc < last) :
    fisMove es block desc last =
      (fisMemmove es block desc last (sizeT es last)).bind fun moved =>
        fisMemset es moved (es - (last - desc)) 0xff (sizeT (es - (last - desc)) es) := by
  rw [fisMove, if_pos (by omega)]
  dsimp only
  rw [if_neg (by omega)]
  cases fisMemmove es block desc last (sizeT es last) with
  | none => rfl
  | some moved => exact if_pos h

/-- Growing or keeping its length: the bytes from `last` on follow at `desc`, as far as the block
reaches. -/
theorem fisMove_grow {desc last : Nat} (hlen : block.length = es) (hint : es < 2 ^ 31)
    (hle : last ≤ desc) (hdesc : desc ≤ es) :
    fisMove es block desc last =
      some (block.take desc ++ (block.drop last).take (es - desc)) := by
  rcases Nat.lt_or_eq_of_le hle with hlt | rfl
  · have hload : (load block last (es - desc)).length = es - desc := by
      rw [load, List.length_take, List.length_drop]
      omega
    rw [fisMove_up hlt, sizeT_of_le hdesc hint, fisMemmove, if_pos ⟨by omega, by omega⟩,
      poke_eq_append (by rw [hload]; omega), hload, List.drop_eq_nil_of_le (by omega),
      List.append_nil, load]
  · have htake : (block.drop last).take (es - last) = block.drop last :=
      List.take_of_length_le (by rw [List.length_drop]; omega)
    rw [fisMove, if_neg (by omega), htake, List.take_append_drop]

/-- Shrinking: the fill has a negative length, which as a `size_t` leaves the block. -/
theorem fisMove_shrink {desc last : Nat} (hint : es < 2 ^ 31) (hlt : desc < last)
    (hlast : last ≤ es) : fisMove es block desc last = none := by
  have hfill : es < es - (last - desc) + sizeT (es - (last - desc)) es := by
    unfold sizeT
    omega
  rw [fisMove_down hlt, sizeT_of_le hlast hint, fisMemmove, if_pos ⟨by omega, by omega⟩]
  exact if_neg (Nat.not_le_of_lt hfill)

section
variable (e : Endian)

/-- The new entries, from flash base `offset` on, with `size` bytes of flash in hand. -/
def newEntries : List FisPart → UInt32 → UInt32 → List Bytes
  | [], _, _ => []
  | part :: parts, offset, size =>
    let partSize := if part.size > 0 then part.size else size
    fisImageDesc e part offset partSize ::
      newEntries parts (offset + partSize) (size - partSize)

theorem length_fisImageDesc (part : FisPart) (offset size : UInt32) :
    (fisImageDesc e part offset size).length = 256 := by
  simp only [fisImageDesc, List.length_append, part.name16, e.length_putAll,
    List.length_replicate]
  rfl

end

variable {e : Endian}

/-- A word behind the first part of an area. -/
theorem word32_append {a b : Bytes} (k : Nat) :
    word32 e (a ++ b) (a.length + k) = word32 e b k := by
  rw [word32, word32, load, load, ← List.drop_drop, List.drop_left]

theorem fisImageDesc_entry (part : FisPart) (offset size : UInt32) :
    EntryOf e part
      (fisImageDesc e part offset (if part.size > 0 then part.size else size)) := by
  have hlen := length_fisImageDesc e part offset (if part.size > 0 then part.size else size)
  have hname : (fisImageDesc e part offset (if part.size > 0 then part.size else size)).take 16 =
      part.name := List.take_left' part.name16
  generalize hs : (if part.size > 0 then part.size else size) = partSize at *
  generalize hl : (if part.length > 0 then part.length else partSize) = length
  have hdesc : fisImageDesc e part offset partSize = part.name ++
      (e.putAll [(4, offset.toNat), (4, part.loadaddr.toNat), (4, partSize.toNat),
        (4, part.loadaddr.toNat), (4, length.toNat)] ++
        (List.replicate 212 0 ++ e.putAll [(4, 0), (4, part.crc.toNat)])) := by
    rw [← hl]
    rfl
  have hfield (i : Nat) {v : UInt32}
      (h : [(4, offset.toNat), (4, part.loadaddr.toNat), (4, partSize.toNat),
        (4, part.loadaddr.toNat), (4, length.toNat)][i]? = some (4, v.toNat)) :
      word32 e (fisImageDesc e part offset partSize) (16 + ([4, 4, 4, 4, 4].take i).sum) = v := by
    rw [hdesc, ← part.name16, word32_append]
    exact word32_field e rfl _ i h
  have hcrc : word32 e (fisImageDesc e part offset partSize) 252 = part.crc := by
    have hfront : (part.name ++ (e.putAll [(4, offset.toNat), (4, part.loadaddr.toNat),
        (4, partSize.toNat), (4, part.loadaddr.toNat), (4, length.toNat)] ++
          List.replicate 212 0)).length = 248 := by
      simp only [List.length_append, part.name16, e.length_putAll, List.length_replicate]
      rfl
    have hlast : word32 e (e.putAll [(4, 0), (4, part.crc.toNat)] ++ []) ([4, 4].take 1).sum =
        part.crc := word32_field e rfl [] 1 rfl
    rw [List.append_nil] at hlast
    have hsplit := word32_append (e := e) (a := part.name ++ (e.putAll [(4, offset.toNat),
      (4, part.loadaddr.toNat), (4, partSize.toNat), (4, part.loadaddr.toNat),
      (4, length.toNat)] ++ List.replicate 212 0)) (b := e.putAll [(4, 0), (4, part.crc.toNat)]) 4
    rw [hfront, List.append_assoc, List.append_assoc, ← hdesc] at hsplit
    exact hsplit.trans hlast
  exact
    { length := hlen
      name := hname
      mem_base := hfield 1 rfl
      entry_point := hfield 3 rfl
      size := fun h => by
        rw [if_pos h] at hs
        rw [hs]
        exact hfield 2 rfl
      data_length := fun h => by
        rw [if_pos h] at hl
        rw [hl]
        exact hfield 4 rfl
      crc := hcrc }

theorem newEntries_entry (parts : List FisPart) (offset size : UInt32) :
    List.Forall₂ (EntryOf e) parts (newEntries e parts offset size) := by
  induction parts generalizing offset size with
  | nil => exact .nil
  | cons part parts ih => exact .cons (fisImageDesc_entry part offset size) (ih _ _)

theorem length_entries {parts : List FisPart} {entries : List Bytes}
    (h : List.Forall₂ (EntryOf e) parts entries) :
    entries.flatten.length = 256 * parts.length := by
  induction h with
  | nil => rfl
  | cons hentry _ ih =>
    rw [List.flatten_cons, List.length_append, hentry.length, ih, List.length_cons]
    omega

/-- Writing the new entries replaces as many bytes. -/
theorem fisWrite_eq {parts : List FisPart} {a x b : Bytes} {offset size : UInt32}
    (hx : x.length = 256 * parts.length) (hlen : (a ++ x ++ b).length = es) :
    fisWrite e es parts a.length offset size (a ++ x ++ b) =
      some (a ++ (newEntries e parts offset size).flatten ++ b) := by
  induction parts generalizing a x offset size with
  | nil =>
    rw [List.length_eq_zero_iff.mp hx]
    rfl
  | cons part parts ih =>
    rw [List.length_cons] at hx
    have hroom : a.length + 256 ≤ es := by
      rw [← hlen, List.length_append, List.length_append]
      omega
    generalize hs : (if part.size > 0 then part.size else size) = partSize
    have hentry := length_fisImageDesc e part offset partSize
    have hpoke : poke (a ++ x ++ b) a.length (fisImageDesc e part offset partSize) =
        (a ++ fisImageDesc e part offset partSize) ++ x.drop 256 ++ b := by
      rw [List.append_assoc a, poke_append rfl (by rw [List.length_append]; omega), hentry,
        List.drop_append_of_le_length (by omega)]
      simp only [List.append_assoc]
    have hnext : (a ++ fisImageDesc e part offset partSize).length = a.length + 256 := by
      rw [List.length_append, hentry]
    rw [fisWrite, newEntries, hs, if_pos hroom, hpoke, ← hnext, ih (by rw [List.length_drop]; omega)]
    · simp only [List.flatten_cons, List.append_assoc]
    · rw [← hlen]
      simp only [List.length_append, hentry, List.length_drop]
      omega

end

/-! ## Remapping -/

/-- The old entries are replaced by entries of the new partitions, the others stay, and the rest
of the block is erased. -/
def Remapped (e : Endian) (es : Nat) (block : Bytes) (old new : List FisPart)
    (before after : List Bytes) : Prop :=
  ∃ entries k, List.Forall₂ (EntryOf e) new entries ∧
    (before.flatten ++ entries.flatten ++ after.flatten ++ List.replicate k 0xff).length = es ∧
    fisRemap e es block old new =
      some (before.flatten ++ entries.flatten ++ after.flatten ++ List.replicate k 0xff)

section
variable {e : Endian} {es : Nat} {block : Bytes} {old new : List FisPart}
  {before olds after : List Bytes} {rest : Bytes}

/-- `fis_remap` from the move on. -/
theorem fisRemap_found {b o : Nat} (h : Found e es block old b o) (h1 : 0 < o) :
    ∃ base size, fisRemap e es block old new =
      (fisMove es block (256 * (b + new.length)) (256 * (b + o))).bind
        fun moved => fisWrite e es new (256 * b) base size moved := by
  have hdesc : 256 * b + new.length * 256 = 256 * (b + new.length) := by omega
  have hlast : 256 * (b + o - 1) + 256 = 256 * (b + o) := by omega
  unfold fisRemap
  dsimp only
  rw [h.first, h.last]
  dsimp only
  rw [hdesc, hlast]
  cases fisMove es block (256 * (b + new.length)) (256 * (b + o)) with
  | none => exact ⟨0, 0, rfl⟩
  | some moved => exact ⟨_, _, rfl⟩

/-- With at least as many new entries as old ones, the table is put together and what followed it
follows it again, as far as the block reaches. -/
theorem fisRemap_grow (h : Directory es block (before ++ olds ++ after) rest)
    (ho : OldEntries old before olds after) (h1 : olds ≠ []) (hint : es < 2 ^ 31)
    (hfit : 256 * (before.length + new.length + after.length) ≤ es)
    (hle : olds.length ≤ new.length) :
    ∃ base size, fisRemap e es block old new =
      some (before.flatten ++ (newEntries e new base size).flatten ++ after.flatten ++
        rest.take (rest.length - 256 * (new.length - olds.length))) := by
  have hlen : ∀ x ∈ before ++ olds ++ after, x.length = 256 := fun x hx => (h.used x hx).1
  have hb : before.flatten.length = 256 * before.length :=
    length_flatten_entries fun x hx => hlen x (by simp [hx])
  have hbo : (before.flatten ++ olds.flatten).length = 256 * (before.length + olds.length) := by
    rw [List.length_append, hb, length_flatten_entries fun x hx => hlen x (by simp [hx])]
    omega
  have ha : after.flatten.length = 256 * after.length :=
    length_flatten_entries fun x hx => hlen x (by simp [hx])
  have htotal := h.length_le
  have hall : block = before.flatten ++ olds.flatten ++ (after.flatten ++ rest) := by
    rw [h.layout]
    simp only [List.flatten_append, List.append_assoc]
  obtain ⟨base, size, hrun⟩ := @fisRemap_found e es block old new _ _ (found_old h ho h1)
    (List.length_pos_iff.mpr h1)
  refine ⟨base, size, ?_⟩
  have hdrop : block.drop (256 * (before.length + olds.length)) = after.flatten ++ rest := by
    rw [hall, List.drop_left' hbo]
  have htail : (after.flatten ++ rest).take (es - 256 * (before.length + new.length)) =
      after.flatten ++ rest.take (rest.length - 256 * (new.length - olds.length)) := by
    rw [List.take_append, List.take_of_length_le (by omega), ha]
    congr 2
    omega
  have hfront : block.take (256 * (before.length + new.length)) = before.flatten ++
      (block.drop (256 * before.length)).take (256 * new.length) := by
    rw [Nat.mul_add, List.take_add, hall, List.append_assoc, List.take_left' hb]
  have hmid : ((block.drop (256 * before.length)).take (256 * new.length)).length =
      256 * new.length := by
    rw [List.length_take, List.length_drop, h.length]
    omega
  have hwrite : fisWrite e es new before.flatten.length base size
      (before.flatten ++ (block.drop (256 * before.length)).take (256 * new.length) ++
        (after.flatten ++ rest.take (rest.length - 256 * (new.length - olds.length)))) =
      some (before.flatten ++ (newEntries e new base size).flatten ++
        (after.flatten ++ rest.take (rest.length - 256 * (new.length - olds.length)))) := by
    refine fisWrite_eq hmid ?_
    simp only [List.length_append, hmid, hb, ha, List.length_take]
    omega
  rw [hb] at hwrite
  rw [hrun, fisMove_grow h.length hint (by omega) (by omega), hdrop, htail, hfront,
    Option.bind_some, hwrite]
  simp only [List.append_assoc]

theorem fisRemap_shrink (h : Directory es block (before ++ olds ++ after) rest)
    (ho : OldEntries old before olds after) (hint : es < 2 ^ 31) (hlt : new.length < olds.length) :
    fisRemap e es block old new = none := by
  have h1 : olds ≠ [] := by
    rintro rfl
    exact Nat.not_lt_zero _ hlt
  obtain ⟨base, size, hrun⟩ := @fisRemap_found e es block old new _ _ (found_old h ho h1)
    (List.length_pos_iff.mpr h1)
  have hle := h.length_le
  rw [hrun, fisMove_shrink hint (by omega) (by omega)]
  rfl

/-- **Remapping.** Exactly the old entries are replaced, with erased bytes behind the table,
when there are at least as many new entries as old ones and what followed the table was erased. -/
theorem fisRemap_iff (h : Directory es block (before ++ olds ++ after) rest)
    (ho : OldEntries old before olds after) (hv : fisValidate es block old new = 1)
    (h1 : old ≠ []) (hint : es < 2 ^ 31)
    (hfit : 256 * (before.length + new.length + after.length) ≤ es) :
    Remapped e es block old new before after ↔
      old.length ≤ new.length ∧
        blank (rest.take (rest.length - 256 * (new.length - old.length))) := by
  have hcount := validate_old h ho hv
  have holds : olds ≠ [] := by
    rintro rfl
    exact h1 (List.length_eq_zero_iff.mp hcount.symm)
  rw [← hcount]
  rcases Nat.lt_or_ge new.length olds.length with hlt | hle
  · rw [Remapped, fisRemap_shrink h ho hint hlt]
    constructor
    · rintro ⟨_, _, _, _, hrun⟩
      cases hrun
    · rintro ⟨hle, -⟩
      omega
  · obtain ⟨base, size, hrun⟩ := fisRemap_grow (e := e) h ho holds hint hfit hle
    have hnew := length_entries (newEntries_entry (e := e) new base size)
    have htotal : 256 * before.length + 256 * new.length + 256 * after.length +
        (rest.take (rest.length - 256 * (new.length - olds.length))).length = es := by
      have := h.length_le
      rw [List.length_take]
      omega
    have hbefore : before.flatten.length = 256 * before.length :=
      length_flatten_entries fun x hx => (h.used x (by simp [hx])).1
    have hafter : after.flatten.length = 256 * after.length :=
      length_flatten_entries fun x hx => (h.used x (by simp [hx])).1
    generalize rest.take (rest.length - 256 * (new.length - olds.length)) = tail at *
    constructor
    · rintro ⟨entries, k, hentries, -, hrun'⟩
      have hsame := Option.some.inj (hrun.symm.trans hrun')
      have hlen := length_entries hentries
      refine ⟨hle, ?_⟩
      have htail : tail = List.replicate k 0xff := by
        refine (List.append_inj hsame ?_).2
        simp only [List.length_append, hnew, hlen]
      rw [htail]
      exact blank_replicate k
    · rintro ⟨-, hblank⟩
      have htail : tail = List.replicate tail.length 0xff := by
        apply List.eq_replicate_of_mem
        intro x hx
        exact eq_of_beq (List.all_eq_true.mp hblank x hx)
      refine ⟨newEntries e new base size, tail.length, newEntries_entry new base size, ?_, ?_⟩
      · simp only [List.length_append, hnew, hbefore, hafter, List.length_replicate]
        omega
      · rw [← htail]
        exact hrun

end

/-! ## Two directories -/

/-- The partition with a name of one letter. -/
def fisPart (letter : UInt8) (size : UInt32) : FisPart :=
  { name := letter :: List.replicate 15 0, loadaddr := 0, size := size, length := 0, crc := 0
    name16 := rfl }

def fisEntry (letter : UInt8) : Bytes := letter :: List.replicate 255 0

def dirOneEntry : Bytes := [fisEntry 0x61].flatten ++ List.replicate 768 0xff

def dirTwoEntries : Bytes := [fisEntry 0x61, fisEntry 0x62].flatten ++ List.replicate 512 0xff

theorem fisEntry_used {letter : UInt8} (h0 : letter ≠ 0) (hff : letter ≠ 0xff) :
    UsedEntry (fisEntry letter) := by
  refine ⟨?_, h0, hff⟩
  rw [fisEntry, List.length_cons, List.length_replicate]

theorem fisPart_named {letter : UInt8} {size : UInt32} {old : List FisPart}
    (h : fisPart letter size ∈ old) : Named old (fisEntry letter) := by
  apply List.any_eq_true.mpr
  refine ⟨_, h, ?_⟩
  have hname : (fisEntry letter).take 16 = (fisPart letter size).name := by
    rw [fisEntry, List.take_succ_cons, List.take_replicate]
    rfl
  rw [hname]
  exact beq_self_eq_true _

theorem dirOneEntry_directory :
    Directory 1024 dirOneEntry ([] ++ [fisEntry 0x61] ++ []) (List.replicate 768 0xff) where
  layout := rfl
  length := by
    simp only [dirOneEntry, fisEntry, List.flatten_cons, List.flatten_nil, List.length_append,
      List.length_cons, List.length_replicate, List.length_nil]
  used := by
    intro x hx
    rw [List.mem_singleton.mp hx]
    exact fisEntry_used (by decide) (by decide)
  ends := Or.inr rfl

theorem dirTwoEntries_directory :
    Directory 1024 dirTwoEntries ([] ++ [fisEntry 0x61, fisEntry 0x62] ++ [])
      (List.replicate 512 0xff) where
  layout := rfl
  length := by
    simp only [dirTwoEntries, fisEntry, List.flatten_cons, List.flatten_nil, List.length_append,
      List.length_cons, List.length_replicate, List.length_nil]
  used := by
    intro x hx
    rcases List.mem_cons.mp hx with rfl | hx
    · exact fisEntry_used (by decide) (by decide)
    · rw [List.mem_singleton.mp hx]
      exact fisEntry_used (by decide) (by decide)
  ends := Or.inr rfl

/-- One entry replaced by two. -/
theorem fisRemap_iff_grow :
    Remapped .big 1024 dirOneEntry [fisPart 0x61 0] [fisPart 0x62 0x1000, fisPart 0x63 0] [] [] := by
  have ho : OldEntries [fisPart 0x61 0] [] [fisEntry 0x61] [] := by
    refine ⟨?_, by simp, by simp⟩
    intro x hx
    rw [List.mem_singleton.mp hx]
    exact @fisPart_named _ 0 _ (by simp)
  refine (fisRemap_iff dirOneEntry_directory ho ?_ (by decide) (by decide) (by decide)).mpr
    ⟨by decide, ?_⟩
  · rw [validate_eq dirOneEntry_directory ho]
    rfl
  · rw [List.take_replicate]
    exact blank_replicate _

/-- Two entries replaced by one: the fill behind the table leaves the block. -/
theorem fisRemap_shrink_outside :
    Directory 1024 dirTwoEntries ([] ++ [fisEntry 0x61, fisEntry 0x62] ++ [])
      (List.replicate 512 0xff) ∧
    OldEntries [fisPart 0x61 0, fisPart 0x62 0] [] [fisEntry 0x61, fisEntry 0x62] [] ∧
    fisValidate 1024 dirTwoEntries [fisPart 0x61 0, fisPart 0x62 0] [fisPart 0x63 0] = 1 ∧
    ¬ Remapped .big 1024 dirTwoEntries [fisPart 0x61 0, fisPart 0x62 0] [fisPart 0x63 0] [] [] := by
  have ho : OldEntries [fisPart 0x61 0, fisPart 0x62 0] [] [fisEntry 0x61, fisEntry 0x62] [] := by
    refine ⟨?_, by simp, by simp⟩
    intro x hx
    rcases List.mem_cons.mp hx with rfl | hx
    · exact @fisPart_named _ 0 _ (by simp)
    · rw [List.mem_singleton.mp hx]
      exact @fisPart_named _ 0 _ (by simp)
  refine ⟨dirTwoEntries_directory, ho, ?_, ?_⟩
  · rw [validate_eq dirTwoEntries_directory ho]
    rfl
  · rintro ⟨_, _, _, _, hrun⟩
    rw [fisRemap_shrink dirTwoEntries_directory ho (by decide) (by decide)] at hrun
    cases hrun

end UolaOs.Mtd
