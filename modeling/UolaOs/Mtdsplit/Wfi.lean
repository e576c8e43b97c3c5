import UolaOs.Lib.Crc32
import UolaOs.Lib.Loop

/-!
# Files in JFFS2 blocks

`jffs2_find_file` of mtdsplit_bcm_wfi.c on any flash, whose reads may fail.

* `blockRound`: one round of the walk over an erase block, with `totlen` taken as it is;
* `Visits`: the positions that a walk comes to, and `Reaches`: the erase blocks;
* `findFile_iff`: when the search ends, stays in its buffer and finds what it says.
-/

namespace UolaOs.Mtdsplit

/-! ## The flash -/

/-- What the parsers use of `struct mtd_info`. -/
structure Master where
  size : Nat
  erasesize : Nat
  /-- `mtd_read`: an error, or what was read. -/
  read : Nat → Nat → Except Int Bytes
  erasesize_pos : 0 < erasesize
  erasesize_lt : erasesize < 2 ^ 32
  error_neg : ∀ (off len : Nat) (ret : Int), read off len = .error ret → ret < 0
  length_le : ∀ (off len : Nat) (bs : Bytes), read off len = .ok bs → bs.length ≤ len

/-- The bytes of a buffer at an offset, when they are in it. -/
def bytesAt (buf : Bytes) (off n : Nat) : Option Bytes :=
  if off + n ≤ buf.length then some (load buf off n) else none

/-- A value in 32 bits. -/
def u32 (n : Nat) : Nat := n % 2 ^ 32

section
variable (e : Endian) (buf : Bytes)

/-! ## Dirents -/

/-- `jffs2_dirent_valid`, which looks at a field when those before it are right. -/
def direntValid (p : Nat) : Option Bool := do
  let magic ← bytesAt buf p 2
  if e.get magic ≠ 0x1985 then return false
  let nodetype ← bytesAt buf (p + 2) 2
  if e.get nodetype ≠ 0xe001 then return false
  let ino ← bytesAt buf (p + 20) 4
  if e.get ino = 0 then return false
  let node_crc ← bytesAt buf (p + 32) 4
  let node ← bytesAt buf p 32
  return UInt32.ofNat (e.get node_crc) = crc32 0 node

/-- `OPENWRT_NAME` -/
def openwrtName : Bytes := [0x31, 0x2d, 0x6f, 0x70, 0x65, 0x6e, 0x77, 0x72, 0x74]

/-- `node->nsize` -/
def nsize (p : Nat) : Nat := (buf.getD (p + 28) 0).toNat

/-- Behind the dirent at a position: `totlen` more, up to a multiple of 4. -/
def direntNext (p : Nat) : Nat := u32 (u32 (p + e.get (load buf (p + 4) 4)) + 3) / 4 * 4

/-- What the walk over a block knows: whether it has seen the mark, and where the file is. -/
structure Scan where
  valid : Bool
  hit : Option Nat
  deriving DecidableEq

/-- One round of the walk over a block. -/
def blockRound (erasesize : Nat) (name : Bytes) (p : Nat) (s : Scan) : Option (Round Nat Scan) :=
  if p < erasesize then do
    let valid ← direntValid e buf p
    if valid = false then return .next (u32 (p + 4)) s
    let mark ← bytesAt buf (p + 40) openwrtName.length
    if mark = openwrtName then return .next (direntNext e buf p) { s with valid := true }
    let node_name ← bytesAt buf (p + 40) name.length
    if node_name = name then return .stop { s with hit := some p }
    return .next (direntNext e buf p) s
  else some (.stop s)

/-- `kstrndup` of the name of a dirent. -/
def copyName (p : Nat) : Option Bytes :=
  let name := load buf (p + 40) (nsize buf p)
  if (0 : UInt8) ∉ name ∧ name.length < nsize buf p then none
  else some (name.takeWhile (· ≠ 0))

end

/-! ## The search -/

/-- What the search leaves: the offset, the return value, and the name with `nsize`. -/
structure FileEnd where
  offs : Nat
  ret : Int
  name : Option (Bytes × Nat)
  deriving DecidableEq

section
variable (m : Master) (e : Endian)

/-- A block begins with the magic of JFFS2. -/
def beginsJffs2 (offs : Nat) : Bool :=
  match m.read offs 2 with
  | .error _ => false
  | .ok magic => decide (magic.length = 2 ∧ e.get magic = 0x1985)

/-- What is done with the file at a position of the block at an offset. -/
def fileFound (buf : Bytes) (out : Bool) (offs p : Nat) (valid : Bool) : Option FileEnd :=
  if valid = false then some ⟨offs, -22, none⟩
  else if out = false then some ⟨offs, 0, none⟩
  else (copyName buf p).map fun copy => ⟨offs, 0, some (copy, nsize buf p)⟩

/-- `jffs2_find_file` up to the offset `last`, with at most `fuel` rounds in a block. The name is
copied when `out` is set. -/
def findFileFrom (fuel : Nat) (name : Bytes) (out : Bool) (last : Int) (offs : Nat) (valid : Bool) :
    Option FileEnd :=
  if (offs : Int) < last then
    if beginsJffs2 m e offs = false then findFileFrom fuel name out last (offs + m.erasesize) valid
    else
      match m.read offs m.erasesize with
      | .error ret => some ⟨offs, ret, none⟩
      | .ok buf =>
        if buf.length ≠ m.erasesize then some ⟨offs, -22, none⟩
        else
          match loop (blockRound e buf m.erasesize name) fuel 0 ⟨valid, none⟩ with
          | none => none
          | some s =>
            match s.hit with
            | none => findFileFrom fuel name out last (offs + m.erasesize) s.valid
            | some p => fileFound buf out offs p s.valid
  else some ⟨offs, -2, none⟩
termination_by (last - offs).toNat
decreasing_by all_goals have := m.erasesize_pos; omega

/-- `jffs2_find_file` -/
def findFile (fuel : Nat) (name : Bytes) (out : Bool) (offs : Nat) (size : Int) : Option FileEnd :=
  findFileFrom m e fuel name out (offs + size) offs false

end

/-! ## The walk over a block -/

section
variable (e : Endian) (buf : Bytes) (erasesize : Nat) (name : Bytes)

/-- A dirent that passes the check. -/
def IsDirent (p : Nat) : Prop := direntValid e buf p = some true

/-- The name of a dirent begins with some bytes. -/
def NameBegins (p : Nat) (bs : Bytes) : Prop := bytesAt buf (p + 40) bs.length = some bs

/-- A dirent that is taken for the mark. -/
structure IsMark (p : Nat) : Prop where
  dirent : IsDirent e buf p
  name : NameBegins buf p openwrtName

/-- A dirent that is taken for the file. -/
structure IsFile (p : Nat) : Prop where
  dirent : IsDirent e buf p
  other : ¬ NameBegins buf p openwrtName
  name : NameBegins buf p name

/-- What is read of the node at a position is in the block. -/
structure Whole (p : Nat) : Prop where
  header : ∃ valid, direntValid e buf p = some valid
  mark : IsDirent e buf p → p + 40 + openwrtName.length ≤ buf.length
  name : IsDirent e buf p → ¬ NameBegins buf p openwrtName → p + 40 + name.length ≤ buf.length

instance (p : Nat) : Decidable (IsDirent e buf p) := inferInstanceAs (Decidable (_ = _))

instance (p : Nat) (bs : Bytes) : Decidable (NameBegins buf p bs) :=
  inferInstanceAs (Decidable (_ = _))

/-- The walk goes on from one position to another. -/
structure BlockNext (p q : Nat) : Prop where
  before : p < erasesize
  whole : Whole e buf name p
  other : ¬ IsFile e buf name p
  next : q = if IsDirent e buf p then direntNext e buf p else u32 (p + 4)

/-- The positions that the walk comes to. -/
abbrev Visits : Nat → Nat → Prop := Relation.ReflTransGen (BlockNext e buf erasesize name)

/-- A walk that ends in its block: no position comes back to itself, and each node on the way is
whole. -/
structure Walkable : Prop where
  forward : ∀ p, Visits e buf erasesize name 0 p →
    ¬ Relation.TransGen (BlockNext e buf erasesize name) p p
  whole : ∀ p, Visits e buf erasesize name 0 p → p < erasesize → Whole e buf name p

end

section
variable {e : Endian} {buf : Bytes} {erasesize : Nat} {name : Bytes} {p q : Nat} {s t : Scan}

theorem bytesAt_eq {off n : Nat} (h : off + n ≤ buf.length) :
    bytesAt buf off n = some (load buf off n) := if_pos h

theorem bytesAt_none {off n : Nat} (h : ¬ off + n ≤ buf.length) : bytesAt buf off n = none :=
  if_neg h

theorem NameBegins.le {bs : Bytes} (h : NameBegins buf p bs) : p + 40 + bs.length ≤ buf.length := by
  by_contra hout
  rw [NameBegins, bytesAt_none hout] at h
  cases h

theorem nameBegins_iff {bs : Bytes} (h : p + 40 + bs.length ≤ buf.length) :
    NameBegins buf p bs ↔ load buf (p + 40) bs.length = bs := by
  rw [NameBegins, bytesAt_eq h, Option.some.injEq]

/-- What a round does. -/
inductive BlockStep (e : Endian) (buf : Bytes) (erasesize : Nat) (name : Bytes) (p : Nat)
    (s : Scan) : Option (Round Nat Scan) → Prop
  | past : erasesize ≤ p → BlockStep e buf erasesize name p s (some (.stop s))
  | outside : p < erasesize → ¬ Whole e buf name p → BlockStep e buf erasesize name p s none
  | file : p < erasesize → Whole e buf name p → IsFile e buf name p →
      BlockStep e buf erasesize name p s (some (.stop { s with hit := some p }))
  | next {q : Nat} {t : Scan} : BlockNext e buf erasesize name p q → t.hit = s.hit →
      (t.valid = true ↔ s.valid = true ∨ IsMark e buf p) →
      BlockStep e buf erasesize name p s (some (.next q t))

/-- At a dirent. -/
theorem blockStep_dirent (hp : p < erasesize) (h : IsDirent e buf p) :
    BlockStep e buf erasesize name p s (blockRound e buf erasesize name p s) := by
  rw [IsDirent] at h
  rw [blockRound, if_pos hp, h]
  by_cases hmark : p + 40 + openwrtName.length ≤ buf.length
  · rw [bytesAt_eq hmark]
    by_cases hopenwrt : NameBegins buf p openwrtName
    · have hload := (nameBegins_iff hmark).mp hopenwrt
      show BlockStep e buf erasesize name p s (if _ then _ else _)
      rw [if_pos hload]
      exact .next ⟨hp, ⟨⟨_, h⟩, fun _ => hmark, fun _ hno => absurd hopenwrt hno⟩,
        fun hfile => hfile.other hopenwrt, (if_pos h).symm⟩ rfl (iff_of_true rfl (.inr ⟨h,
          hopenwrt⟩))
    · have hload := mt (nameBegins_iff hmark).mpr hopenwrt
      show BlockStep e buf erasesize name p s (if _ then _ else _)
      rw [if_neg hload]
      by_cases hname : p + 40 + name.length ≤ buf.length
      · have hwhole : Whole e buf name p := ⟨⟨_, h⟩, fun _ => hmark, fun _ _ => hname⟩
        rw [bytesAt_eq hname]
        show BlockStep e buf erasesize name p s (if _ then _ else _)
        by_cases hfile : NameBegins buf p name
        · rw [if_pos ((nameBegins_iff hname).mp hfile)]
          exact .file hp hwhole ⟨h, hopenwrt, hfile⟩
        · rw [if_neg (mt (nameBegins_iff hname).mpr hfile)]
          exact .next ⟨hp, hwhole, fun hx => hfile hx.name, (if_pos h).symm⟩ rfl
            ⟨.inl, fun hx => hx.resolve_right fun hm => hopenwrt hm.name⟩
      · rw [bytesAt_none hname]
        exact .outside hp fun hwhole => hname (hwhole.name h hopenwrt)
  · rw [bytesAt_none hmark]
    exact .outside hp fun hwhole => hmark (hwhole.mark h)

theorem blockStep (e : Endian) (buf : Bytes) (erasesize : Nat) (name : Bytes) (p : Nat)
    (s : Scan) : BlockStep e buf erasesize name p s (blockRound e buf erasesize name p s) := by
  by_cases hp : p < erasesize
  · cases hvalid : direntValid e buf p with
    | none =>
      rw [blockRound, if_pos hp, hvalid]
      refine .outside hp fun hwhole => ?_
      obtain ⟨valid, hsome⟩ := hwhole.header
      cases hvalid.symm.trans hsome
    | some valid =>
      cases valid with
      | false =>
        have hno : ¬ IsDirent e buf p := by
          rw [IsDirent, hvalid]
          decide
        rw [blockRound, if_pos hp, hvalid]
        exact .next ⟨hp, ⟨⟨_, hvalid⟩, fun h => absurd h hno, fun h => absurd h hno⟩,
          fun h => hno h.dirent, (if_neg hno).symm⟩ rfl
          ⟨.inl, fun h => h.resolve_right fun hmark => hno hmark.dirent⟩
      | true => exact blockStep_dirent hp hvalid
  · rw [blockRound, if_neg hp]
    exact .past (Nat.le_of_not_lt hp)

/-- The walk follows the positions, and fails where a node is not whole. -/
theorem follows_blockRound (e : Endian) (buf : Bytes) (erasesize : Nat) (name : Bytes) :
    Follows (blockRound e buf erasesize name) (BlockNext e buf erasesize name)
      fun p => p < erasesize → Whole e buf name p where
  safe := by
    intro p s
    have hstep := blockStep e buf erasesize name p s
    generalize blockRound e buf erasesize name p s = r at hstep
    cases hstep with
    | past hp => exact iff_of_true rfl fun hlt => absurd hlt (Nat.not_lt.mpr hp)
    | outside hp hno => exact iff_of_false (fun h => by cases h) fun h => hno (h hp)
    | file _ hwhole _ => exact iff_of_true rfl fun _ => hwhole
    | next hnext _ _ => exact iff_of_true rfl fun _ => hnext.whole
  links := by
    intro p s q t hround
    have hstep := blockStep e buf erasesize name p s
    rw [hround] at hstep
    cases hstep with
    | next hnext _ _ => exact hnext
  stops := by
    intro p s t hround q hnext
    have hstep := blockStep e buf erasesize name p s
    rw [hround] at hstep
    cases hstep with
    | past hp => exact absurd hnext.before (Nat.not_lt.mpr hp)
    | file _ _ hfile => exact hnext.other hfile
  unique := by
    intro p q r hq hr
    rw [hq.next, hr.next]

theorem walkable_iff (s : Scan) : Walkable e buf erasesize name ↔
    ∃ fuel t, loop (blockRound e buf erasesize name) fuel 0 s = some t := by
  have hfin : {p | ∃ q, BlockNext e buf erasesize name p q}.Finite :=
    (Set.finite_lt_nat erasesize).subset fun p hp => by
      obtain ⟨q, hq⟩ := hp
      exact hq.before
  rw [(follows_blockRound e buf erasesize name).ends_iff hfin]
  exact ⟨fun h => ⟨h.forward, h.whole⟩, fun h => ⟨h.1, h.2⟩⟩

/-- What a walk from a position ends with. -/
structure BlockEnd (e : Endian) (buf : Bytes) (erasesize : Nat) (name : Bytes) (p : Nat)
    (s t : Scan) : Prop where
  valid : t.valid = true ↔
    s.valid = true ∨ ∃ q, Visits e buf erasesize name p q ∧ q < erasesize ∧ IsMark e buf q
  hit : ∀ q, t.hit = some q ↔
    Visits e buf erasesize name p q ∧ q < erasesize ∧ IsFile e buf name q

/-- A position where the walk stops is the only one. -/
theorem visits_stop (hstop : ∀ q, ¬ BlockNext e buf erasesize name p q)
    (h : Visits e buf erasesize name p q) : q = p := by
  obtain rfl | ⟨r, hr, -⟩ := h.cases_head
  · rfl
  · exact absurd hr (hstop r)

theorem blockEnd {fuel : Nat} (hhit : s.hit = none)
    (h : loop (blockRound e buf erasesize name) fuel p s = some t) :
    BlockEnd e buf erasesize name p s t := by
  induction fuel generalizing p s with
  | zero => cases h
  | succ fuel ih =>
    rw [loop] at h
    have hstep := blockStep e buf erasesize name p s
    generalize blockRound e buf erasesize name p s = r at h hstep
    cases hstep with
    | past hp =>
      cases h
      have honly {q : Nat} (hq : Visits e buf erasesize name p q) : q = p :=
        visits_stop (fun r hr => absurd hr.before (Nat.not_lt.mpr hp)) hq
      refine ⟨⟨.inl, ?_⟩, fun q => ⟨fun hq => ?_, ?_⟩⟩
      · rintro (hs | ⟨q, hq, hlt, -⟩)
        · exact hs
        · rw [honly hq] at hlt
          exact absurd hlt (Nat.not_lt.mpr hp)
      · rw [hhit] at hq
        cases hq
      · rintro ⟨hq, hlt, -⟩
        rw [honly hq] at hlt
        exact absurd hlt (Nat.not_lt.mpr hp)
    | outside _ _ => cases h
    | file hp _ hfile =>
      cases h
      have honly {q : Nat} (hq : Visits e buf erasesize name p q) : q = p :=
        visits_stop (fun r hr => hr.other hfile) hq
      refine ⟨⟨.inl, ?_⟩, fun q => ⟨fun hq => ?_, ?_⟩⟩
      · rintro (hs | ⟨q, hq, -, hmark⟩)
        · exact hs
        · rw [honly hq] at hmark
          exact absurd hmark.name hfile.other
      · obtain rfl := Option.some.inj hq
        exact ⟨.refl, hp, hfile⟩
      · rintro ⟨hq, -⟩
        rw [honly hq]
    | @next q u hnext hu hvalid =>
      have hend := ih (hu.trans hhit) h
      have hvisits {r : Nat} : Visits e buf erasesize name p r ↔
          r = p ∨ Visits e buf erasesize name q r := by
        constructor
        · intro hr
          obtain rfl | ⟨q', hq', hr⟩ := hr.cases_head
          · exact .inl rfl
          · rw [hnext.next, ← hq'.next]
            exact .inr hr
        · rintro (rfl | hr)
          · exact .refl
          · exact .head hnext hr
      refine ⟨?_, fun r => ?_⟩
      · rw [hend.valid, hvalid, or_assoc]
        refine or_congr_right ⟨?_, ?_⟩
        · rintro (hmark | ⟨r, hr, hlt, hmark⟩)
          · exact ⟨p, .refl, hnext.before, hmark⟩
          · exact ⟨r, hvisits.mpr (.inr hr), hlt, hmark⟩
        · rintro ⟨r, hr, hlt, hmark⟩
          rcases hvisits.mp hr with rfl | hr
          · exact .inl hmark
          · exact .inr ⟨r, hr, hlt, hmark⟩
      · rw [hend.hit, hvisits]
        refine ⟨fun hr => ⟨.inr hr.1, hr.2⟩, ?_⟩
        rintro ⟨rfl | hr, hlt, hfile⟩
        · exact absurd hfile hnext.other
        · exact ⟨hr, hlt, hfile⟩

end

/-! ## The walk over the blocks -/

section
variable (m : Master) (e : Endian) (name : Bytes) (last : Int)

/-- A block that the search walks over, and what is in it. -/
structure Block (offs : Nat) (buf : Bytes) : Prop where
  before : (offs : Int) < last
  begins : beginsJffs2 m e offs = true
  read : m.read offs m.erasesize = .ok buf
  full : buf.length = m.erasesize

/-- The search goes on behind a block that it skips, or in which it does not find the file. -/
structure Passes (o o' : Nat) : Prop where
  before : (o : Int) < last
  without : beginsJffs2 m e o = true → ∃ buf, Block m e last o buf ∧
    Walkable e buf m.erasesize name ∧
    ∀ p, Visits e buf m.erasesize name 0 p → p < m.erasesize → ¬ IsFile e buf name p
  next : o' = o + m.erasesize

/-- The blocks that the search comes to. -/
abbrev Reaches : Nat → Nat → Prop := Relation.ReflTransGen (Passes m e name last)

/-- The search from a block comes to a position of another one. -/
structure Seen (start o : Nat) (buf : Bytes) (p : Nat) : Prop where
  reached : Reaches m e name last start o
  block : Block m e last o buf
  visited : Visits e buf m.erasesize name 0 p
  inside : p < m.erasesize

/-- The search comes to what it takes for the mark. -/
def Marked (start : Nat) : Prop :=
  ∃ o buf p, Seen m e name last start o buf p ∧ IsMark e buf p

/-- The block has what is taken for the mark. -/
def MarkHere (o : Nat) : Prop :=
  ∃ buf p, Block m e last o buf ∧ Visits e buf m.erasesize name 0 p ∧ p < m.erasesize ∧
    IsMark e buf p

/-- The search comes to the file. -/
structure SeenFile (start o : Nat) (buf : Bytes) (p : Nat) : Prop where
  seen : Seen m e name last start o buf p
  walkable : Walkable e buf m.erasesize name
  file : IsFile e buf name p

/-- How the search from a block ends. -/
inductive SearchEnd (out valid : Bool) (start : Nat) : FileEnd → Prop
  | past {o : Nat} : Reaches m e name last start o → last ≤ o →
      SearchEnd out valid start ⟨o, -2, none⟩
  | unread {o : Nat} {ret : Int} : Reaches m e name last start o → ret < 0 →
      SearchEnd out valid start ⟨o, ret, none⟩
  | file {o : Nat} {buf : Bytes} {p : Nat} {v : Bool} {r : FileEnd} :
      SeenFile m e name last start o buf p →
      (v = true ↔ valid = true ∨ Marked m e name last start) →
      fileFound buf out o p v = some r → SearchEnd out valid start r

/-- What the search does at a block. -/
inductive SearchStep (fuel : Nat) (out : Bool) (o : Nat) (valid : Bool) : Option FileEnd → Prop
  | past : last ≤ o → SearchStep fuel out o valid (some ⟨o, -2, none⟩)
  | skip : (o : Int) < last → beginsJffs2 m e o = false →
      SearchStep fuel out o valid (findFileFrom m e fuel name out last (o + m.erasesize) valid)
  | unread {ret : Int} : (o : Int) < last → beginsJffs2 m e o = true → ret < 0 →
      (∀ buf, ¬ Block m e last o buf) → SearchStep fuel out o valid (some ⟨o, ret, none⟩)
  | stuck {buf : Bytes} : Block m e last o buf →
      loop (blockRound e buf m.erasesize name) fuel 0 ⟨valid, none⟩ = none →
      SearchStep fuel out o valid none
  | pass {buf : Bytes} {t : Scan} : Block m e last o buf →
      loop (blockRound e buf m.erasesize name) fuel 0 ⟨valid, none⟩ = some t → t.hit = none →
      SearchStep fuel out o valid (findFileFrom m e fuel name out last (o + m.erasesize) t.valid)
  | file {buf : Bytes} {t : Scan} {p : Nat} : Block m e last o buf →
      loop (blockRound e buf m.erasesize name) fuel 0 ⟨valid, none⟩ = some t → t.hit = some p →
      SearchStep fuel out o valid (fileFound buf out o p t.valid)

end

section
variable {m : Master} {e : Endian} {name : Bytes} {last : Int} {out valid : Bool}
  {start o o' p fuel : Nat} {buf buf' : Bytes} {r : FileEnd}

/-- A block that cannot be read. -/
theorem findFileFrom_unread (hlast : (o : Int) < last) (hb : beginsJffs2 m e o = true)
    (hno : ∀ buf, ¬ Block m e last o buf) :
    ∃ ret < 0, ∀ fuel valid,
      findFileFrom m e fuel name out last o valid = some ⟨o, ret, none⟩ := by
  have hb' : ¬ beginsJffs2 m e o = false := by
    rw [hb]
    decide
  cases hread : m.read o m.erasesize with
  | error ret =>
    refine ⟨ret, m.error_neg _ _ _ hread, fun fuel valid => ?_⟩
    rw [findFileFrom, if_pos hlast, if_neg hb', hread]
  | ok buf =>
    refine ⟨-22, by decide, fun fuel valid => ?_⟩
    rw [findFileFrom, if_pos hlast, if_neg hb', hread]
    exact if_pos fun hfull => hno buf ⟨hlast, hb, hread, hfull⟩

theorem searchStep (m : Master) (e : Endian) (name : Bytes) (last : Int) (fuel : Nat) (out : Bool)
    (o : Nat) (valid : Bool) : SearchStep m e name last fuel out o valid
      (findFileFrom m e fuel name out last o valid) := by
  by_cases hlast : (o : Int) < last
  · by_cases hbegins : beginsJffs2 m e o = false
    · rw [findFileFrom, if_pos hlast, if_pos hbegins]
      exact .skip hlast hbegins
    · have hb : beginsJffs2 m e o = true := by simpa using hbegins
      by_cases hblock : ∃ buf, Block m e last o buf
      · obtain ⟨buf, hblock⟩ := hblock
        rw [findFileFrom, if_pos hlast, if_neg hbegins, hblock.read]
        dsimp only
        rw [if_neg (not_not.mpr hblock.full)]
        cases hloop : loop (blockRound e buf m.erasesize name) fuel 0 ⟨valid, none⟩ with
        | none => exact .stuck hblock hloop
        | some t =>
          dsimp only
          cases hhit : t.hit with
          | none => exact .pass hblock hloop hhit
          | some p => exact .file hblock hloop hhit
      · have hno (buf : Bytes) : ¬ Block m e last o buf := fun h => hblock ⟨buf, h⟩
        obtain ⟨ret, hneg, heq⟩ := @findFileFrom_unread m e name last out o hlast hb hno
        rw [heq]
        exact .unread hlast hb hneg hno
  · rw [findFileFrom, if_neg hlast]
    exact .past (Int.not_lt.mp hlast)

theorem Block.unique (h : Block m e last o buf) (h' : Block m e last o buf') : buf = buf' := by
  cases h.read.symm.trans h'.read
  rfl

theorem passes_rightUnique : Relator.RightUnique (Passes m e name last) := by
  intro o a b ha hb
  rw [ha.next, hb.next]

theorem Reaches.le (h : Reaches m e name last o o') : o ≤ o' := by
  induction h with
  | refl => exact Nat.le_refl _
  | tail _ hpass ih =>
    have := hpass.next
    omega

/-- A block where the search stops is the last one. -/
theorem Reaches.stop (h : Reaches m e name last o o') (hstop : ∀ x, ¬ Passes m e name last o x) :
    o' = o := by
  obtain rfl | ⟨x, hx, -⟩ := h.cases_head
  · rfl
  · exact absurd hx (hstop x)

theorem Reaches.next (h : Passes m e name last start o) {x : Nat} :
    Reaches m e name last start x ↔ x = start ∨ Reaches m e name last o x := by
  constructor
  · intro hx
    obtain rfl | ⟨y, hy, hx⟩ := hx.cases_head
    · exact .inl rfl
    · rw [h.next, ← hy.next]
      exact .inr hx
  · rintro (rfl | hx)
    · exact .refl
    · exact .head h hx

theorem SeenFile.not_passes (h : SeenFile m e name last start o buf p) (x : Nat) :
    ¬ Passes m e name last o x := by
  intro hpass
  obtain ⟨buf', hblock, -, hno⟩ := hpass.without h.seen.block.begins
  obtain rfl := h.seen.block.unique hblock
  exact hno p h.seen.visited h.seen.inside h.file

theorem marked_stop (hstop : ∀ x, ¬ Passes m e name last start x) :
    Marked m e name last start ↔ MarkHere m e name last start := by
  constructor
  · rintro ⟨o, buf, p, hseen, hmark⟩
    obtain rfl := hseen.reached.stop hstop
    exact ⟨buf, p, hseen.block, hseen.visited, hseen.inside, hmark⟩
  · rintro ⟨buf, p, hblock, hvisits, hlt, hmark⟩
    exact ⟨start, buf, p, ⟨.refl, hblock, hvisits, hlt⟩, hmark⟩

theorem marked_next (h : Passes m e name last start o) :
    Marked m e name last start ↔ MarkHere m e name last start ∨ Marked m e name last o := by
  constructor
  · rintro ⟨x, buf, p, hseen, hmark⟩
    rcases (Reaches.next h).mp hseen.reached with rfl | hx
    · exact .inl ⟨buf, p, hseen.block, hseen.visited, hseen.inside, hmark⟩
    · exact .inr ⟨x, buf, p, ⟨hx, hseen.block, hseen.visited, hseen.inside⟩, hmark⟩
  · rintro (⟨buf, p, hblock, hvisits, hlt, hmark⟩ | ⟨x, buf, p, hseen, hmark⟩)
    · exact ⟨start, buf, p, ⟨.refl, hblock, hvisits, hlt⟩, hmark⟩
    · exact ⟨x, buf, p, ⟨.head h hseen.reached, hseen.block, hseen.visited, hseen.inside⟩, hmark⟩

theorem SeenFile.head (h : Passes m e name last start o) {x : Nat}
    (hfile : SeenFile m e name last o x buf p) : SeenFile m e name last start x buf p :=
  ⟨⟨.head h hfile.seen.reached, hfile.seen.block, hfile.seen.visited, hfile.seen.inside⟩,
    hfile.walkable, hfile.file⟩

/-- A block that is passed, and the rest of the search. -/
theorem SearchEnd.head {v : Bool} (h : Passes m e name last start o)
    (hv : v = true ↔ valid = true ∨ MarkHere m e name last start)
    (hend : SearchEnd m e name last out v o r) : SearchEnd m e name last out valid start r := by
  cases hend with
  | past hreach hlast => exact .past (.head h hreach) hlast
  | unread hreach hneg => exact .unread (.head h hreach) hneg
  | file hfile hw hfound =>
    refine .file (hfile.head h) ?_ hfound
    rw [hw, hv, marked_next h, or_assoc]

/-- The end of a walk tells whether the block has the mark. -/
theorem BlockEnd.markHere (hblock : Block m e last o buf) {t : Scan}
    (h : BlockEnd e buf m.erasesize name 0 ⟨valid, none⟩ t) :
    t.valid = true ↔ valid = true ∨ MarkHere m e name last o := by
  rw [h.valid]
  refine or_congr_right ⟨?_, ?_⟩
  · rintro ⟨p, hp, hlt, hmark⟩
    exact ⟨buf, p, hblock, hp, hlt, hmark⟩
  · rintro ⟨buf', p, hblock', hp, hlt, hmark⟩
    obtain rfl := hblock.unique hblock'
    exact ⟨p, hp, hlt, hmark⟩

theorem passes_skip (hlast : (o : Int) < last) (h : beginsJffs2 m e o = false) :
    Passes m e name last o (o + m.erasesize) :=
  ⟨hlast, (fun hb => by cases h.symm.trans hb), rfl⟩

theorem not_markHere (h : beginsJffs2 m e o = false) : ¬ MarkHere m e name last o := by
  rintro ⟨buf, p, hblock, -⟩
  cases h.symm.trans hblock.begins

theorem passes_block (hblock : Block m e last o buf) {t : Scan}
    (hloop : loop (blockRound e buf m.erasesize name) fuel 0 ⟨valid, none⟩ = some t)
    (hhit : t.hit = none) : Passes m e name last o (o + m.erasesize) := by
  refine ⟨hblock.before, fun _ => ⟨buf, hblock, (walkable_iff _).mpr ⟨fuel, t, hloop⟩, ?_⟩, rfl⟩
  intro p hp hlt hfile
  have := ((blockEnd rfl hloop).hit p).mpr ⟨hp, hlt, hfile⟩
  rw [hhit] at this
  cases this

theorem seenFile_here (hblock : Block m e last o buf) {t : Scan}
    (hloop : loop (blockRound e buf m.erasesize name) fuel 0 ⟨valid, none⟩ = some t)
    (hhit : t.hit = some p) : SeenFile m e name last o o buf p := by
  obtain ⟨hp, hlt, hfile⟩ := ((blockEnd rfl hloop).hit p).mp hhit
  exact ⟨⟨.refl, hblock, hp, hlt⟩, (walkable_iff _).mpr ⟨fuel, t, hloop⟩, hfile⟩

theorem searchEnd (h : findFileFrom m e fuel name out last start valid = some r) :
    SearchEnd m e name last out valid start r := by
  induction hn : (last - start).toNat using Nat.strongRecOn generalizing start valid with
  | ind n ih =>
    have hpos := m.erasesize_pos
    have hstep := searchStep m e name last fuel out start valid
    generalize hx : findFileFrom m e fuel name out last start valid = x at h hstep
    cases hstep with
    | past hlast =>
      cases h
      exact .past .refl hlast
    | skip hlast hb =>
      refine (ih _ ?_ h rfl).head (passes_skip hlast hb) ?_
      · omega
      · exact ⟨.inl, fun h => h.resolve_right (not_markHere hb)⟩
    | unread _ _ hneg _ =>
      cases h
      exact .unread .refl hneg
    | stuck _ _ => cases h
    | pass hblock hloop hhit =>
      have := hblock.before
      refine (ih _ ?_ h rfl).head (passes_block hblock hloop hhit) ?_
      · omega
      · exact (blockEnd rfl hloop).markHere hblock
    | file hblock hloop hhit =>
      have hfile := seenFile_here hblock hloop hhit
      refine .file hfile ?_ h
      rw [marked_stop hfile.not_passes]
      exact (blockEnd rfl hloop).markHere hblock

/-! ## When the search ends -/

theorem findFileFrom_skip (hlast : (o : Int) < last) (h : beginsJffs2 m e o = false) :
    findFileFrom m e fuel name out last o valid =
      findFileFrom m e fuel name out last (o + m.erasesize) valid := by
  rw [findFileFrom, if_pos hlast, if_pos h]

theorem findFileFrom_block (hblock : Block m e last o buf) {t : Scan}
    (hloop : loop (blockRound e buf m.erasesize name) fuel 0 ⟨valid, none⟩ = some t) :
    findFileFrom m e fuel name out last o valid =
      match t.hit with
      | none => findFileFrom m e fuel name out last (o + m.erasesize) t.valid
      | some p => fileFound buf out o p t.valid := by
  have hb : ¬ beginsJffs2 m e o = false := by
    rw [hblock.begins]
    decide
  rw [findFileFrom, if_pos hblock.before, if_neg hb, hblock.read]
  dsimp only
  rw [if_neg (not_not.mpr hblock.full), hloop]

theorem findFileFrom_mono {fuel' : Nat} (hle : fuel ≤ fuel')
    (h : findFileFrom m e fuel name out last start valid = some r) :
    findFileFrom m e fuel' name out last start valid = some r := by
  induction hn : (last - start).toNat using Nat.strongRecOn generalizing start valid with
  | ind n ih =>
    have hpos := m.erasesize_pos
    have hstep := searchStep m e name last fuel out start valid
    generalize hx : findFileFrom m e fuel name out last start valid = x at h hstep
    cases hstep with
    | past hlast => rw [findFileFrom, if_neg (Int.not_lt.mpr hlast), h]
    | skip hlast hb =>
      rw [findFileFrom_skip hlast hb]
      exact ih _ (by omega) h rfl
    | unread hlast hb _ hno =>
      obtain ⟨ret, -, heq⟩ := @findFileFrom_unread m e name last out start hlast hb hno
      rw [← h, ← hx, heq, heq]
    | stuck _ _ => cases h
    | pass hblock hloop hhit =>
      have := hblock.before
      rw [findFileFrom_block hblock (loop_mono hle hloop), hhit]
      exact ih _ (by omega) h rfl
    | file hblock hloop hhit =>
      rw [findFileFrom_block hblock (loop_mono hle hloop), hhit]
      exact h

/-- In one block there is only one position that is taken for the file. -/
theorem isFile_unique {erasesize q : Nat} (hp : Visits e buf erasesize name 0 p)
    (hq : Visits e buf erasesize name 0 q) (hpf : IsFile e buf name p) (hqf : IsFile e buf name q) :
    p = q := by
  have hunique : Relator.RightUnique (BlockNext e buf erasesize name) := by
    intro a b c hb hc
    rw [hb.next, hc.next]
  exact (visits_stop (fun r hr => hr.other hqf)
    (visited_before_stop hunique hp (fun r hr => hr.other hpf) hq))

/-- A search that ends has walked over all blocks that it came to, and ended with the file. -/
theorem search_seen (h : findFileFrom m e fuel name out last start valid = some r) :
    (∀ o buf, Reaches m e name last start o → Block m e last o buf →
        Walkable e buf m.erasesize name) ∧
      ∀ o buf p, SeenFile m e name last start o buf p →
        ∃ v, (v = true ↔ valid = true ∨ Marked m e name last start) ∧
          fileFound buf out o p v = some r := by
  induction hn : (last - start).toNat using Nat.strongRecOn generalizing start valid with
  | ind n ih =>
    have hpos := m.erasesize_pos
    have hstep := searchStep m e name last fuel out start valid
    generalize hx : findFileFrom m e fuel name out last start valid = x at h hstep
    -- where the search goes on, what it comes to is the block itself or lies behind it
    have hgo {v : Bool} (hpass : Passes m e name last start (start + m.erasesize))
        (hhere : ∀ buf, Block m e last start buf → Walkable e buf m.erasesize name)
        (hv : v = true ↔ valid = true ∨ MarkHere m e name last start)
        (hrest : findFileFrom m e fuel name out last (start + m.erasesize) v = some r) :
        (∀ o buf, Reaches m e name last start o → Block m e last o buf →
            Walkable e buf m.erasesize name) ∧
          ∀ o buf p, SeenFile m e name last start o buf p →
            ∃ v, (v = true ↔ valid = true ∨ Marked m e name last start) ∧
              fileFound buf out o p v = some r := by
      have := hpass.before
      obtain ⟨hwalk, hfile⟩ := ih _ (by omega) hrest rfl
      refine ⟨fun o buf hreach hblock => ?_, fun o buf p hseen => ?_⟩
      · rcases (Reaches.next hpass).mp hreach with rfl | hreach
        · exact hhere buf hblock
        · exact hwalk o buf hreach hblock
      · rcases (Reaches.next hpass).mp hseen.seen.reached with rfl | hreach
        · exact absurd hpass (hseen.not_passes _)
        · obtain ⟨w, hw, hfound⟩ := hfile o buf p ⟨⟨hreach, hseen.seen.block, hseen.seen.visited,
            hseen.seen.inside⟩, hseen.walkable, hseen.file⟩
          exact ⟨w, by rw [hw, hv, marked_next hpass, or_assoc], hfound⟩
    cases hstep with
    | past hlast =>
      have hstop (x : Nat) : ¬ Passes m e name last start x := fun hpass =>
        absurd hpass.before (Int.not_lt.mpr hlast)
      refine ⟨fun o buf hreach hblock => ?_, fun o buf p hseen => ?_⟩
      · rw [Reaches.stop hreach hstop] at hblock
        exact absurd hblock.before (Int.not_lt.mpr hlast)
      · have hblock := hseen.seen.block
        rw [Reaches.stop hseen.seen.reached hstop] at hblock
        exact absurd hblock.before (Int.not_lt.mpr hlast)
    | skip hlast hb =>
      refine hgo (passes_skip hlast hb) (fun buf hblock => ?_)
        ⟨.inl, fun hm => hm.resolve_right (not_markHere hb)⟩ h
      cases hb.symm.trans hblock.begins
    | unread hlast hb _ hno =>
      have hstop (x : Nat) : ¬ Passes m e name last start x := by
        intro hpass
        obtain ⟨buf, hblock, -⟩ := hpass.without hb
        exact hno buf hblock
      refine ⟨fun o buf hreach hblock => ?_, fun o buf p hseen => ?_⟩
      · rw [Reaches.stop hreach hstop] at hblock
        exact absurd hblock (hno buf)
      · have hblock := hseen.seen.block
        rw [Reaches.stop hseen.seen.reached hstop] at hblock
        exact absurd hblock (hno buf)
    | stuck _ _ => cases h
    | pass hblock hloop hhit =>
      refine hgo (passes_block hblock hloop hhit) (fun buf' hblock' => ?_)
        ((blockEnd rfl hloop).markHere hblock) h
      obtain rfl := hblock.unique hblock'
      exact (walkable_iff _).mpr ⟨fuel, _, hloop⟩
    | file hblock hloop hhit =>
      have hhere := seenFile_here hblock hloop hhit
      refine ⟨fun o buf' hreach hblock' => ?_, fun o buf' p' hseen => ?_⟩
      · rw [Reaches.stop hreach hhere.not_passes] at hblock'
        obtain rfl := hblock.unique hblock'
        exact hhere.walkable
      · obtain rfl := Reaches.stop hseen.seen.reached hhere.not_passes
        obtain rfl := hblock.unique hseen.seen.block
        obtain rfl := isFile_unique hhere.seen.visited hseen.seen.visited hhere.file hseen.file
        refine ⟨_, ?_, h⟩
        rw [marked_stop hhere.not_passes]
        exact (blockEnd rfl hloop).markHere hblock

/-- What the search needs to end. -/
structure SearchRuns (m : Master) (e : Endian) (name : Bytes) (last : Int) (out valid : Bool)
    (start : Nat) : Prop where
  walkable : ∀ o buf, Reaches m e name last start o → Block m e last o buf →
    Walkable e buf m.erasesize name
  copy : out = true → ∀ o buf p, SeenFile m e name last start o buf p →
    (valid = true ∨ Marked m e name last start) → copyName buf p ≠ none

theorem fileFound_isSome (h : out = true → valid = true → copyName buf p ≠ none) :
    ∃ r, fileFound buf out o p valid = some r := by
  rw [fileFound]
  split
  · exact ⟨_, rfl⟩
  rename_i hvalid
  split
  · exact ⟨_, rfl⟩
  rename_i hout
  obtain ⟨copy, hcopy⟩ :=
      Option.ne_none_iff_exists'.mp (h (by simpa using hout) (by simpa using hvalid))
  rw [hcopy]
  exact ⟨_, rfl⟩

theorem SearchRuns.ends (h : SearchRuns m e name last out valid start) :
    ∃ fuel r, findFileFrom m e fuel name out last start valid = some r := by
  induction hn : (last - start).toNat using Nat.strongRecOn generalizing start valid with
  | ind n ih =>
    have hpos := m.erasesize_pos
    have hgo {v : Bool} (hpass : Passes m e name last start (start + m.erasesize))
        (hv : v = true ↔ valid = true ∨ MarkHere m e name last start) :
        ∃ fuel r, findFileFrom m e fuel name out last (start + m.erasesize) v = some r := by
      have := hpass.before
      refine ih _ (by omega) ⟨fun o buf hreach => h.walkable o buf (.head hpass hreach),
        fun hout o buf p hfile hmark => h.copy hout o buf p (hfile.head hpass) ?_⟩ rfl
      rwa [marked_next hpass, ← or_assoc, ← hv]
    by_cases hblock : ∃ buf, Block m e last start buf
    · obtain ⟨buf, hblock⟩ := hblock
      obtain ⟨fuel₁, t, hloop⟩ := (walkable_iff ⟨valid, none⟩).mp
        (h.walkable start buf .refl hblock)
      have hv := (blockEnd rfl hloop).markHere hblock
      cases hhit : t.hit with
      | none =>
        obtain ⟨fuel₂, r, hrest⟩ := hgo (passes_block hblock hloop hhit) hv
        refine ⟨max fuel₁ fuel₂, r, ?_⟩
        rw [findFileFrom_block hblock (loop_mono (Nat.le_max_left _ _) hloop), hhit]
        exact findFileFrom_mono (Nat.le_max_right _ _) hrest
      | some p =>
        have hhere := seenFile_here hblock hloop hhit
        obtain ⟨r, hfound⟩ := @fileFound_isSome out t.valid start p buf fun hout hvalid =>
          h.copy hout start buf p hhere (by rwa [marked_stop hhere.not_passes, ← hv])
        refine ⟨fuel₁, r, ?_⟩
        rw [findFileFrom_block hblock hloop, hhit]
        exact hfound
    · have hstep := searchStep m e name last 0 out start valid
      generalize hx : findFileFrom m e 0 name out last start valid = x at hstep
      cases hstep with
      | past _ => exact ⟨0, _, hx⟩
      | skip hlast hb =>
        obtain ⟨fuel, r, hrest⟩ := hgo (passes_skip hlast hb)
          ⟨.inl, fun hm => hm.resolve_right (not_markHere hb)⟩
        exact ⟨fuel, r, (findFileFrom_skip hlast hb).trans hrest⟩
      | unread _ _ _ _ => exact ⟨0, _, hx⟩
      | stuck hb _ => exact absurd ⟨_, hb⟩ hblock
      | pass hb _ _ => exact absurd ⟨_, hb⟩ hblock
      | file hb _ _ => exact absurd ⟨_, hb⟩ hblock

end

/-! ## What the search says -/

section
variable (m : Master) (e : Endian) (name : Bytes) (out : Bool) (start : Nat) (size : Int)

/-- A valid dirent of the name 1-openwrt, and of no longer one. -/
structure NamedMark (buf : Bytes) (p : Nat) : Prop where
  mark : IsMark e buf p
  nsize : nsize buf p = openwrtName.length

/-- In the block at an offset there is a valid dirent whose name begins with the name, and one of
the name 1-openwrt was seen before it. -/
def FoundAt (last : Int) (o : Nat) : Prop :=
  ∃ buf p o' buf' q, Seen m e name last start o buf p ∧ IsDirent e buf p ∧ NameBegins buf p name ∧
    Seen m e name last start o' buf' q ∧ NamedMark e buf' q ∧
    (o' < o ∨ o' = o ∧ Relation.TransGen (BlockNext e buf m.erasesize name) q p)

/-- The search ends without a read outside of its buffer, and is right about the file. -/
structure FindSound : Prop where
  ends : ∃ fuel r, findFile m e fuel name out start size = some r
  found : ∀ fuel r, findFile m e fuel name out start size = some r → r.ret = 0 →
    FoundAt m e name start (start + size) r.offs

/-- Each block that is walked over is walkable. Where the file comes behind what is taken for the
mark, its name ends in the block if it is copied, and the mark has just that name. -/
structure FindFits : Prop where
  walkable : ∀ o buf, Reaches m e name (start + size) start o → Block m e (start + size) o buf →
    Walkable e buf m.erasesize name
  copy : out = true → ∀ o buf p, SeenFile m e name (start + size) start o buf p →
    Marked m e name (start + size) start → copyName buf p ≠ none
  named : ∀ o buf p, SeenFile m e name (start + size) start o buf p →
    Marked m e name (start + size) start →
    ∃ o' buf' q, Seen m e name (start + size) start o' buf' q ∧ NamedMark e buf' q

end

section
variable {m : Master} {e : Endian} {name : Bytes} {last : Int} {out : Bool} {start o o' p q : Nat}
  {buf buf' : Bytes} {r : FileEnd}

/-- All that was seen comes before the file. -/
theorem SeenFile.behind (h : SeenFile m e name last start o buf p)
    (hseen : Seen m e name last start o' buf' q) (hmark : IsMark e buf' q) :
    o' < o ∨ o' = o ∧ Relation.TransGen (BlockNext e buf m.erasesize name) q p := by
  have hreach := visited_before_stop passes_rightUnique h.seen.reached h.not_passes hseen.reached
  rcases Nat.eq_or_lt_of_le (Reaches.le hreach) with rfl | hlt
  · refine .inr ⟨rfl, ?_⟩
    obtain rfl := h.seen.block.unique hseen.block
    have hunique : Relator.RightUnique (BlockNext e buf m.erasesize name) := by
      intro a b c hb hc
      rw [hb.next, hc.next]
    have hvisits := visited_before_stop hunique h.seen.visited (fun x hx => hx.other h.file)
      hseen.visited
    rcases Relation.reflTransGen_iff_eq_or_transGen.mp hvisits with rfl | htrans
    · exact absurd hmark.name h.file.other
    · exact htrans
  · exact .inl hlt

theorem fileFound_valid (h : fileFound buf out o p true = some r) :
    r.ret = 0 ∧ r.offs = o ∧ (out = true → copyName buf p ≠ none) := by
  rw [fileFound, if_neg (by decide)] at h
  split at h
  · rename_i hout
    cases h
    exact ⟨rfl, rfl, fun hyes => by cases hout.symm.trans hyes⟩
  · cases hcopy : copyName buf p with
    | none =>
      rw [hcopy] at h
      cases h
    | some copy =>
      rw [hcopy] at h
      cases h
      exact ⟨rfl, rfl, fun _ hno => by cases hno⟩

theorem fileFound_ret {v : Bool} (h : fileFound buf out o p v = some r) (hret : r.ret = 0) :
    v = true := by
  by_contra hv
  rw [fileFound, if_pos (by simpa using hv)] at h
  cases h
  exact absurd hret (show ¬ (-22 : Int) = 0 by decide)

/-- **The search for a file** in JFFS2 blocks ends in its buffer, and is right when it finds the
file, exactly when the blocks on its way are walkable, the name it copies ends in its block, and a
mark has just the name of one. -/
theorem findFile_iff (m : Master) (e : Endian) (name : Bytes) (out : Bool) (start : Nat)
    (size : Int) : FindSound m e name out start size ↔ FindFits m e name out start size := by
  constructor
  · intro h
    obtain ⟨fuel, r, hrun⟩ := h.ends
    obtain ⟨hwalk, hfile⟩ := search_seen hrun
    have hvalid {o : Nat} {buf : Bytes} {p : Nat}
        (hseen : SeenFile m e name (start + size) start o buf p)
        (hmarked : Marked m e name (start + size) start) :
        r.ret = 0 ∧ r.offs = o ∧ (out = true → copyName buf p ≠ none) := by
      obtain ⟨v, hv, hfound⟩ := hfile o buf p hseen
      rw [hv.mpr (.inr hmarked)] at hfound
      exact fileFound_valid hfound
    refine ⟨hwalk, fun hout o buf p hseen hmarked => (hvalid hseen hmarked).2.2 hout, ?_⟩
    intro o buf p hseen hmarked
    obtain ⟨-, -, o', buf', q, -, -, -, hmark, hnamed, -⟩ :=
      h.found fuel r hrun (hvalid hseen hmarked).1
    exact ⟨o', buf', q, hmark, hnamed⟩
  · intro h
    have hruns : SearchRuns m e name (start + size) out false start :=
      ⟨h.walkable, fun hout o buf p hfile hmark => h.copy hout o buf p hfile
        (hmark.resolve_left (by decide))⟩
    refine ⟨hruns.ends, fun fuel r hrun hret => ?_⟩
    have hend := searchEnd hrun
    cases hend with
    | past _ _ => exact absurd hret (show ¬ (-2 : Int) = 0 by decide)
    | unread _ hneg =>
      dsimp only at hret
      omega
    | @file o buf p v _ hfile hv hfound =>
      have hvalid := fileFound_ret hfound hret
      have hmarked := (hv.mp hvalid).resolve_left (by decide)
      rw [hvalid] at hfound
      obtain ⟨-, hoffs, -⟩ := fileFound_valid hfound
      obtain ⟨o', buf', q, hseen, hnamed⟩ := h.named o buf p hfile hmarked
      rw [hoffs]
      exact ⟨buf, p, o', buf', q, hfile.seen, hfile.file.dirent, hfile.file.name, hseen, hnamed,
        hfile.behind hseen hnamed.mark⟩

/-! ## A dirent without a length -/

/-- `mtd_read` of a flash without errors. -/
def flashRead (flash : Bytes) (off len : Nat) : Except Int Bytes :=
  if off + len ≤ flash.length then .ok (load flash off len) else .error (-22)

theorem flashRead_neg (flash : Bytes) (off len : Nat) (ret : Int)
    (h : flashRead flash off len = .error ret) : ret < 0 := by
  rw [flashRead] at h
  split at h
  · cases h
  · cases h
    decide

theorem flashRead_length (flash : Bytes) (off len : Nat) (bs : Bytes)
    (h : flashRead flash off len = .ok bs) : bs.length ≤ len := by
  rw [flashRead] at h
  split at h
  · rename_i hin
    cases h
    exact (length_load hin).le
  · cases h

theorem blockSize_pos : 0 < 64 := Nat.succ_pos _

theorem blockSize_lt : 64 < 2 ^ 32 := by decide

/-- A flash of blocks of 64 bytes. -/
def smallBlocks (flash : Bytes) : Master :=
  ⟨flash.length, 64, flashRead flash, blockSize_pos, blockSize_lt, flashRead_neg flash,
    flashRead_length flash⟩

/-- A valid dirent with `totlen` 0. -/
def endlessBlock : Bytes :=
  [0x85, 0x19, 0x01, 0xe0] ++ List.replicate 16 0 ++ [1, 0, 0, 0] ++ List.replicate 8 0 ++
    [0xd4, 0xbb, 0xcb, 0x17] ++ List.replicate 28 0

/-- A dirent that begins in the last word of the block, behind a valid one. -/
def cutBlock : Bytes :=
  [0x85, 0x19, 0x01, 0xe0, 60] ++ List.replicate 15 0 ++ [1, 0, 0, 0] ++ List.replicate 8 0 ++
    [0x38, 0xd5, 0x53, 0x31] ++ List.replicate 24 0 ++ [0x85, 0x19, 0x01, 0xe0]

/-- `CFERAM_NAME` -/
def cferamName : Bytes := [0x63, 0x66, 0x65, 0x72, 0x61, 0x6d]

/-- The walk goes on from a dirent that is neither the mark nor the file. -/
theorem blockNext_dirent {e : Endian} {buf name : Bytes} {erasesize p q : Nat} (hp : p < erasesize)
    (hdirent : IsDirent e buf p) (hmark : p + 40 + openwrtName.length ≤ buf.length)
    (hname : p + 40 + name.length ≤ buf.length) (hother : load buf (p + 40) name.length ≠ name)
    (hq : direntNext e buf p = q) : BlockNext e buf erasesize name p q := by
  refine ⟨hp, ⟨⟨_, hdirent⟩, fun _ => hmark, fun _ _ => hname⟩, fun hfile => ?_, ?_⟩
  · exact hother ((nameBegins_iff hname).mp hfile.name)
  · rw [if_pos hdirent, hq]

theorem findFile_endless :
    ¬ FindSound (smallBlocks endlessBlock) .little cferamName false 0 64 ∧
      ¬ FindSound (smallBlocks cutBlock) .little cferamName false 0 64 := by
  constructor
  · intro h
    obtain ⟨fuel, r, hrun⟩ := h.ends
    have hblock : Block (smallBlocks endlessBlock) .little (0 + 64) 0 endlessBlock :=
      ⟨by decide, by decide, by decide, by decide⟩
    -- the walk stays at the dirent
    have hnext : BlockNext .little endlessBlock 64 cferamName 0 0 :=
      blockNext_dirent (by decide) (by decide +kernel) (by decide) (by decide) (by decide +kernel)
        (by decide)
    exact ((search_seen hrun).1 0 endlessBlock .refl hblock).forward 0 .refl (.single hnext)
  · intro h
    obtain ⟨fuel, r, hrun⟩ := h.ends
    have hblock : Block (smallBlocks cutBlock) .little (0 + 64) 0 cutBlock :=
      ⟨by decide, by decide, by decide, by decide⟩
    have hnext : BlockNext .little cutBlock 64 cferamName 0 60 :=
      blockNext_dirent (by decide) (by decide +kernel) (by decide) (by decide) (by decide +kernel)
        (by decide)
    have hwhole := ((search_seen hrun).1 0 cutBlock .refl hblock).whole 60 (.single hnext)
      (by decide)
    have hcut : direntValid .little cutBlock 60 = none := by decide
    obtain ⟨valid, hvalid⟩ := hwhole.header
    cases hcut.symm.trans hvalid

end

end UolaOs.Mtdsplit
