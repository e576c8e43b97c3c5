import UolaOs.Lib.CString
import UolaOs.Lib.Loop

/-!
# Entries of a TFFS in a file

`find_entry` and `parse_key_names` of fritz_tffs_read.c.

* `entryRound` and `nameRound`: one round of each loop, with positions in 32 bits and reads that
  stay in the buffer;
* `Walk`: the walk over the entries, with positions that do not wrap;
* `findEntry_sound_iff` and `parseKeyNames_iff`: when the loops end and stay in the buffer;
* `tffs_iff`: both.
-/

namespace UolaOs.Tffs.Flat

/-- The byte order of the host, and `swap_bytes`. -/
structure Config where
  host : Endian
  swap : Bool

/-- What `ntohs` makes of a word, or the host's order. -/
def Config.order (c : Config) : Endian := if c.swap = true then .big else c.host

/-- `TFFS_ID_END` -/
def idEnd : Nat := 0xffff

/-- `TFFS_ID_TABLE_NAME` -/
def idTableName : Nat := 0x01ff

/-- `get_walk_size` -/
def getWalkSize (entry_len : UInt32) : UInt32 := (entry_len + 3) / 4 * 4

/-- A word of the buffer, when it is in it. -/
def wordAt (buf : Bytes) (off : Nat) : Option Bytes :=
  if off + 2 ≤ buf.length then some (load buf off 2) else none

/-- `strlen`, when the string ends in the buffer. -/
def strlenAt (buf : Bytes) (off : Nat) : Option Nat :=
  if (0 : UInt8) ∈ buf.drop off then some ((buf.drop off).takeWhile (· ≠ 0)).length else none

section
variable (c : Config) (buf : Bytes)

/-! ## `find_entry` -/

/-- `get_header_id` -/
def headerId (pos : Nat) : Option Nat := (wordAt buf pos).map c.order.get

/-- `get_header_len` -/
def headerLen (pos : Nat) : Option Nat := (wordAt buf (pos + 2)).map c.order.get

/-- The id as it is, without swapping. -/
def rawId (pos : Nat) : Nat := c.host.get (load buf pos 2)

/-- A round of `find_entry`, which stops with the position of the entry. -/
def entryRound (id : Nat) (pos : UInt32) (found : Option UInt32) :
    Option (Round UInt32 (Option UInt32)) := do
  let header_id ← headerId c buf pos.toNat
  if header_id = id then return .stop (some pos)
  let len ← headerLen c buf pos.toNat
  let next := pos + 4 + getWalkSize (UInt32.ofNat len)
  if next.toNat < buf.length ∧ rawId c buf pos.toNat ≠ idEnd then return .next next found
  return .stop none

/-- `find_entry`, with at most `fuel` rounds. -/
def findEntry (fuel : Nat) (id : Nat) : Option (Option UInt32) :=
  loop (entryRound c buf id) fuel 0 none

/-! ## `parse_key_names` -/

/-- `struct tffs_name_table_entry`: where the id is, and the name. -/
structure NameEntry where
  id : Nat
  val : Bytes
  deriving DecidableEq

/-- Where the value of the entry at a position has something. -/
def valAt (table pos : UInt32) : Nat := table.toNat + 4 + pos.toNat

/-- A round of `parse_key_names` on the name table at a position. -/
def nameRound (table : UInt32) (pos : UInt32) (entries : List NameEntry) :
    Option (Round UInt32 (List NameEntry)) := do
  let len ← strlenAt buf (valAt table (pos + 4))
  let next := pos + 4 + getWalkSize (UInt32.ofNat (len + 1))
  let header_len ← headerLen c buf table.toNat
  let entry := ⟨valAt table pos, load buf (valAt table (pos + 4)) len⟩
  if next.toNat < header_len then return .next next (entries ++ [entry])
  return .stop (entries ++ [entry])

/-- `parse_key_names`, with at most `fuel` rounds. -/
def parseKeyNames (fuel : Nat) (table : UInt32) : Option (List NameEntry) :=
  loop (nameRound c buf table) fuel 0 []

/-! ## What the walk is -/

/-- There is an entry with the id. -/
def IsEntry (id pos : Nat) : Prop := headerId c buf pos = some id

/-- The walk goes on behind the entry. -/
structure Passed (id pos : Nat) : Prop where
  header : ∃ i, headerId c buf pos = some i ∧ i ≠ id
  inner : rawId c buf pos ≠ idEnd

/-- 4 and the padded length behind an entry. -/
def behind (pos : Nat) : Nat := pos + 4 + (c.order.get (load buf (pos + 2) 2) + 3) / 4 * 4

/-- The walk goes on from one entry to another. -/
structure EntryNext (id p q : Nat) : Prop where
  passed : Passed c buf id p
  next : q = behind c buf p
  inside : q < buf.length

/-- The entries on the walk, up to the one with the id. -/
abbrev Walk (id : Nat) : Nat → Prop := Relation.ReflTransGen (EntryNext c buf id) 0

/-- `find_entry` ends, stays in the buffer and finds the entry on the walk. -/
def FindSound (id : Nat) : Prop :=
  ∃ fuel r, findEntry c buf fuel id = some r ∧
    ∀ pos, r.map UInt32.toNat = some pos ↔ Walk c buf id pos ∧ IsEntry c buf id pos

/-- `parse_key_names` ends and stays in the buffer. -/
def NamesSound (table : UInt32) : Prop :=
  ∃ fuel entries, parseKeyNames c buf fuel table = some entries

/-- `find_entry` is right, and the name table that it finds is read in the buffer. -/
structure Sound (id : Nat) : Prop where
  find : FindSound c buf id
  names : ∀ fuel table, findEntry c buf fuel idTableName = some (some table) →
    NamesSound c buf table

/-! ## When it is right -/

/-- `find_entry` goes on from one position to another, in 32 bits. -/
structure EntryLink (id : Nat) (p q : UInt32) : Prop where
  passed : Passed c buf id p.toNat
  whole : p.toNat + 4 ≤ buf.length
  next : q = UInt32.ofNat (behind c buf p.toNat)
  inside : q.toNat < buf.length

/-- The positions that `find_entry` comes to. -/
abbrev Visits (id : Nat) : UInt32 → UInt32 → Prop := Relation.ReflTransGen (EntryLink c buf id)

/-- What is read of the header at a position is in the buffer. -/
structure HeaderRead (id pos : Nat) : Prop where
  id_read : pos + 2 ≤ buf.length
  len_read : ¬ IsEntry c buf id pos → pos + 4 ≤ buf.length

/-- The headers are whole, no position comes back to itself, and where a position wraps there is
nothing to be found. -/
structure Walkable (id : Nat) : Prop where
  whole : ∀ p, Visits c buf id 0 p → HeaderRead c buf id p.toNat
  forward : ∀ p, Visits c buf id 0 p → ¬ Relation.TransGen (EntryLink c buf id) p p
  low : ∀ p, Walk c buf id p → IsEntry c buf id p → p < 2 ^ 32
  wrapped : ∀ p : UInt32, Walk c buf id p.toNat → Passed c buf id p.toNat →
    2 ^ 32 ≤ behind c buf p.toNat →
    ∀ q, Visits c buf id (UInt32.ofNat (behind c buf p.toNat)) q → ¬ IsEntry c buf id q.toNat

/-- The name at a position of the name table. -/
def nameLength (table pos : UInt32) : Nat :=
  ((buf.drop (valAt table (pos + 4))).takeWhile (· ≠ 0)).length

/-- `parse_key_names` goes on from one position to another. -/
structure NameLink (table p q : UInt32) : Prop where
  next : q = p + 4 + getWalkSize (UInt32.ofNat (nameLength buf table p + 1))
  inside : q.toNat < c.order.get (load buf (table.toNat + 2) 2)
  ended : 0 ∈ buf.drop (valAt table (p + 4))
  whole : table.toNat + 4 ≤ buf.length

/-- The header of the table is whole, its names end in the buffer, and no position comes back to
itself. -/
structure Named (table : UInt32) : Prop where
  whole : table.toNat + 4 ≤ buf.length
  ended : ∀ p, Relation.ReflTransGen (NameLink c buf table) 0 p →
    0 ∈ buf.drop (valAt table (p + 4))
  forward : ∀ p, Relation.ReflTransGen (NameLink c buf table) 0 p →
    ¬ Relation.TransGen (NameLink c buf table) p p

/-- The walk for the id can be walked, and so can the name table. -/
structure Fits (id : Nat) : Prop where
  walkable : Walkable c buf id
  named : ∀ table, Visits c buf idTableName 0 table → IsEntry c buf idTableName table.toNat →
    Named c buf table

end

/-! ## The entries -/

section
variable {c : Config} {buf : Bytes} {id : Nat} {p q : UInt32} {found : Option UInt32}

theorem headerId_some {pos : Nat} (h : pos + 2 ≤ buf.length) :
    headerId c buf pos = some (c.order.get (load buf pos 2)) := by
  rw [headerId, wordAt, if_pos h, Option.map_some]

theorem headerId_none {pos : Nat} (h : ¬ pos + 2 ≤ buf.length) : headerId c buf pos = none := by
  rw [headerId, wordAt, if_neg h, Option.map_none]

theorem headerLen_some {pos : Nat} (h : pos + 4 ≤ buf.length) :
    headerLen c buf pos = some (c.order.get (load buf (pos + 2) 2)) := headerId_some h

theorem headerLen_none {pos : Nat} (h : ¬ pos + 4 ≤ buf.length) : headerLen c buf pos = none :=
  headerId_none h

theorem IsEntry.le {pos : Nat} (h : IsEntry c buf id pos) : pos + 2 ≤ buf.length := by
  by_contra hout
  rw [IsEntry, headerId_none hout] at h
  cases h

theorem isEntry_iff {pos : Nat} (h : pos + 2 ≤ buf.length) :
    IsEntry c buf id pos ↔ c.order.get (load buf pos 2) = id := by
  rw [IsEntry, headerId_some h, Option.some.injEq]

theorem Passed.not_entry {pos : Nat} (h : Passed c buf id pos) : ¬ IsEntry c buf id pos := by
  obtain ⟨i, hi, hne⟩ := h.header
  rw [IsEntry, hi, Option.some.injEq]
  exact hne

theorem passed_iff {pos : Nat} (h : pos + 2 ≤ buf.length) :
    Passed c buf id pos ↔ ¬ IsEntry c buf id pos ∧ rawId c buf pos ≠ idEnd := by
  refine ⟨fun hp => ⟨hp.not_entry, hp.inner⟩, fun hp => ⟨⟨_, headerId_some h, ?_⟩, hp.2⟩⟩
  exact mt (isEntry_iff h).mpr hp.1

theorem wordGet_lt (e : Endian) (buf : Bytes) (off : Nat) : e.get (load buf off 2) < 2 ^ 16 := by
  have hlength : (load buf off 2).length ≤ 2 := by
    rw [load, List.length_take]
    exact Nat.min_le_left ..
  have hbytes : e.get (load buf off 2) < 256 ^ (load buf off 2).length := by
    cases e with
    | little => exact leNat_lt _
    | big =>
      rw [← List.length_reverse]
      exact leNat_lt _
  exact hbytes.trans_le (Nat.pow_le_pow_right (by decide) hlength)

/-- The next position, in 32 bits. -/
theorem next_eq (p : UInt32) :
    p + 4 + getWalkSize (UInt32.ofNat (c.order.get (load buf (p.toNat + 2) 2))) =
      UInt32.ofNat (behind c buf p.toNat) := by
  have hlt := wordGet_lt c.order buf (p.toNat + 2)
  rw [behind, getWalkSize]
  generalize c.order.get (load buf (p.toNat + 2) 2) = len at hlt
  apply UInt32.toNat_inj.mp
  simp only [UInt32.toNat_add, UInt32.toNat_mul, UInt32.toNat_div, UInt32.toNat_ofNat']
  have h3 : (3 : UInt32).toNat = 3 := rfl
  have h4 : (4 : UInt32).toNat = 4 := rfl
  rw [h3, h4]
  omega

/-- What a round does. -/
inductive EntryStep (c : Config) (buf : Bytes) (id : Nat) (p : UInt32) (found : Option UInt32) :
    Option (Round UInt32 (Option UInt32)) → Prop
  | unread : ¬ HeaderRead c buf id p.toNat → EntryStep c buf id p found none
  | entry : IsEntry c buf id p.toNat → EntryStep c buf id p found (some (.stop (some p)))
  | last : HeaderRead c buf id p.toNat → ¬ IsEntry c buf id p.toNat →
      (∀ q, ¬ EntryLink c buf id p q) → EntryStep c buf id p found (some (.stop none))
  | next {q : UInt32} : EntryLink c buf id p q → EntryStep c buf id p found (some (.next q found))

theorem entryStep (c : Config) (buf : Bytes) (id : Nat) (p : UInt32) (found : Option UInt32) :
    EntryStep c buf id p found (entryRound c buf id p found) := by
  rw [entryRound]
  by_cases hid : p.toNat + 2 ≤ buf.length
  · rw [headerId_some hid, Option.bind_eq_bind, Option.bind_some]
    by_cases hentry : IsEntry c buf id p.toNat
    · rw [if_pos ((isEntry_iff hid).mp hentry)]
      exact .entry hentry
    · rw [if_neg (mt (isEntry_iff hid).mpr hentry)]
      by_cases hlen : p.toNat + 4 ≤ buf.length
      · rw [headerLen_some hlen, Option.bind_some]
        have hread : HeaderRead c buf id p.toNat := ⟨hid, fun _ => hlen⟩
        dsimp only
        rw [next_eq]
        split
        · rename_i hgo
          exact .next ⟨(passed_iff hid).mpr ⟨hentry, hgo.2⟩, hlen, rfl, hgo.1⟩
        · rename_i hgo
          refine .last hread hentry fun q hq => hgo ⟨?_, hq.passed.inner⟩
          rw [← hq.next]
          exact hq.inside
      · rw [headerLen_none hlen]
        exact .unread fun h => hlen (h.len_read hentry)
  · rw [headerId_none hid]
    exact .unread fun h => hid h.id_read

theorem EntryLink.read (h : EntryLink c buf id p q) : HeaderRead c buf id p.toNat := by
  have hwhole := h.whole
  exact ⟨by omega, fun _ => hwhole⟩

theorem IsEntry.read {pos : Nat} (h : IsEntry c buf id pos) : HeaderRead c buf id pos :=
  ⟨h.le, fun hno => absurd h hno⟩

/-- The loop follows the positions, and fails where a header is not whole. -/
theorem follows_entryRound (c : Config) (buf : Bytes) (id : Nat) :
    Follows (entryRound c buf id) (EntryLink c buf id) fun p => HeaderRead c buf id p.toNat where
  safe := by
    intro p found
    have hstep := entryStep c buf id p found
    generalize entryRound c buf id p found = r at hstep
    cases hstep with
    | unread hno => exact iff_of_false (fun h => by cases h) hno
    | entry hentry => exact iff_of_true rfl hentry.read
    | last hread _ _ => exact iff_of_true rfl hread
    | next hlink => exact iff_of_true rfl hlink.read
  links := by
    intro p found q found' hround
    have hstep := entryStep c buf id p found
    rw [hround] at hstep
    cases hstep with
    | next hlink => exact hlink
  stops := by
    intro p found found' hround q hlink
    have hstep := entryStep c buf id p found
    rw [hround] at hstep
    cases hstep with
    | entry hentry => exact hlink.passed.not_entry hentry
    | last _ _ hno => exact hno q hlink
  unique := by
    intro p q r hq hr
    rw [hq.next, hr.next]

theorem finite_uint32 (s : Set UInt32) : s.Finite := by
  have : Finite UInt32 :=
    Finite.of_injective UInt32.toFin fun _ _ h => UInt32.toFin_inj.mp h
  exact s.toFinite

/-- What a walk from a position ends with. -/
theorem loop_found {fuel : Nat} {r : Option UInt32}
    (h : loop (entryRound c buf id) fuel p none = some r) :
    r = some q ↔ Visits c buf id p q ∧ IsEntry c buf id q.toNat := by
  induction fuel generalizing p with
  | zero => cases h
  | succ fuel ih =>
    rw [loop] at h
    have hstep := entryStep c buf id p none
    generalize entryRound c buf id p none = round at h hstep
    -- a position without a link is the only one
    have honly (hno : ∀ q, ¬ EntryLink c buf id p q) (hq : Visits c buf id p q) : q = p := by
      obtain rfl | ⟨x, hx, -⟩ := hq.cases_head
      · rfl
      · exact absurd hx (hno x)
    cases hstep with
    | unread _ => cases h
    | entry hentry =>
      cases h
      constructor
      · rintro ⟨⟩
        exact ⟨.refl, hentry⟩
      · rintro ⟨hq, -⟩
        rw [honly (fun x hx => hx.passed.not_entry hentry) hq]
    | last _ hentry hno =>
      cases h
      refine ⟨(fun hx => by cases hx), ?_⟩
      rintro ⟨hq, hthere⟩
      rw [honly hno hq] at hthere
      exact absurd hthere hentry
    | @next x hlink =>
      rw [ih h]
      refine and_congr_left fun hthere => ⟨fun hq => .head hlink hq, fun hq => ?_⟩
      obtain rfl | ⟨y, hy, hq⟩ := hq.cases_head
      · exact absurd hthere hlink.passed.not_entry
      · rwa [hlink.next, ← hy.next]

theorem exists_loop_found (h : Visits c buf id p q) (hentry : IsEntry c buf id q.toNat) :
    ∃ fuel, loop (entryRound c buf id) fuel p none = some (some q) := by
  induction h using Relation.ReflTransGen.head_induction_on with
  | refl =>
    refine ⟨1, ?_⟩
    rw [loop]
    have hstep := entryStep c buf id q none
    generalize entryRound c buf id q none = round at hstep
    cases hstep with
    | unread hno => exact absurd hentry.read hno
    | entry _ => rfl
    | last _ hno _ => exact absurd hentry hno
    | next hlink => exact absurd hentry hlink.passed.not_entry
  | @head x y hxy _ ih =>
    obtain ⟨fuel, hfuel⟩ := ih
    refine ⟨fuel + 1, ?_⟩
    rw [loop]
    have hstep := entryStep c buf id x none
    generalize entryRound c buf id x none = round at hstep
    cases hstep with
    | unread hno => exact absurd hxy.read hno
    | entry hthere => exact absurd hthere hxy.passed.not_entry
    | last _ _ hno => exact absurd hxy (hno y)
    | next hlink =>
      dsimp only
      rwa [hlink.next, ← hxy.next]

theorem findEntry_found_iff : (∃ fuel, findEntry c buf fuel id = some (some q)) ↔
    Visits c buf id 0 q ∧ IsEntry c buf id q.toNat := by
  constructor
  · rintro ⟨fuel, h⟩
    exact (loop_found h).mp rfl
  · rintro ⟨h, hentry⟩
    exact exists_loop_found h hentry

/-! ## The walk and its positions in 32 bits -/

variable {m n : Nat}

theorem EntryNext.lt (h : EntryNext c buf id m n) : m + 4 ≤ n := by
  rw [h.next, behind]
  omega

theorem le_of_walk (h : Relation.ReflTransGen (EntryNext c buf id) m n) : m ≤ n := by
  induction h with
  | refl => exact Nat.le_refl _
  | tail _ hnext ih =>
    have := hnext.lt
    omega

theorem toNat_ofNat (h : n < 2 ^ 32) : (UInt32.ofNat n).toNat = n := by
  rw [UInt32.toNat_ofNat']
  exact Nat.mod_eq_of_lt h

theorem EntryNext.link (h : EntryNext c buf id p.toNat n) (hn : n < 2 ^ 32) :
    EntryLink c buf id p (UInt32.ofNat n) := by
  have hlt := h.lt
  have hinside := h.inside
  refine ⟨h.passed, by omega, by rw [h.next], ?_⟩
  rw [toNat_ofNat hn]
  exact hinside

theorem visits_of_walk (h : Walk c buf id n) (hn : n < 2 ^ 32) :
    Visits c buf id 0 (UInt32.ofNat n) := by
  induction h with
  | refl => exact .refl
  | @tail m n _ hnext ih =>
    have hlt := hnext.lt
    have hm : m < 2 ^ 32 := by omega
    refine (ih hm).tail (EntryNext.link ?_ hn)
    rwa [toNat_ofNat hm]

theorem EntryLink.toNext (h : EntryLink c buf id p q) (hlt : behind c buf p.toNat < 2 ^ 32) :
    EntryNext c buf id p.toNat q.toNat := by
  refine ⟨h.passed, ?_, h.inside⟩
  rw [h.next, toNat_ofNat hlt]

/-- A position wraps on the way to another. -/
def WrapsTo (c : Config) (buf : Bytes) (id : Nat) (q : UInt32) : Prop :=
  ∃ p : UInt32, Walk c buf id p.toNat ∧ Passed c buf id p.toNat ∧
    2 ^ 32 ≤ behind c buf p.toNat ∧ Visits c buf id (UInt32.ofNat (behind c buf p.toNat)) q

theorem walk_or_wraps (h : Visits c buf id 0 q) : Walk c buf id q.toNat ∨ WrapsTo c buf id q := by
  induction h with
  | refl => exact .inl .refl
  | @tail p q _ hlink ih =>
    rcases ih with hwalk | ⟨x, hx, hpassed, hwrap, hvisits⟩
    · by_cases hlt : behind c buf p.toNat < 2 ^ 32
      · exact .inl (hwalk.tail (hlink.toNext hlt))
      · refine .inr ⟨p, hwalk, hlink.passed, Nat.le_of_not_lt hlt, ?_⟩
        rw [← hlink.next]
    · exact .inr ⟨x, hx, hpassed, hwrap, hvisits.tail hlink⟩

theorem entryNext_unique : Relator.RightUnique (EntryNext c buf id) := by
  intro m n k hn hk
  rw [hn.next, hk.next]

/-- No entry that is found is behind a position that wraps. -/
theorem not_wrapped (hpassed : Passed c buf id p.toNat) (hwrap : 2 ^ 32 ≤ behind c buf p.toNat)
    (hp : Walk c buf id p.toNat) (hq : Walk c buf id q.toNat) (hentry : IsEntry c buf id q.toNat) :
    False := by
  have hstop (n : Nat) : ¬ EntryNext c buf id q.toNat n := fun h => h.passed.not_entry hentry
  have hway := visited_before_stop entryNext_unique hq hstop hp
  obtain heq | ⟨x, hx, hrest⟩ := hway.cases_head
  · rw [heq] at hpassed
    exact hpassed.not_entry hentry
  · have hle := le_of_walk hrest
    have hlt := q.toNat_lt
    rw [hx.next] at hle
    omega

/-- **When `find_entry` is right.** -/
theorem findEntry_sound_iff : FindSound c buf id ↔ Walkable c buf id := by
  have hends := (follows_entryRound c buf id).ends_iff (finite_uint32 _) 0 none
  constructor
  · rintro ⟨fuel, r, hrun, hr⟩
    obtain ⟨hforward, hwhole⟩ := hends.mp ⟨fuel, r, hrun⟩
    refine ⟨hwhole, hforward, fun p hp hentry => ?_, fun p hp hpassed hwrap q hq hentry => ?_⟩
    · obtain ⟨x, -, hx⟩ := Option.map_eq_some_iff.mp ((hr p).mpr ⟨hp, hentry⟩)
      rw [← hx]
      exact x.toNat_lt
    · have hvisits : Visits c buf id 0 p := by
        have h := visits_of_walk hp p.toNat_lt
        rwa [UInt32.ofNat_toNat] at h
      have hinside : (UInt32.ofNat (behind c buf p.toNat)).toNat < buf.length := by
        obtain heq | ⟨x, hx, -⟩ := hq.cases_head
        · have hle := hentry.le
          rw [heq]
          omega
        · have hle := hx.whole
          omega
      have hlink : EntryLink c buf id p (UInt32.ofNat (behind c buf p.toNat)) :=
        ⟨hpassed, (hwhole p hvisits).len_read hpassed.not_entry, rfl, hinside⟩
      have hfound := (loop_found hrun).mpr ⟨(hvisits.tail hlink).trans hq, hentry⟩
      have hwalk := ((hr q.toNat).mp (by rw [hfound, Option.map_some])).1
      exact not_wrapped hpassed hwrap hp hwalk hentry
  · intro h
    obtain ⟨fuel, r, hrun⟩ := hends.mpr ⟨h.forward, h.whole⟩
    refine ⟨fuel, r, hrun, fun pos => ⟨fun hpos => ?_, ?_⟩⟩
    · obtain ⟨q, hq, rfl⟩ := Option.map_eq_some_iff.mp hpos
      obtain ⟨hvisits, hentry⟩ := (loop_found hrun).mp hq
      refine ⟨?_, hentry⟩
      rcases walk_or_wraps hvisits with hwalk | ⟨p, hp, hpassed, hwrap, hway⟩
      · exact hwalk
      · exact absurd hentry (h.wrapped p hp hpassed hwrap q hway)
    · rintro ⟨hwalk, hentry⟩
      have hlow := h.low pos hwalk hentry
      have hback := toNat_ofNat hlow
      have hfound : r = some (UInt32.ofNat pos) :=
        (loop_found hrun).mpr ⟨visits_of_walk hwalk hlow, by rwa [hback]⟩
      rw [hfound, Option.map_some, hback]

/-! ## The names -/

variable {table : UInt32} {entries : List NameEntry}

theorem strlenAt_some {off : Nat} (h : (0 : UInt8) ∈ buf.drop off) :
    strlenAt buf off = some ((buf.drop off).takeWhile (· ≠ 0)).length := if_pos h

theorem strlenAt_none {off : Nat} (h : (0 : UInt8) ∉ buf.drop off) : strlenAt buf off = none :=
  if_neg h

/-- What a round reads is in the buffer. -/
def NameRead (buf : Bytes) (table p : UInt32) : Prop :=
  0 ∈ buf.drop (valAt table (p + 4)) ∧ table.toNat + 4 ≤ buf.length

theorem NameLink.read (h : NameLink c buf table p q) : NameRead buf table p := ⟨h.ended, h.whole⟩

/-- What a round does. -/
inductive NameStep (c : Config) (buf : Bytes) (table p : UInt32) :
    Option (Round UInt32 (List NameEntry)) → Prop
  | unread : ¬ NameRead buf table p → NameStep c buf table p none
  | last (entries : List NameEntry) : NameRead buf table p → (∀ q, ¬ NameLink c buf table p q) →
      NameStep c buf table p (some (.stop entries))
  | next {q : UInt32} (entries : List NameEntry) : NameLink c buf table p q →
      NameStep c buf table p (some (.next q entries))

theorem nameStep (c : Config) (buf : Bytes) (table p : UInt32) (entries : List NameEntry) :
    NameStep c buf table p (nameRound c buf table p entries) := by
  rw [nameRound]
  by_cases hname : (0 : UInt8) ∈ buf.drop (valAt table (p + 4))
  · rw [strlenAt_some hname, Option.bind_eq_bind, Option.bind_some]
    by_cases hlen : table.toNat + 4 ≤ buf.length
    · rw [headerLen_some hlen, Option.bind_some]
      dsimp only
      split
      · rename_i hgo
        exact .next _ ⟨rfl, hgo, hname, hlen⟩
      · rename_i hgo
        refine .last _ ⟨hname, hlen⟩ fun q hq => hgo ?_
        have hinside := hq.inside
        rwa [hq.next, nameLength] at hinside
    · rw [headerLen_none hlen]
      exact .unread fun h => hlen h.2
  · rw [strlenAt_none hname]
    exact .unread fun h => hname h.1

theorem follows_nameRound (c : Config) (buf : Bytes) (table : UInt32) :
    Follows (nameRound c buf table) (NameLink c buf table) (NameRead buf table) where
  safe := by
    intro p entries
    have hstep := nameStep c buf table p entries
    generalize nameRound c buf table p entries = r at hstep
    cases hstep with
    | unread hno => exact iff_of_false (fun h => by cases h) hno
    | last _ hread _ => exact iff_of_true rfl hread
    | next _ hlink => exact iff_of_true rfl hlink.read
  links := by
    intro p entries q entries' hround
    have hstep := nameStep c buf table p entries
    rw [hround] at hstep
    cases hstep with
    | next _ hlink => exact hlink
  stops := by
    intro p entries entries' hround
    have hstep := nameStep c buf table p entries
    rw [hround] at hstep
    cases hstep with
    | last _ _ hno => exact hno
  unique := by
    intro p q r hq hr
    rw [hq.next, hr.next]

/-- **When a name table is read in the buffer.** -/
theorem parseKeyNames_iff : NamesSound c buf table ↔ Named c buf table := by
  have hends := (follows_nameRound c buf table).ends_iff (finite_uint32 _) 0 []
  rw [NamesSound]
  refine hends.trans ⟨fun h => ?_, fun h => ⟨h.forward, fun p hp => ⟨h.ended p hp, h.whole⟩⟩⟩
  exact ⟨(h.2 0 .refl).2, fun p hp => (h.2 p hp).1, h.1⟩

/-- **When entries and names are found** as the walk says, in the buffer. -/
theorem tffs_iff (c : Config) (buf : Bytes) (id : Nat) : Sound c buf id ↔ Fits c buf id := by
  constructor
  · intro h
    refine ⟨findEntry_sound_iff.mp h.find, fun table hvisits hentry => ?_⟩
    obtain ⟨fuel, hfound⟩ := findEntry_found_iff.mpr ⟨hvisits, hentry⟩
    exact parseKeyNames_iff.mp (h.names fuel table hfound)
  · intro h
    refine ⟨findEntry_sound_iff.mpr h.walkable, fun fuel table hfound => ?_⟩
    obtain ⟨hvisits, hentry⟩ := findEntry_found_iff.mp ⟨fuel, hfound⟩
    exact parseKeyNames_iff.mpr (h.named table hvisits hentry)

/-! ## Contents that lead out of the buffer -/

def plain : Config := ⟨.little, false⟩

/-- An empty entry, and one byte behind it. -/
def straddling : Bytes := [1, 0, 0, 0, 0]

/-- A name table whose name goes on to the end. -/
def unterminated : Bytes := [0xff, 1, 8, 0, 2, 0, 0, 0, 97, 98, 99, 100]

theorem tffs_outside : ¬ Sound plain straddling 2 ∧ ¬ Sound plain unterminated idTableName := by
  constructor
  · intro h
    obtain ⟨fuel, r, hrun, -⟩ := h.find
    -- the second header is not whole
    have hout (fuel : Nat) : findEntry plain straddling fuel 2 = none := by
      cases fuel with
      | zero => rfl
      | succ fuel => cases fuel <;> rfl
    rw [hout] at hrun
    cases hrun
  · intro h
    obtain ⟨fuel, entries, hrun⟩ := h.names 1 0 rfl
    have hout (fuel : Nat) : parseKeyNames plain unterminated fuel 0 = none := by
      cases fuel <;> rfl
    rw [hout] at hrun
    cases hrun

end

end UolaOs.Tffs.Flat
