import UolaOs.Lib.Buffer
import UolaOs.Lib.Loop

/-!
# RouterBOOT tags

The tag lookup of routerboot.c on memory of which the buffer is a part:

* `nodes`: the list of the nodes, each payload rounded up to a word;
* `Next`: how the loop goes on, with a payload of more than 65532 bytes taken for an empty one;
* `routerbootTagFind_iff`: when the lookup stays in the buffer and is right about the payload.
-/

namespace UolaOs.Rb

/-- How the routines go wrong. -/
inductive Fault where
  /-- An access outside of the memory. -/
  | outside
  /-- A length that wrapped around. -/
  | wrapped
  /-- An `int` that overflowed. -/
  | overflow
  deriving DecidableEq

section
variable (e : Endian) (mem : Bytes)

/-! ## Nodes -/

def nodeAt (p : Nat) : UInt32 := UInt32.ofNat (e.get (load mem p 4))

/-- The low half of a node. -/
def nodeId (node : UInt32) : UInt16 := (node &&& 0xffff).toUInt16

/-- The high half of a node. -/
def nodeLen (node : UInt32) : UInt16 := (node >>> 16).toUInt16

/-- `ALIGN(len, sizeof(*datum))` in 16 bits -/
def alignLen (len : UInt16) : UInt16 := UInt16.ofNat (roundUp len.toNat 4)

/-- A node and where its payload starts. -/
structure Node where
  ofs : Nat
  id : UInt16
  len : UInt16
  deriving DecidableEq

/-- The nodes from a position on, up to a null node or the end. -/
def nodes (p : Nat) : List Node :=
  if p + 4 ≤ mem.length then
    let node := nodeAt e mem p
    if node = 0 then []
    else ⟨p + 4, nodeId node, nodeLen node⟩ :: nodes (p + 4 + roundUp (nodeLen node).toNat 4)
  else []
termination_by mem.length - p

/-! ## The lookup -/

/-- The loop of `routerboot_tag_find` between two addresses. -/
def tagLoop (bufhead bufend : Nat) (tag_id : UInt16) (datum : Nat) :
    Except Fault (Except Int (UInt16 × UInt16)) :=
  if datum < bufend then do
    let bs ← fetch Fault.outside mem datum 4
    let node := UInt32.ofNat (e.get bs)
    if node = 0 then .ok (.error (-2))
    else if tag_id = nodeId node then
      if datum + 4 < bufend then
        .ok (.ok (UInt16.ofNat (datum + 4 - bufhead), nodeLen node))
      else .ok (.error (-2))
    else tagLoop bufhead bufend tag_id (datum + 4 + (alignLen (nodeLen node)).toNat)
  else .ok (.error (-2))
termination_by bufend - datum

/-- `routerboot_tag_find` with the offset and the length of the payload. -/
def routerbootTagFind (bufhead buflen : Nat) (tag_id : UInt16) :
    Except Fault (Except Int (UInt16 × UInt16)) :=
  if tag_id = 0 then .ok (.error (-22))
  else tagLoop e mem bufhead (bufhead + buflen) tag_id bufhead

/-! ## How the loop goes on -/

/-- The loop goes on from one node to another. -/
structure Next (bufend : Nat) (tag_id : UInt16) (p q : Nat) : Prop where
  before : p < bufend
  fits : p + 4 ≤ mem.length
  node : nodeAt e mem p ≠ 0
  other : tag_id ≠ nodeId (nodeAt e mem p)
  next : q = p + 4 + (alignLen (nodeLen (nodeAt e mem p))).toNat

/-- The positions that the loop comes to. -/
abbrev Visits (bufend : Nat) (tag_id : UInt16) : Nat → Nat → Prop :=
  Relation.ReflTransGen (Next e mem bufend tag_id)

/-- The tag, with something behind it. -/
structure IsTag (bufend : Nat) (tag_id : UInt16) (p : Nat) : Prop where
  before : p + 4 < bufend
  fits : p + 4 ≤ mem.length
  node : nodeAt e mem p ≠ 0
  id : tag_id = nodeId (nodeAt e mem p)

end

section
variable {e : Endian} {mem : Bytes} {bufhead bufend : Nat} {tag_id : UInt16} {p q : Nat}

theorem Next.lt (h : Next e mem bufend tag_id p q) : p < q := by
  have := h.next
  omega

theorem visits_le (h : Visits e mem bufend tag_id p q) : p ≤ q := by
  induction h with
  | refl => exact Nat.le_refl _
  | tail _ hlink ih => exact ih.trans hlink.lt.le

theorem next_rightUnique : Relator.RightUnique (Next e mem bufend tag_id) := by
  intro p q r hq hr
  rw [hq.next, hr.next]

theorem next_ends (p : Nat) : Ends (Next e mem bufend tag_id) p := by
  induction hn : bufend - p using Nat.strongRecOn generalizing p with
  | ind n ih =>
    refine ⟨p, fun q hpq => ih (bufend - q) ?_ q rfl⟩
    have := hpq.lt
    have := hpq.before
    omega

theorem IsTag.not_next (h : IsTag e mem bufend tag_id p) (q : Nat) :
    ¬ Next e mem bufend tag_id p q := fun hpq => hpq.other h.id

/-! ## The loop -/

theorem tagLoop_next (h : Next e mem bufend tag_id p q) :
    tagLoop e mem bufhead bufend tag_id p = tagLoop e mem bufhead bufend tag_id q := by
  rw [tagLoop, if_pos h.before, fetch_eq h.fits, ok_bind]
  dsimp only
  rw [← nodeAt, if_neg h.node, if_neg h.other, ← h.next]

theorem tagLoop_visits (h : Visits e mem bufend tag_id p q) :
    tagLoop e mem bufhead bufend tag_id p = tagLoop e mem bufhead bufend tag_id q := by
  induction h with
  | refl => rfl
  | tail _ hlink ih => rw [ih, tagLoop_next hlink]

theorem tagLoop_outside (hp : p < bufend) (hout : mem.length < p + 4) :
    tagLoop e mem bufhead bufend tag_id p = .error .outside := by
  rw [tagLoop, if_pos hp, fetch, if_neg (by decide), if_neg (Nat.not_le.mpr hout)]
  rfl

theorem IsTag.tagLoop (h : IsTag e mem bufend tag_id p) :
    tagLoop e mem bufhead bufend tag_id p =
      .ok (.ok (UInt16.ofNat (p + 4 - bufhead), nodeLen (nodeAt e mem p))) := by
  rw [Rb.tagLoop, if_pos (by have := h.before; omega), fetch_eq h.fits, ok_bind]
  dsimp only
  rw [← nodeAt, if_neg h.node, if_pos h.id, if_pos h.before]

/-- What the loop does where it does not go on. -/
theorem tagLoop_stop (bufhead : Nat) (hstop : ∀ q, ¬ Next e mem bufend tag_id p q) :
    (p < bufend ∧ mem.length < p + 4) ∨ IsTag e mem bufend tag_id p ∨
      tagLoop e mem bufhead bufend tag_id p = .ok (.error (-2)) := by
  by_cases hp : p < bufend
  · by_cases hfits : p + 4 ≤ mem.length
    · right
      by_cases hnode : nodeAt e mem p = 0
      · right
        rw [tagLoop, if_pos hp, fetch_eq hfits, ok_bind]
        dsimp only
        rw [← nodeAt, if_pos hnode]
      · by_cases hid : tag_id = nodeId (nodeAt e mem p)
        · by_cases hlast : p + 4 < bufend
          · exact .inl ⟨hlast, hfits, hnode, hid⟩
          · right
            rw [tagLoop, if_pos hp, fetch_eq hfits, ok_bind]
            dsimp only
            rw [← nodeAt, if_neg hnode, if_pos hid, if_neg hlast]
        · exact absurd ⟨hp, hfits, hnode, hid, rfl⟩ (hstop _)
    · exact .inl ⟨hp, Nat.lt_of_not_le hfits⟩
  · right; right
    rw [tagLoop, if_neg hp]

/-- How the loop ends. -/
theorem tagLoop_cases (e : Endian) (mem : Bytes) (bufhead bufend : Nat) (tag_id : UInt16) (d :
    Nat) :
    (∃ p, Visits e mem bufend tag_id d p ∧ p < bufend ∧ mem.length < p + 4 ∧
      tagLoop e mem bufhead bufend tag_id d = .error .outside) ∨
    (∃ p, Visits e mem bufend tag_id d p ∧ IsTag e mem bufend tag_id p ∧
      tagLoop e mem bufhead bufend tag_id d =
        .ok (.ok (UInt16.ofNat (p + 4 - bufhead), nodeLen (nodeAt e mem p)))) ∨
    tagLoop e mem bufhead bufend tag_id d = .ok (.error (-2)) := by
  have hends : Ends (Next e mem bufend tag_id) d := next_ends d
  obtain ⟨p, hdp, hstop⟩ := hends.exists_stop
  rcases tagLoop_stop bufhead hstop with ⟨hp, hout⟩ | htag | hnone
  · exact .inl ⟨p, hdp, hp, hout, (tagLoop_visits hdp).trans (tagLoop_outside hp hout)⟩
  · exact .inr (.inl ⟨p, hdp, htag, (tagLoop_visits hdp).trans htag.tagLoop⟩)
  · exact .inr (.inr ((tagLoop_visits hdp).trans hnone))

/-- The loop reads outside of the memory where it comes to a word that is cut off. -/
theorem tagLoop_outside_iff {d : Nat} :
    tagLoop e mem bufhead bufend tag_id d = .error .outside ↔
      ∃ p, Visits e mem bufend tag_id d p ∧ p < bufend ∧ mem.length < p + 4 := by
  constructor
  · intro h
    rcases tagLoop_cases e mem bufhead bufend tag_id d with
      ⟨p, hdp, hp, hout, -⟩ | ⟨p, -, -, heq⟩ | heq
    · exact ⟨p, hdp, hp, hout⟩
    · cases heq.symm.trans h
    · cases heq.symm.trans h
  · rintro ⟨p, hdp, hp, hout⟩
    exact (tagLoop_visits hdp).trans (tagLoop_outside hp hout)

theorem tagLoop_found_iff {d : Nat} {ofs len : UInt16} :
    tagLoop e mem bufhead bufend tag_id d = .ok (.ok (ofs, len)) ↔
      ∃ p, Visits e mem bufend tag_id d p ∧ IsTag e mem bufend tag_id p ∧
        ofs = UInt16.ofNat (p + 4 - bufhead) ∧ len = nodeLen (nodeAt e mem p) := by
  constructor
  · intro h
    rcases tagLoop_cases e mem bufhead bufend tag_id d with
      ⟨p, -, -, -, heq⟩ | ⟨p, hdp, htag, heq⟩ | heq
    · cases heq.symm.trans h
    · cases heq.symm.trans h
      exact ⟨p, hdp, htag, rfl, rfl⟩
    · cases heq.symm.trans h
  · rintro ⟨p, hdp, htag, rfl, rfl⟩
    exact (tagLoop_visits hdp).trans htag.tagLoop

/-! ## The list -/

theorem nodes_cons (hfits : p + 4 ≤ mem.length) (hnode : nodeAt e mem p ≠ 0) :
    nodes e mem p = ⟨p + 4, nodeId (nodeAt e mem p), nodeLen (nodeAt e mem p)⟩ ::
      nodes e mem (p + 4 + roundUp (nodeLen (nodeAt e mem p)).toNat 4) := by
  rw [nodes, if_pos hfits]
  exact if_neg hnode

theorem le_ofs {n : Node} (h : n ∈ nodes e mem p) : p + 4 ≤ n.ofs := by
  induction p using nodes.induct e mem with
  | case1 p hfits node hnull =>
    rw [nodes, if_pos hfits] at h
    simp only [node] at hnull
    simp [hnull] at h
  | case2 p hfits node hnode ih =>
    rw [nodes_cons hfits hnode] at h
    rcases List.mem_cons.mp h with rfl | h
    · exact Nat.le_refl _
    · have := ih h
      omega
  | case3 p hfits =>
    rw [nodes, if_neg hfits] at h
    cases h

/-- The first node with an id. -/
def firstTag (e : Endian) (mem : Bytes) (tag_id : UInt16) (p : Nat) : Option Node :=
  (nodes e mem p).find? fun n => n.id = tag_id

theorem Next.firstTag (h : Next e mem bufend tag_id p q) :
    firstTag e mem tag_id p =
      firstTag e mem tag_id (p + 4 + roundUp (nodeLen (nodeAt e mem p)).toNat 4) := by
  rw [Rb.firstTag, nodes_cons h.fits h.node, List.find?_cons_of_neg (by simpa using h.other.symm)]
  rfl

theorem IsTag.firstTag (h : IsTag e mem bufend tag_id p) :
    firstTag e mem tag_id p = some ⟨p + 4, tag_id, nodeLen (nodeAt e mem p)⟩ := by
  rw [Rb.firstTag, nodes_cons h.fits h.node, List.find?_cons_of_pos (by simp [h.id]), h.id]

theorem alignLen_of_le {len : UInt16} (h : len.toNat ≤ 65532) :
    (alignLen len).toNat = roundUp len.toNat 4 := by
  have hle : roundUp len.toNat 4 ≤ 65532 := (roundUp_le_iff (by decide) (by decide)).mpr h
  exact UInt16.toNat_ofNat_of_lt' (by rw [UInt16.size]; omega)

theorem Next.firstTag_of_le (h : Next e mem bufend tag_id p q)
    (hlen : (nodeLen (nodeAt e mem p)).toNat ≤ 65532) :
    Rb.firstTag e mem tag_id p = Rb.firstTag e mem tag_id q := by
  rw [h.firstTag, ← alignLen_of_le hlen, ← h.next]

/-- Behind a payload of more than 65532 bytes no node is within 16 bits. -/
theorem Next.firstTag_far (h : Next e mem bufend tag_id p q)
    (hlen : 65532 < (nodeLen (nodeAt e mem p)).toNat) {n : Node}
    (hn : Rb.firstTag e mem tag_id p = some n) : 65536 ≤ n.ofs := by
  rw [h.firstTag] at hn
  have hofs := le_ofs (List.mem_of_find?_eq_some hn)
  have := le_roundUp (nodeLen (nodeAt e mem p)).toNat (y := 4) (by decide)
  omega

/-- The list agrees with the loop where no such payload stands before the tag. -/
theorem firstTag_visits (h : Visits e mem bufend tag_id p q)
    (hlen : ∀ r, Visits e mem bufend tag_id p r → r ≠ q →
      (nodeLen (nodeAt e mem r)).toNat ≤ 65532) :
    firstTag e mem tag_id p = firstTag e mem tag_id q := by
  induction h using Relation.ReflTransGen.head_induction_on with
  | refl => rfl
  | @head p s hps hsq ih =>
    have hpq : p ≠ q := by
      rintro rfl
      exact absurd hps.lt (Nat.not_lt.mpr (visits_le hsq))
    rw [hps.firstTag_of_le (hlen p .refl hpq), ih fun r hsr => hlen r (.head hps hsr)]

/-- Where the list has a node within 16 bits, no such payload stands before the tag. -/
theorem le_of_firstTag (h : Visits e mem bufend tag_id p q) (htag : IsTag e mem bufend tag_id q)
    {n : Node} (hn : firstTag e mem tag_id p = some n) (hofs : n.ofs < 65536) {r : Nat}
    (hr : Visits e mem bufend tag_id p r) (hrq : r ≠ q) :
    (nodeLen (nodeAt e mem r)).toNat ≤ 65532 := by
  induction h using Relation.ReflTransGen.head_induction_on with
  | refl =>
    obtain rfl | ⟨s, hqs, -⟩ := hr.cases_head
    · exact absurd rfl hrq
    · exact absurd hqs (htag.not_next s)
  | @head p s hps hsq ih =>
    have hlen : (nodeLen (nodeAt e mem p)).toNat ≤ 65532 := by
      by_contra hlen
      have := hps.firstTag_far (Nat.lt_of_not_le hlen) hn
      omega
    obtain rfl | ⟨t, hpt, htr⟩ := hr.cases_head
    · exact hlen
    · obtain rfl := next_rightUnique hps hpt
      exact ih ((hps.firstTag_of_le hlen).symm.trans hn) htr

end

/-! ## Lookups in a buffer -/

section
variable (e : Endian) (buf : Bytes) (tag_id : UInt16)

/-- The lookup stays in the buffer, and what it reports is the payload of the first node with the
id, all of it in the buffer. -/
structure TagSound : Prop where
  inside : routerbootTagFind e buf 0 buf.length tag_id ≠ .error .outside
  payload : ∀ ofs len : UInt16,
    routerbootTagFind e buf 0 buf.length tag_id = .ok (.ok (ofs, len)) →
      ofs.toNat + len.toNat ≤ buf.length ∧
        firstTag e buf tag_id 0 = some ⟨ofs.toNat, tag_id, len⟩

/-- No word is cut off on the way. The payload of the tag begins within 16 bits and is all there,
and no payload of more than 65532 bytes stands before it. -/
structure TagFits : Prop where
  whole : ∀ p, Visits e buf buf.length tag_id 0 p → p < buf.length → p + 4 ≤ buf.length
  payload : ∀ p, Visits e buf buf.length tag_id 0 p → IsTag e buf buf.length tag_id p →
    p + 4 < 65536 ∧ p + 4 + (nodeLen (nodeAt e buf p)).toNat ≤ buf.length ∧
      ∀ q, Visits e buf buf.length tag_id 0 q → q ≠ p →
        (nodeLen (nodeAt e buf q)).toNat ≤ 65532

variable {e buf tag_id}

theorem routerbootTagFind_eq (hid : tag_id ≠ 0) :
    routerbootTagFind e buf 0 buf.length tag_id = tagLoop e buf 0 buf.length tag_id 0 := by
  rw [routerbootTagFind, if_neg hid, Nat.zero_add]

theorem TagFits.sound (hid : tag_id ≠ 0) (h : TagFits e buf tag_id) : TagSound e buf tag_id where
  inside := by
    rw [routerbootTagFind_eq hid]
    intro hout
    obtain ⟨p, hp, hlt, hcut⟩ := tagLoop_outside_iff.mp hout
    have := h.whole p hp hlt
    omega
  payload := by
    intro ofs len hfound
    rw [routerbootTagFind_eq hid] at hfound
    obtain ⟨p, hp, htag, rfl, rfl⟩ := tagLoop_found_iff.mp hfound
    obtain ⟨hofs, hlen, hbefore⟩ := h.payload p hp htag
    have hnat : (UInt16.ofNat (p + 4 - 0)).toNat = p + 4 := UInt16.toNat_ofNat_of_lt' hofs
    rw [hnat]
    exact ⟨hlen, (firstTag_visits hp hbefore).trans htag.firstTag⟩

theorem TagSound.fits (hid : tag_id ≠ 0) (h : TagSound e buf tag_id) : TagFits e buf tag_id where
  whole := by
    intro p hp hlt
    by_contra hcut
    apply h.inside
    rw [routerbootTagFind_eq hid]
    exact tagLoop_outside_iff.mpr ⟨p, hp, hlt, Nat.lt_of_not_le hcut⟩
  payload := by
    intro p hp htag
    have hfound : routerbootTagFind e buf 0 buf.length tag_id =
        .ok (.ok (UInt16.ofNat (p + 4 - 0), nodeLen (nodeAt e buf p))) := by
      rw [routerbootTagFind_eq hid]
      exact tagLoop_found_iff.mpr ⟨p, hp, htag, rfl, rfl⟩
    obtain ⟨hlen, hfirst⟩ := h.payload _ _ hfound
    have hbefore {q : Nat} (hq : Visits e buf buf.length tag_id 0 q) (hqp : q ≠ p) :=
      le_of_firstTag hp htag hfirst (UInt16.toNat_lt _) hq hqp
    -- so the node of the list is the tag of the loop
    have hsame := (firstTag_visits hp fun q => hbefore).trans htag.firstTag
    have hofs : (UInt16.ofNat (p + 4 - 0)).toNat = p + 4 :=
      congrArg Node.ofs (Option.some.inj (hfirst.symm.trans hsame))
    rw [hofs] at hlen
    exact ⟨hofs ▸ UInt16.toNat_lt _, hlen, fun q => hbefore⟩

/-- **Lookups.** The lookup of a tag is right exactly when the nodes on the way to it, and its
payload, fit. -/
theorem routerbootTagFind_iff : TagSound e buf tag_id ↔ tag_id = 0 ∨ TagFits e buf tag_id := by
  by_cases hid : tag_id = 0
  · refine iff_of_true ⟨?_, ?_⟩ (.inl hid)
    · rw [routerbootTagFind, if_pos hid]
      intro hout
      cases hout
    · intro ofs len hfound
      rw [routerbootTagFind, if_pos hid] at hfound
      cases hfound
  · exact ⟨fun h => .inr (h.fits hid), fun h => (h.resolve_left hid).sound hid⟩

/-- The payload of the only node is said to be longer than the buffer. -/
theorem routerbootTagFind_long :
    ¬ TagSound .little [0x16, 0x00, 0x08, 0x00, 0xaa, 0xbb, 0xcc, 0xdd] 0x16 := by
  intro h
  have hfound : routerbootTagFind .little [0x16, 0x00, 0x08, 0x00, 0xaa, 0xbb, 0xcc, 0xdd] 0 8 0x16
      = .ok (.ok (4, 8)) := by
    decide +kernel
  exact absurd (h.payload 4 8 hfound).1 (by decide)

end

end UolaOs.Rb
