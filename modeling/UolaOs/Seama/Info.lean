import UolaOs.Lib.Loop
import UolaOs.Seama.Oseama

/-!
# What the tool shows

`oseama info` of oseama.c. An access outside of the buffer for meta data is a failure.

* `showMeta_isSome`: meta data is shown within the buffer when there is some;
* `oseamaInfo_ends_iff`: when the tool comes to an end without a failure.
-/

namespace UolaOs.Seama

/-- The return value of `oseama_info`. -/
inductive InfoErr where
  | ok
  | eacces
  | eio
  | einval
  deriving DecidableEq

/-- A line of the output. -/
inductive Line where
  | empty
  | entityOffset (n : Nat)
  | entitySize (n : Nat)
  | metaSize (n : Nat)
  | imageSize (n : Nat)
  | metaEntry (text : Bytes)
  deriving DecidableEq

/-- `sizeof(buf)` -/
def bufSize : Nat := 1024

/-! ## Meta data -/

/-- `buf[i] = b` -/
def setByte (buf : Bytes) (i : Int) (b : UInt8) : Option Bytes :=
  if 0 ≤ i ∧ i < buf.length then some (buf.set i.toNat b) else none

/-- `fread` to the front of the buffer. -/
def fill (buf bs : Bytes) : Option Bytes :=
  if bs.length ≤ buf.length then some (poke buf 0 bs) else none

/-- `strlen` from `p` on; it has to come to its end in the buffer. -/
def strlenAt (buf : Bytes) (p : Nat) : Option Nat := (buf.drop p).idxOf? 0

/-- A round of the loop over the entries of the meta data. -/
def metaRound (buf : Bytes) (stop tmp : Nat) (out : List Line) :
    Option (Round Nat (List Line)) :=
  if stop ≤ tmp then some (.stop out)
  else
    match strlenAt buf tmp with
    | none => none
    | some n =>
      if n = 0 then some (.stop out)
      else some (.next (tmp + n + 1) (out ++ [.metaEntry (load buf tmp n)]))

/-- Show the meta data `bs` in a buffer with any contents. A round takes a byte at least. -/
def showMeta (mem : Nat → UInt8) (bs : Bytes) (out : List Line) : Option (List Line) := do
  let buf ← fill ((List.range bufSize).map mem) bs
  let buf ← setByte buf ((bs.length : Int) - 1) 0
  loop (metaRound buf (bs.length - 1)) (bufSize + 1) 0 out

/-! ## Entities -/

/-- What is printed about an entity at `pos`. -/
def entityLines (entityIdx : Int) (pos : Nat) (hdr : Bytes) : List Line :=
  (if entityIdx < 0 then [.empty] else []) ++
    [.entityOffset pos, .entitySize (entityHeaderSize + metasize hdr + imagesize hdr),
      .metaSize (metasize hdr), .imageSize (imagesize hdr)]

/-- A round of `oseama_info_entities` at the position `a.1` of the file, where `i` is `a.2`. -/
def entityRound (entityIdx : Int) (mem : Nat → UInt8) (file : Bytes) (a : Nat × Nat)
    (out : List Line) : Option (Round (Nat × Nat) (List Line)) :=
  let hdr := load file a.1 entityHeaderSize
  let next := (a.1 + entityHeaderSize + metasize hdr + imagesize hdr, a.2 + 1)
  if hdr.length ≠ entityHeaderSize then some (.stop out)
  else if magic hdr ≠ seamaMagic then some (.stop out)
  else if 0 ≤ entityIdx ∧ (a.2 : Int) ≠ entityIdx then some (.next next out)
  else if bufSize ≤ metasize hdr then some (.stop out)
  else
    let bs := load file (a.1 + entityHeaderSize) (metasize hdr)
    if bs.length ≠ metasize hdr then some (.stop (out ++ entityLines entityIdx a.1 hdr))
    else (showMeta mem bs (out ++ entityLines entityIdx a.1 hdr)).map (.next next)

/-- `oseama_info_entities`: what is printed. Its return value is not looked at. -/
def oseamaInfoEntities (fuel : Nat) (entityIdx : Int) (mem : Nat → UInt8) (file : Bytes) (pos : Nat)
    (out : List Line) : Option (List Line) :=
  loop (entityRound entityIdx mem file) fuel (pos, 0) out

/-- What is printed about the seal. -/
def sealLines (entityIdx : Int) (sealMem : Nat → UInt8) (file : Bytes) : Option (List Line) :=
  let hdr := load file 0 sealHeaderSize
  if entityIdx < 0 then
    showMeta sealMem (load file sealHeaderSize (metasize hdr))
      [.metaSize (metasize hdr), .imageSize (imagesize hdr)]
  else some []

/-- `oseama_info` behind the checks. -/
def oseamaInfoRest (fuel : Nat) (entityIdx : Int) (sealMem mem : Nat → UInt8) (file : Bytes) :
    Option (InfoErr × List Line) := do
  let out ← sealLines entityIdx sealMem file
  let out ← oseamaInfoEntities fuel entityIdx mem file
    (sealHeaderSize + metasize (load file 0 sealHeaderSize)) out
  return (.ok, out)

/-- `oseama_info` on a file, or on none that can be opened; `sealMem` and `mem` are what its buffer
and that of the loop hold before. -/
def oseamaInfo (fuel : Nat) (entityIdx : Int) (sealMem mem : Nat → UInt8) :
    Option Bytes → Option (InfoErr × List Line)
  | none => some (.eacces, [])
  | some file =>
    let hdr := load file 0 sealHeaderSize
    if hdr.length ≠ sealHeaderSize then some (.eio, [])
    else if magic hdr ≠ seamaMagic then some (.einval, [])
    else if bufSize ≤ metasize hdr then some (.einval, [])
    else if imagesize hdr ≠ 0 then some (.einval, [])
    else
      let bs := load file sealHeaderSize (metasize hdr)
      if bs.length ≠ metasize hdr then some (.eio, [])
      else oseamaInfoRest fuel entityIdx sealMem mem file

/-! ## The walk over the entries -/

section
variable {buf bs : Bytes} {p n stop tmp fuel : Nat} {out : List Line} {mem : Nat → UInt8}

theorem strlenAt_isSome (hzero : buf[stop]? = some 0) (h : p ≤ stop) :
    ∃ n, strlenAt buf p = some n := by
  rw [← Option.isSome_iff_exists, strlenAt, List.isSome_idxOf?]
  refine List.mem_of_getElem? (i := stop - p) ?_
  rw [List.getElem?_drop, Nat.add_sub_cancel' h, hzero]

/-- **The walk.** It comes to its end in front of the terminator at `stop`, and a round takes a byte
at least. -/
theorem metaLoop_isSome (hzero : buf[stop]? = some 0) (hfuel : stop < fuel + tmp) (hpos : 0 < fuel) :
    ∃ t, loop (metaRound buf stop) fuel tmp out = some t := by
  induction fuel generalizing tmp out with
  | zero => exact absurd hpos (Nat.lt_irrefl 0)
  | succ fuel ih =>
    rw [loop, metaRound]
    by_cases hstop : stop ≤ tmp
    · rw [if_pos hstop]
      exact ⟨out, rfl⟩
    · obtain ⟨n, hn⟩ := strlenAt_isSome hzero (Nat.le_of_not_le hstop)
      rw [if_neg hstop, hn]
      dsimp only
      by_cases hempty : n = 0
      · rw [if_pos hempty]
        exact ⟨out, rfl⟩
      · rw [if_neg hempty]
        exact ih (by omega) (by omega)

theorem setByte_eq {i : Nat} (h : i < buf.length) (b : UInt8) :
    setByte buf i b = some (buf.set i b) := by
  rw [setByte, if_pos ⟨Int.natCast_nonneg i, Int.ofNat_lt.mpr h⟩, Int.toNat_natCast]

/-- **Meta data.** It is shown within the buffer unless it is empty. -/
theorem showMeta_isSome (mem : Nat → UInt8) (out : List Line) (h : bs.length < bufSize) :
    (∃ t, showMeta mem bs out = some t) ↔ bs ≠ [] := by
  have hlen : ((List.range bufSize).map mem).length = bufSize := by
    rw [List.length_map, List.length_range]
  have hfill : fill ((List.range bufSize).map mem) bs =
      some (poke ((List.range bufSize).map mem) 0 bs) :=
    if_pos (by rw [hlen]; exact Nat.le_of_lt h)
  rw [showMeta, hfill]
  generalize hbuf : poke ((List.range bufSize).map mem) 0 bs = buf
  have hbufLen : buf.length = bufSize := by rw [← hbuf, length_poke, hlen]
  cases bs with
  | nil =>
    refine ⟨fun ⟨t, ht⟩ => ?_, fun hne => absurd rfl hne⟩
    cases ht
  | cons b bs =>
    rw [List.length_cons] at h
    refine ⟨fun _ => List.cons_ne_nil b bs, fun _ => ?_⟩
    have hindex : ((b :: bs).length : Int) - 1 = (bs.length : Nat) := by
      rw [List.length_cons]
      omega
    have hset : setByte buf (bs.length : Nat) 0 = some (buf.set bs.length 0) :=
      setByte_eq (by omega) 0
    rw [hindex, Option.bind_eq_bind, Option.bind_some, hset, Option.bind_some]
    exact metaLoop_isSome (List.getElem?_set_self (by omega)) (by omega) (Nat.succ_pos _)

end

/-! ## The walk over the entities -/

/-- There is an entity at `pos`. -/
structure IsEntity (file : Bytes) (pos : Nat) : Prop where
  header : pos + entityHeaderSize ≤ file.length
  magic : magic (load file pos entityHeaderSize) = seamaMagic

/-- The lengths of the entity at `pos`. -/
def metaSizeAt (file : Bytes) (pos : Nat) : Nat := metasize (load file pos entityHeaderSize)
def imageSizeAt (file : Bytes) (pos : Nat) : Nat := imagesize (load file pos entityHeaderSize)

/-- The entity with the index `i` is to be shown. -/
def Shown (entityIdx : Int) (i : Nat) : Prop := entityIdx < 0 ∨ (i : Int) = entityIdx

/-- The loop goes on from the entity at `a` to `b`. -/
structure EntityLink (entityIdx : Int) (file : Bytes) (a b : Nat × Nat) : Prop where
  entity : IsEntity file a.1
  next : b = (a.1 + entityHeaderSize + metaSizeAt file a.1 + imageSizeAt file a.1, a.2 + 1)
  read : Shown entityIdx a.2 → metaSizeAt file a.1 < bufSize ∧
    a.1 + entityHeaderSize + metaSizeAt file a.1 ≤ file.length

/-- An entity that is shown has meta data. -/
def EntitySound (entityIdx : Int) (file : Bytes) (a : Nat × Nat) : Prop :=
  IsEntity file a.1 → Shown entityIdx a.2 → metaSizeAt file a.1 ≠ 0

section
variable {entityIdx : Int} {file : Bytes} {a b : Nat × Nat} {mem : Nat → UInt8}
  {out t : List Line}

theorem length_load_iff {pos n : Nat} (h : 0 < n ∨ pos ≤ file.length) :
    (load file pos n).length = n ↔ pos + n ≤ file.length := by
  rw [load, List.length_take, List.length_drop]
  omega

theorem shown_iff {i : Nat} : Shown entityIdx i ↔ ¬ (0 ≤ entityIdx ∧ (i : Int) ≠ entityIdx) := by
  rw [Shown]
  omega

theorem EntityLink.lt (h : EntityLink entityIdx file a b) : a.1 < b.1 ∧ a.1 < file.length := by
  have hheader := h.entity.header
  have hpos : 0 < entityHeaderSize := by decide
  rw [h.next]
  dsimp only
  omega

/-- The position moves on, and not beyond the end of the file. -/
theorem entities_end (entityIdx : Int) (file : Bytes) (a : Nat × Nat) :
    Ends (EntityLink entityIdx file) a := by
  induction hn : file.length - a.1 using Nat.strong_induction_on generalizing a with
  | _ n ih =>
    refine ⟨_, fun b hab => ?_⟩
    obtain ⟨hlt, hin⟩ := hab.lt
    exact ih _ (by omega) b rfl

/-- What a round does at an entity. -/
theorem entityRound_entity (h : IsEntity file a.1) :
    entityRound entityIdx mem file a out =
      if 0 ≤ entityIdx ∧ (a.2 : Int) ≠ entityIdx then
        some (.next (a.1 + entityHeaderSize + metaSizeAt file a.1 + imageSizeAt file a.1, a.2 + 1)
          out)
      else if bufSize ≤ metaSizeAt file a.1 then some (.stop out)
      else
        let bs := load file (a.1 + entityHeaderSize) (metaSizeAt file a.1)
        let out := out ++ entityLines entityIdx a.1 (load file a.1 entityHeaderSize)
        if bs.length ≠ metaSizeAt file a.1 then some (.stop out)
        else (showMeta mem bs out).map (.next
          (a.1 + entityHeaderSize + metaSizeAt file a.1 + imageSizeAt file a.1, a.2 + 1)) := by
  have hlen := (length_load_iff (.inl (by decide))).mpr h.header
  rw [entityRound]
  dsimp only
  rw [if_neg (not_not.mpr hlen), if_neg (not_not.mpr h.magic)]
  rfl

theorem entityRound_none (h : ¬ IsEntity file a.1) :
    entityRound entityIdx mem file a out = some (.stop out) := by
  rw [entityRound]
  dsimp only
  by_cases hlen : (load file a.1 entityHeaderSize).length = entityHeaderSize
  · have hmagic : magic (load file a.1 entityHeaderSize) ≠ seamaMagic := fun hmagic =>
      h ⟨(length_load_iff (.inl (by decide))).mp hlen, hmagic⟩
    rw [if_neg (not_not.mpr hlen), if_pos hmagic]
  · rw [if_pos hlen]

/-- A round goes on, stops, or fails, as the entity says. -/
theorem entityRound_spec (entityIdx : Int) (mem : Nat → UInt8) (file : Bytes) (a : Nat × Nat)
    (out : List Line) :
    (∃ b t, entityRound entityIdx mem file a out = some (.next b t) ∧
        EntityLink entityIdx file a b ∧ EntitySound entityIdx file a) ∨
      (∃ t, entityRound entityIdx mem file a out = some (.stop t) ∧
        (∀ b, ¬ EntityLink entityIdx file a b) ∧ EntitySound entityIdx file a) ∨
      (entityRound entityIdx mem file a out = none ∧ ¬ EntitySound entityIdx file a) := by
  by_cases hentity : IsEntity file a.1
  swap
  · exact .inr (.inl ⟨out, entityRound_none hentity, fun b hab => hentity hab.entity,
      fun h => absurd h hentity⟩)
  rw [entityRound_entity hentity]
  by_cases hskip : 0 ≤ entityIdx ∧ (a.2 : Int) ≠ entityIdx
  · have hnot : ¬ Shown entityIdx a.2 := fun h => shown_iff.mp h hskip
    rw [if_pos hskip]
    exact .inl ⟨_, out, rfl, ⟨hentity, rfl, fun h => absurd h hnot⟩, fun _ h => absurd h hnot⟩
  have hshown : Shown entityIdx a.2 := shown_iff.mpr hskip
  rw [if_neg hskip]
  by_cases hbig : bufSize ≤ metaSizeAt file a.1
  · have hne : metaSizeAt file a.1 ≠ 0 := Nat.ne_of_gt (Nat.lt_of_lt_of_le (by decide) hbig)
    rw [if_pos hbig]
    exact .inr (.inl ⟨out, rfl, fun b hab => absurd (hab.read hshown).1 (Nat.not_lt.mpr hbig),
      fun _ _ => hne⟩)
  rw [if_neg hbig]
  dsimp only
  have hread := length_load_iff (n := metaSizeAt file a.1) (.inr hentity.header)
  by_cases hlen : (load file (a.1 + entityHeaderSize) (metaSizeAt file a.1)).length =
      metaSizeAt file a.1
  swap
  · have hne : metaSizeAt file a.1 ≠ 0 := by
      intro hzero
      rw [hzero] at hlen
      exact hlen (by rw [load, List.take_zero, List.length_nil])
    rw [if_pos hlen]
    exact .inr (.inl ⟨_, rfl, fun b hab => hlen (hread.mpr (hab.read hshown).2), fun _ _ => hne⟩)
  rw [if_neg (not_not.mpr hlen)]
  have hshow := showMeta_isSome mem
    (out ++ entityLines entityIdx a.1 (load file a.1 entityHeaderSize))
    (hlen ▸ Nat.lt_of_not_le hbig)
  by_cases hempty : metaSizeAt file a.1 = 0
  · have hnil := List.length_eq_zero_iff.mp (hlen.trans hempty)
    have hnone := Option.eq_none_iff_forall_ne_some.mpr fun t ht => hshow.mp ⟨t, ht⟩ hnil
    rw [hnone]
    exact .inr (.inr ⟨rfl, fun hsound => hsound hentity hshown hempty⟩)
  · have hne := List.ne_nil_of_length_pos (hlen ▸ Nat.pos_of_ne_zero hempty)
    obtain ⟨t, ht⟩ := hshow.mpr hne
    rw [ht]
    exact .inl ⟨_, t, rfl, ⟨hentity, rfl, fun _ => ⟨Nat.lt_of_not_le hbig, hread.mp hlen⟩⟩,
      fun _ _ => hempty⟩

/-- The loop goes on along the entities. -/
theorem follows (entityIdx : Int) (mem : Nat → UInt8) (file : Bytes) :
    Follows (entityRound entityIdx mem file) (EntityLink entityIdx file)
      (EntitySound entityIdx file) where
  safe a out := by
    rcases entityRound_spec entityIdx mem file a out with
      ⟨b, t, hround, -, hsound⟩ | ⟨t, hround, -, hsound⟩ | ⟨hround, hnot⟩
    · rw [hround]
      exact ⟨fun _ => hsound, fun _ => rfl⟩
    · rw [hround]
      exact ⟨fun _ => hsound, fun _ => rfl⟩
    · rw [hround]
      exact ⟨fun h => Bool.noConfusion h, fun h => absurd h hnot⟩
  links a out b t h := by
    rcases entityRound_spec entityIdx mem file a out with
      ⟨c, u, hround, hlink, -⟩ | ⟨u, hround, -⟩ | ⟨hround, -⟩
    · obtain ⟨rfl, -⟩ := Round.next.inj (Option.some.inj (hround.symm.trans h))
      exact hlink
    · cases hround.symm.trans h
    · cases hround.symm.trans h
  stops a out t h b := by
    rcases entityRound_spec entityIdx mem file a out with
      ⟨c, u, hround, -⟩ | ⟨u, hround, hno, -⟩ | ⟨hround, -⟩
    · cases hround.symm.trans h
    · exact hno b
    · cases hround.symm.trans h
  unique a b c hab hac := hab.next.trans hac.next.symm

end

/-! ## The tool -/

/-- The file passes the checks of the first header. -/
structure SealPasses (file : Bytes) : Prop where
  header : sealHeaderSize ≤ file.length
  magic : magic (load file 0 sealHeaderSize) = seamaMagic
  metasize : metasize (load file 0 sealHeaderSize) < bufSize
  imagesize : imagesize (load file 0 sealHeaderSize) = 0
  read : sealHeaderSize + Seama.metasize (load file 0 sealHeaderSize) ≤ file.length

/-- All meta data that is to be shown is there: that of the seal, unless one entity is asked for,
and that of each entity that is reached and asked for. -/
def HasMeta (entityIdx : Int) (file : Bytes) : Prop :=
  SealPasses file →
    (entityIdx < 0 → metasize (load file 0 sealHeaderSize) ≠ 0) ∧
      ∀ a, Relation.ReflTransGen (EntityLink entityIdx file)
        (sealHeaderSize + metasize (load file 0 sealHeaderSize), 0) a → EntitySound entityIdx file a

section
variable {entityIdx : Int} {file : Bytes} {sealMem mem : Nat → UInt8}

theorem oseamaInfo_passes (h : SealPasses file) (fuel : Nat) :
    oseamaInfo fuel entityIdx sealMem mem (some file) =
      oseamaInfoRest fuel entityIdx sealMem mem file := by
  have hlen := (length_load_iff (.inl (by decide))).mpr (show 0 + sealHeaderSize ≤ file.length by
    rw [Nat.zero_add]
    exact h.header)
  have hread := (length_load_iff (.inr h.header)).mpr h.read
  rw [oseamaInfo]
  dsimp only
  rw [if_neg (not_not.mpr hlen), if_neg (not_not.mpr h.magic), if_neg (Nat.not_le.mpr h.metasize),
    if_neg (not_not.mpr h.imagesize), if_neg (not_not.mpr hread)]

theorem oseamaInfo_fails (entityIdx : Int) (sealMem mem : Nat → UInt8) (h : ¬ SealPasses file)
    (fuel : Nat) :
    ∃ e, oseamaInfo fuel entityIdx sealMem mem (some file) = some (e, []) := by
  rw [oseamaInfo]
  dsimp only
  by_cases hlen : (load file 0 sealHeaderSize).length = sealHeaderSize
  swap
  · exact ⟨_, if_pos hlen⟩
  rw [if_neg (not_not.mpr hlen)]
  by_cases hmagic : magic (load file 0 sealHeaderSize) = seamaMagic
  swap
  · exact ⟨_, if_pos hmagic⟩
  rw [if_neg (not_not.mpr hmagic)]
  by_cases hmeta : bufSize ≤ metasize (load file 0 sealHeaderSize)
  · exact ⟨_, if_pos hmeta⟩
  rw [if_neg hmeta]
  by_cases himage : imagesize (load file 0 sealHeaderSize) = 0
  swap
  · exact ⟨_, if_pos himage⟩
  rw [if_neg (not_not.mpr himage)]
  have hheader := (length_load_iff (.inl (by decide))).mp hlen
  rw [Nat.zero_add] at hheader
  refine ⟨_, if_pos fun hread => h ⟨hheader, hmagic, Nat.lt_of_not_le hmeta, himage, ?_⟩⟩
  exact (length_load_iff (.inr hheader)).mp hread

theorem sealLines_isSome (entityIdx : Int) (sealMem : Nat → UInt8) (h : SealPasses file) :
    (∃ out, sealLines entityIdx sealMem file = some out) ↔
      (entityIdx < 0 → metasize (load file 0 sealHeaderSize) ≠ 0) := by
  have hread := (length_load_iff (.inr h.header)).mpr h.read
  rw [sealLines]
  by_cases hall : entityIdx < 0
  · have hshow := showMeta_isSome sealMem [.metaSize (metasize (load file 0 sealHeaderSize)),
      .imageSize (imagesize (load file 0 sealHeaderSize))] (hread ▸ h.metasize)
    rw [if_pos hall, hshow, ← List.length_pos_iff, hread, Nat.pos_iff_ne_zero]
    exact ⟨fun hne _ => hne, fun hne => hne hall⟩
  · rw [if_neg hall]
    exact ⟨fun _ hneg => absurd hneg hall, fun _ => ⟨[], rfl⟩⟩

/-- **When the tool ends** within its buffers. -/
theorem oseamaInfo_ends_iff (entityIdx : Int) (sealMem mem : Nat → UInt8) (file : Bytes) :
    (∃ fuel r, oseamaInfo fuel entityIdx sealMem mem (some file) = some r) ↔
      HasMeta entityIdx file := by
  by_cases hseal : SealPasses file
  swap
  · obtain ⟨e, he⟩ := oseamaInfo_fails entityIdx sealMem mem hseal 0
    exact ⟨fun _ h => absurd h hseal, fun _ => ⟨0, _, he⟩⟩
  have hstart := sealLines_isSome entityIdx sealMem hseal
  constructor
  · rintro ⟨fuel, r, hr⟩ -
    rw [oseamaInfo_passes hseal, oseamaInfoRest] at hr
    obtain ⟨out, hout, hrest⟩ := Option.bind_eq_some_iff.mp hr
    obtain ⟨t, ht, -⟩ := Option.bind_eq_some_iff.mp hrest
    exact ⟨hstart.mp ⟨out, hout⟩, ((follows entityIdx mem file).ends ht).2⟩
  · intro h
    obtain ⟨hmeta, hsound⟩ := h hseal
    obtain ⟨out, hout⟩ := hstart.mpr hmeta
    obtain ⟨fuel, t, ht⟩ := (follows entityIdx mem file).runs (entities_end _ _ _) hsound out
    refine ⟨fuel, (.ok, t), ?_⟩
    rw [oseamaInfo_passes hseal, oseamaInfoRest]
    exact Option.bind_eq_some_iff.mpr ⟨out, hout, Option.bind_eq_some_iff.mpr ⟨t, ht, rfl⟩⟩

/-- A seal without meta data. -/
def emptySeal : Bytes := [0x5e, 0xa3, 0xa4, 0x17, 0, 0, 0, 0, 0, 0, 0, 0]

/-- The terminator is put in front of the buffer. -/
theorem not_oseamaInfo_ends : ¬ ∀ (entityIdx : Int) (sealMem mem : Nat → UInt8) (file : Bytes),
    ∃ fuel r, oseamaInfo fuel entityIdx sealMem mem (some file) = some r := by
  intro h
  obtain ⟨fuel, r, hr⟩ := h (-1) (fun _ => 0) (fun _ => 0) emptySeal
  have hseal : SealPasses emptySeal := ⟨by decide, by decide, by decide, by decide, by decide⟩
  rw [oseamaInfo_passes hseal, oseamaInfoRest] at hr
  obtain ⟨out, hout, -⟩ := Option.bind_eq_some_iff.mp hr
  exact (sealLines_isSome (-1) (fun _ => 0) hseal).mp ⟨out, hout⟩ (by decide) (by decide)

end

end UolaOs.Seama
