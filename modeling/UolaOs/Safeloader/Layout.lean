import UolaOs.Safeloader.Reader

/-!
# What the builder places where

* `makePartitionTable_spec`: the flash partition table;
* `generateFactoryImage_spec`: the image partition table and the parts.
-/

namespace UolaOs.Safeloader

/-- The text does not fit into a table of 2 KiB. -/
def TooLong (t : Bytes) (_ : Exit) : Prop := 0x800 ≤ t.length

/-! ## The text of a table -/

section
variable {m m' t line : Bytes} {off : Nat}

/-- The text `t` at the front of the table of 2 KiB at `off`. -/
structure TextAt (m : Bytes) (off : Nat) (t : Bytes) : Prop where
  text : load m off t.length = t
  short : t.length < 0x800

theorem TextAt.congr (h : TextAt m off t)
    (hsame : ∀ k, off ≤ k → k < off + 0x800 → m'[k]? = m[k]?) : TextAt m' off t := by
  have hshort := h.short
  exact ⟨(load_congr fun k h₁ h₂ => hsame k h₁ (by omega)).trans h.text, hshort⟩

theorem textAt_nil (m : Bytes) (off : Nat) : TextAt m off [] := ⟨List.take_zero, by decide⟩

/-- A line is put behind the text with a zero behind it, and nothing outside of the table is
touched. -/
theorem putLine_spec (h : TextAt m off t) (hroom : off + 0x800 ≤ m.length) (line : Bytes) :
    Safe (TooLong (t ++ line)) (putLine m off t.length line) fun m' => TextAt m' off (t ++ line) ∧
      m'[off + (t ++ line).length]? = some 0 ∧ m'.length = m.length ∧
      ∀ k, k < off ∨ off + 0x800 ≤ k → m'[k]? = m[k]? := by
  have hshort := h.short
  rw [putLine]
  by_cases hcut : 0x800 - t.length - 1 < line.length
  · have hput : off + t.length + (line.take (0x800 - t.length - 1) ++ [0]).length ≤ m.length := by
      rw [List.length_append, List.length_take, List.length_singleton]
      omega
    have hlong : 0x800 ≤ (t ++ line).length := by
      rw [List.length_append]
      omega
    rw [store_eq hput, ok_bind, if_pos hcut]
    exact Safe.error hlong
  · have hall : line.take (0x800 - t.length - 1) = line := List.take_of_length_le (by omega)
    have hlen : (line ++ [0]).length = line.length + 1 := by
      rw [List.length_append, List.length_singleton]
    have hput : off + t.length + (line ++ [0]).length ≤ m.length := by omega
    rw [hall, store_eq hput, ok_bind, if_neg hcut]
    refine Safe.ok ⟨⟨?_, ?_⟩, ?_, length_poke _ _ _, fun k hk => ?_⟩
    · rw [List.length_append, load_add, load_poke_of_disjoint hput (.inl (Nat.le_refl _)), h.text,
        load_poke hput (by omega), List.take_left]
    · rw [List.length_append]
      omega
    · rw [List.length_append, getElem?_poke hput, if_pos (by omega)]
      have hindex : off + (t.length + line.length) - (off + t.length) = line.length := by omega
      rw [hindex, List.getElem?_concat_length]
    · rw [getElem?_poke hput, if_neg (by omega)]

/-- What a reader of the table finds. -/
theorem load_text {n : Nat} (h : load m off t.length = t) (hzero : m[off + t.length]? = some 0)
    (hn : t.length < n) : ∃ rest, load m off n = t ++ 0 :: rest := by
  obtain ⟨k, hk⟩ := Nat.exists_eq_add_of_le (show t.length + 1 ≤ n by omega)
  have hend : load m (off + t.length) 1 = [0] := load_eq_replicate fun i h₁ h₂ => by
    have hi : i = off + t.length := by omega
    rw [hi, hzero]
  refine ⟨load m (off + t.length + 1) k, ?_⟩
  rw [hk, Nat.add_assoc, load_add, load_add, h, hend]
  rfl

theorem text_append (fmt : Format) (a b : List FlashPart) :
    fmt.text (a ++ b) = fmt.text a ++ fmt.text b := List.flatMap_append

theorem text_singleton (fmt : Format) (e : FlashPart) :
    fmt.text [e] = fmt.line e.name e.base.toNat e.size.toNat := List.flatMap_singleton ..

end

/-! ## The flash partition table -/

/-- The magic in front of the flash partition table. -/
def magic : Bytes := [0, 4, 0, 0]

section
variable {mem : Nat → UInt8} {ps done rest : List FlashPart}

/-- The state when the partitions `done` are in the table. -/
structure Flashed (done : List FlashPart) (s : Bytes × Nat) : Prop where
  length : s.1.length = 0x800
  pos : s.2 = (magic ++ flash.text done).length
  text : TextAt s.1 0 (magic ++ flash.text done)
  zero : done ≠ [] → s.1[s.2]? = some 0

theorem putFlashPart_spec {s : Bytes × Nat} (h : Flashed done s) (p : FlashPart) :
    Safe (TooLong (magic ++ flash.text (done ++ [p]))) (putFlashPart s p)
      (Flashed (done ++ [p])) := by
  have htext : magic ++ flash.text (done ++ [p]) =
      magic ++ flash.text done ++ flash.line p.name p.base.toNat p.size.toNat := by
    rw [text_append, text_singleton, List.append_assoc]
  rw [putFlashPart, h.pos, htext]
  refine (putLine_spec h.text (by rw [h.length]) _).bind ?_
  rintro m ⟨hm, hzero, hlen, -⟩
  refine Safe.ok ⟨hlen.trans h.length, ?_, htext ▸ hm, fun _ => ?_⟩
  · rw [htext]
    exact List.length_append.symm
  · rw [Nat.zero_add, List.length_append] at hzero
    exact hzero

theorem putFlashParts_spec {s : Bytes × Nat} (h : Flashed done s) (ps : List FlashPart) :
    Safe (TooLong (magic ++ flash.text (done ++ ps))) (ps.foldlM putFlashPart s)
      (Flashed (done ++ ps)) := by
  induction ps generalizing done s with
  | nil => rw [List.append_nil]; exact Safe.ok h
  | cons p ps ih =>
    have hlong (e : Exit) (he : TooLong (magic ++ flash.text (done ++ [p])) e) :
        TooLong (magic ++ flash.text (done ++ [p] ++ ps)) e := by
      rw [TooLong] at he ⊢
      rw [text_append, ← List.append_assoc, List.length_append]
      omega
    rw [List.foldlM_cons, List.append_cons]
    exact ((putFlashPart_spec h p).weaken hlong).bind fun t ht => ih ht

/-- The part of the flash partition table. -/
structure TablePart (ps : List FlashPart) (p : ImagePart) : Prop where
  name : p.name = partitionTable
  length : p.data.length = 0x800
  text : load p.data 4 (flash.text ps).length = flash.text ps
  short : (flash.text ps).length + 4 < 0x800
  zero : ps ≠ [] → p.data[4 + (flash.text ps).length]? = some 0

theorem makePartitionTable_spec (mem : Nat → UInt8) (ps : List FlashPart) :
    Safe (TooLong (magic ++ flash.text ps)) (makePartitionTable mem ps) (TablePart ps) := by
  have hblock : ((List.range 0x800).map mem).length = 0x800 := by
    rw [List.length_map, List.length_range]
  rw [makePartitionTable, ← magic]
  generalize (List.range 0x800).map mem = block at hblock ⊢
  have hmagic : 0 + magic.length ≤ block.length := by
    rw [hblock]
    decide
  have hstart : Flashed [] (poke block 0 magic, 4) :=
    ⟨(length_poke _ _ _).trans hblock, rfl, ⟨load_poke_self hmagic, by decide⟩,
      fun h => absurd rfl h⟩
  rw [store_eq hmagic, ok_bind]
  refine (putFlashParts_spec hstart ps).bind fun s hs => ?_
  rw [List.nil_append] at hs
  have hlen := hs.length
  have hpos := hs.pos
  have hshort := hs.text.short
  have htext := hs.text.text
  have hcount : (magic ++ flash.text ps).length = 4 + (flash.text ps).length := List.length_append
  have hff : s.2 + 1 + (List.replicate (0x800 - (s.2 + 1)) (0xff : UInt8)).length ≤ s.1.length := by
    rw [List.length_replicate]
    omega
  rw [store_eq hff, ok_bind]
  refine Safe.ok ⟨rfl, (length_poke _ _ _).trans hlen, ?_, by omega, fun hne => ?_⟩
  · dsimp only
    rw [load_poke_of_disjoint hff (.inl (by omega))]
    rw [hcount, load_add, Nat.zero_add] at htext
    exact (List.append_inj htext (length_load (by omega))).2
  · dsimp only
    rw [getElem?_poke hff, if_neg (by omega), ← hcount, ← hpos]
    exact hs.zero hne

end

/-! ## The image -/

/-- The entries of the parts from the offset `base` on. -/
def entries (base : Nat) : List ImagePart → List (CStr × Nat × Nat)
  | [] => []
  | p :: ps => (p.name, base, p.data.length) :: entries (base + p.data.length) ps

/-- An entry as the table holds it. -/
def entry (e : CStr × Nat × Nat) : FlashPart := ⟨e.1, UInt32.ofNat e.2.1, UInt32.ofNat e.2.2⟩

/-- The bytes of the parts. -/
def content (ps : List ImagePart) : Bytes := ps.flatMap ImagePart.data

section
variable {base : Nat} {parts done rest : List ImagePart} {flashParts : List FlashPart}
  {info : DeviceInfo} {image : Bytes} {p : ImagePart}

theorem entries_append (base : Nat) (a b : List ImagePart) :
    entries base (a ++ b) = entries base a ++ entries (base + (content a).length) b := by
  induction a generalizing base with
  | nil => rfl
  | cons p ps ih =>
    rw [List.cons_append, entries, entries, ih, List.cons_append, content, content,
      List.flatMap_cons, List.length_append, Nat.add_assoc]

theorem content_append (a b : List ImagePart) : content (a ++ b) = content a ++ content b :=
  List.flatMap_append

theorem sum_length_content (ps : List ImagePart) :
    (ps.map fun p => p.data.length).sum = (content ps).length := by
  induction ps with
  | nil => rfl
  | cons p ps ih =>
    rw [List.map_cons, List.sum_cons, ih, content, content, List.flatMap_cons, List.length_append]

/-- The line of a part is that of its entry. -/
theorem text_entry (name : CStr) (base size : Nat) :
    fwup.text [entry (name, base, size)] = fwup.line name (u32 base) (u32 size) := by
  rw [text_singleton, entry]
  dsimp only
  rw [UInt32.toNat_ofNat', UInt32.toNat_ofNat', u32, u32]

/-- A part fits in the first flash partition of its name. -/
def Accepted (flashParts : List FlashPart) (p : ImagePart) : Prop :=
  ∃ f, flashParts.find? (fun f => f.name = p.name) = some f ∧ p.data.length ≤ f.size.toNat

theorem Accepted.mem (h : Accepted flashParts p) : ∃ f ∈ flashParts, f.name = p.name := by
  obtain ⟨f, hf, -⟩ := h
  exact ⟨f, List.mem_of_find?_eq_some hf, by simpa using List.find?_some hf⟩

/-- A part does not fit, or the table. -/
def Rejected (flashParts : List FlashPart) (parts : List ImagePart) (_ : Exit) : Prop :=
  (∃ p ∈ parts, ¬ Accepted flashParts p) ∨
    0x800 ≤ (fwup.text ((entries 0x800 parts).map entry)).length

theorem Rejected.append {e : Exit} (h : Rejected flashParts done e) (parts : List ImagePart) :
    Rejected flashParts (done ++ parts) e := by
  rcases h with ⟨p, hp, hnot⟩ | hlong
  · exact .inl ⟨p, List.mem_append_left _ hp, hnot⟩
  · refine .inr ?_
    rw [entries_append, List.map_append, text_append, List.length_append]
    omega

/-- The state when the parts `done` are in the image `start`. -/
structure Building (flashParts : List FlashPart) (start : Bytes) (done : List ImagePart)
    (s : Placed) : Prop where
  length : s.image.length = start.length
  pos : s.pos = (fwup.text ((entries 0x800 done).map entry)).length
  base : s.base = 0x800 + (content done).length
  text : TextAt s.image 0x1014 (fwup.text ((entries 0x800 done).map entry))
  zero : done ≠ [] → s.image[0x1014 + s.pos]? = some 0
  data : load s.image 0x1814 (content done).length = content done
  unchanged : ∀ k < 0x1014, s.image[k]? = start[k]?
  fresh : done = [] → s.image = start
  accepted : ∀ p ∈ done, Accepted flashParts p

theorem putPart_spec {start : Bytes} {s : Placed} (h : Building flashParts start done s)
    (hroom : 0x1814 + (content (done ++ [p])).length ≤ start.length) :
    Safe (Rejected flashParts (done ++ [p])) (putPart flashParts s p)
      (Building flashParts start (done ++ [p])) := by
  have hlength := h.length
  have hbase := h.base
  have hcontent : content (done ++ [p]) = content done ++ p.data := by
    rw [content_append, content, content, List.flatMap_singleton]
  have htext : fwup.text ((entries 0x800 (done ++ [p])).map entry) =
      fwup.text ((entries 0x800 done).map entry) ++
        fwup.line p.name (u32 s.base) (u32 p.data.length) := by
    rw [entries_append, List.map_append, text_append, ← hbase, ← text_entry]
    rfl
  rw [hcontent, List.length_append] at hroom
  rw [putPart]
  split
  next hf =>
    refine Safe.error (.inl ⟨p, List.mem_append_right _ List.mem_cons_self, ?_⟩)
    rintro ⟨f, hsome, -⟩
    rw [hf] at hsome
    cases hsome
  next f hf =>
    split
    next hsize =>
      refine Safe.error (.inl ⟨p, List.mem_append_right _ List.mem_cons_self, ?_⟩)
      rintro ⟨g, hsome, hfits⟩
      obtain rfl := Option.some.inj (hf.symm.trans hsome)
      exact absurd hfits (Nat.not_le_of_lt hsize)
    next hsize =>
      have hdata : 0x1014 + s.base + p.data.length ≤ s.image.length := by omega
      have hdisjoint (k : Nat) (hk : k < 0x1814 + (content done).length) :
          (poke s.image (0x1014 + s.base) p.data)[k]? = s.image[k]? := by
        rw [getElem?_poke hdata, if_neg (by omega)]
      have hkeep : TextAt (poke s.image (0x1014 + s.base) p.data) 0x1014
          (fwup.text ((entries 0x800 done).map entry)) :=
        h.text.congr fun k h₁ h₂ => hdisjoint k (by omega)
      rw [store_eq hdata, ok_bind, h.pos]
      have hput := (putLine_spec hkeep (by rw [length_poke]; omega)
        (fwup.line p.name (u32 s.base) (u32 p.data.length))).weaken
          fun e (he : TooLong _ e) => (.inr (htext ▸ he) : Rejected flashParts (done ++ [p]) e)
      refine hput.bind ?_
      rintro image ⟨hline, hzero, hlen, hsame⟩
      rw [length_poke] at hlen
      refine Safe.ok ⟨hlen.trans hlength, ?_, ?_, ?_, fun _ => ?_, ?_, fun k hk => ?_, ?_, ?_⟩
      · rw [htext]
        exact List.length_append.symm
      · rw [hcontent, List.length_append, hbase, Nat.add_assoc]
      · rw [htext]
        exact hline
      · rw [List.length_append] at hzero
        exact hzero
      · have hbehind (off n : Nat) (hoff : 0x1814 ≤ off) :
            load image off n = load (poke s.image (0x1014 + s.base) p.data) off n :=
          load_congr fun k h₁ h₂ => hsame k (by omega)
        have hpart : 0x1814 + (content done).length = 0x1014 + s.base := by omega
        rw [hcontent, List.length_append, load_add, hbehind _ _ (Nat.le_refl _),
          hbehind _ _ (by omega), hpart, load_poke_self hdata]
        congr 1
        exact (load_congr fun k h₁ h₂ => hdisjoint k h₂).trans h.data
      · rw [hsame k (by omega), hdisjoint k (by omega), h.unchanged k hk]
      · intro hnil
        exact absurd hnil (by simp)
      · intro q hq
        rw [List.mem_append, List.mem_singleton] at hq
        rcases hq with hq | rfl
        · exact h.accepted q hq
        · exact ⟨f, hf, Nat.le_of_not_lt hsize⟩

theorem putParts_spec {start : Bytes} {s : Placed} (h : Building flashParts start done s)
    (parts : List ImagePart) (hroom : 0x1814 + (content (done ++ parts)).length ≤ start.length) :
    Safe (Rejected flashParts (done ++ parts)) (parts.foldlM (putPart flashParts) s)
      (Building flashParts start (done ++ parts)) := by
  induction parts generalizing done s with
  | nil => rw [List.append_nil]; exact Safe.ok h
  | cons p ps ih =>
    rw [List.append_cons] at hroom ⊢
    have hfront : 0x1814 + (content (done ++ [p])).length ≤ start.length := by
      rw [content_append, List.length_append] at hroom
      omega
    rw [List.foldlM_cons]
    exact ((putPart_spec h hfront).weaken fun e he => he.append ps).bind fun t ht => ih ht hroom

/-- The factory image. -/
structure Image (info : DeviceInfo) (parts : List ImagePart) (image : Bytes) : Prop where
  length : image.length = 0x1814 + (content parts).length
  imagesize : load image 0 4 = Endian.big.put 4 (u32 image.length)
  md5 : image.length < 2 ^ 32 → load image 4 16 = Md5.digest (md5Salt ++ image.drop 0x14)
  text : TextAt image 0x1014 (fwup.text ((entries 0x800 parts).map entry))
  zero : parts ≠ [] → image[0x1014 + (fwup.text ((entries 0x800 parts).map entry)).length]? = some 0
  blank : parts = [] → load image 0x1014 0x800 = List.replicate 0x800 0xff
  data : load image 0x1814 (content parts).length = content parts
  accepted : ∀ p ∈ parts, Accepted info.partitions p

/-- The image before the partitions. -/
structure Blank (len : Nat) (m : Bytes) : Prop where
  length : m.length = len
  imagesize : load m 0 4 = Endian.big.put 4 (u32 len)
  blank : ∀ k, 0x1014 ≤ k → k < len → m[k]? = some 0xff

theorem putVendor_spec {len : Nat} {m : Bytes} (h : Blank len m) (hlen : 0x1814 ≤ len)
    {vendor : Option CStr} (hv : ∀ v ∈ vendor, v.length ≤ 4092) :
    ∃ m', putVendor m vendor = .ok m' ∧ Blank len m' := by
  cases vendor with
  | none => exact ⟨m, rfl, h⟩
  | some v =>
    have hlength := h.length
    have hv : v.bytes.length ≤ 4092 := hv v rfl
    have hput : 0x14 + (Endian.big.put 4 (u32 v.length)).length ≤ m.length := by
      rw [Endian.length_put]
      omega
    have hbytes : 0x18 + v.bytes.length ≤
        (poke m 0x14 (Endian.big.put 4 (u32 v.length))).length := by
      rw [length_poke]
      omega
    rw [putVendor, store_eq hput, ok_bind, store_eq hbytes]
    refine ⟨_, rfl, ?_, ?_, fun k h₁ h₂ => ?_⟩
    · rw [length_poke, length_poke, hlength]
    · rw [load_poke_of_disjoint hbytes (.inl (by decide)),
        load_poke_of_disjoint hput (.inl (by decide)), h.imagesize]
    · rw [getElem?_poke hbytes, if_neg (by omega), getElem?_poke hput,
        if_neg (by rw [Endian.length_put]; omega), h.blank k h₁ h₂]

theorem length_final (ctx : Seama.Openwall.Ctx) : (Seama.Openwall.final ctx).length = 16 :=
  Md5.State.length_bytes _

/-- The digest of the salt and the data. -/
theorem final_salted (data : Bytes) :
    Seama.Openwall.final (Seama.Openwall.update
      (Seama.Openwall.update Seama.Openwall.init md5Salt) data) = Md5.digest (md5Salt ++ data) :=
  ((Seama.Openwall.rep_init.update md5Salt).update data).final

theorem putMd5_spec {m : Bytes} (h : 0x1814 ≤ m.length) :
    ∃ m', putMd5 m 0x14 (m.length - 0x14) = .ok m' ∧ m'.length = m.length ∧
      (∀ k, k < 4 ∨ 0x14 ≤ k → m'[k]? = m[k]?) ∧
      (m.length < 2 ^ 32 → load m' 4 16 = Md5.digest (md5Salt ++ m'.drop 0x14)) := by
  have hu32 : u32 (m.length - 0x14) ≤ m.length - 0x14 := Nat.mod_le _ _
  generalize hctx : Seama.Openwall.update (Seama.Openwall.update Seama.Openwall.init md5Salt)
    (load m 0x14 (u32 (m.length - 0x14))) = ctx
  have hput : 4 + (Seama.Openwall.final ctx).length ≤ m.length := by
    rw [length_final]
    omega
  have hsame (k : Nat) (hk : k < 4 ∨ 0x14 ≤ k) :
      (poke m 4 (Seama.Openwall.final ctx))[k]? = m[k]? := by
    rw [getElem?_poke hput, if_neg (by rw [length_final]; omega)]
  refine ⟨poke m 4 (Seama.Openwall.final ctx), ?_, length_poke _ _ _, hsame, fun h32 => ?_⟩
  · rw [putMd5, fetch_eq (by omega), ok_bind]
    dsimp only
    rw [hctx, store_eq hput]
  · have hrest : (poke m 4 (Seama.Openwall.final ctx)).drop 0x14 =
        load m 0x14 (u32 (m.length - 0x14)) := by
      rw [u32, Nat.mod_eq_of_lt (by omega), drop_eq_load (length_poke _ _ _)]
      exact load_congr fun k hk _ => hsame k (.inr hk)
    have h := load_poke_self hput
    rw [length_final] at h
    rw [h, hrest, ← hctx, final_salted]

theorem generateFactoryImage_spec (info : DeviceInfo) (parts : List ImagePart) :
    Safe (Rejected info.partitions parts) (generateFactoryImage info parts)
      (Image info parts) := by
  rw [generateFactoryImage, sum_length_content]
  generalize hlen : 0x1814 + (content parts).length = len
  have hput : 0 + (Endian.big.put 4 (u32 len)).length ≤ (List.replicate len (0xff : UInt8)).length := by
    rw [Endian.length_put, List.length_replicate]
    omega
  have hfirst : Blank len (poke (List.replicate len 0xff) 0 (Endian.big.put 4 (u32 len))) := by
    refine ⟨by rw [length_poke, List.length_replicate], ?_, fun k h₁ h₂ => ?_⟩
    · have h := load_poke_self hput
      rwa [Endian.length_put] at h
    · rw [getElem?_poke hput, if_neg (by rw [Endian.length_put]; omega), List.getElem?_replicate,
        if_pos h₂]
  obtain ⟨start, hvendor, hstart⟩ := putVendor_spec hfirst (by omega) info.vendor_fits
  rw [store_eq hput, ok_bind, hvendor, ok_bind]
  have hstartLen := hstart.length
  have hbuilding : Building info.partitions start [] ⟨start, 0, 0x800⟩ :=
    ⟨rfl, rfl, rfl, textAt_nil _ _, fun h => absurd rfl h, List.take_zero, fun _ _ => rfl,
      fun _ => rfl, nofun⟩
  rw [putPartitions, bind_assoc]
  refine (putParts_spec hbuilding parts (by rw [List.nil_append]; omega)).bind fun s hs => ?_
  rw [List.nil_append] at hs
  have hlength := hs.length
  have hmlen : s.image.length = len := hlength.trans hstartLen
  obtain ⟨image, hmd5, himage, hsame, hdigest⟩ := putMd5_spec (by omega : 0x1814 ≤ s.image.length)
  rw [hmlen] at hmd5 himage hdigest
  show Safe _ (putMd5 s.image 0x14 (len - 0x14)) _
  rw [hmd5]
  have hload (off n : Nat) (hoff : off + n ≤ 4 ∨ 0x14 ≤ off) : load image off n = load s.image off n :=
    load_congr fun k h₁ h₂ => hsame k (by omega)
  refine Safe.ok ⟨himage.trans hlen.symm, ?_, fun h => hdigest (himage ▸ h), ?_, fun hne => ?_,
    fun hnil => ?_, ?_, hs.accepted⟩
  · rw [hload 0 4 (by omega), himage, ← hstart.imagesize]
    exact load_congr fun k _ hk => hs.unchanged k (by omega)
  · exact hs.text.congr fun k h₁ _ => hsame k (by omega)
  · rw [hsame _ (by omega), ← hs.pos]
    exact hs.zero hne
  · rw [hload _ _ (by omega), hs.fresh hnil]
    exact load_eq_replicate fun k h₁ h₂ => hstart.blank k h₁ (by omega)
  · rw [hload _ _ (by omega)]
    exact hs.data

end

end UolaOs.Safeloader
