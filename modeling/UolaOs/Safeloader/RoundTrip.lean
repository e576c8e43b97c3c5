import UolaOs.Safeloader.Layout

/-!
# What is built is read back

* `readPartitionTable_text`: a reader that finds the text of a table;
* `Image.part`: where the bytes of a part are;
* `roundTrip_iff`: when both tables and all parts are read back.
-/

namespace UolaOs.Safeloader

section
variable {fmt : Format} {file buf t rest : Bytes} {off maxEntries : Nat} {es : List FlashPart}

/-- The end of the buffer is behind the text. -/
theorem set_end (h : (t ++ 0 :: rest).length = 2048) :
    ∃ rest', (t ++ 0 :: rest).set 2047 0 = t ++ 0 :: rest' := by
  rw [List.length_append, List.length_cons] at h
  rw [List.set_append_right _ _ (by omega)]
  obtain ⟨k, hk⟩ : ∃ k, 2047 - t.length = k := ⟨_, rfl⟩
  rw [hk]
  cases k with
  | zero => exact ⟨rest, rfl⟩
  | succ k => exact ⟨rest.set k 0, rfl⟩

theorem length_le_text (fmt : Format) (es : List FlashPart) : es.length ≤ (fmt.text es).length := by
  induction es with
  | nil => exact Nat.zero_le _
  | cons e es ih =>
    have hline : 0 < (fmt.line e.name e.base.toNat e.size.toNat).length := by
      rw [line_eq, List.length_append]
      exact Nat.succ_pos _
    rw [Format.text, List.flatMap_cons, ← Format.text, List.length_cons, List.length_append]
    omega

/-- **Reading a table.** -/
theorem readPartitionTable_text (hf : fmt.Wf) (hnames : ∀ e ∈ es, ValidName e.name) (hne : es ≠ [])
    (hlen : off + 2048 ≤ file.length) (hload : load file off 2048 = fmt.text es ++ 0 :: rest) :
    readPartitionTable file off fmt maxEntries =
      if es.length ≤ maxEntries then .ok (some es) else .error .failure := by
  have hlength : (fmt.text es ++ 0 :: rest).length = 2048 := by
    rw [← hload, length_load hlen]
  obtain ⟨rest', hset⟩ := set_end hlength
  have hset_length : (fmt.text es ++ 0 :: rest').length = 2048 := by
    rw [← hset, List.length_set, hlength]
  have hcount := length_le_text fmt es
  have hfound : fmt.found (fmt.text es ++ 0 :: rest') := by
    cases es with
    | nil => exact absurd rfl hne
    | cons e es =>
      rw [Format.text, List.flatMap_cons, List.append_assoc]
      exact found_line _
  rw [readPartitionTable, readAll_eq hlen, ok_bind]
  dsimp only
  rw [hload, hset, if_neg (not_not.mpr hfound), hset_length,
    readLines_text hf hnames rest' (Nat.zero_le _) (by
      rw [List.length_append, List.length_cons] at hlength
      omega), List.length_nil, Nat.zero_add, List.nil_append]
  split <;> rfl

end

/-! ## The parts -/

section
variable {info : DeviceInfo} {parts pre post : List ImagePart} {image : Bytes} {p : ImagePart}
  {mem : Nat → UInt8} {maxEntries : Nat}

/-- The entry of a part. -/
theorem getElem?_entries (base : Nat) (parts : List ImagePart) (i : Nat) :
    (entries base parts)[i]? =
      parts[i]?.map fun p => (p.name, base + (content (parts.take i)).length, p.data.length) := by
  induction parts generalizing base i with
  | nil => rfl
  | cons p ps ih =>
    cases i with
    | zero => rfl
    | succ i =>
      rw [entries, List.getElem?_cons_succ, List.getElem?_cons_succ, ih, List.take_succ_cons, content,
        content, List.flatMap_cons, List.length_append, Nat.add_assoc]

theorem length_entries (base : Nat) (parts : List ImagePart) :
    (entries base parts).length = parts.length := by
  induction parts generalizing base with
  | nil => rfl
  | cons p ps ih => rw [entries, List.length_cons, List.length_cons, ih]

/-- The offset of a part in the table. -/
def baseOf (pre : List ImagePart) : Nat := 0x800 + (content pre).length

theorem content_split (pre post : List ImagePart) (p : ImagePart) :
    content (pre ++ p :: post) = content pre ++ (p.data ++ content post) := by
  rw [content_append, content, content, List.flatMap_cons]
  rfl

/-- Where a part is. -/
theorem Image.part (h : Image info (pre ++ p :: post) image) :
    0x1014 + baseOf pre + p.data.length + (content post).length = image.length ∧
      load image (0x1014 + baseOf pre) p.data.length = p.data := by
  have hlength := h.length
  have hdata := h.data
  have hstart : 0x1014 + baseOf pre = 0x1814 + (content pre).length := by
    rw [baseOf]
    omega
  rw [content_split, List.length_append, List.length_append] at hlength
  rw [content_split, List.length_append, List.length_append, load_add, load_add] at hdata
  rw [hstart]
  refine ⟨by omega, ?_⟩
  have hrest := (List.append_inj hdata (length_load (by omega))).2
  exact (List.append_inj hrest (length_load (by omega))).1

theorem Image.size_lt (h : Image info parts image) (hp : p ∈ parts) : p.data.length < 2 ^ 32 := by
  obtain ⟨f, -, hsize⟩ := h.accepted p hp
  exact Nat.lt_of_le_of_lt hsize f.size.toNat_lt

theorem Image.name_valid (h : Image info parts image)
    (hnames : ∀ f ∈ info.partitions, ValidName f.name) (hp : p ∈ parts) : ValidName p.name := by
  obtain ⟨f, hf, hname⟩ := (h.accepted p hp).mem
  exact hname ▸ hnames f hf

theorem mem_entries {base : Nat} {e : CStr × Nat × Nat} (h : e ∈ entries base parts) :
    ∃ pre p post, parts = pre ++ p :: post ∧
      e = (p.name, base + (content pre).length, p.data.length) := by
  obtain ⟨i, hi⟩ := List.mem_iff_getElem?.mp h
  rw [getElem?_entries] at hi
  obtain ⟨p, hp, rfl⟩ := Option.map_eq_some_iff.mp hi
  obtain ⟨hlt, hget⟩ := List.getElem?_eq_some_iff.mp hp
  refine ⟨parts.take i, p, parts.drop (i + 1), ?_, rfl⟩
  rw [← hget, List.getElem_cons_drop, List.take_append_drop]

/-- **The image partition table.** -/
theorem Image.read (h : Image info parts image)
    (hnames : ∀ f ∈ info.partitions, ValidName f.name) :
    readPartitionTable image 0x1014 fwup maxEntries =
      if parts = [] then .ok none
      else if parts.length ≤ maxEntries then .ok (some ((entries 0x800 parts).map entry))
      else .error .failure := by
  have hlength := h.length
  have hroom : 0x1014 + 2048 ≤ image.length := by omega
  have hshort := h.text.short
  by_cases hnil : parts = []
  · rw [if_pos hnil, readPartitionTable, readAll_eq hroom, ok_bind, h.blank hnil]
    dsimp only
    have hnot : ¬ fwup.found ((List.replicate 0x800 0xff).set 2047 0) := by decide
    rw [if_pos hnot]
    rfl
  · have hne : (entries 0x800 parts).map entry ≠ [] := by
      intro hmap
      have hlen := congrArg List.length hmap
      rw [List.length_map, length_entries] at hlen
      exact hnil (List.length_eq_zero_iff.mp hlen)
    obtain ⟨rest, hload⟩ := load_text (n := 2048) h.text.text (h.zero hnil) hshort
    have hvalid : ∀ e ∈ (entries 0x800 parts).map entry, ValidName e.name := by
      intro e he
      obtain ⟨e', he', rfl⟩ := List.mem_map.mp he
      obtain ⟨pre, p, post, hparts, rfl⟩ := mem_entries he'
      refine h.name_valid hnames (p := p) ?_
      rw [hparts]
      exact List.mem_append_right _ List.mem_cons_self
    rw [if_neg hnil, readPartitionTable_text wf_fwup hvalid hne hroom hload, List.length_map,
      length_entries]

/-- **The flash partition table.** It is read from its fifth byte on, but as many bytes as it has. -/
theorem Image.read_flash (h : Image info (pre ++ p :: post) image)
    (hnames : ∀ f ∈ info.partitions, ValidName f.name) (hmax : info.partitions.length ≤ maxEntries)
    (hp : makePartitionTable mem info.partitions = .ok p) :
    readPartitionTable image (0x1014 + baseOf pre + 4) flash maxEntries =
      if 4 ≤ (content post).length then .ok (some info.partitions) else .error .failure := by
  obtain ⟨hend, hdata⟩ := h.part
  obtain ⟨-, hlen, htext, hshort, hzero⟩ := (makePartitionTable_spec mem info.partitions).of_ok hp
  have hne : info.partitions ≠ [] := by
    obtain ⟨f, hf, -⟩ := (h.accepted p (List.mem_append_right _ List.mem_cons_self)).mem
    exact List.ne_nil_of_mem hf
  have hbyte (k : Nat) (hk : k < p.data.length) :
      image[0x1014 + baseOf pre + k]? = p.data[k]? := by
    have hget := getElem?_load (Nat.le_add_right (0x1014 + baseOf pre) k)
      (Nat.add_lt_add_left hk (0x1014 + baseOf pre)) image
    rwa [hdata, Nat.add_sub_cancel_left, eq_comm] at hget
  split
  next hroom =>
    have hload : load image (0x1014 + baseOf pre + 4) (flash.text info.partitions).length =
        flash.text info.partitions := by
      rw [← load_load (n := p.data.length) (by omega), hdata, htext]
    have hstop : image[0x1014 + baseOf pre + 4 + (flash.text info.partitions).length]? = some 0 := by
      rw [Nat.add_assoc, hbyte _ (by omega)]
      exact hzero hne
    obtain ⟨rest, hwindow⟩ := load_text (n := 2048) hload hstop (by omega)
    rw [readPartitionTable_text wf_flash hnames hne (by omega) hwindow, if_pos hmax]
  next hroom =>
    rw [readPartitionTable, readAll_short (by decide) (by omega)]
    rfl

/-! ## The round trip -/

/-- The reader finds the entries of the parts, copies each part, and reads the flash partition
table. -/
def RoundTrip (mem : Nat → UInt8) (maxEntries : Nat) (info : DeviceInfo) (parts : List ImagePart)
    (image : Bytes) : Prop :=
  ∃ es, readPartitionTable image 0x1014 fwup maxEntries = .ok (some es) ∧
    es.map (fun e => (e.name, e.base.toNat, e.size.toNat)) = entries 0x800 parts ∧
    ∀ (i : Nat) (e : FlashPart) (p : ImagePart), es[i]? = some e → parts[i]? = some p →
      writePartition image 0x1014 e = .ok p.data ∧
        (makePartitionTable mem info.partitions = .ok p →
          readPartitionTable image (0x1014 + e.base.toNat + 4) flash maxEntries =
            .ok (some info.partitions))

/-- There is a part, there are not too many, each starts below 4 GiB, and four bytes follow a flash
partition table. -/
def Readable (mem : Nat → UInt8) (maxEntries : Nat) (info : DeviceInfo) (parts : List ImagePart) :
    Prop :=
  parts ≠ [] ∧ parts.length ≤ maxEntries ∧
    ∀ pre p post, parts = pre ++ p :: post → baseOf pre < 2 ^ 32 ∧
      (makePartitionTable mem info.partitions = .ok p → 4 ≤ (content post).length)

theorem split_at {i : Nat} (hp : parts[i]? = some p) :
    parts = parts.take i ++ p :: parts.drop (i + 1) := by
  obtain ⟨hlt, hget⟩ := List.getElem?_eq_some_iff.mp hp
  rw [← hget, List.getElem_cons_drop, List.take_append_drop]

theorem split_parts (h : parts = pre ++ p :: post) :
    parts[pre.length]? = some p ∧ parts.take pre.length = pre := by
  rw [h, List.getElem?_append_right (Nat.le_refl _), Nat.sub_self, List.take_left]
  exact ⟨rfl, rfl⟩

/-- The entries survive if their offsets have 32 bits. -/
theorem entries_survive (h : Image info parts image) :
    ((entries 0x800 parts).map entry).map (fun e => (e.name, e.base.toNat, e.size.toNat)) =
        entries 0x800 parts ↔
      ∀ pre p post, parts = pre ++ p :: post → baseOf pre < 2 ^ 32 := by
  have hid : entries 0x800 parts = (entries 0x800 parts).map fun e => e := (List.map_id _).symm
  rw [List.map_map]
  conv_lhs => rw [hid]
  rw [List.map_map, List.map_inj_left]
  constructor
  · intro hall pre p post hparts
    obtain ⟨hp, hpre⟩ := split_parts hparts
    have hmem : (p.name, baseOf pre, p.data.length) ∈ entries 0x800 parts := by
      apply List.mem_of_getElem?
      rw [getElem?_entries, hp, hpre]
      rfl
    have hentry : (UInt32.ofNat (baseOf pre)).toNat = baseOf pre :=
      congrArg (fun e => e.2.1) (hall _ hmem)
    rw [← hentry]
    exact UInt32.toNat_lt _
  · intro hall e he
    obtain ⟨pre, p, post, hparts, rfl⟩ := mem_entries he
    have hbase : 0x800 + (content pre).length < 2 ^ 32 := hall pre p post hparts
    have hsize : p.data.length < 2 ^ 32 := by
      apply h.size_lt
      rw [hparts]
      exact List.mem_append_right _ List.mem_cons_self
    show (p.name, (UInt32.ofNat _).toNat, (UInt32.ofNat _).toNat) = _
    rw [UInt32.toNat_ofNat_of_lt' hbase, UInt32.toNat_ofNat_of_lt' hsize]

/-- The entry that is read for a part. -/
theorem getElem?_read {i : Nat} (hp : parts[i]? = some p) :
    ((entries 0x800 parts).map entry)[i]? =
      some (entry (p.name, baseOf (parts.take i), p.data.length)) := by
  rw [List.getElem?_map, getElem?_entries, hp]
  rfl

theorem Image.readable_iff (h : Image info parts image)
    (hnames : ∀ f ∈ info.partitions, ValidName f.name)
    (hmax : info.partitions.length ≤ maxEntries) :
    RoundTrip mem maxEntries info parts image ↔ Readable mem maxEntries info parts := by
  have hread : readPartitionTable image 0x1014 fwup maxEntries = _ := h.read hnames
  constructor
  · rintro ⟨es, hes, hentries, hparts⟩
    rw [hread] at hes
    split at hes
    · cases hes
    next hne =>
      split at hes
      next hlen =>
        obtain rfl := Option.some.inj (Except.ok.inj hes)
        have hbases := (entries_survive h).mp hentries
        refine ⟨hne, hlen, fun pre p post hsplit => ⟨hbases pre p post hsplit, fun hp => ?_⟩⟩
        obtain ⟨hget, hpre⟩ := split_parts hsplit
        have hbase : (UInt32.ofNat (baseOf pre)).toNat = baseOf pre :=
          UInt32.toNat_ofNat_of_lt' (hbases pre p post hsplit)
        have htable := (hparts _ _ p (getElem?_read hget) hget).2 hp
        rw [hpre, entry] at htable
        dsimp only at htable
        have himage : Image info (pre ++ p :: post) image := hsplit ▸ h
        rw [hbase, himage.read_flash hnames hmax hp] at htable
        by_contra hshort
        rw [if_neg hshort] at htable
        cases htable
      · cases hes
  · rintro ⟨hne, hlen, hall⟩
    rw [if_neg hne, if_pos hlen] at hread
    refine ⟨_, hread, (entries_survive h).mpr fun pre p post hs => (hall pre p post hs).1,
      fun i e p he hp => ?_⟩
    have hsplit := split_at hp
    obtain ⟨hbase, hroom⟩ := hall _ p _ hsplit
    obtain rfl := Option.some.inj (he.symm.trans (getElem?_read hp))
    have himage : Image info (parts.take i ++ p :: parts.drop (i + 1)) image := hsplit ▸ h
    obtain ⟨hend, hdata⟩ := himage.part
    have hmem : p ∈ parts := List.mem_of_getElem? hp
    have hbase' : (UInt32.ofNat (baseOf (parts.take i))).toNat = baseOf (parts.take i) :=
      UInt32.toNat_ofNat_of_lt' hbase
    have hsize : (UInt32.ofNat p.data.length).toNat = p.data.length :=
      UInt32.toNat_ofNat_of_lt' (h.size_lt hmem)
    rw [entry]
    dsimp only
    refine ⟨?_, fun htable => ?_⟩
    · rw [writePartition_eq (by dsimp only; omega)]
      dsimp only
      rw [hbase', hsize, Nat.add_comm, hdata]
    · rw [hbase', himage.read_flash hnames hmax htable, if_pos (hroom htable)]

/-- **Round trip.** What is built is read back exactly if it is readable. -/
theorem roundTrip_iff (hnames : ∀ f ∈ info.partitions, ValidName f.name)
    (hmax : info.partitions.length ≤ maxEntries)
    (hbuild : generateFactoryImage info parts = .ok image) :
    RoundTrip mem maxEntries info parts image ↔ Readable mem maxEntries info parts :=
  ((generateFactoryImage_spec info parts).of_ok hbuild).readable_iff hnames hmax

theorem osImage_nulFree : 0 ∉ ascii "os-image" := by decide

def osImage : CStr := ⟨ascii "os-image", osImage_nulFree⟩

/-- A board with two partitions. -/
def twoPartitions : DeviceInfo :=
  ⟨none, [⟨partitionTable, 0, 0x800⟩, ⟨osImage, 0x10000, 0x20000⟩], nofun⟩

theorem twoPartitions_valid : ∀ f ∈ twoPartitions.partitions, ValidName f.name := by
  intro f hf
  simp only [twoPartitions, List.mem_cons, List.not_mem_nil, or_false] at hf
  rcases hf with rfl | rfl
  · exact ⟨by decide, by decide +kernel⟩
  · exact ⟨by decide, by decide +kernel⟩

/-- The flash partition table, alone or with a kernel behind it, makes an image. -/
theorem twoPartitions_built (mem : Nat → UInt8) {parts : List ImagePart}
    (hparts : parts = [] ∨ parts = [⟨osImage, [1, 2, 3, 4, 5]⟩]) :
    ∃ p image, makePartitionTable mem twoPartitions.partitions = .ok p ∧
      generateFactoryImage twoPartitions (p :: parts) = .ok image ∧
        Image twoPartitions (p :: parts) image := by
  have htable : (magic ++ flash.text twoPartitions.partitions).length < 0x800 := by decide
  obtain ⟨p, hp, hpart⟩ := (makePartitionTable_spec mem twoPartitions.partitions).exists_ok
    fun e he => absurd he (Nat.not_le_of_lt htable)
  have hname := hpart.name
  have hlen := hpart.length
  obtain ⟨name, data⟩ := p
  dsimp only at hname hlen
  subst hname
  obtain ⟨image, himage, hspec⟩ := (generateFactoryImage_spec twoPartitions
    (⟨partitionTable, data⟩ :: parts)).exists_ok fun e he => by
      have hfind : twoPartitions.partitions.find? (fun f => f.name = partitionTable) =
        some ⟨partitionTable, 0, 0x800⟩ := by decide
      have hfirst : Accepted twoPartitions.partitions ⟨partitionTable, data⟩ :=
        ⟨_, hfind, Nat.le_of_eq hlen⟩
      have hsecond : Accepted twoPartitions.partitions ⟨osImage, [1, 2, 3, 4, 5]⟩ :=
        ⟨⟨osImage, 0x10000, 0x20000⟩, by decide, by decide⟩
      rcases hparts with rfl | rfl
      · rcases he with ⟨q, hq, hnot⟩ | hlong
        · obtain rfl := List.mem_singleton.mp hq
          exact hnot hfirst
        · rw [entries, entries, hlen] at hlong
          dsimp only at hlong
          exact absurd hlong (by decide)
      · rcases he with ⟨q, hq, hnot⟩ | hlong
        · rcases List.mem_cons.mp hq with rfl | hq
          · exact hnot hfirst
          · obtain rfl := List.mem_singleton.mp hq
            exact hnot hsecond
        · rw [entries, entries, entries, hlen] at hlong
          dsimp only at hlong
          exact absurd hlong (by decide)
  exact ⟨_, image, hp, himage, hspec⟩

theorem roundTrip_twoPartitions : ∃ p image,
    makePartitionTable (fun _ => 0) twoPartitions.partitions = .ok p ∧
      generateFactoryImage twoPartitions [p, ⟨osImage, [1, 2, 3, 4, 5]⟩] = .ok image ∧
        (RoundTrip (fun _ => 0) 32 twoPartitions [p, ⟨osImage, [1, 2, 3, 4, 5]⟩] image ↔
          Readable (fun _ => 0) 32 twoPartitions [p, ⟨osImage, [1, 2, 3, 4, 5]⟩]) := by
  obtain ⟨p, image, hp, himage, -⟩ := twoPartitions_built (fun _ => 0) (.inr rfl)
  exact ⟨p, image, hp, himage, roundTrip_iff twoPartitions_valid (by decide) himage⟩

/-- Nothing follows the flash partition table, so 2048 bytes from its fifth one on are not there. -/
theorem roundTrip_lastTable : ∃ p image,
    makePartitionTable (fun _ => 0) twoPartitions.partitions = .ok p ∧
      generateFactoryImage twoPartitions [p] = .ok image ∧
        ¬ RoundTrip (fun _ => 0) 32 twoPartitions [p] image := by
  obtain ⟨p, image, hp, himage, hspec⟩ := twoPartitions_built (fun _ => 0) (.inl rfl)
  refine ⟨p, image, hp, himage, fun h => ?_⟩
  have hread := (hspec.readable_iff twoPartitions_valid (by decide)).mp h
  exact absurd ((hread.2.2 [] p [] rfl).2 hp) (by decide)

end

end UolaOs.Safeloader
