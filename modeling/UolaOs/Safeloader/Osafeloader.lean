import UolaOs.Lib.File
import UolaOs.Lib.Scanf
import UolaOs.Safeloader.RoundTrip

/-!
# The SafeLoader tool

`osafeloader info` and `osafeloader extract` of osafeloader.c on what the builder makes, where an
`int` has 32 bits and a `long` 64. The output can be written.

* `scanLine_line`: a line of the image partition table;
* `osafeloader_agree`: each part is listed and extracted.
-/

namespace UolaOs.Osafeloader

open Safeloader

/-- How a command ends early. -/
inductive Exit where
  | eio
  | enoent
  /-- An access outside of an array, or an overflow of an `int`. -/
  | fault
  deriving DecidableEq

/-- The value of an `int` with these bits. -/
def int (x : UInt32) : Int := if x.toNat < 2 ^ 31 then x.toNat else x.toNat - 2 ^ 32

/-- `fwup-ptn %s base 0x%x size 0x%x\t\r\n` -/
def format : List Directive :=
  lits (ascii "fwup-ptn") ++ .space :: .str :: .space :: (lits (ascii "base") ++ .space ::
    (lits (ascii "0x") ++ .hex :: .space :: (lits (ascii "size") ++ .space ::
      (lits (ascii "0x") ++ [.hex, .space]))))

/-- `fscanf` of a line, and what is left of the file. `name` has 32 bytes. -/
def scanLine (s : Bytes) : Except Exit (Option (CStr × UInt32 × UInt32) × Bytes) :=
  let r := scanf format s
  match r.1 with
  | .str name :: values =>
    if 31 < name.length then .error .fault
    else
      match values with
      | [.num base, .num size] =>
        .ok (some (.ofBytes name, UInt32.ofNat base, UInt32.ofNat size), r.2)
      | _ => .ok (none, r.2)
  | _ => .ok (none, r.2)

/-! ## `osafeloader info` -/

/-- What is printed: a partition has its name, `base` and `base + size`. -/
structure Info where
  imagesize : Nat
  md5 : Bytes
  partitions : List (CStr × UInt32 × UInt32)
  deriving DecidableEq

/-- The loop over the lines; each takes some of the file. -/
def listLoop : Nat → Bytes → List (CStr × UInt32 × UInt32) →
    Except Exit (List (CStr × UInt32 × UInt32))
  | 0, _, out => .ok out
  | rounds + 1, s, out => do
    let (line, s) ← scanLine s
    match line with
    | none => .ok out
    | some (name, base, size) =>
      let sum := int base + int size
      if sum < -2 ^ 31 ∨ 2 ^ 31 ≤ sum then throw .fault
      listLoop rounds s (out ++ [(name, base, base + size)])

/-- `osafeloader_info` -/
def osafeloaderInfo (file : Bytes) : Except Exit Info := do
  let hdr := load file 0 20
  if hdr.length ≠ 20 then throw .eio
  let imagesize := Endian.big.get (load hdr 0 4)
  let ctx := Seama.Openwall.update Seama.Openwall.init md5Salt
  let ctx := copyChunks 1024 Seama.Openwall.update ctx (load file 20 imagesize)
  let md5 := Seama.Openwall.final ctx
  if md5 ≠ load hdr 4 16 then throw .eio
  let partitions ← listLoop file.length (file.drop 0x1014) []
  return ⟨imagesize, md5, partitions⟩

/-! ## `osafeloader extract` -/

/-- The copy loop at `pos`: what is written, and what `size` is in the end. A negative `size` is a
large `size_t`. Each round takes some of the file. -/
def copyOut (file : Bytes) : Nat → Nat → UInt32 → Bytes → Bytes × UInt32
  | 0, _, size, out => (out, size)
  | rounds + 1, pos, size, out =>
    let bs := load file pos (if int size < 0 then 1024 else min 1024 size.toNat)
    if bs = [] then (out, size)
    else copyOut file rounds (pos + bs.length) (size - UInt32.ofNat bs.length) (out ++ bs)

/-- What is copied for a line, with `s` left of the file. `fseek` does not go before the file. -/
def extractPart (file s : Bytes) (base size : UInt32) : Except Exit Bytes :=
  let target := 20 + 0x1000 + int base
  let pos := if target < 0 then file.length - s.length else target.toNat
  let r := copyOut file file.length pos size []
  if r.2 ≠ 0 then .error .eio else .ok r.1

/-- The loop over the lines, with `s` left of the file. -/
def extractLoop (file : Bytes) (partitionName : CStr) : Nat → Bytes → Except Exit Bytes
  | 0, _ => .error .enoent
  | rounds + 1, s => do
    let (line, s) ← scanLine s
    match line with
    | none => .error .enoent
    | some (name, base, size) =>
      if name ≠ partitionName then extractLoop file partitionName rounds s
      else extractPart file s base size

/-- `osafeloader_extract`: the output file. -/
def osafeloaderExtract (file : Bytes) (partitionName : CStr) : Except Exit Bytes :=
  if (load file 0 20).length ≠ 20 then .error .eio
  else extractLoop file partitionName file.length (file.drop (20 + 0x1000))

/-! ## Reading a line -/

/-- A name that a line can hold. -/
def Named (name : CStr) : Prop := ValidName name ∧ name.bytes ≠ []

/-- Neither white space nor the first letter of a line. -/
def Stop (s : Bytes) : Prop := ∃ b rest, s = b :: rest ∧ isSpace b = false ∧ b ≠ 0x66

section
variable {name partitionName : CStr} {base size rounds pos : Nat} {e : FlashPart}
  {es : List FlashPart} {file s rest out : Bytes} {listed : List (CStr × UInt32 × UInt32)}

theorem Stop.solid (h : Stop s) : Solid s := by
  obtain ⟨b, rest, rfl, hb, -⟩ := h
  exact solid_cons hb rest

theorem solid_of_append {t : Bytes} (ht : ∀ b ∈ t, isSpace b = false) (hne : t ≠ [])
    (s : Bytes) : Solid (t ++ s) := by
  cases t with
  | nil => exact absurd rfl hne
  | cons b t => exact solid_cons (ht b List.mem_cons_self) _

theorem solid_line (rest : Bytes) : Solid (fwup.line name base size ++ rest) := by
  rw [Format.line, List.append_assoc]
  exact solid_of_append wf_fwup.hdr wf_fwup.ne_nil _

/-- **A line.** `fscanf` takes the line, with all the white space at its end. -/
theorem scanLine_line (hname : Named name) (hbase : base < 2 ^ 32) (hsize : size < 2 ^ 32)
    (hrest : Solid rest) :
    scanLine (fwup.line name base size ++ rest) =
      .ok (some (name, UInt32.ofNat base, UInt32.ofNat size), rest) := by
  obtain ⟨⟨hlen, hplain⟩, hne⟩ := hname
  have hscan : scanf format (fwup.line name base size ++ rest) =
      ([.str name.bytes, .num base, .num size], rest) := by
    have hword (t : Bytes) : Solid (name.bytes ++ t) := solid_of_append hplain hne t
    have hword₁ (t : Bytes) : Solid (ascii "base" ++ t) :=
      solid_of_append (by decide +kernel) (by decide) t
    have hword₂ (t : Bytes) : Solid (ascii "size" ++ t) :=
      solid_of_append (by decide +kernel) (by decide) t
    have hword₃ (t : Bytes) : Solid (ascii "0x" ++ t) :=
      solid_of_append (by decide +kernel) (by decide) t
    have hend : scanf [.space] (9 :: 13 :: 10 :: rest) = ([], rest) :=
      scanf_spaces (t := [9, 13, 10]) (by decide +kernel) hrest
    simp only [Format.line, fwup, List.append_assoc, List.cons_append, List.nil_append, format]
    rw [scanf_lits, scanf_space (hword _), scanf_str hne hplain, scanf_space (hword₁ _), scanf_lits,
      scanf_space (hword₃ _), scanf_lits, scanf_hex hbase (by decide) rfl, scanf_space (hword₂ _),
      scanf_lits, scanf_space (hword₃ _), scanf_lits, scanf_hex hsize (by decide) rfl, hend]
  have hfits : ¬ 31 < name.bytes.length := Nat.not_lt_of_le hlen
  rw [scanLine, hscan]
  dsimp only
  rw [if_neg hfits, CStr.ofBytes_bytes]

theorem scanLine_stop (h : Stop s) : scanLine s = .ok (none, s) := by
  obtain ⟨b, rest, rfl, -, hb⟩ := h
  have hscan : scanf format (b :: rest) = ([], b :: rest) := if_neg hb
  rw [scanLine, hscan]

theorem text_cons (e : FlashPart) (es : List FlashPart) :
    fwup.text (e :: es) = fwup.line e.name e.base.toNat e.size.toNat ++ fwup.text es :=
  List.flatMap_cons

theorem scanLine_text (hname : Named e.name) (hrest : Stop rest) :
    scanLine (fwup.text (e :: es) ++ rest) =
      .ok (some (e.name, e.base, e.size), fwup.text es ++ rest) := by
  have hsolid : Solid (fwup.text es ++ rest) := by
    cases es with
    | nil => exact hrest.solid
    | cons e es =>
      rw [text_cons, List.append_assoc]
      exact solid_line _
  rw [text_cons, List.append_assoc, scanLine_line hname e.base.toNat_lt e.size.toNat_lt hsolid,
    UInt32.ofNat_toNat, UInt32.ofNat_toNat]

theorem int_eq {x : UInt32} (h : x.toNat < 2 ^ 31) : int x = x.toNat := if_pos h

/-! ## The loops -/

/-- **The list.** Every line is listed with its end. -/
theorem listLoop_text (hnames : ∀ e ∈ es, Named e.name)
    (hends : ∀ e ∈ es, e.base.toNat + e.size.toNat < 2 ^ 31) (hrest : Stop rest)
    (hrounds : es.length < rounds) :
    listLoop rounds (fwup.text es ++ rest) listed =
      .ok (listed ++ es.map fun e => (e.name, e.base, e.base + e.size)) := by
  induction es generalizing rounds listed with
  | nil =>
    cases rounds with
    | zero => exact absurd hrounds (Nat.not_lt_zero _)
    | succ rounds =>
      have hstop : scanLine (fwup.text [] ++ rest) = .ok (none, rest) := scanLine_stop hrest
      rw [listLoop, hstop, List.map_nil, List.append_nil]
      rfl
  | cons e es ih =>
    cases rounds with
    | zero => exact absurd hrounds (Nat.not_lt_zero _)
    | succ rounds =>
      rw [List.length_cons] at hrounds
      have hend := hends e List.mem_cons_self
      have hsum : ¬ (int e.base + int e.size < -2 ^ 31 ∨ 2 ^ 31 ≤ int e.base + int e.size) := by
        rw [int_eq (by omega), int_eq (by omega)]
        omega
      rw [listLoop, scanLine_text (hnames e List.mem_cons_self) hrest, ok_bind]
      dsimp only
      rw [if_neg hsum]
      refine (ih (fun e' h => hnames e' (List.mem_cons_of_mem e h))
        (fun e' h => hends e' (List.mem_cons_of_mem e h)) (by omega)).trans ?_
      rw [List.append_assoc, List.map_cons, List.singleton_append]

/-- The copy of a region that is in the file. -/
theorem copyOut_eq {size : UInt32} (hroom : pos + size.toNat ≤ file.length)
    (hsize : size.toNat < 2 ^ 31) (hrounds : size.toNat ≤ rounds) :
    copyOut file rounds pos size out = (out ++ load file pos size.toNat, 0) := by
  induction rounds generalizing pos size out with
  | zero =>
    obtain rfl : size = 0 := UInt32.toNat.inj (Nat.le_zero.mp hrounds)
    exact congrArg (·, 0) (List.append_nil out).symm
  | succ rounds ih =>
    have hint : ¬ int size < 0 := by
      rw [int_eq hsize]
      omega
    obtain ⟨k, hk⟩ : ∃ k, min 1024 size.toNat = k := ⟨_, rfl⟩
    have hlen : (load file pos k).length = k := length_load (by omega)
    rw [copyOut, if_neg hint, hk]
    split
    next hnil =>
      rw [hnil, List.length_nil] at hlen
      obtain rfl : size = 0 := UInt32.toNat.inj (by
        show size.toNat = 0
        omega)
      exact congrArg (·, 0) (List.append_nil out).symm
    next hne =>
      have hpos := List.length_pos_of_ne_nil hne
      rw [hlen] at hpos ⊢
      have hleft : (size - UInt32.ofNat k).toNat = size.toNat - k := by
        have hk32 : (UInt32.ofNat k).toNat = k := UInt32.toNat_ofNat_of_lt' (by
          show k < 2 ^ 32
          omega)
        rw [UInt32.toNat_sub_of_le, hk32]
        rw [UInt32.le_iff_toNat_le, hk32]
        omega
      rw [ih (by omega) (by omega) (by omega), hleft, List.append_assoc, ← load_add,
        Nat.add_sub_cancel' (by omega)]

/-- A line with another name is passed over. -/
theorem extractLoop_skip (hname : Named e.name) (hrest : Stop rest)
    (hne : e.name ≠ partitionName) :
    extractLoop file partitionName (rounds + 1) (fwup.text (e :: es) ++ rest) =
      extractLoop file partitionName rounds (fwup.text es ++ rest) := by
  rw [extractLoop, scanLine_text hname hrest, ok_bind]
  exact if_pos hne

theorem extractLoop_found (hname : Named e.name) (hrest : Stop rest)
    (heq : e.name = partitionName) :
    extractLoop file partitionName (rounds + 1) (fwup.text (e :: es) ++ rest) =
      extractPart file (fwup.text es ++ rest) e.base e.size := by
  rw [extractLoop, scanLine_text hname hrest, ok_bind]
  exact if_neg (not_not.mpr heq)

theorem extractPart_eq (hint : e.base.toNat + e.size.toNat < 2 ^ 31)
    (hroom : 0x1014 + e.base.toNat + e.size.toNat ≤ file.length) (s : Bytes) :
    extractPart file s e.base e.size = .ok (load file (0x1014 + e.base.toNat) e.size.toNat) := by
  have htarget : 20 + 0x1000 + int e.base = ((0x1014 + e.base.toNat : Nat) : Int) := by
    rw [int_eq (by omega)]
    omega
  rw [extractPart, htarget, if_neg (Int.not_lt.mpr (Int.natCast_nonneg _)), Int.toNat_natCast,
    copyOut_eq hroom (by omega) (by omega)]
  rfl

/-- **The search.** The first line of that name is copied. -/
theorem extractLoop_text (hnames : ∀ e ∈ es, Named e.name)
    (hends : ∀ e ∈ es, e.base.toNat + e.size.toNat < 2 ^ 31 ∧
      0x1014 + e.base.toNat + e.size.toNat ≤ file.length)
    (hrest : Stop rest) (hrounds : es.length < rounds) :
    extractLoop file partitionName rounds (fwup.text es ++ rest) =
      (es.find? fun e => e.name = partitionName).elim (.error .enoent)
        fun e => .ok (load file (0x1014 + e.base.toNat) e.size.toNat) := by
  induction es generalizing rounds with
  | nil =>
    cases rounds with
    | zero => exact absurd hrounds (Nat.not_lt_zero _)
    | succ rounds =>
      have hstop : scanLine (fwup.text [] ++ rest) = .ok (none, rest) := scanLine_stop hrest
      rw [extractLoop, hstop]
      rfl
  | cons e es ih =>
    cases rounds with
    | zero => exact absurd hrounds (Nat.not_lt_zero _)
    | succ rounds =>
      rw [List.length_cons] at hrounds
      by_cases hname : e.name = partitionName
      · obtain ⟨hint, hroom⟩ := hends e List.mem_cons_self
        rw [extractLoop_found (hnames e List.mem_cons_self) hrest hname,
          extractPart_eq hint hroom]
        simp only [List.find?_cons, hname, decide_true, Option.elim]
      · rw [extractLoop_skip (hnames e List.mem_cons_self) hrest hname]
        simp only [List.find?_cons, hname, decide_false]
        exact ih (fun e' h => hnames e' (List.mem_cons_of_mem e h))
          (fun e' h => hends e' (List.mem_cons_of_mem e h)) (by omega)

end

/-! ## Agreement -/

section
variable {info : DeviceInfo} {parts pre post : List ImagePart} {p : ImagePart} {image : Bytes}
  {name : CStr}

/-- The digest of what follows the header. -/
theorem final_chunks (data : Bytes) :
    Seama.Openwall.final (copyChunks 1024 Seama.Openwall.update
      (Seama.Openwall.update Seama.Openwall.init md5Salt) data) = Md5.digest (md5Salt ++ data) := by
  have hrep : Seama.Openwall.Rep (copyChunks 1024 Seama.Openwall.update
      (Seama.Openwall.update Seama.Openwall.init md5Salt) data) (md5Salt ++ data) :=
    copyChunks_induction (by decide) (fun _ _ b h _ _ => h.update b)
      (Seama.Openwall.rep_init.update md5Salt)
  exact hrep.final

/-- What the readers find in the table. -/
theorem table_read (h : Image info parts image) :
    ∃ rest, Stop rest ∧
      image.drop 0x1014 = fwup.text ((entries 0x800 parts).map entry) ++ rest := by
  have hlength := h.length
  have hshort := h.text.short
  have hsplit : image.drop 0x1014 =
      load image 0x1014 0x800 ++ load image 0x1814 (image.length - 0x1814) := by
    have hcount : image.length - 0x1014 = 0x800 + (image.length - 0x1814) := by omega
    rw [drop_eq_load rfl, hcount, load_add]
  by_cases hnil : parts = []
  · refine ⟨load image 0x1014 0x800 ++ load image 0x1814 (image.length - 0x1814), ?_, ?_⟩
    · rw [h.blank hnil]
      exact ⟨0xff, _, rfl, by decide, by decide⟩
    · have htext : fwup.text ((entries 0x800 []).map entry) = [] := rfl
      rw [hsplit, hnil, htext, List.nil_append]
  · obtain ⟨rest, hload⟩ := load_text (n := 0x800) h.text.text (h.zero hnil) hshort
    refine ⟨0 :: (rest ++ load image 0x1814 (image.length - 0x1814)),
      ⟨0, _, rfl, by decide, by decide⟩, ?_⟩
    rw [hsplit, hload, List.append_assoc, List.cons_append]

theorem image_length (h : Image info parts image) : image.length = 0x1014 + baseOf parts := by
  have hlength := h.length
  rw [baseOf]
  omega

/-- The fields of an entry hold what they are for. -/
theorem entry_fields (h : Image info (pre ++ p :: post) image)
    (hsize : baseOf (pre ++ p :: post) < 2 ^ 31) :
    (UInt32.ofNat (baseOf pre)).toNat = baseOf pre ∧
      (UInt32.ofNat p.data.length).toNat = p.data.length := by
  have hlength := image_length h
  obtain ⟨hend, -⟩ := h.part
  have hbase : baseOf pre < 2 ^ 32 := by omega
  have hlen : p.data.length < 2 ^ 32 := by omega
  exact ⟨UInt32.toNat_ofNat_of_lt' hbase, UInt32.toNat_ofNat_of_lt' hlen⟩

theorem entry_room (h : Image info parts image) (hsize : baseOf parts < 2 ^ 31)
    {e : FlashPart} (he : e ∈ (entries 0x800 parts).map entry) :
    e.base.toNat + e.size.toNat < 2 ^ 31 ∧
      0x1014 + e.base.toNat + e.size.toNat ≤ image.length := by
  obtain ⟨e', he', rfl⟩ := List.mem_map.mp he
  obtain ⟨pre, p, post, rfl, rfl⟩ := mem_entries he'
  have hlength := image_length h
  obtain ⟨hend, -⟩ := h.part
  obtain ⟨hbase, hlen⟩ := entry_fields h hsize
  show (UInt32.ofNat (baseOf pre)).toNat + (UInt32.ofNat p.data.length).toNat < 2 ^ 31 ∧
    0x1014 + (UInt32.ofNat (baseOf pre)).toNat + (UInt32.ofNat p.data.length).toNat ≤ image.length
  rw [hbase, hlen]
  omega

theorem entry_named (hnames : ∀ p ∈ parts, Named p.name) {e : FlashPart}
    (he : e ∈ (entries 0x800 parts).map entry) : Named e.name := by
  obtain ⟨e', he', rfl⟩ := List.mem_map.mp he
  obtain ⟨pre, p, post, rfl, rfl⟩ := mem_entries he'
  exact hnames p (List.mem_append_right _ List.mem_cons_self)

/-- **The listing.** -/
theorem osafeloaderInfo_eq (h : Image info parts image) (hnames : ∀ p ∈ parts, Named p.name)
    (hsize : baseOf parts < 2 ^ 31) :
    osafeloaderInfo image = .ok ⟨image.length, Md5.digest (md5Salt ++ image.drop 0x14),
      ((entries 0x800 parts).map entry).map fun e => (e.name, e.base, e.base + e.size)⟩ := by
  have hlength := image_length h
  have hlow : 0x800 ≤ baseOf parts := Nat.le_add_right _ _
  have hhdr : (load image 0 20).length = 20 := length_load (by omega)
  have hfield : load (load image 0 20) 0 4 = load image 0 4 := load_load (by decide)
  have hdigest : load (load image 0 20) 4 16 = load image 4 16 := load_load (by decide)
  have hget : Endian.big.get (load (load image 0 20) 0 4) = image.length := by
    rw [hfield, h.imagesize, u32, Nat.mod_eq_of_lt (by omega), Endian.get_put_of_lt _ (by omega)]
  have hall : load image 20 image.length = image.drop 20 := by
    rw [load, List.take_of_length_le]
    rw [List.length_drop]
    omega
  have hmd5 := h.md5 (by omega)
  obtain ⟨rest, hstop, htable⟩ := table_read h
  have hcount := length_le_text fwup ((entries 0x800 parts).map entry)
  have hshort := h.text.short
  have hlist : listLoop image.length (fwup.text ((entries 0x800 parts).map entry) ++ rest) [] =
      .ok ([] ++ ((entries 0x800 parts).map entry).map fun e => (e.name, e.base, e.base + e.size)) :=
    listLoop_text (fun e he => entry_named hnames he) (fun e he => (entry_room h hsize he).1) hstop
      (by omega)
  rw [osafeloaderInfo, if_neg (not_not.mpr hhdr), hget]
  dsimp only
  rw [hall, final_chunks, hdigest, hmd5,
    if_neg (fun hne => hne rfl), htable, hlist]
  rfl

/-- The entry of a name leads to its part. -/
theorem find_entries (ps : List ImagePart) (h : Image info (pre ++ ps) image)
    (hsize : baseOf (pre ++ ps) < 2 ^ 31) :
    (((entries (baseOf pre) ps).map entry).find? fun e => e.name = name).elim
        (Except.error Exit.enoent)
        (fun e => Except.ok (load image (0x1014 + e.base.toNat) e.size.toNat)) =
      (ps.find? fun p => p.name = name).elim (Except.error Exit.enoent)
        fun p => Except.ok p.data := by
  induction ps generalizing pre with
  | nil => rfl
  | cons p ps ih =>
    rw [entries, List.map_cons]
    by_cases hname : p.name = name
    · obtain ⟨hbase, hlen⟩ := entry_fields h hsize
      simp only [List.find?_cons, entry, hname, decide_true, Option.elim, hbase, hlen, h.part.2]
    · have hnext : baseOf pre + p.data.length = baseOf (pre ++ [p]) := by
        rw [baseOf, baseOf, content_append, content, content, List.flatMap_singleton,
          List.length_append, Nat.add_assoc]
      have hsplit : pre ++ p :: ps = pre ++ [p] ++ ps := List.append_cons _ _ _
      simp only [List.find?_cons, entry, hname, decide_false, hnext]
      exact ih (hsplit ▸ h) (hsplit ▸ hsize)

/-- **The extraction.** -/
theorem osafeloaderExtract_eq (h : Image info parts image) (hnames : ∀ p ∈ parts, Named p.name)
    (hsize : baseOf parts < 2 ^ 31) (name : CStr) :
    osafeloaderExtract image name =
      (parts.find? fun p => p.name = name).elim (.error .enoent) fun p => .ok p.data := by
  have hlength := image_length h
  have hlow : 0x800 ≤ baseOf parts := Nat.le_add_right _ _
  have hhdr : (load image 0 20).length = 20 := length_load (by omega)
  obtain ⟨rest, hstop, htable⟩ := table_read h
  have hcount := length_le_text fwup ((entries 0x800 parts).map entry)
  have hshort := h.text.short
  rw [osafeloaderExtract, if_neg (not_not.mpr hhdr), htable, extractLoop_text
    (fun e he => entry_named hnames he) (fun e he => entry_room h hsize he) hstop (by omega)]
  exact find_entries parts (List.nil_append parts ▸ h) (List.nil_append parts ▸ hsize)

/-- What is listed are the parts with their bases and ends. -/
theorem listed_entries (h : Image info parts image) (hsize : baseOf parts < 2 ^ 31) :
    (((entries 0x800 parts).map entry).map fun e => (e.name, e.base, e.base + e.size)).map
        (fun l => (l.1, l.2.1.toNat, l.2.2.toNat)) =
      (entries 0x800 parts).map fun e => (e.1, e.2.1, e.2.1 + e.2.2) := by
  rw [List.map_map, List.map_map]
  refine List.map_congr_left fun e he => ?_
  obtain ⟨pre, p, post, rfl, rfl⟩ := mem_entries he
  obtain ⟨hbase, hlen⟩ := entry_fields h hsize
  have hlength := image_length h
  obtain ⟨hend, -⟩ := h.part
  show (p.name, (UInt32.ofNat (baseOf pre)).toNat,
    (UInt32.ofNat (baseOf pre) + UInt32.ofNat p.data.length).toNat) =
      (p.name, baseOf pre, baseOf pre + p.data.length)
  rw [UInt32.toNat_add, hbase, hlen, Nat.mod_eq_of_lt (by omega)]

/-- **Agreement.** If the names are not empty and the end of the last part is an `int`, the tool
lists and extracts what the builder was given. -/
theorem osafeloader_agree (hnames : ∀ p ∈ parts, Named p.name) (hsize : baseOf parts < 2 ^ 31)
    (hbuild : generateFactoryImage info parts = .ok image) :
    (∃ i, osafeloaderInfo image = .ok i ∧ i.imagesize = image.length ∧
      i.partitions.map (fun l => (l.1, l.2.1.toNat, l.2.2.toNat)) =
        (entries 0x800 parts).map fun e => (e.1, e.2.1, e.2.1 + e.2.2)) ∧
      ∀ name, osafeloaderExtract image name =
        (parts.find? fun p => p.name = name).elim (.error .enoent) fun p => .ok p.data := by
  have h := (generateFactoryImage_spec info parts).of_ok hbuild
  exact ⟨⟨_, osafeloaderInfo_eq h hnames hsize, rfl, listed_entries h hsize⟩,
    osafeloaderExtract_eq h hnames hsize⟩

theorem osafeloader_agree_twoPartitions : ∃ p image,
    makePartitionTable (fun _ => 0) twoPartitions.partitions = .ok p ∧
      generateFactoryImage twoPartitions [p, ⟨osImage, [1, 2, 3, 4, 5]⟩] = .ok image ∧
      (∃ i, osafeloaderInfo image = .ok i ∧ i.imagesize = image.length ∧
        i.partitions.map (fun l => (l.1, l.2.1.toNat, l.2.2.toNat)) =
          (entries 0x800 [p, ⟨osImage, [1, 2, 3, 4, 5]⟩]).map
            fun e => (e.1, e.2.1, e.2.1 + e.2.2)) ∧
        ∀ name, osafeloaderExtract image name =
          ([p, ⟨osImage, [1, 2, 3, 4, 5]⟩].find? fun p => p.name = name).elim (.error .enoent)
            fun p => .ok p.data := by
  obtain ⟨p, image, hp, himage, -⟩ := twoPartitions_built (fun _ => 0) (.inr rfl)
  obtain ⟨hname, hlen, -⟩ := (makePartitionTable_spec _ _).of_ok hp
  have hnames : ∀ q ∈ [p, ⟨osImage, [1, 2, 3, 4, 5]⟩], Named q.name := by
    intro q hq
    simp only [List.mem_cons, List.not_mem_nil, or_false] at hq
    rcases hq with rfl | rfl
    · rw [hname]
      exact ⟨⟨by decide, by decide +kernel⟩, by decide⟩
    · exact ⟨⟨by decide, by decide +kernel⟩, by decide⟩
  have hsize : baseOf [p, ⟨osImage, [1, 2, 3, 4, 5]⟩] < 2 ^ 31 := by
    rw [baseOf, content, List.flatMap_cons, List.length_append, hlen]
    decide
  exact ⟨p, image, hp, himage, osafeloader_agree hnames hsize himage⟩

end

/-! ## Beyond the agreement -/

theorem none_fits : ∀ v ∈ (none : Option CStr), v.length ≤ 4092 := by
  intro v hv
  cases hv

/-- A board with a partition that has no name. -/
def nameless : DeviceInfo := ⟨none, [⟨.ofBytes [], 0, 1⟩], none_fits⟩

/-- A board with a partition of 2 GiB. -/
def large : DeviceInfo :=
  ⟨none, [⟨partitionTable, 0, 0x80000000⟩, ⟨osImage, 0, 1⟩], none_fits⟩

section
variable {image d rest : Bytes}

theorem nameless_built : ∃ image,
    generateFactoryImage nameless [⟨.ofBytes [], [1]⟩] = .ok image ∧
    Image nameless [⟨.ofBytes [], [1]⟩] image := by
  refine (generateFactoryImage_spec nameless [⟨.ofBytes [], [1]⟩]).exists_ok fun e he => ?_
  rcases he with ⟨q, hq, hnot⟩ | hlong
  · obtain rfl := List.mem_singleton.mp hq
    exact hnot ⟨⟨.ofBytes [], 0, 1⟩, by decide, by decide⟩
  · exact absurd hlong (by decide)

/-- `fscanf` takes the next word for the name. -/
theorem scanLine_nameless (base size : Nat) (rest : Bytes) :
    ∃ s, scanLine (fwup.line (.ofBytes []) base size ++ rest) = .ok (none, s) := by
  have hname : (CStr.ofBytes []).bytes = [] := rfl
  have hword (t : Bytes) : Solid (ascii "base" ++ t) :=
    solid_of_append (by decide +kernel) (by decide) t
  have hother (t : Bytes) : Solid (ascii "0x" ++ t) :=
    solid_of_append (by decide +kernel) (by decide) t
  have hblanks (t : Bytes) {ds : List Directive} (ht : Solid t) :
      scanf (.space :: ds) (0x20 :: 0x20 :: t) = scanf ds t :=
    scanf_spaces (t := [0x20, 0x20]) (by decide +kernel) ht
  have hmismatch (ds : List Directive) (t : Bytes) :
      scanf (lits (ascii "base") ++ ds) (ascii "0x" ++ t) = ([], ascii "0x" ++ t) := rfl
  rw [scanLine]
  simp only [Format.line, fwup, List.append_assoc, List.cons_append, List.nil_append, format, hname]
  rw [scanf_lits, hblanks _ (hword _), scanf_str (by decide) (by decide +kernel),
    scanf_space (hother _), hmismatch]
  exact ⟨_, rfl⟩

theorem large_built (hd : d.length = 2 ^ 31) :
    ∃ image, generateFactoryImage large [⟨partitionTable, d⟩, ⟨osImage, [0x66]⟩] = .ok image ∧
      Image large [⟨partitionTable, d⟩, ⟨osImage, [0x66]⟩] image := by
  refine (generateFactoryImage_spec large [⟨partitionTable, d⟩, ⟨osImage, [0x66]⟩]).exists_ok
    fun e he => ?_
  rcases he with ⟨q, hq, hnot⟩ | hlong
  · have hfind : large.partitions.find? (fun f => f.name = partitionTable) =
        some ⟨partitionTable, 0, 0x80000000⟩ := by decide
    rcases List.mem_cons.mp hq with rfl | hq
    · exact hnot ⟨_, hfind, Nat.le_of_eq hd⟩
    · obtain rfl := List.mem_singleton.mp hq
      exact hnot ⟨⟨osImage, 0, 1⟩, by decide, by decide⟩
  · rw [entries, entries, entries, hd] at hlong
    dsimp only at hlong
    exact absurd hlong (by decide)

/-- The base of the second part is negative, so the byte behind the table is copied. -/
theorem large_extract (h : Image large [⟨partitionTable, d⟩, ⟨osImage, [0x66]⟩] image)
    (hd : d.length = 2 ^ 31) : osafeloaderExtract image osImage ≠ .ok [0x66] := by
  have hentries : (entries 0x800 [⟨partitionTable, d⟩, ⟨osImage, [0x66]⟩]).map entry =
      [⟨partitionTable, 0x800, 0x80000000⟩, ⟨osImage, 0x80000800, 1⟩] := by
    rw [entries, entries, entries, hd]
    rfl
  obtain ⟨rest, hstop, htable⟩ := table_read h
  rw [hentries] at htable
  have hlow : baseOf [⟨partitionTable, d⟩, ⟨osImage, [0x66]⟩] = 0x801 + 2 ^ 31 := by
    rw [baseOf, content, List.flatMap_cons, List.flatMap_singleton, List.length_append, hd]
    rfl
  have hlength := image_length h
  have hhdr : (load image 0 20).length = 20 := length_load (by omega)
  obtain ⟨k, hk⟩ : ∃ k, image.length = k + 1 + 1 := ⟨image.length - 2, by omega⟩
  obtain ⟨b, tail, hrest, -, hb⟩ := id hstop
  have hbyte : load image (image.length - rest.length) 1 = [b] := by
    have hcount := congrArg List.length htable
    have hfront := congrArg (List.drop (fwup.text
      [⟨partitionTable, 0x800, 0x80000000⟩, ⟨osImage, 0x80000800, 1⟩]).length) htable
    rw [List.length_drop, List.length_append] at hcount
    rw [List.drop_drop, List.drop_left] at hfront
    have hpos : image.length - rest.length = 0x1014 + (fwup.text
        [⟨partitionTable, 0x800, 0x80000000⟩, ⟨osImage, 0x80000800, 1⟩]).length := by
      have hone : 0 < rest.length := by
        rw [hrest]
        exact Nat.succ_pos _
      omega
    rw [hpos, load, hfront, hrest]
    rfl
  have hcopy : copyOut image image.length (image.length - rest.length) 1 [] = ([b], 0) := by
    have hroom : image.length - rest.length + UInt32.toNat 1 ≤ image.length := by
      have hlen := congrArg List.length hbyte
      rw [load, List.length_take, List.length_drop, List.length_singleton] at hlen
      show image.length - rest.length + 1 ≤ image.length
      omega
    have hrounds : UInt32.toNat 1 ≤ image.length := by
      rw [hk]
      exact Nat.succ_le_succ (Nat.zero_le _)
    rw [copyOut_eq hroom (by decide) hrounds, List.nil_append]
    exact congrArg (·, 0) hbyte
  have hpart : extractPart image rest 0x80000800 1 = .ok [b] := by
    have hnegative : 20 + 0x1000 + int 0x80000800 < 0 := by decide
    rw [extractPart, if_pos hnegative, hcopy]
    rfl
  have hfirst : Named partitionTable := ⟨⟨by decide, by decide +kernel⟩, by decide⟩
  have hsecond : Named osImage := ⟨⟨by decide, by decide +kernel⟩, by decide⟩
  have hfound : extractLoop image osImage (k + 1)
      (fwup.text [⟨osImage, 0x80000800, 1⟩] ++ rest) = extractPart image rest 0x80000800 1 :=
    extractLoop_found hsecond hstop rfl
  rw [osafeloaderExtract, if_neg (not_not.mpr hhdr), htable, hk,
    extractLoop_skip hfirst hstop (by decide), hfound, hpart]
  intro heq
  exact hb (List.cons.inj (Except.ok.inj heq)).1

/-- A part without a name is not found, and the base of the second part does not fit into an
`int`. -/
theorem osafeloader_agree_limits :
    (∃ image, generateFactoryImage nameless [⟨.ofBytes [], [1]⟩] = .ok image ∧
      osafeloaderExtract image (.ofBytes []) = .error .enoent) ∧
    ∃ image, generateFactoryImage large
        [⟨partitionTable, List.replicate (2 ^ 31) 0⟩, ⟨osImage, [0x66]⟩] = .ok image ∧
      osafeloaderExtract image osImage ≠ .ok [0x66] := by
  constructor
  · obtain ⟨image, hbuild, h⟩ := nameless_built
    refine ⟨image, hbuild, ?_⟩
    have hlength := image_length h
    have hlow : 0x800 ≤ baseOf [⟨.ofBytes [], [1]⟩] := Nat.le_add_right _ _
    have hhdr : (load image 0 20).length = 20 := length_load (by omega)
    obtain ⟨k, hk⟩ : ∃ k, image.length = k + 1 := ⟨image.length - 1, by omega⟩
    obtain ⟨rest, -, htable⟩ := table_read h
    obtain ⟨s, hscan⟩ := scanLine_nameless 0x800 1 rest
    have htext : fwup.text ((entries 0x800 [⟨.ofBytes [], [1]⟩]).map entry) =
        fwup.line (.ofBytes []) 0x800 1 := List.append_nil _
    rw [osafeloaderExtract, if_neg (not_not.mpr hhdr), htable, htext, hk, extractLoop, hscan]
    rfl
  · obtain ⟨image, hbuild, h⟩ := large_built (d := List.replicate (2 ^ 31) 0) List.length_replicate
    exact ⟨image, hbuild, large_extract h List.length_replicate⟩

end

end UolaOs.Osafeloader
