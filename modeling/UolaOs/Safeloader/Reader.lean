import UolaOs.Safeloader.Builder

/-!
# Reading the tables

* `readPartitionTable`: the reader of both tables in tplink-safeloader.c;
* `readLines_text`: it reads back the lines of a table;
* `writePartition_eq`: what `write_partition` copies.
-/

namespace UolaOs.Safeloader

/-- `memchr`: what is before the first `c`, and what is behind it. -/
def cut (c : UInt8) : Bytes → Option (Bytes × Bytes)
  | [] => none
  | b :: bs => if b = c then some ([], bs) else (cut c bs).map fun p => (b :: p.1, p.2)

/-- `ULONG_MAX` -/
def ulongMax : Nat := 2 ^ 64 - 1

/-- An element of a line, up to a space; `seg` is what is left of the line. -/
def element (seg : Bytes) : Except Exit (Option (Bytes × Bytes)) :=
  if seg = [] then .ok none
  else
    match cut 0x20 seg with
    | none => .error .failure
    | some p => .ok (some p)

/-- The loop over the elements of a line. From `after` on is the newline and what follows. -/
def parseLine (seg after : Bytes) : Except Exit (Option FlashPart) := do
  let some (_, seg) ← element seg | return none
  let some (name, seg) ← element seg | return none
  let some (_, seg) ← element seg | return none
  let base := strtoul ulongMax 16 (seg ++ after)
  let some (_, seg) ← element seg | return none
  let some (_, seg) ← element seg | return none
  let size := strtoul ulongMax 16 (seg ++ after)
  return some ⟨.ofBytes (name.take 31), UInt32.ofNat base, UInt32.ofNat size⟩

/-- `memcmp` with the header of a line. -/
def Format.found (fmt : Format) (buf : Bytes) : Prop := buf.take fmt.hdr.length = fmt.hdr

instance (fmt : Format) (buf : Bytes) : Decidable (fmt.found buf) :=
  inferInstanceAs (Decidable (_ = _))

/-- The loop over the lines; `buf` is what is left of the buffer. A round that adds no entry goes on
at the newline. -/
def readLines (fmt : Format) (maxEntries : Nat) :
    Nat → Bytes → List FlashPart → Except Exit (List FlashPart)
  | 0, _, entries => .ok entries
  | rounds + 1, buf, entries =>
    if fmt.hdr.length < buf.length ∧ fmt.found buf then
      match cut 10 buf with
      | none => .ok entries
      | some (seg, after) => do
        match ← parseLine seg (10 :: after) with
        | none => readLines fmt maxEntries rounds (10 :: after) entries
        | some e =>
          -- `add_flash_partition`
          if maxEntries ≤ entries.length then throw .failure
          readLines fmt maxEntries rounds after (entries ++ [e])
    else .ok entries

/-- `fread` of `n` bytes in one piece. -/
def readAll (file : Bytes) (pos n : Nat) : Except Exit Bytes :=
  if (load file pos n).length = n then .ok (load file pos n) else .error .failure

/-- `read_partition_table`, `none` when there is none. -/
def readPartitionTable (file : Bytes) (offset : Nat) (fmt : Format) (maxEntries : Nat) :
    Except Exit (Option (List FlashPart)) := do
  let buf ← readAll file offset 2048
  let buf := buf.set 2047 0
  if ¬ fmt.found buf then return none
  return some (← readLines fmt maxEntries buf.length buf [])

/-- `write_partition`: what it writes, 4 KiB at a time. -/
def writePartition (file : Bytes) (firmwareOffset : Nat) (e : FlashPart) : Except Exit Bytes := do
  let pos := e.base.toNat + firmwareOffset
  let size := e.size.toNat
  let out ← (List.range (size / 4096)).foldlM (fun out i => do
    let bs ← readAll file (pos + 4096 * i) 4096
    return out ++ bs) []
  if size % 4096 = 0 then return out
  let bs ← readAll file (pos + 4096 * (size / 4096)) (size % 4096)
  return out ++ bs

/-! ## The lines of a table -/

/-- A name that a table can hold. -/
def ValidName (name : CStr) : Prop := name.length ≤ 31 ∧ ∀ c ∈ name.bytes, isSpace c = false

/-- The text of entries. -/
def Format.text (fmt : Format) (es : List FlashPart) : Bytes :=
  es.flatMap fun e => fmt.line e.name e.base.toNat e.size.toNat

/-- What the reader needs of a format. -/
structure Format.Wf (fmt : Format) : Prop where
  hdr : ∀ c ∈ fmt.hdr, isSpace c = false
  nulFree : 0 ∉ fmt.hdr
  ne_nil : fmt.hdr ≠ []
  eol : ∀ c ∈ fmt.eol, c ≠ 10 ∧ c ≠ 0x20 ∧ digitValue c = none

theorem wf_fwup : fwup.Wf :=
  ⟨by decide +kernel, by decide, by decide, by decide +kernel⟩

theorem wf_flash : flash.Wf :=
  ⟨by decide +kernel, by decide, by decide, by decide +kernel⟩

section
variable {fmt : Format} {name : CStr} {base size : Nat} {a b bs rest after : Bytes} {c : UInt8}

theorem cut_append (h : c ∉ a) (b : Bytes) : cut c (a ++ c :: b) = some (a, b) := by
  induction a with
  | nil => simp [cut]
  | cons x a ih =>
    rw [List.mem_cons, not_or] at h
    rw [List.cons_append, cut, if_neg (Ne.symm h.1), ih h.2]
    rfl

theorem element_append (h : 0x20 ∉ a) (b : Bytes) : element (a ++ 0x20 :: b) = .ok (some (a, b)) := by
  rw [element, if_neg (by simp), cut_append h]

theorem not_mem_of_isSpace {p : Bytes} (h : ∀ x ∈ p, isSpace x = false) (hc : isSpace c = true) :
    c ∉ p := fun hmem => by
  have hfalse := h c hmem
  rw [hc] at hfalse
  cases hfalse

theorem isSpace_hexPadded {upper : Bool} {width n : Nat} :
    ∀ x ∈ hexPadded upper width n, isSpace x = false := by
  intro x hx
  obtain ⟨d, hd, rfl⟩ := digit_of_mem_hexPadded hx
  interval_cases d <;> cases upper <;> rfl

/-- A line without its newline. -/
def Format.seg (fmt : Format) (name : CStr) (base size : Nat) : Bytes :=
  fmt.hdr ++ 0x20 :: (name.bytes ++ 0x20 :: (ascii "base" ++ 0x20 :: (ascii "0x" ++
    (hexPadded false 5 base ++ 0x20 :: (ascii "size" ++ 0x20 :: (ascii "0x" ++
      (hexPadded false 5 size ++ fmt.eol)))))))

theorem line_eq : fmt.line name base size = fmt.seg name base size ++ [10] := by
  simp only [Format.line, Format.seg, List.append_assoc, List.cons_append]

theorem newline_not_mem_seg (hf : fmt.Wf) (hname : ValidName name) :
    10 ∉ fmt.seg name base size := by
  have h₁ : 10 ∉ fmt.hdr := not_mem_of_isSpace hf.hdr rfl
  have h₂ : 10 ∉ name.bytes := not_mem_of_isSpace hname.2 rfl
  have h₃ (n : Nat) : 10 ∉ hexPadded false 5 n := not_mem_of_isSpace isSpace_hexPadded rfl
  have h₄ : 10 ∉ fmt.eol := fun h => (hf.eol 10 h).1 rfl
  have h₅ : 10 ∉ ascii "base" := by decide
  have h₆ : 10 ∉ ascii "size" := by decide
  have h₇ : 10 ∉ ascii "0x" := by decide
  simp only [Format.seg, List.mem_append, List.mem_cons, not_or]
  exact ⟨h₁, by decide, h₂, by decide, h₅, by decide, h₇, h₃ _, by decide, h₆, by decide, h₇, h₃ _,
    h₄⟩

/-- **A line.** The elements are those of the line. -/
theorem parseLine_seg (hf : fmt.Wf) (hname : ValidName name) (hbase : base < 2 ^ 32)
    (hsize : size < 2 ^ 32) (after : Bytes) :
    parseLine (fmt.seg name base size) (10 :: after) =
      .ok (some ⟨name, UInt32.ofNat base, UInt32.ofNat size⟩) := by
  have hmax : 2 ^ 32 ≤ ulongMax := by decide
  have hhdr : 0x20 ∉ fmt.hdr := not_mem_of_isSpace hf.hdr rfl
  have hblank : 0x20 ∉ name.bytes := not_mem_of_isSpace hname.2 rfl
  have hhex : 0x20 ∉ ascii "0x" ++ hexPadded false 5 base := by
    rw [List.mem_append, not_or]
    exact ⟨by decide, not_mem_of_isSpace isSpace_hexPadded rfl⟩
  have hshort : CStr.ofBytes (name.bytes.take 31) = name := by
    rw [List.take_of_length_le hname.1, CStr.ofBytes_bytes]
  have hend : takeDigits 16 (fmt.eol ++ 10 :: after) = [] := by
    cases he : fmt.eol with
    | nil => rfl
    | cons c eol =>
      have hc := (hf.eol c (he ▸ List.mem_cons_self)).2.2
      rw [List.cons_append, takeDigits, hc]
  rw [parseLine, Format.seg, element_append hhdr, ok_bind]
  dsimp only
  rw [element_append hblank, ok_bind]
  dsimp only
  rw [element_append (by decide), ok_bind]
  dsimp only
  rw [← List.append_assoc (ascii "0x"), element_append hhex, ok_bind]
  dsimp only
  rw [element_append (by decide), ok_bind]
  dsimp only
  have hstrtoul (n : Nat) (rest : Bytes) (hn : n < 2 ^ 32) (hr : takeDigits 16 rest = []) :
      strtoul ulongMax 16 (ascii "0x" ++ (hexPadded false 5 n ++ rest)) = n :=
    strtoul_hexPadded false 5 (by omega) hr
  simp only [List.append_assoc, List.cons_append]
  rw [hstrtoul base _ hbase rfl, hstrtoul size _ hsize hend, hshort]
  rfl

/-! ## The loop over the lines -/

theorem found_line (rest : Bytes) : fmt.found (fmt.line name base size ++ rest) := by
  rw [Format.found, Format.line, List.append_assoc, List.take_left]

theorem hdr_length_lt (rest : Bytes) :
    fmt.hdr.length < (fmt.line name base size ++ rest).length := by
  rw [Format.line]
  simp only [List.length_append, List.length_cons]
  omega

/-- A round takes a line. -/
theorem readLines_line {maxEntries rounds : Nat} {es : List FlashPart} (hf : fmt.Wf)
    {e : FlashPart} (hname : ValidName e.name) (rest : Bytes) :
    readLines fmt maxEntries (rounds + 1) (fmt.line e.name e.base.toNat e.size.toNat ++ rest) es =
      if maxEntries ≤ es.length then .error .failure
      else readLines fmt maxEntries rounds rest (es ++ [e]) := by
  have hcut : cut 10 (fmt.line e.name e.base.toNat e.size.toNat ++ rest) =
      some (fmt.seg e.name e.base.toNat e.size.toNat, rest) := by
    rw [line_eq, List.append_assoc]
    exact cut_append (newline_not_mem_seg hf hname) rest
  have hparse := parseLine_seg hf hname e.base.toNat_lt e.size.toNat_lt rest
  rw [UInt32.ofNat_toNat, UInt32.ofNat_toNat] at hparse
  rw [readLines, if_pos ⟨hdr_length_lt rest, found_line rest⟩, hcut]
  dsimp only
  rw [hparse, ok_bind]
  rfl

theorem not_found_zero (hf : fmt.Wf) (rest : Bytes) : ¬ fmt.found (0 :: rest) := by
  intro hfound
  cases hhdr : fmt.hdr with
  | nil => exact hf.ne_nil hhdr
  | cons c hdr =>
    rw [Format.found, hhdr, List.length_cons, List.take_succ_cons] at hfound
    have hzero : 0 ∈ fmt.hdr := by
      rw [hhdr, ← hfound]
      exact List.mem_cons_self
    exact hf.nulFree hzero

/-- **The lines.** They are read up to the zero behind them, if there is room. -/
theorem readLines_text {maxEntries rounds : Nat} {es done : List FlashPart} (hf : fmt.Wf)
    (hnames : ∀ e ∈ es, ValidName e.name) (rest : Bytes) (hdone : done.length ≤ maxEntries)
    (hrounds : es.length < rounds) :
    readLines fmt maxEntries rounds (fmt.text es ++ 0 :: rest) done =
      if done.length + es.length ≤ maxEntries then .ok (done ++ es) else .error .failure := by
  induction es generalizing done rounds with
  | nil =>
    cases rounds with
    | zero => exact absurd hrounds (Nat.not_lt_zero _)
    | succ rounds =>
      have htext : fmt.text [] ++ 0 :: rest = 0 :: rest := rfl
      rw [htext, readLines, if_neg fun h => not_found_zero hf rest h.2, List.length_nil,
        Nat.add_zero, if_pos hdone, List.append_nil]
  | cons e es ih =>
    cases rounds with
    | zero => exact absurd hrounds (Nat.not_lt_zero _)
    | succ rounds =>
      rw [List.length_cons] at hrounds ⊢
      have htext : fmt.text (e :: es) ++ 0 :: rest =
          fmt.line e.name e.base.toNat e.size.toNat ++ (fmt.text es ++ 0 :: rest) := by
        rw [Format.text, List.flatMap_cons, List.append_assoc, Format.text]
      rw [htext, readLines_line hf (hnames e List.mem_cons_self)]
      split
      next hfull => rw [if_neg (by omega)]
      next hroom =>
        have hlen : (done ++ [e]).length = done.length + 1 := by
          rw [List.length_append, List.length_singleton]
        rw [ih (fun e' h => hnames e' (List.mem_cons_of_mem e h)) (by omega) (by omega), hlen,
          List.append_assoc, List.singleton_append, Nat.add_assoc, Nat.add_comm 1]

/-! ## Copying a partition -/

section
variable {file : Bytes} {pos n : Nat}

theorem readAll_eq (h : pos + n ≤ file.length) : readAll file pos n = .ok (load file pos n) :=
  if_pos (length_load h)

theorem readAll_short (hn : 0 < n) (h : file.length < pos + n) :
    readAll file pos n = .error .failure := by
  refine if_neg fun hlen => ?_
  rw [load, List.length_take, List.length_drop] at hlen
  omega

theorem copied {k : Nat} (h : pos + 4096 * k ≤ file.length) :
    ((List.range k).foldlM (fun out i => do
      let bs ← readAll file (pos + 4096 * i) 4096
      return out ++ bs) [] : Except Exit Bytes) = .ok (load file pos (4096 * k)) := by
  induction k with
  | zero =>
    rw [Nat.mul_zero, load, List.take_zero]
    rfl
  | succ k ih =>
    rw [Nat.mul_succ, ← Nat.add_assoc] at h
    have hread := readAll_eq h
    rw [List.range_succ, List.foldlM_append, ih (by omega), ok_bind, List.foldlM_cons, hread,
      ok_bind, Nat.mul_succ, load_add]
    rfl

theorem writePartition_eq {firmwareOffset : Nat} {e : FlashPart}
    (h : e.base.toNat + firmwareOffset + e.size.toNat ≤ file.length) :
    writePartition file firmwareOffset e =
      .ok (load file (e.base.toNat + firmwareOffset) e.size.toNat) := by
  have hsize := Nat.div_add_mod e.size.toNat 4096
  rw [writePartition, copied (by omega), ok_bind]
  split
  next hrest =>
    rw [hrest, Nat.add_zero] at hsize
    rw [hsize]
    rfl
  next hrest =>
    rw [readAll_eq (by omega), ok_bind]
    conv_rhs => rw [← hsize, load_add]
    rfl

end

end

end UolaOs.Safeloader
