import Mathlib.Data.Fin.VecNotation
import Mathlib.Data.Finset.Card
import Mathlib.Data.List.Nodup
import UolaOs.Lib.CString
import UolaOs.Lib.Mask
import UolaOs.Lib.Numeral

/-!
# The address resolution table of the AR8xxx switches

`ar8xxx_sw_get_arl_table` of ar8216.c, over the entries that the switch has.

* `Inv.step`: what a further entry does to the records;
* `print_iff`: when the text of a list of lines is whole;
* `arlTable_iff`: when the table is listed as it is.
-/

namespace UolaOs.Ar8216

abbrev Mac := Fin 6 → UInt8

/-- `struct arl_entry` -/
structure ArlEntry where
  portmap : BitVec 16
  mac : Mac

/-- What is read of the registers for an entry. -/
structure AtuRegs where
  val0 : BitVec 32
  val1 : BitVec 32
  val2 : BitVec 32

/-- A field of `n` bits from the bit `s` on, `BITS(s, n)`. -/
def field (val : BitVec 32) (s n : Nat) : BitVec 32 :=
  (val &&& (BitVec.ofNat 32 (2 ^ n - 1) <<< s)) >>> s

/-- A byte of an address. -/
def macByte (val : BitVec 32) (s : Nat) : UInt8 := UInt8.ofNat (field val s 8).toNat

/-- `ar8216_get_arl_entry` for `AR8XXX_ARL_GET_NEXT`, unless the status is 0. -/
def ar8216GetArlEntry (r : AtuRegs) : Option ArlEntry :=
  if field r.val2 16 4 = 0 then none
  else
    some ⟨(field r.val2 0 6).setWidth 16, ![macByte r.val0 16, macByte r.val0 24, macByte r.val1 0,
      macByte r.val1 8, macByte r.val1 16, macByte r.val1 24]⟩

/-- `ar8327_get_arl_entry` -/
def ar8327GetArlEntry (r : AtuRegs) : Option ArlEntry :=
  if field r.val2 0 4 = 0 then none
  else
    some ⟨(field r.val1 16 7).setWidth 16, ![macByte r.val0 0, macByte r.val0 8, macByte r.val0 16,
      macByte r.val0 24, macByte r.val1 0, macByte r.val1 8]⟩

/-- `AR8XXX_NUM_ARL_RECORDS` -/
def numArlRecords : Nat := 100

/-- The loop over the records before an entry, which is `none` when no port is left of it. -/
def dropSeen : List ArlEntry → ArlEntry → Option ArlEntry
  | [], a => some a
  | a1 :: records, a =>
    if a.mac = a1.mac then
      let a := { a with portmap := a.portmap &&& ~~~ a1.portmap }
      if a.portmap = 0 then none else dropSeen records a
    else dropSeen records a

/-- The loop over the entries, with the records so far. After the last entry the status is 0. -/
def readArl (getArlEntry : AtuRegs → Option ArlEntry) :
    List AtuRegs → List ArlEntry → List ArlEntry × List AtuRegs
  | [], records => (records, [])
  | r :: rs, records =>
    if records.length = numArlRecords then (records, r :: rs)
    else
      match getArlEntry r with
      | none => (records, r :: rs)
      | some a =>
        match dropSeen records a with
        | none => readArl getArlEntry rs records
        | some a => readArl getArlEntry rs (records ++ [a])

/-! ## The text -/

/-- `sizeof(priv->arl_buf)` -/
def arlBufSize : Nat := numArlRecords * 32 + 256

/-- The buffer, and `len`. -/
structure Printed where
  buf : Bytes
  len : Nat

/-- `len += snprintf(buf + len, sizeof(priv->arl_buf) - len, ..)`. A size that wraps is refused. -/
def Printed.print (p : Printed) (text : Bytes) : Printed :=
  if p.len < arlBufSize then
    ⟨poke p.buf p.len (text.take (arlBufSize - p.len - 1) ++ [0]), p.len + text.length⟩
  else if p.len = arlBufSize then ⟨p.buf, p.len + text.length⟩
  else p

def arlHeader : Bytes := ascii "address resolution table\n"

def arlTooMany : Bytes := ascii "Too many entries found, displaying the first 100 only!\n"

/-- `%d` -/
def decimal (n : Nat) : Bytes := (Nat.toDigits 10 n).map fun c => UInt8.ofNat c.toNat

def hexByte (b : UInt8) : Bytes := hexPadded false 2 b.toNat

def colon : Bytes := [0x3a]

def arlLine (port : Nat) (a : ArlEntry) : Bytes :=
  ascii "Port " ++ decimal port ++ ascii ": MAC " ++ hexByte (a.mac 5) ++ colon ++
    hexByte (a.mac 4) ++ colon ++ hexByte (a.mac 3) ++ colon ++ hexByte (a.mac 2) ++ colon ++
    hexByte (a.mac 1) ++ colon ++ hexByte (a.mac 0) ++ [0x0a]

/-- The lines of a table, in the order of the ports. -/
def arlLines (ports : Nat) (records : List ArlEntry) : List Bytes :=
  (List.range ports).flatMap fun j =>
    (records.filter fun a => decide (j ∈ a.portmap)).map (arlLine j)

/-- All that is printed. -/
def arlTexts (ports : Nat) (records : List ArlEntry) : List Bytes :=
  arlHeader :: (if records.length = numArlRecords then [arlTooMany] else []) ++
    arlLines ports records

/-- `ar8xxx_sw_get_arl_table`: the text of the records. -/
def printArl (buf : Bytes) (ports : Nat) (records : List ArlEntry) : Printed :=
  (arlTexts ports records).foldl Printed.print ⟨buf, 0⟩

/-! ## What the table is for -/

/-- An address is at a port. -/
def At (es : List ArlEntry) (mac : Mac) (port : Nat) : Prop :=
  ∃ a ∈ es, a.mac = mac ∧ port ∈ a.portmap

/-- The records of the entries that were read. -/
structure Recorded (getArlEntry : AtuRegs → Option ArlEntry) (regs : List AtuRegs)
    (es records : List ArlEntry) (rest : List AtuRegs) : Prop where
  read : ∃ front, regs = front ++ rest ∧ front.map getArlEntry = es.map some
  stops : records.length = numArlRecords ∨ ∀ r ∈ rest.head?, getArlEntry r = none
  fits : records.length ≤ numArlRecords
  once : ∀ mac port, At es mac port →
    ∃! k : Nat, ∃ a : ArlEntry, records[k]? = some a ∧ a.mac = mac ∧ port ∈ a.portmap
  only : ∀ mac port, At records mac port → At es mac port

/-- The text is whole: the length is that of all lines, and less than the buffer. -/
structure Complete (texts : List Bytes) (p : Printed) : Prop where
  len : p.len = texts.flatten.length
  lt : texts.flatten.length < arlBufSize
  text : load p.buf 0 p.len = texts.flatten

/-- The addresses at the first ports. -/
def addressesAt (ports : Nat) (es : List ArlEntry) : Finset (Mac × Nat) :=
  (es.flatMap fun a => ((List.range ports).filter fun j => decide (j ∈ a.portmap)).map
    fun j => (a.mac, j)).toFinset

section
variable {r : AtuRegs} {a : ArlEntry} {val : BitVec 32} {s n j : Nat}

theorem mem_field : j ∈ field val s n ↔ j < n ∧ s + j ∈ val := by
  rw [field, mem_shiftRight, mem_and, mem_shiftLeft, Nat.add_sub_cancel_left, mem_ones]
  constructor
  · rintro ⟨hval, -, -, -, hj⟩
    exact ⟨hj, hval⟩
  · rintro ⟨hj, hval⟩
    have hlt := lt_of_mem_mask hval
    exact ⟨hval, by omega, hlt, by omega, hj⟩

/-- The switches have seven ports at most. -/
theorem lt_of_mem_portmap (h : ar8216GetArlEntry r = some a ∨ ar8327GetArlEntry r = some a)
    (hj : j ∈ a.portmap) : j < 7 := by
  rcases h with h | h
  · rw [ar8216GetArlEntry] at h
    split at h
    · cases h
    · cases h
      exact Nat.lt_trans (mem_field.mp (mem_setWidth.mp hj).2).1 (by decide)
  · rw [ar8327GetArlEntry] at h
    split at h
    · cases h
    · cases h
      exact (mem_field.mp (mem_setWidth.mp hj).2).1

end

section
variable {getArlEntry : AtuRegs → Option ArlEntry} {a b : ArlEntry} {es records : List ArlEntry}

/-- Which ports are left of an entry. -/
theorem dropSeen_some (h : dropSeen records a = some b) :
    b.mac = a.mac ∧ ∀ j, j ∈ b.portmap ↔ j ∈ a.portmap ∧ ¬ At records a.mac j := by
  induction records generalizing a with
  | nil =>
    cases h
    exact ⟨rfl, fun j => (and_iff_left fun ⟨_, hmem, _⟩ => nomatch hmem).symm⟩
  | cons a1 records ih =>
    have hcons (j : Nat) : At (a1 :: records) a.mac j ↔
        a1.mac = a.mac ∧ j ∈ a1.portmap ∨ At records a.mac j := List.exists_mem_cons_iff ..
    rw [dropSeen] at h
    split at h
    · rename_i hmac
      dsimp only at h
      split at h
      · cases h
      · obtain ⟨hb, hports⟩ := ih h
        refine ⟨hb, fun j => ?_⟩
        rw [hports, hcons, mem_and_not, and_iff_right hmac.symm]
        tauto
    · rename_i hmac
      obtain ⟨hb, hports⟩ := ih h
      refine ⟨hb, fun j => ?_⟩
      rw [hports, hcons, or_iff_right fun hsame => hmac hsame.1.symm]

theorem dropSeen_none (h : dropSeen records a = none) {j : Nat} (hj : j ∈ a.portmap) :
    At records a.mac j := by
  induction records generalizing a with
  | nil => cases h
  | cons a1 records ih =>
    have hcons : At (a1 :: records) a.mac j ↔
        a1.mac = a.mac ∧ j ∈ a1.portmap ∨ At records a.mac j := List.exists_mem_cons_iff ..
    rw [hcons]
    rw [dropSeen] at h
    split at h
    · rename_i hmac
      by_cases hseen : j ∈ a1.portmap
      · exact .inl ⟨hmac.symm, hseen⟩
      · have hleft : j ∈ a.portmap &&& ~~~ a1.portmap := mem_and_not.mpr ⟨hj, hseen⟩
        dsimp only at h
        split at h
        · rename_i hzero
          exact absurd (hzero ▸ hleft) not_mem_zero
        · have hrest := ih h hleft
          exact .inr hrest
    · exact .inr (ih h hj)

/-- The records hold what was read, and no address twice at a port. -/
structure Inv (es records : List ArlEntry) : Prop where
  same : ∀ mac j, At records mac j ↔ At es mac j
  apart : records.Pairwise fun a b => a.mac = b.mac → ∀ j ∈ a.portmap, j ∉ b.portmap
  fits : records.length ≤ numArlRecords

theorem Inv.start : Inv [] [] := ⟨fun _ _ => Iff.rfl, .nil, Nat.zero_le _⟩

/-- An entry of which no port is left. -/
theorem Inv.drop (h : Inv es records) (hdrop : dropSeen records a = none) :
    Inv (es ++ [a]) records := by
  refine ⟨fun mac j => ?_, h.apart, h.fits⟩
  rw [h.same]
  constructor
  · rintro ⟨x, hx, hat⟩
    exact ⟨x, List.mem_append_left _ hx, hat⟩
  · rintro ⟨x, hx, hmac, hj⟩
    rcases List.mem_append.mp hx with hx | hx
    · exact ⟨x, hx, hmac, hj⟩
    · rw [List.mem_singleton.mp hx] at hmac hj
      exact (h.same mac j).mp (hmac ▸ dropSeen_none hdrop hj)

/-- An entry that is recorded with the ports that are left of it. -/
theorem Inv.record (h : Inv es records) (hdrop : dropSeen records a = some b)
    (hfree : records.length ≠ numArlRecords) : Inv (es ++ [a]) (records ++ [b]) := by
  obtain ⟨hmac, hports⟩ := dropSeen_some hdrop
  refine ⟨fun mac j => ?_, ?_, ?_⟩
  · have happend (xs : List ArlEntry) (x : ArlEntry) :
        At (xs ++ [x]) mac j ↔ At xs mac j ∨ x.mac = mac ∧ j ∈ x.portmap := by
      simp only [At, List.mem_append, List.mem_singleton, or_and_right, exists_or,
        exists_eq_left]
    rw [happend, happend, h.same, hmac, hports, h.same]
    by_cases hm : a.mac = mac
    · rw [hm]
      tauto
    · tauto
  · refine List.pairwise_append.mpr ⟨h.apart, List.pairwise_singleton _ _, fun x hx y hy => ?_⟩
    rw [List.mem_singleton.mp hy, hmac]
    exact fun hsame j hj hb => ((hports j).mp hb).2 ⟨x, hx, hsame, hj⟩
  · have hfits := h.fits
    rw [List.length_append, List.length_singleton]
    omega

/-- No address is in two records at one port. -/
theorem Inv.unique (h : Inv es records) {mac : Mac} {port : Nat} (hat : At es mac port) :
    ∃! k : Nat, ∃ a : ArlEntry, records[k]? = some a ∧ a.mac = mac ∧ port ∈ a.portmap := by
  obtain ⟨x, hx, hmac, hport⟩ := (h.same mac port).mpr hat
  obtain ⟨k, hk⟩ := List.mem_iff_getElem?.mp hx
  refine ⟨k, ⟨x, hk, hmac, hport⟩, ?_⟩
  rintro l ⟨y, hl, hmac', hport'⟩
  have hapart := List.pairwise_iff_getElem.mp h.apart
  obtain ⟨hkl, rfl⟩ := List.getElem?_eq_some_iff.mp hk
  obtain ⟨hll, rfl⟩ := List.getElem?_eq_some_iff.mp hl
  rcases Nat.lt_trichotomy l k with hlt | rfl | hlt
  · exact absurd hport (hapart l k hll hkl hlt (hmac'.trans hmac.symm) port hport')
  · rfl
  · exact absurd hport' (hapart k l hkl hll hlt (hmac.trans hmac'.symm) port hport)

theorem readArl_spec (regs : List AtuRegs) (h : Inv es records) :
    ∃ front es', regs = front ++ (readArl getArlEntry regs records).2 ∧
      front.map getArlEntry = es'.map some ∧
      Inv (es ++ es') (readArl getArlEntry regs records).1 ∧
      ((readArl getArlEntry regs records).1.length = numArlRecords ∨
        ∀ r ∈ (readArl getArlEntry regs records).2.head?, getArlEntry r = none) := by
  induction regs generalizing es records with
  | nil => exact ⟨[], [], rfl, rfl, by rwa [List.append_nil], .inr nofun⟩
  | cons r regs ih =>
    rw [readArl]
    by_cases hfull : records.length = numArlRecords
    · rw [if_pos hfull]
      exact ⟨[], [], rfl, rfl, by rwa [List.append_nil], .inl hfull⟩
    rw [if_neg hfull]
    cases hentry : getArlEntry r with
    | none =>
      refine ⟨[], [], rfl, rfl, by rwa [List.append_nil], .inr ?_⟩
      rintro x ⟨⟩
      exact hentry
    | some a =>
      dsimp only
      cases hdrop : dropSeen records a with
      | none =>
        obtain ⟨front, es', hregs, hfront, hinv, hstop⟩ := ih (h.drop hdrop)
        refine ⟨r :: front, a :: es', congrArg (r :: ·) hregs, ?_, ?_, hstop⟩
        · rw [List.map_cons, List.map_cons, hentry, hfront]
        · rwa [List.append_assoc] at hinv
      | some b =>
        obtain ⟨front, es', hregs, hfront, hinv, hstop⟩ := ih (h.record hdrop hfull)
        refine ⟨r :: front, a :: es', congrArg (r :: ·) hregs, ?_, ?_, hstop⟩
        · rw [List.map_cons, List.map_cons, hentry, hfront]
        · rwa [List.append_assoc] at hinv

end

/-! ## Printing -/

section
variable {p : Printed} {text : Bytes} {texts : List Bytes} {buf : Bytes}

/-- The buffer keeps its length, and so far the text is whole. -/
structure Whole (p : Printed) (text : Bytes) : Prop where
  buf : p.buf.length = arlBufSize
  len : p.len = text.length
  text : load p.buf 0 p.len = text

theorem Whole.print {more : Bytes} (h : Whole p text)
    (hfit : text.length + more.length < arlBufSize) : Whole (p.print more) (text ++ more) := by
  have hbuf := h.buf
  have hlen := h.len
  have htake : more.take (arlBufSize - p.len - 1) = more := List.take_of_length_le (by omega)
  have hin : p.len + (more ++ [0]).length ≤ p.buf.length := by
    rw [List.length_append, List.length_singleton]
    omega
  have hprint : p.print more = ⟨poke p.buf p.len (more ++ [0]), p.len + more.length⟩ := by
    rw [Printed.print, if_pos (by omega), htake]
  rw [hprint]
  refine ⟨(length_poke _ _ _).trans hbuf, ?_, ?_⟩
  · rw [hlen, List.length_append]
  · rw [load_add, load_poke_of_disjoint hin (.inl (by omega)), h.text, Nat.zero_add,
      load_poke hin (by rw [List.length_append]; omega), List.take_left]

theorem Whole.foldl (h : Whole p text)
    (hfit : text.length + texts.flatten.length < arlBufSize) :
    Whole (texts.foldl Printed.print p) (text ++ texts.flatten) := by
  induction texts generalizing p text with
  | nil => rwa [List.flatten_nil, List.append_nil]
  | cons more texts ih =>
    rw [List.flatten_cons, List.length_append] at hfit
    rw [List.foldl_cons, List.flatten_cons, ← List.append_assoc]
    refine ih (h.print (by omega)) ?_
    rw [List.length_append]
    omega

theorem print_iff (hbuf : buf.length = arlBufSize) (texts : List Bytes) :
    Complete texts (texts.foldl Printed.print ⟨buf, 0⟩) ↔ texts.flatten.length < arlBufSize := by
  refine ⟨Complete.lt, fun hlt => ?_⟩
  have hstart : Whole ⟨buf, 0⟩ [] := ⟨hbuf, rfl, rfl⟩
  have hwhole : Whole (texts.foldl Printed.print ⟨buf, 0⟩) ([] ++ texts.flatten) :=
    hstart.foldl (by rwa [List.length_nil, Nat.zero_add])
  rw [List.nil_append] at hwhole
  exact ⟨hwhole.len, hlt, hwhole.text⟩

end

/-! ## The length of the text -/

section
variable {a : ArlEntry} {es records : List ArlEntry} {ports j : Nat}

/-- The addresses in the order of the lines. -/
def arlPairs (ports : Nat) (records : List ArlEntry) : List (Mac × Nat) :=
  (List.range ports).flatMap fun j =>
    (records.filter fun a => decide (j ∈ a.portmap)).map fun a => (a.mac, j)

theorem length_arlLine (a : ArlEntry) (hj : j < 10) : (arlLine j a).length = 30 := by
  have hbyte (b : UInt8) : (hexByte b).length = 2 := length_hexPadded_le b.toNat_lt
  have hdecimal : (decimal j).length = 1 := by
    interval_cases j <;> rfl
  simp only [arlLine, List.length_append, hbyte, hdecimal]
  rfl

theorem length_arlLines (hports : ports ≤ 7) (records : List ArlEntry) :
    (arlLines ports records).flatten.length = 30 * (arlPairs ports records).length := by
  have hall : ∀ l ∈ (arlLines ports records).map List.length, l = 30 := by
    intro l hl
    obtain ⟨line, hline, rfl⟩ := List.mem_map.mp hl
    obtain ⟨j, hj, hin⟩ := List.mem_flatMap.mp hline
    obtain ⟨a, -, rfl⟩ := List.mem_map.mp hin
    have hlt := List.mem_range.mp hj
    exact length_arlLine a (by omega)
  have hcount : (arlLines ports records).length = (arlPairs ports records).length := by
    simp only [arlLines, arlPairs, List.length_flatMap, List.length_map]
  rw [List.length_flatten, List.eq_replicate_of_mem hall, List.sum_replicate_nat,
    List.length_map, hcount, Nat.mul_comm]

theorem mem_arlPairs {x : Mac × Nat} :
    x ∈ arlPairs ports records ↔ x.2 < ports ∧ At records x.1 x.2 := by
  simp only [arlPairs, List.mem_flatMap, List.mem_range, List.mem_map, List.mem_filter,
    decide_eq_true_eq, At]
  constructor
  · rintro ⟨j, hj, a, ⟨ha, hport⟩, rfl⟩
    exact ⟨hj, a, ha, rfl, hport⟩
  · rintro ⟨hj, a, ha, hmac, hport⟩
    exact ⟨x.2, hj, a, ⟨ha, hport⟩, Prod.ext hmac rfl⟩

theorem mem_addressesAt {x : Mac × Nat} :
    x ∈ addressesAt ports es ↔ x.2 < ports ∧ At es x.1 x.2 := by
  simp only [addressesAt, List.mem_toFinset, List.mem_flatMap, List.mem_map, List.mem_filter,
    List.mem_range, decide_eq_true_eq, At]
  constructor
  · rintro ⟨a, ha, j, ⟨hj, hport⟩, rfl⟩
    exact ⟨hj, a, ha, rfl, hport⟩
  · rintro ⟨hj, a, ha, hmac, hport⟩
    exact ⟨a, ha, x.2, ⟨hj, hport⟩, Prod.ext hmac rfl⟩

theorem nodup_arlPairs (h : Inv es records) : (arlPairs ports records).Nodup := by
  refine List.nodup_flatMap.mpr ⟨fun j _ => ?_, List.nodup_range.imp fun hne => ?_⟩
  · refine List.pairwise_map.mpr ((h.apart.filter _).imp_of_mem fun ha hb hapart heq => ?_)
    have hport := of_decide_eq_true (List.mem_filter.mp ha).2
    have hport' := of_decide_eq_true (List.mem_filter.mp hb).2
    exact hapart (congrArg Prod.fst heq) j hport hport'
  · intro x hx hx'
    obtain ⟨a, -, rfl⟩ := List.mem_map.mp hx
    obtain ⟨b, -, heq⟩ := List.mem_map.mp hx'
    exact hne (congrArg Prod.snd heq).symm

theorem length_arlPairs (h : Inv es records) :
    (arlPairs ports records).length = (addressesAt ports es).card := by
  rw [← List.toFinset_card_of_nodup (nodup_arlPairs h)]
  congr 1
  ext x
  rw [List.mem_toFinset, mem_arlPairs, mem_addressesAt, h.same]

/-- How long the text is. -/
theorem length_arlTexts (h : Inv es records) (hports : ports ≤ 7) :
    (arlTexts ports records).flatten.length =
      25 + (if records.length = numArlRecords then 55 else 0) +
        30 * (addressesAt ports es).card := by
  have hheader : arlHeader.length = 25 := rfl
  have hmany : arlTooMany.length = 55 := rfl
  rw [arlTexts, List.cons_append, List.flatten_cons, List.flatten_append, List.length_append,
    List.length_append, length_arlLines hports, length_arlPairs h, hheader]
  split
  · rw [List.flatten_singleton, hmany]
    omega
  · rw [List.flatten_nil, List.length_nil]
    omega

end

/-! ## The whole dump -/

/-- The entries that are read before the loop stops. -/
def entriesRead (getArlEntry : AtuRegs → Option ArlEntry) (regs : List AtuRegs) : List ArlEntry :=
  (regs.take (regs.length - (readArl getArlEntry regs []).2.length)).filterMap getArlEntry

/-- The entries are recorded, and all records are listed. -/
structure Dumped (getArlEntry : AtuRegs → Option ArlEntry) (regs : List AtuRegs) (ports : Nat)
    (buf : Bytes) : Prop where
  recorded : Recorded getArlEntry regs (entriesRead getArlEntry regs)
    (readArl getArlEntry regs []).1 (readArl getArlEntry regs []).2
  listed : Complete (arlTexts ports (readArl getArlEntry regs []).1)
    (printArl buf ports (readArl getArlEntry regs []).1)

section
variable {getArlEntry : AtuRegs → Option ArlEntry} {regs : List AtuRegs}

theorem filterMap_of_map {front : List AtuRegs} {es : List ArlEntry}
    (h : front.map getArlEntry = es.map some) : front.filterMap getArlEntry = es := by
  have hid : (front.map getArlEntry).filterMap id = front.filterMap getArlEntry :=
    List.filterMap_map
  rw [← hid, h, List.filterMap_map]
  exact List.filterMap_some

/-- What is read and what is recorded. -/
theorem readArl_recorded (getArlEntry : AtuRegs → Option ArlEntry) (regs : List AtuRegs) :
    Inv (entriesRead getArlEntry regs) (readArl getArlEntry regs []).1 ∧
      Recorded getArlEntry regs (entriesRead getArlEntry regs)
        (readArl getArlEntry regs []).1 (readArl getArlEntry regs []).2 := by
  obtain ⟨front, es, hregs, hfront, hinv, hstop⟩ := @readArl_spec getArlEntry [] [] regs .start
  have hread : entriesRead getArlEntry regs = es := by
    rw [entriesRead]
    generalize (readArl getArlEntry regs []).2 = rest at hregs
    subst hregs
    rw [List.length_append, Nat.add_sub_cancel, List.take_left]
    exact filterMap_of_map hfront
  rw [List.nil_append] at hinv
  rw [hread]
  exact ⟨hinv, ⟨front, hregs, hfront⟩, hstop, hinv.fits, fun _ _ => hinv.unique,
    fun mac port => (hinv.same mac port).mp⟩

/-- **A table is listed whole** exactly when there are few enough addresses at the ports for the
buffer; it is recorded in any case. -/
theorem arlTable_iff (getArlEntry : AtuRegs → Option ArlEntry) (regs : List AtuRegs) {ports : Nat}
    (hports : ports ≤ 7) {buf : Bytes} (hbuf : buf.length = arlBufSize) :
    Dumped getArlEntry regs ports buf ↔
      (addressesAt ports (entriesRead getArlEntry regs)).card ≤
        if (readArl getArlEntry regs []).1.length = numArlRecords then 112 else 114 := by
  obtain ⟨hinv, hrecorded⟩ := readArl_recorded getArlEntry regs
  have hlength := length_arlTexts hinv hports
  have hsize : arlBufSize = 3456 := rfl
  have hiff : (arlTexts ports (readArl getArlEntry regs []).1).flatten.length < arlBufSize ↔
      (addressesAt ports (entriesRead getArlEntry regs)).card ≤
        if (readArl getArlEntry regs []).1.length = numArlRecords then 112 else 114 := by
    rw [hlength, hsize]
    split <;> omega
  rw [← hiff]
  exact ⟨fun h => h.listed.lt, fun h => ⟨hrecorded, (print_iff hbuf _).mpr h⟩⟩

end

/-! ## Seventeen addresses at seven ports -/

/-- An entry of the AR8327 at all ports. -/
def everyPort (i : Nat) : AtuRegs := ⟨BitVec.ofNat 32 i, 0x7f0000, 1⟩

def everyPortRegs : List AtuRegs := (List.range 17).map everyPort

set_option maxRecDepth 10000 in
theorem length_everyPort :
    (arlPairs 7 (readArl ar8327GetArlEntry everyPortRegs []).1).length = 119 := by decide

theorem not_dumped :
    ¬ Dumped ar8327GetArlEntry everyPortRegs 7 (List.replicate arlBufSize 0) := by
  intro h
  have hlt := h.listed.lt
  have hlines := length_arlLines (Nat.le_refl 7) (readArl ar8327GetArlEntry everyPortRegs []).1
  have hsize : arlBufSize = 3456 := rfl
  rw [length_everyPort] at hlines
  rw [arlTexts, List.flatten_append, List.length_append] at hlt
  omega

theorem arlTable_one :
    Dumped ar8327GetArlEntry [everyPort 1] 7 (List.replicate arlBufSize 0) ↔
      (addressesAt 7 (entriesRead ar8327GetArlEntry [everyPort 1])).card ≤
        if (readArl ar8327GetArlEntry [everyPort 1] []).1.length = numArlRecords then 112 else 114 :=
  arlTable_iff ar8327GetArlEntry [everyPort 1] (Nat.le_refl 7) List.length_replicate

end UolaOs.Ar8216
