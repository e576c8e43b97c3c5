import Mathlib.Data.List.DropRight
import UolaOs.Otrx.Otrx

/-!
# Create, check and extract agree

* `layout`: the partitions that the options describe, with their offsets;
* `otrxCreate_ok`: the file is a header in front of them;
* `otrx_agree`: it is accepted, and each partition is extracted.
-/

namespace UolaOs.Otrx

/-! ## What the options describe -/

def zeros (n : Nat) : Bytes := List.replicate n 0

/-- The content of a file at the offset `c`, up to a multiple of 4. -/
def fileBytes (c : Nat) (file : Option Bytes) : Bytes :=
  let content := file.getD []
  content ++ zeros (alignLength (c + content.length) 4)

/-- The bytes that an option appends at the offset `c`. -/
def Opt.bytes (c : Nat) : Opt → Bytes
  | .f file => fileBytes c file
  | .A file => fileBytes c file
  | .a alignment => zeros (alignLength c alignment)
  | .b offset => zeros (offset - c).toNat

def Opt.isF : Opt → Bool
  | .f _ => true
  | _ => false

/-- Whether a partition starts. -/
def Opt.starts : Opt → Bool
  | .f file => file.isSome
  | _ => false

/-- The file of a `-f`, when it can be read. -/
def Opt.part : Opt → Option Bytes
  | .f file => file
  | _ => none

structure Part where
  offset : Nat
  bytes : Bytes

/-- The bytes before the first partition, and the partitions, from the offset `c` on. The zeros at
the end belong to the last one. -/
def layout (c : Nat) : List Opt → Bytes × List Part
  | [] => (zeros (alignLength c 0x1000), [])
  | o :: os =>
    let bs := o.bytes c
    let r := layout (c + bs.length) os
    if o.starts then ([], ⟨c, bs ++ r.1⟩ :: r.2) else (bs ++ r.1, r.2)

/-- All that follows the header. -/
def content (os : List Opt) : Bytes :=
  (layout headerSize os).1 ++ (layout headerSize os).2.flatMap Part.bytes

def parts (os : List Opt) : List Part := (layout headerSize os).2

/-- Each part starts where the one before it ends. -/
def Consecutive : Nat → List Part → Prop
  | _, [] => True
  | c, p :: ps => p.offset = c ∧ Consecutive (c + p.bytes.length) ps

section
variable {c i : Nat} {os : List Opt} {p q : Part} {ps : List Part}

theorem layout_consecutive (c : Nat) (os : List Opt) :
    Consecutive (c + (layout c os).1.length) (layout c os).2 := by
  induction os generalizing c with
  | nil => exact trivial
  | cons o os ih =>
    have hrest := ih (c + (o.bytes c).length)
    rw [Nat.add_assoc, ← List.length_append] at hrest
    rw [layout]
    split
    · exact ⟨rfl, hrest⟩
    · exact hrest

theorem Consecutive.next (h : Consecutive c ps) (hp : ps[i]? = some p)
    (hq : ps[i + 1]? = some q) : q.offset = p.offset + p.bytes.length := by
  induction ps generalizing c i with
  | nil => cases hp
  | cons r ps ih =>
    obtain ⟨hr, hps⟩ := h
    cases i with
    | zero =>
      obtain rfl := Option.some.inj hp
      cases ps with
      | nil => cases hq
      | cons r' ps =>
        obtain rfl := Option.some.inj hq
        rw [hr]
        exact hps.1
    | succ i => exact ih hps hp hq

/-- The last part ends at the end. -/
theorem Consecutive.last (h : Consecutive c ps) (hp : ps[i]? = some p)
    (hend : ps[i + 1]? = none) :
    p.offset + p.bytes.length = c + (ps.flatMap Part.bytes).length := by
  induction ps generalizing c i with
  | nil => cases hp
  | cons r ps ih =>
    obtain ⟨hr, hps⟩ := h
    rw [List.flatMap_cons, List.length_append]
    cases i with
    | zero =>
      obtain rfl := Option.some.inj hp
      cases ps with
      | nil => rw [hr, List.flatMap_nil, List.length_nil, Nat.add_zero]
      | cons r' ps => cases hend
    | succ i =>
      rw [ih hps hp hend, Nat.add_assoc]

/-- A part lies at its offset. -/
theorem Consecutive.split (h : Consecutive c ps) (hp : ps[i]? = some p) :
    ∃ a b, ps.flatMap Part.bytes = a ++ (p.bytes ++ b) ∧ p.offset = c + a.length := by
  induction ps generalizing c i with
  | nil => cases hp
  | cons r ps ih =>
    obtain ⟨hr, hps⟩ := h
    cases i with
    | zero =>
      obtain rfl := Option.some.inj hp
      exact ⟨[], ps.flatMap Part.bytes, List.flatMap_cons, hr⟩
    | succ i =>
      obtain ⟨a, b, hab, hoff⟩ := ih hps hp
      refine ⟨r.bytes ++ a, b, ?_, ?_⟩
      · rw [List.flatMap_cons, hab, List.append_assoc]
      · rw [hoff, List.length_append, Nat.add_assoc]

theorem length_layout (c : Nat) (os : List Opt) :
    (layout c os).2.length = os.countP Opt.starts := by
  induction os generalizing c with
  | nil => rfl
  | cons o os ih =>
    rw [layout]
    split
    · rename_i hs
      rw [List.countP_cons_of_pos hs, List.length_cons, ih]
    · rename_i hs
      rw [List.countP_cons_of_neg hs, ih]

theorem isF_of_starts {o : Opt} (h : o.starts = true) : o.isF = true := by
  cases o with
  | f file => rfl
  | A file => cases h
  | a alignment => cases h
  | b offset => cases h

theorem countP_starts_le (os : List Opt) : os.countP Opt.starts ≤ os.countP Opt.isF :=
  List.countP_mono_left fun _ _ => isF_of_starts

/-- The file ends on a page. -/
theorem pages_layout (c : Nat) (os : List Opt) :
    0x1000 ∣ c + ((layout c os).1 ++ (layout c os).2.flatMap Part.bytes).length := by
  induction os generalizing c with
  | nil =>
    rw [layout, List.flatMap_nil, List.append_nil, zeros, List.length_replicate]
    exact dvd_add_alignLength c 12
  | cons o os ih =>
    have hrest := ih (c + (o.bytes c).length)
    rw [Nat.add_assoc, ← List.length_append, ← List.append_assoc] at hrest
    rw [layout]
    split
    · rwa [List.nil_append, List.flatMap_cons]
    · exact hrest

/-- A part begins with its file. -/
theorem layout_files (c : Nat) (os : List Opt) :
    List.Forall₂ (fun b p => b <+: p.bytes) (os.filterMap Opt.part) (layout c os).2 := by
  induction os generalizing c with
  | nil => exact .nil
  | cons o os ih =>
    rw [layout, List.filterMap_cons]
    cases o with
    | f file =>
      cases file with
      | none => exact ih _
      | some b => exact .cons ⟨_, by rw [Opt.bytes, fileBytes, Option.getD_some,
        List.append_assoc]⟩ (ih _)
    | A file => exact ih _
    | a alignment => exact ih _
    | b offset => exact ih _

/-! ## Offsets -/

/-- The offset behind the options. -/
def position (c : Nat) (os : List Opt) : Nat := os.foldl (fun c o => c + (o.bytes c).length) c

def Opt.pads : Opt → Bool
  | .a _ => true
  | .b _ => true
  | _ => false

theorem layout_offset {o : Opt} (ho : o.starts = true) (c : Nat) (pre post : List Opt) :
    ∃ p, (layout c (pre ++ o :: post)).2[pre.countP Opt.starts]? = some p ∧
      p.offset = position c pre := by
  induction pre generalizing c with
  | nil =>
    rw [List.nil_append, layout, if_pos ho]
    exact ⟨_, rfl, rfl⟩
  | cons o' pre ih =>
    obtain ⟨p, hp, hoff⟩ := ih (c + (o'.bytes c).length)
    refine ⟨p, ?_, hoff⟩
    rw [List.cons_append, layout]
    by_cases hs : o'.starts = true
    · rwa [if_pos hs, List.countP_cons_of_pos hs, List.getElem?_cons_succ]
    · rwa [if_neg hs, List.countP_cons_of_neg hs]

theorem four_dvd_fileBytes (c : Nat) (file : Option Bytes) : 4 ∣ c + (fileBytes c file).length := by
  have h := dvd_add_alignLength (c + (file.getD []).length) 2
  rwa [Nat.add_assoc, ← List.length_replicate (n := alignLength _ _) (a := (0 : UInt8)),
    ← List.length_append] at h

theorem four_dvd_align {alignment : Nat} (hk : ∃ k, alignment = 2 ^ k) (hc : 4 ∣ c) :
    4 ∣ c + alignLength c alignment := by
  obtain ⟨k, rfl⟩ := hk
  by_cases hle : 2 ≤ k
  · exact Nat.dvd_trans (Nat.pow_dvd_pow 2 hle) (dvd_add_alignLength c k)
  · have hdvd : 2 ^ k ∣ c := Nat.dvd_trans (Nat.pow_dvd_pow 2 (by omega : k ≤ 2)) hc
    rwa [alignLength_two_pow, roundUp_of_dvd (Nat.two_pow_pos k) hdvd, Nat.sub_self]

/-- The files are padded; behind them only `-b` reaches other offsets. -/
theorem four_dvd_position (halign : ∀ n, .a n ∈ os → ∃ k, n = 2 ^ k)
    (hb : ∀ n, .b n ∈ os.rtakeWhile Opt.pads → 4 ∣ n) : 4 ∣ position headerSize os := by
  induction os using List.reverseRecOn with
  | nil => decide
  | append_singleton os o ih =>
    rw [position, List.foldl_append]
    have halign' (n : Nat) (hn : .a n ∈ os) : ∃ k, n = 2 ^ k :=
      halign n (List.mem_append_left _ hn)
    have hpad (hp : o.pads = true) :
        (os ++ [o]).rtakeWhile Opt.pads = os.rtakeWhile Opt.pads ++ [o] :=
      List.rtakeWhile_concat_pos _ _ _ hp
    have hbefore (hp : o.pads = true) : 4 ∣ position headerSize os := by
      rw [hpad hp] at hb
      exact ih halign' fun n hn => hb n (List.mem_append_left _ hn)
    cases o with
    | f file => exact four_dvd_fileBytes _ file
    | A file => exact four_dvd_fileBytes _ file
    | a alignment =>
      show 4 ∣ position headerSize os + (zeros (alignLength (position headerSize os) _)).length
      rw [zeros, List.length_replicate]
      exact four_dvd_align (halign alignment (by simp)) (hbefore rfl)
    | b offset =>
      have h4 : 4 ∣ offset := hb offset (by rw [hpad rfl]; simp)
      have hpos := hbefore rfl
      show 4 ∣ position headerSize os + (zeros (offset - position headerSize os).toNat).length
      rw [zeros, List.length_replicate]
      omega

end

/-! ## Writing -/

/-- The offset fields when partitions start at `offs`. -/
def slots (offs : List Nat) : List UInt32 :=
  offs.map UInt32.ofNat ++ List.replicate (trxMaxParts - offs.length) 0

theorem length_slots {offs : List Nat} (h : offs.length ≤ trxMaxParts) :
    (slots offs).length = trxMaxParts := by
  rw [slots, List.length_append, List.length_map, List.length_replicate]
  omega

theorem set_slots {offs : List Nat} (h : offs.length < trxMaxParts) (c : Nat) :
    (slots offs).set offs.length (UInt32.ofNat c) = slots (offs ++ [c]) := by
  have hfree : trxMaxParts - offs.length = trxMaxParts - (offs ++ [c]).length + 1 := by
    rw [List.length_append, List.length_singleton]
    omega
  rw [slots, List.set_append_right _ _ (by rw [List.length_map]), List.length_map, Nat.sub_self,
    hfree, List.replicate_succ, List.set_cons_zero, slots, List.map_append, List.append_assoc]
  rfl

section
variable {s : Builder} {body : Bytes} {offs : List Nat}

/-- The file is at its end, with these offsets in the header. -/
structure AtEnd (s : Builder) (body : Bytes) (offs : List Nat) : Prop where
  trx : s.trx.Behind headerSize body
  hdr : s.hdr = { TrxHeader.zero with offset := slots offs }
  currIdx : s.currIdx = offs.length
  currOffset : s.currOffset = headerSize + body.length

theorem AtEnd.start : AtEnd Builder.start [] [] := ⟨File.Behind.start _, rfl, rfl, rfl⟩

theorem AtEnd.appendFile (h : AtEnd s body offs) (file : Option Bytes) :
    AtEnd (s.appendFile file) (body ++ file.getD []) offs := by
  cases file with
  | none =>
    rw [Option.getD_none, List.append_nil]
    exact h
  | some bs =>
    refine ⟨copyChunks_append (by decide) (fun _ _ b hf => hf.write b) h.trx bs, h.hdr, h.currIdx,
      ?_⟩
    rw [Option.getD_some, List.length_append, ← Nat.add_assoc, ← h.currOffset]
    rfl

theorem AtEnd.appendZeros (h : AtEnd s body offs) (length : Nat) :
    AtEnd (s.appendZeros length) (body ++ zeros length) offs := by
  refine ⟨h.trx.write _, h.hdr, h.currIdx, ?_⟩
  rw [List.length_append, zeros, List.length_replicate, ← Nat.add_assoc, ← h.currOffset]
  rfl

theorem AtEnd.align (h : AtEnd s body offs) (alignment : Nat) :
    AtEnd (s.align alignment)
      (body ++ zeros (alignLength (headerSize + body.length) alignment)) offs := by
  rw [Builder.align, h.currOffset]
  exact h.appendZeros _

theorem AtEnd.startPart (h : AtEnd s body offs) (hroom : offs.length < trxMaxParts) :
    AtEnd s.startPart body (offs ++ [headerSize + body.length]) := by
  refine ⟨h.trx, ?_, ?_, h.currOffset⟩
  · rw [Builder.startPart, h.hdr, h.currIdx, h.currOffset]
    exact congrArg (fun o => { TrxHeader.zero with offset := o }) (set_slots hroom _)
  · rw [List.length_append, ← h.currIdx]
    rfl

theorem AtEnd.file (h : AtEnd s body offs) (file : Option Bytes) :
    AtEnd ((s.appendFile file).align 4) (body ++ fileBytes (headerSize + body.length) file)
      offs := by
  have hend := (h.appendFile file).align 4
  rwa [List.length_append, ← Nat.add_assoc, List.append_assoc] at hend

theorem opt_spec (h : AtEnd s body offs) {o : Opt}
    (hroom : o.isF = true → offs.length < trxMaxParts) :
    ∃ s', s.opt o = .ok s' ∧ AtEnd s' (body ++ o.bytes (headerSize + body.length))
      (if o.starts then offs ++ [headerSize + body.length] else offs) := by
  cases o with
  | f file =>
    have hlt := hroom rfl
    have hidx : ¬ trxMaxParts ≤ s.currIdx := by
      rw [h.currIdx]
      omega
    rw [Builder.opt, if_neg hidx]
    refine ⟨_, rfl, ?_⟩
    cases file with
    | none => exact h.file none
    | some bs => exact (h.startPart hlt).file (some bs)
  | A file => exact ⟨_, rfl, h.file file⟩
  | a alignment => exact ⟨_, rfl, h.align alignment⟩
  | b offset =>
    by_cases hneg : offset - (s.currOffset : Int) < 0
    · refine ⟨s, if_pos hneg, ?_⟩
      rw [h.currOffset] at hneg
      have hnone : (offset - ((headerSize + body.length : Nat) : Int)).toNat = 0 := by omega
      rw [Opt.bytes, hnone, zeros, List.replicate_zero, List.append_nil]
      exact h
    · refine ⟨_, if_neg hneg, ?_⟩
      rw [h.currOffset]
      exact h.appendZeros _

theorem opt_ok (h : AtEnd s body offs) (hmax : offs.length ≤ trxMaxParts) {o : Opt} {s' : Builder}
    (hopt : s.opt o = .ok s') :
    AtEnd s' (body ++ o.bytes (headerSize + body.length))
        (if o.starts then offs ++ [headerSize + body.length] else offs) ∧
      (if o.starts then offs ++ [headerSize + body.length] else offs).length ≤ trxMaxParts := by
  have hroom (hf : o.isF = true) : offs.length < trxMaxParts := by
    cases o with
    | f file =>
      rw [← h.currIdx]
      by_contra hfull
      rw [Builder.opt, if_pos (Nat.le_of_not_lt hfull)] at hopt
      cases hopt
    | A file => cases hf
    | a alignment => cases hf
    | b offset => cases hf
  obtain ⟨s₁, hs₁, hend⟩ := opt_spec h hroom
  cases hopt.symm.trans hs₁
  refine ⟨hend, ?_⟩
  split
  · rename_i hs
    rw [List.length_append, List.length_singleton]
    exact hroom (isF_of_starts hs)
  · exact hmax

/-- The options and the zeros at the end. -/
theorem foldlM_ok (h : AtEnd s body offs) (hmax : offs.length ≤ trxMaxParts) {os : List Opt}
    {s' : Builder} (hrun : os.foldlM Builder.opt s = .ok s') :
    AtEnd (s'.align 0x1000)
        (body ++ ((layout (headerSize + body.length) os).1 ++
          (layout (headerSize + body.length) os).2.flatMap Part.bytes))
        (offs ++ (layout (headerSize + body.length) os).2.map Part.offset) ∧
      (offs ++ (layout (headerSize + body.length) os).2.map Part.offset).length ≤ trxMaxParts := by
  induction os generalizing s body offs with
  | nil =>
    cases hrun
    rw [layout, List.flatMap_nil, List.map_nil, List.append_nil, List.append_nil]
    exact ⟨h.align 0x1000, hmax⟩
  | cons o os ih =>
    rw [List.foldlM_cons] at hrun
    cases hopt : s.opt o with
    | error err =>
      rw [hopt] at hrun
      cases hrun
    | ok s₁ =>
      rw [hopt] at hrun
      obtain ⟨h₁, hmax₁⟩ := opt_ok h hmax hopt
      have h' := ih h₁ hmax₁ hrun
      rw [List.length_append, ← Nat.add_assoc] at h'
      rw [layout]
      by_cases hs : o.starts = true
      · rw [if_pos hs] at h' ⊢
        simpa only [List.append_assoc, List.nil_append, List.flatMap_cons, List.map_cons,
          List.singleton_append] using h'
      · rw [if_neg hs] at h' ⊢
        simpa only [List.append_assoc] using h'

/-- There is room for at most three files. -/
theorem foldlM_exists (h : AtEnd s body offs) {os : List Opt}
    (hroom : offs.length + os.countP Opt.isF ≤ trxMaxParts) :
    ∃ s', os.foldlM Builder.opt s = .ok s' := by
  induction os generalizing s body offs with
  | nil => exact ⟨s, rfl⟩
  | cons o os ih =>
    obtain ⟨s₁, hopt, h₁⟩ := opt_spec h (o := o) (by
      intro ho
      rw [List.countP_cons_of_pos ho] at hroom
      omega)
    have hroom₁ : (if o.starts then offs ++ [headerSize + body.length] else offs).length +
        os.countP Opt.isF ≤ trxMaxParts := by
      by_cases hs : o.starts = true
      · rw [List.countP_cons_of_pos (isF_of_starts hs)] at hroom
        rw [if_pos hs, List.length_append, List.length_singleton]
        omega
      · have hle : os.countP Opt.isF ≤ (o :: os).countP Opt.isF :=
          List.Sublist.countP_le (List.sublist_cons_self o os)
        rw [if_neg hs]
        omega
    obtain ⟨s', hrest⟩ := ih h₁ hroom₁
    refine ⟨s', ?_⟩
    rw [List.foldlM_cons, hopt]
    exact hrest

end

/-! ## The header -/

/-- What the CRC covers of the header. -/
def TrxHeader.covered (h : TrxHeader) : Bytes :=
  Endian.little.put 2 h.flags.toNat ++ (Endian.little.put 2 h.version.toNat ++
    h.offset.flatMap fun o => Endian.little.put 4 o.toNat)

theorem length_covered {h : TrxHeader} (ho : h.offset.length = trxMaxParts) :
    h.covered.length = headerSize - trxFlagsOffset := by
  obtain ⟨a, b, c, hoff⟩ := List.length_eq_three.mp ho
  simp only [TrxHeader.covered, hoff, List.flatMap_cons, List.flatMap_nil, List.length_append,
    Endian.length_put, List.length_nil]
  rfl

theorem bytes_eq (h : TrxHeader) :
    h.bytes = (Endian.little.put 4 h.magic.toNat ++ (Endian.little.put 4 h.length.toNat ++
      Endian.little.put 4 h.crc32.toNat)) ++ h.covered := by
  simp only [TrxHeader.bytes, TrxHeader.covered, List.append_assoc]

theorem length_bytes {h : TrxHeader} (ho : h.offset.length = trxMaxParts) :
    h.bytes.length = headerSize := by
  rw [bytes_eq, List.length_append, length_covered ho]
  simp only [List.length_append, Endian.length_put]
  rfl

theorem load_covered {h : TrxHeader} {body : Bytes} {n : Nat} (ho : h.offset.length = trxMaxParts)
    (hn : n = headerSize + body.length - trxFlagsOffset) :
    load (h.bytes ++ body) trxFlagsOffset n = h.covered ++ body := by
  rw [bytes_eq, List.append_assoc, load_append_right (by
    simp only [List.length_append, Endian.length_put]
    rfl)]
  apply List.take_of_length_le
  rw [List.length_append, length_covered ho, hn, headerSize, trxFlagsOffset]
  omega

theorem parse_bytes {h : TrxHeader} (ho : h.offset.length = trxMaxParts) (rest : Bytes) :
    TrxHeader.parse (h.bytes ++ rest) = h := by
  obtain ⟨magic, length, crc, flags, version, offset⟩ := h
  obtain ⟨a, b, c, rfl⟩ := List.length_eq_three.mp ho
  generalize hm : (TrxHeader.bytes ⟨magic, length, crc, flags, version, [a, b, c]⟩) ++ rest = m
  simp only [TrxHeader.bytes, List.flatMap_cons, List.flatMap_nil, List.append_assoc] at hm
  obtain ⟨h0, hm⟩ := word_next (p := 0) hm.symm
  obtain ⟨h4, hm⟩ := word_next hm
  obtain ⟨h8, hm⟩ := word_next hm
  obtain ⟨h12, hm⟩ := half_next hm
  obtain ⟨h14, hm⟩ := half_next hm
  obtain ⟨h16, hm⟩ := word_next hm
  obtain ⟨h20, hm⟩ := word_next hm
  obtain ⟨h24, -⟩ := word_next hm
  rw [TrxHeader.parse, h0, h4, h8, h12, h14, h16, h20, h24]

/-! ## The file -/

section
variable {hdr : TrxHeader} {body : Bytes}

/-- A header that is right for what follows it. -/
structure Fits (hdr : TrxHeader) (body : Bytes) : Prop where
  magic : hdr.magic = trxMagic
  length : hdr.length.toNat = headerSize + body.length
  crc32 : hdr.crc32 = crc32 0xffffffff (hdr.covered ++ body)
  offset : hdr.offset.length = trxMaxParts

/-- The header is written over the zeros in front, whatever its length says. -/
theorem writeHdr_data (hdr : TrxHeader) {trx : File} (htrx : trx.Behind headerSize body)
    (hne : body ≠ []) (ho : hdr.offset.length = trxMaxParts) :
    (writeHdr trx hdr).data =
      TrxHeader.bytes { hdr with
        magic := trxMagic
        version := 1
        crc32 := copyChunks 1024 UolaOs.crc32 0xffffffff
          (load (TrxHeader.bytes { hdr with magic := trxMagic, version := 1 } ++ body)
            trxFlagsOffset (hdr.length.toNat - trxFlagsOffset)) } ++ body := by
  rcases htrx with rfl | ⟨hnil, -⟩
  · generalize hh : { hdr with magic := trxMagic, version := 1 } = h
    have ho' : h.offset.length = trxMaxParts := by rw [← hh, ho]
    have hfirst : (⟨List.replicate headerSize 0 ++ body, 0⟩ : File).write h.bytes =
        ⟨h.bytes ++ body, h.bytes.length⟩ :=
      File.write_front (by rw [List.length_replicate, length_bytes ho'])
    rw [writeHdr, hh]
    simp only [File.seek, hfirst, File.read]
    rw [File.write_front ((length_bytes ho').trans (length_bytes (by exact ho')).symm), ← hh]
  · exact absurd hnil hne

/-- It is right when the length is. -/
theorem writeHdr_eq (hdr : TrxHeader) {trx : File} (htrx : trx.Behind headerSize body)
    (hne : body ≠ []) (ho : hdr.offset.length = trxMaxParts) :
    ∃ h : TrxHeader, (writeHdr trx hdr).data = h.bytes ++ body ∧ h.magic = trxMagic ∧
      h.length = hdr.length ∧ h.offset = hdr.offset ∧
      (hdr.length.toNat = headerSize + body.length → Fits h body) := by
  refine ⟨_, writeHdr_data hdr htrx hne ho, rfl, rfl, rfl, fun hl => ⟨rfl, hl, ?_, ho⟩⟩
  have hcovered := @load_covered { hdr with magic := trxMagic, version := 1 } body
    (hdr.length.toNat - trxFlagsOffset) ho (by rw [hl])
  dsimp only
  rw [hcovered, copyChunks_crc32 (by decide)]
  rfl

theorem load_header (h : Fits hdr body) :
    load (hdr.bytes ++ body) 0 headerSize = hdr.bytes := by
  rw [← length_bytes h.offset]
  exact load_zero _ _

theorem parse_header (h : Fits hdr body) : TrxHeader.parse hdr.bytes = hdr := by
  have hparse := parse_bytes h.offset []
  rwa [List.append_nil] at hparse

theorem otrxCheck_eq (h : Fits hdr body) : otrxCheck 0 (hdr.bytes ++ body) = .ok () := by
  have hlen := h.length
  rw [otrxCheck, load_header h]
  dsimp only
  rw [parse_header h, if_neg (not_not.mpr (length_bytes h.offset)), if_neg (not_not.mpr h.magic),
    if_neg (by omega), Nat.zero_add, load_covered h.offset (by rw [hlen]),
      copyChunks_crc32 (by decide),
    if_neg, if_neg (not_not.mpr h.crc32.symm)]
  rw [List.length_append, length_covered h.offset, hlen, headerSize, trxFlagsOffset]
  omega

theorem getD_slots (offs : List Nat) (i : Nat) :
    (slots offs).getD i 0 = ((offs[i]?).map UInt32.ofNat).getD 0 := by
  rw [slots, List.getD_eq_getElem?_getD, List.getElem?_append]
  split
  · rw [List.getElem?_map]
  · rename_i hge
    rw [List.length_map] at hge
    rw [List.getElem?_eq_none (Nat.le_of_not_lt hge), List.getElem?_replicate]
    split <;> rfl

/-- Where a part lies in the file. -/
theorem load_part (h : Fits hdr body) {ps : List Part} {lead : Bytes}
    (hbody : body = lead ++ ps.flatMap Part.bytes)
    (hps : Consecutive (headerSize + lead.length) ps) {i : Nat} {p : Part} (hp : ps[i]? = some p) :
    load (hdr.bytes ++ body) p.offset p.bytes.length = p.bytes ∧ headerSize ≤ p.offset ∧
      p.offset + p.bytes.length ≤ headerSize + body.length := by
  obtain ⟨a, b, hab, hoff⟩ := hps.split hp
  have hlen := length_bytes h.offset
  have hsplit : hdr.bytes ++ body = (hdr.bytes ++ lead ++ a) ++ (p.bytes ++ b) := by
    rw [hbody, hab]
    simp only [List.append_assoc]
  refine ⟨?_, by omega, ?_⟩
  · rw [hsplit, load_append_right, List.take_left]
    rw [List.length_append, List.length_append, hlen, hoff]
  · have htotal := congrArg List.length hsplit
    simp only [List.length_append] at htotal
    omega

theorem otrxExtract_eq (h : Fits hdr body) {ps : List Part} {lead : Bytes}
    (hbody : body = lead ++ ps.flatMap Part.bytes) (hslots : hdr.offset =
      slots (ps.map Part.offset))
    (hps : Consecutive (headerSize + lead.length) ps) (hmax : ps.length ≤ trxMaxParts) (i : Nat) :
    otrxExtract 0 (hdr.bytes ++ body) i = (ps[i]?).map Part.bytes := by
  have hlen := h.length
  have hlt := hdr.length.toNat_lt
  have hoffset (j : Nat) : hdr.offset.getD j 0 =
      ((ps[j]?).map fun p => UInt32.ofNat p.offset).getD 0 := by
    rw [hslots, getD_slots, List.getElem?_map, Option.map_map]
    rfl
  have hsome {j : Nat} {p : Part} (hp : ps[j]? = some p) :
      j < trxMaxParts ∧ (hdr.offset.getD j 0).toNat = p.offset ∧ hdr.offset.getD j 0 ≠ 0 := by
    obtain ⟨-, hge, hle⟩ := load_part h hbody hps hp
    have hto : (hdr.offset.getD j 0).toNat = p.offset := by
      rw [hoffset, hp]
      exact UInt32.toNat_ofNat_of_lt' (show p.offset < 2 ^ 32 by omega)
    refine ⟨Nat.lt_of_lt_of_le (List.getElem?_eq_some_iff.mp hp).1 hmax, hto, fun h0 => ?_⟩
    have hzero : p.offset = 0 := by rw [← hto, h0, UInt32.toNat_zero]
    rw [hzero] at hge
    exact absurd hge (by decide)
  rw [otrxExtract, load_header h]
  dsimp only
  rw [parse_header h, if_neg (not_not.mpr (length_bytes h.offset)), if_neg (not_not.mpr h.magic)]
  cases hp : ps[i]? with
  | none =>
    rw [if_pos (.inr (by rw [hoffset, hp]; rfl))]
    rfl
  | some p =>
    obtain ⟨hi, hto, hne⟩ := hsome hp
    obtain ⟨hload, hge, hle⟩ := load_part h hbody hps hp
    rw [if_neg (by rintro (h3 | h0) <;> [omega; exact hne h0])]
    have hcopy {length : UInt32} (hl : length.toNat = p.bytes.length) :
        otrxExtractCopy (hdr.bytes ++ body) (0 + (hdr.offset.getD i 0).toNat) length.toNat =
          p.bytes := by
      rw [otrxExtractCopy, hl, hto, Nat.zero_add, hload]
      exact if_neg (not_not.mpr rfl)
    refine congrArg some (hcopy ?_)
    cases hq : ps[i + 1]? with
    | none =>
      rw [if_pos (.inr (by rw [hoffset, hq]; rfl)), UInt32.toNat_sub_of_le _ _ (by
        rw [UInt32.le_iff_toNat_le]
        omega), hto, hlen, hbody]
      have hlast := hps.last hp hq
      rw [List.length_append]
      omega
    | some q =>
      obtain ⟨hi', hto', hne'⟩ := hsome hq
      have hnext := hps.next hp hq
      rw [if_neg (by rintro (h3 | h0) <;> [omega; exact hne' h0]), UInt32.toNat_sub_of_le _ _ (by
        rw [UInt32.le_iff_toNat_le]
        omega), hto, hto']
      omega

end

section
variable {os : List Opt}

theorem content_ne_nil (os : List Opt) : content os ≠ [] := by
  intro hnil
  have hpages := pages_layout headerSize os
  rw [← content, hnil] at hpages
  exact absurd hpages (by decide)

/-- The file is a header in front of what the options describe. -/
theorem otrxCreate_ok {file : Bytes} (h : otrxCreate os = .ok file) :
    ∃ hdr : TrxHeader, file = hdr.bytes ++ content os ∧ hdr.magic = trxMagic ∧
      hdr.length = UInt32.ofNat (headerSize + (content os).length) ∧
      hdr.offset = slots ((parts os).map Part.offset) ∧ hdr.offset.length = trxMaxParts ∧
      (headerSize + (content os).length < 2 ^ 32 → Fits hdr (content os)) := by
  rw [otrxCreate] at h
  cases hrun : os.foldlM Builder.opt Builder.start with
  | error err =>
    rw [hrun] at h
    cases h
  | ok s =>
    rw [hrun] at h
    obtain ⟨hend, hmax⟩ := foldlM_ok AtEnd.start (Nat.zero_le _) hrun
    rw [List.length_nil, Nat.add_zero, List.nil_append, List.nil_append] at hend
    rw [List.length_nil, Nat.add_zero, List.nil_append] at hmax
    have hoff : (s.align 0x1000).hdr.offset = slots ((parts os).map Part.offset) := by
      rw [hend.hdr]
      rfl
    have hlen : (s.align 0x1000).hdr.offset.length = trxMaxParts := by
      rw [hoff]
      exact length_slots hmax
    obtain ⟨hdr, hdata, hmagic, hlength, hslots, hfits⟩ := writeHdr_eq
      { (s.align 0x1000).hdr with length := UInt32.ofNat (s.align 0x1000).currOffset }
      hend.trx (content_ne_nil os) hlen
    rw [hend.currOffset] at hlength hfits
    obtain rfl := Except.ok.inj h
    exact ⟨hdr, hdata, hmagic, hlength, hslots.trans hoff, hslots.symm ▸ hlen,
      fun hlt => hfits (UInt32.toNat_ofNat_of_lt' hlt)⟩

theorem otrxCreate_eq (hparts : os.countP Opt.isF ≤ trxMaxParts)
    (hlt : headerSize + (content os).length < 2 ^ 32) :
    ∃ hdr, otrxCreate os = .ok (hdr.bytes ++ content os) ∧ Fits hdr (content os) ∧
      hdr.offset = slots ((parts os).map Part.offset) := by
  have hroom : ([] : List Nat).length + os.countP Opt.isF ≤ trxMaxParts := by
    rwa [List.length_nil, Nat.zero_add]
  obtain ⟨s, hrun⟩ := foldlM_exists AtEnd.start hroom
  have hcreate : otrxCreate os = .ok
      (writeHdr (s.align 0x1000).trx { (s.align 0x1000).hdr with
        length := UInt32.ofNat (s.align 0x1000).currOffset }).data := by
    rw [otrxCreate, hrun]
    rfl
  obtain ⟨hdr, hfile, -, -, hslots, -, hfits⟩ := otrxCreate_ok hcreate
  exact ⟨hdr, hfile ▸ hcreate, hfits hlt, hslots⟩

/-- What is asked of the file that is made from the options. -/
structure Agrees (os : List Opt) (file : Bytes) : Prop where
  accepted : otrxCheck 0 file = .ok ()
  length : (TrxHeader.parse file).length.toNat = file.length
  pages : 0x1000 ∣ file.length
  /-- A partition for each `-f`. -/
  count : (parts os).length = os.countP Opt.starts
  offset : ∀ i p, (parts os)[i]? = some p →
    ((TrxHeader.parse file).offset.getD i 0).toNat = p.offset ∧ headerSize ≤ p.offset
  /-- The offsets increase by the lengths. -/
  next : ∀ i p q, (parts os)[i]? = some p → (parts os)[i + 1]? = some q →
    q.offset = p.offset + p.bytes.length
  /-- Only a `-b` behind the last file reaches an offset that is not a multiple of 4. -/
  aligned : ∀ pre file post, os = pre ++ .f (some file) :: post →
    (∀ n, .b n ∈ pre.rtakeWhile Opt.pads → 4 ∣ n) →
    ∃ p, (parts os)[pre.countP Opt.starts]? = some p ∧ 4 ∣ p.offset
  extract : ∀ i, otrxExtract 0 file i = ((parts os)[i]?).map Part.bytes

/-- **Agreement.** What is created is accepted and taken apart again. -/
theorem otrx_agree (hparts : os.countP Opt.isF ≤ trxMaxParts)
    (halign : ∀ n, .a n ∈ os → ∃ k, n = 2 ^ k)
    (hlt : headerSize + (content os).length < 2 ^ 32) :
    ∃ file, otrxCreate os = .ok file ∧ Agrees os file := by
  obtain ⟨hdr, hcreate, hfits, hslots⟩ := otrxCreate_eq hparts hlt
  have hlen : (hdr.bytes ++ content os).length = headerSize + (content os).length := by
    rw [List.length_append, length_bytes hfits.offset]
  have hcons : Consecutive (headerSize + (layout headerSize os).1.length) (parts os) :=
    layout_consecutive headerSize os
  have hmax : (parts os).length ≤ trxMaxParts := by
    rw [parts, length_layout]
    exact Nat.le_trans (countP_starts_le os) hparts
  refine ⟨_, hcreate, otrxCheck_eq hfits, ?_, ?_, length_layout _ os, ?_,
    fun i p q hp hq => hcons.next hp hq, ?_, otrxExtract_eq hfits rfl hslots hcons hmax⟩
  · rw [parse_bytes hfits.offset, hfits.length, hlen]
  · rw [hlen]
    exact pages_layout headerSize os
  · intro i p hp
    obtain ⟨-, hge, hle⟩ := load_part hfits rfl hcons hp
    refine ⟨?_, hge⟩
    rw [parse_bytes hfits.offset, hslots, getD_slots, List.getElem?_map, hp]
    exact UInt32.toNat_ofNat_of_lt' (show p.offset < 2 ^ 32 by omega)
  · intro pre file post hos hb
    obtain ⟨p, hp, hoff⟩ := layout_offset (o := .f (some file)) rfl headerSize pre post
    refine ⟨p, by rw [parts, hos]; exact hp, hoff ▸ four_dvd_position ?_ hb⟩
    intro n hn
    exact halign n (by rw [hos]; exact List.mem_append_left _ hn)

end

section

/-- Two partitions; the first goes on behind an alignment. -/
def twoParts : List Opt := [.f (some [1, 2, 3, 4, 5]), .a 16, .A (some [6]), .f (some [7])]

theorem otrx_agree_twoParts : ∃ file, otrxCreate twoParts = .ok file ∧ Agrees twoParts file := by
  refine otrx_agree (by decide) ?_ (by decide +kernel)
  intro n hn
  have h16 : n = 16 := by simpa [twoParts] using hn
  exact ⟨4, h16⟩

/-- A `-b` gives an odd offset, and an empty file makes two offsets equal. -/
theorem otrx_offsets :
    (otrxCreate [.b 29, .f (some [1])]).map (fun file => (TrxHeader.parse file).offset) =
        .ok [29, 0, 0] ∧
      (otrxCreate [.f (some []), .f (some [1])]).map
        (fun file => (TrxHeader.parse file).offset) = .ok [28, 28, 0] := by
  decide

end

end UolaOs.Otrx
