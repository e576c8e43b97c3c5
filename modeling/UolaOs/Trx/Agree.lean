import UolaOs.Otrx.Otrx
import UolaOs.Trx.Trx

/-!
# What the builder writes

* `opt_built`: what an option adds to the buffer, and where it does not stay inside;
* `writeCrc_spec`: the CRC, with the bytes of the bin-header that it leaves out;
* `trx_spec`: why there is no file, or what the file says about itself;
* `trx_agree`: the file describes itself, and otrx accepts version 1;
* `trx_v2`: otrx and version 2.
-/

namespace UolaOs.Trx

/-! ## What the options describe -/

/-- Where the data ends after an option. -/
def advance (c : Nat) : Opt → Nat
  | .f (some file) => c + roundUp file.length 4
  | .A (some file) => c + roundUp file.length 4
  | .a (some n) => roundUp c n.toNat
  | .b (some n) => max c n.toNat
  | _ => c

def total (c : Nat) (os : List Opt) : Nat := os.foldl advance c

/-- The files of the `-f` options. -/
def files : List Opt → List Bytes
  | [] => []
  | .f (some file) :: os => file :: files os
  | _ :: os => files os

/-- The options in front: `-2` and `-m`. -/
def Opt.IsLead : Opt → Prop
  | .two => True
  | .m (some _) => True
  | _ => False

/-- The options for the data, with files that can be read and powers of two. -/
def Opt.Plain : Opt → Prop
  | .f file => file.isSome = true
  | .A file => file.isSome = true
  | .a (some n) => ∃ k, n.toNat = 2 ^ k
  | .b (some _) => True
  | _ => False

/-- The size of the buffer after an option. -/
def Opt.maxlen (size : Nat) : Opt → Nat
  | .m (some n) => roundUp n.toNat 0x1000
  | _ => size

def maxlen (lead : List Opt) : Nat := lead.foldl Opt.maxlen trxMaxLen

def header (lead : List Opt) : Nat := if .two ∈ lead then 32 else 28

section
variable {c : Nat} {o : Opt} {os : List Opt}

theorem total_cons (c : Nat) (o : Opt) (os : List Opt) :
    total c (o :: os) = total (advance c o) os := rfl

theorem le_advance (h : o.Plain) : c ≤ advance c o := by
  cases o with
  | f file => cases file <;> simp [advance]
  | A file => cases file <;> simp [advance]
  | a n =>
    cases n with
    | none => exact Nat.le_refl _
    | some n =>
      obtain ⟨k, hk⟩ := h
      rw [advance, hk]
      exact le_roundUp _ (Nat.two_pow_pos k)
  | b n =>
    cases n with
    | none => exact Nat.le_refl _
    | some n => exact Nat.le_max_left _ _
  | _ => exact Nat.le_refl _

theorem le_total (h : ∀ o ∈ os, o.Plain) : c ≤ total c os := by
  induction os generalizing c with
  | nil => exact Nat.le_refl _
  | cons o os ih =>
    exact Nat.le_trans (le_advance (h o List.mem_cons_self))
      (ih fun o' ho => h o' (List.mem_cons_of_mem o ho))

end

/-! ## Writing behind the data -/

/-- The buffer is as it was up to the end of the data. -/
structure Extends (s : State) (buf : Bytes) : Prop where
  length : buf.length = s.buf.length
  same : ∀ k < s.curLen, buf[k]? = s.buf[k]?

/-- The buffer has no more than `n` bytes, at a fault less. -/
def Short (size n : Nat) (e : Exit) : Prop := size ≤ n ∧ (e = .fault → size < n)

theorem Short.mono {size n n' : Nat} {e : Exit} (h : Short size n e) (hle : n ≤ n') :
    Short size n' e :=
  ⟨Nat.le_trans h.1 hle, fun hfault => Nat.lt_of_lt_of_le (h.2 hfault) hle⟩

section
variable {s : State} {buf bs file : Bytes} {n off : Nat}

theorem Extends.poke (h : Extends s buf) (hoff : s.curLen ≤ off)
    (hend : off + bs.length ≤ buf.length) : Extends s (poke buf off bs) := by
  refine ⟨(length_poke _ _ _).trans h.length, fun k hk => ?_⟩
  rw [getElem?_poke hend, if_neg (by omega)]
  exact h.same k hk

theorem Extends.refl (s : State) : Extends s s.buf := ⟨rfl, fun _ _ => rfl⟩

theorem length_le32 (n : Nat) : (le32 n).length = 4 := Endian.length_put _ _ _

theorem length_zeros (n : Nat) : (zeros n).length = n := List.length_replicate

theorem fill_eq (h : s.curLen + n ≤ s.buf.length) (h32 : s.curLen + n < 2 ^ 32) :
    ∃ buf, fill s n = .ok { s with buf := buf, curLen := s.curLen + n } ∧ Extends s buf := by
  have hend : s.curLen + (zeros n).length ≤ s.buf.length := by rwa [length_zeros]
  refine ⟨_, ?_, (Extends.refl s).poke (Nat.le_refl _) hend⟩
  rw [fill, store_eq hend, u32, Nat.mod_eq_of_lt h32]
  rfl

theorem fill_spec (hle : s.curLen ≤ s.buf.length) (h32 : s.curLen + n < 2 ^ 32) :
    Safe (Short s.buf.length (s.curLen + n)) (fill s n) fun t =>
      ∃ buf, t = { s with buf := buf, curLen := s.curLen + n } ∧ Extends s buf ∧
        s.curLen + n ≤ s.buf.length := by
  have hzeros : Safe (Short s.buf.length (s.curLen + n))
      (store .fault s.buf s.curLen (zeros n)) fun buf =>
        Extends s buf ∧ s.curLen + n ≤ s.buf.length := by
    refine Safe.store hle (fun hend => ?_) fun hlt => ?_
    · exact ⟨(Extends.refl s).poke (Nat.le_refl _) hend, by rwa [length_zeros] at hend⟩
    · rw [length_zeros] at hlt
      exact ⟨Nat.le_of_lt hlt, fun _ => hlt⟩
  rw [fill, u32, Nat.mod_eq_of_lt h32]
  exact hzeros.bind fun buf h => .ok ⟨buf, rfl, h⟩

/-- A file is in the buffer, or did not leave a byte of it. -/
theorem appendFile_spec (hle : s.curLen ≤ s.buf.length)
    (h32 : s.curLen + roundUp file.length 4 < 2 ^ 32) :
    Safe (Short s.buf.length (s.curLen + roundUp file.length 4)) (appendFile s (some file))
      fun t => ∃ buf,
        t = { s with buf := buf, curLen := s.curLen + roundUp file.length 4, opened := true } ∧
          Extends s buf ∧ load buf s.curLen file.length = file ∧
            s.curLen + roundUp file.length 4 ≤ s.buf.length := by
  have hround := add_rest_eq_roundUp file.length (show 0 < 4 by decide)
  have htake : s.curLen + (file.take (s.buf.length - s.curLen)).length ≤ s.buf.length := by
    rw [List.length_take]
    omega
  rw [appendFile, if_pos hle]
  dsimp only
  generalize (if file.length % 4 ≠ 0 then 4 - file.length % 4 else 0) = pad at hround ⊢
  rw [store_eq htake, ok_bind]
  by_cases hfull : s.buf.length - s.curLen ≤ file.length
  · have hle' := le_roundUp file.length (show 0 < 4 by decide)
    rw [if_pos hfull]
    exact Safe.error ⟨by omega, fun h => by cases h⟩
  · have hall : file.take (s.buf.length - s.curLen) = file := List.take_of_length_le (by omega)
    have hdata : s.curLen + file.length ≤ s.buf.length := by omega
    have hlen : (poke s.buf s.curLen file).length = s.buf.length := length_poke _ _ _
    have hzeros : Safe (Short s.buf.length (s.curLen + roundUp file.length 4))
        (store .fault (poke s.buf s.curLen file) (s.curLen + file.length) (zeros pad)) fun buf =>
          Extends s buf ∧ load buf s.curLen file.length = file ∧
            s.curLen + roundUp file.length 4 ≤ s.buf.length := by
      refine Safe.store (hlen ▸ hdata) (fun hend => ?_) fun hlt => ?_
      · have hfits := hend
        rw [length_zeros, hlen] at hfits
        refine ⟨((Extends.refl s).poke (Nat.le_refl _) hdata).poke (Nat.le_add_right _ _) hend, ?_,
          by omega⟩
        rw [load_poke_of_disjoint hend (.inl (Nat.le_refl _)), load_poke_self hdata]
      · rw [length_zeros, hlen] at hlt
        exact ⟨by omega, fun _ => by omega⟩
    rw [if_neg hfull, hall, hround, u32, Nat.mod_eq_of_lt h32]
    exact hzeros.bind fun buf h => .ok ⟨buf, rfl, h⟩

end

/-! ## The options for the data -/

/-- The file `p.2` is at `p.1`, before `c`, and the `j`-th offset says so. -/
structure PartAt (buf : Bytes) (h c j : Nat) (p : Nat × Bytes) : Prop where
  offset : load buf (offsetsOffset + 4 * j) 4 = le32 p.1
  data : load buf p.1 p.2.length = p.2
  lo : h ≤ p.1
  hi : p.1 + p.2.length ≤ c

/-- The state when the options `rest` of `body` are left: the header has `h` bytes, the buffer
`size`. -/
structure Built (heap : Heap) (size h version : Nat) (body rest : List Opt) (s : State) : Prop where
  length : s.buf.length = size
  header_le : h ≤ s.curLen
  inside : s.curLen ≤ size
  needs : total s.curLen rest = total h body
  fits32 : roundUp (total s.curLen rest) 0x1000 < 2 ^ 32
  version : s.version = version
  fsmark : s.fsmark = 0
  opened : s.i ≠ 0 → s.opened = true
  magic : load s.buf 0 4 = le32 trxMagic.toNat
  unused : ∀ k, offsetsOffset + 4 * s.i ≤ k → k < h → s.buf[k]? = some (heap 0 k)
  parts : ∃ done : List (Nat × Bytes), s.i = done.length ∧
    done.map Prod.snd ++ files rest = files body ∧
    ∀ j p, done[j]? = some p → PartAt s.buf h s.curLen j p

section
variable {heap : Heap} {size h version : Nat} {body rest : List Opt} {o : Opt} {s : State}
  {buf : Bytes} {c c' : Nat}

/-- A part stays where it is. -/
theorem PartAt.extend {b b' : Bytes} {j : Nat} {p : Nat × Bytes} (hp : PartAt b h c j p)
    (hc : c ≤ c')
    (hoff : load b' (offsetsOffset + 4 * j) 4 = load b (offsetsOffset + 4 * j) 4)
    (hsame : ∀ k, h ≤ k → k < c → b'[k]? = b[k]?) : PartAt b' h c' j p := by
  have hlo := hp.lo
  have hhi := hp.hi
  refine ⟨hoff.trans hp.offset, ?_, hlo, by omega⟩
  rw [load_congr fun k h₁ h₂ => hsame k (by omega) (by omega), hp.data]

/-- There is room for the offsets of the files so far. -/
theorem offset_le (hroom : offsetsOffset + 4 * (files body).length ≤ h)
    {done : List (Nat × Bytes)} {fs : List Bytes} (heq : done.map Prod.snd ++ fs = files body)
    {j : Nat} {p : Nat × Bytes} (hj : done[j]? = some p) : offsetsOffset + 4 * j + 4 ≤ h := by
  obtain ⟨hlt, -⟩ := List.getElem?_eq_some_iff.mp hj
  have hlen := congrArg List.length heq
  rw [List.length_append, List.length_map] at hlen
  omega

/-- Data behind what is there. -/
theorem Built.extend (hb : Built heap size h version body (o :: rest) s)
    (hroom : offsetsOffset + 4 * (files body).length ≤ h) (hext : Extends s buf)
    (hplain : o.Plain) (hfiles : files (o :: rest) = files rest) (opened : Bool)
    (hopened : s.opened = true → opened = true) (hfits : advance s.curLen o ≤ size) :
    Built heap size h version body rest
      { s with buf := buf, curLen := advance s.curLen o, opened := opened } := by
  have hle := le_advance (c := s.curLen) hplain
  have hheader := hb.header_le
  have h16 : offsetsOffset = 16 := rfl
  obtain ⟨done, hi, heq, hparts⟩ := hb.parts
  refine ⟨hext.length.trans hb.length, Nat.le_trans hheader hle, hfits, hb.needs, hb.fits32,
    hb.version, hb.fsmark, fun hi => hopened (hb.opened hi), ?_, fun k h₁ h₂ => ?_, done, hi, hfiles ▸ heq, fun j p hj => ?_⟩
  · refine (load_congr fun k _ hk => hext.same k ?_).trans hb.magic
    omega
  · exact (hext.same k (Nat.lt_of_lt_of_le h₂ hheader)).trans (hb.unused k h₁ h₂)
  · have hslot := offset_le hroom heq hj
    refine (hparts j p hj).extend hle ?_ fun k _ hk => hext.same k hk
    exact load_congr fun k _ hk => hext.same k (by omega)

/-- The start of a part, and its data. -/
theorem Built.part {file : Bytes} (hb : Built heap size h version body (.f (some file) :: rest) s)
    (hroom : offsetsOffset + 4 * (files body).length ≤ h)
    (hext : Extends { s with buf := poke s.buf (offsetsOffset + 4 * s.i) (le32 s.curLen) } buf)
    (hdata : load buf s.curLen file.length = file) (hfits : s.curLen + roundUp file.length 4 ≤ size) :
    Built heap size h version body rest
      { s with buf := buf, curLen := s.curLen + roundUp file.length 4, i := s.i + 1,
               opened := true } := by
  have h16 : offsetsOffset = 16 := rfl
  have h4 := length_le32 s.curLen
  have hheader := hb.header_le
  have hround := le_roundUp file.length (show 0 < 4 by decide)
  have hlength := hb.length
  obtain ⟨done, hi, heq, hparts⟩ := hb.parts
  have hcount := congrArg List.length heq
  rw [files, List.length_append, List.length_map, List.length_cons] at hcount
  have hslot : offsetsOffset + 4 * s.i + (le32 s.curLen).length ≤ s.buf.length := by omega
  -- all but the new offset is as it was
  have hsame (k : Nat) (hk : k < s.curLen)
      (hout : ¬ (offsetsOffset + 4 * s.i ≤ k ∧ k < offsetsOffset + 4 * s.i + 4)) :
      buf[k]? = s.buf[k]? := by
    rw [hext.same k hk, getElem?_poke hslot, h4, if_neg hout]
  have hgrow : h ≤ s.curLen + roundUp file.length 4 := Nat.le_add_right_of_le hheader
  have hend : s.curLen + file.length ≤ s.curLen + roundUp file.length 4 :=
    Nat.add_le_add_left hround _
  refine ⟨?_, hgrow, hfits, hb.needs, hb.fits32, hb.version, hb.fsmark, fun _ => rfl, ?_,
    fun k h₁ h₂ => ?_, done ++ [(s.curLen, file)], ?_, ?_, fun j p hj => ?_⟩
  · exact hext.length.trans ((length_poke _ _ _).trans hlength)
  · exact (load_congr fun k _ hk => hsame k (by omega) (by omega)).trans hb.magic
  · have h₁ : offsetsOffset + 4 * (s.i + 1) ≤ k := h₁
    exact (hsame k (by omega) (by omega)).trans (hb.unused k (by omega) h₂)
  · rw [List.length_append, ← hi]
    rfl
  · rw [List.map_append, List.append_assoc, ← heq]
    rfl
  · by_cases hlast : j = done.length
    · rw [hlast, List.getElem?_concat_length] at hj
      obtain rfl := Option.some.inj hj
      refine ⟨?_, hdata, hheader, hend⟩
      have hbefore (k : Nat) (hk : k < offsetsOffset + 4 * s.i + 4) : k < s.curLen := by omega
      rw [hlast, ← hi, load_congr fun k _ h₂ => hext.same k (hbefore k h₂), ← h4]
      exact load_poke_self hslot
    · have hlt : j < done.length := by
        obtain ⟨hlt, -⟩ := List.getElem?_eq_some_iff.mp hj
        rw [List.length_append, List.length_singleton] at hlt
        omega
      rw [List.getElem?_append_left hlt] at hj
      refine (hparts j p hj).extend (Nat.le_add_right _ _) ?_ fun k h₁ h₂ => hsame k h₂ ?_
      · exact load_congr fun k h₁ h₂ => hsame k (by omega) (by omega)
      · omega

theorem toNat_low {n : UInt64} {k : Nat} (hk : n.toNat = 2 ^ k) (hc : c < 2 ^ 64) :
    (UInt64.ofNat c &&& (n - 1)).toNat = c % n.toNat := by
  have hpos := Nat.two_pow_pos k
  have hone : (1 : UInt64) ≤ n := by
    rw [UInt64.le_iff_toNat_le, hk]
    exact hpos
  rw [UInt64.toNat_and, UInt64.toNat_sub_of_le _ _ hone, hk, UInt64.toNat_ofNat_of_lt' hc]
  exact Nat.and_two_pow_sub_one_eq_mod c k

/-- An option adds what it describes, and stays inside of the buffer if there is room for all. -/
theorem opt_built (hb : Built heap size h version body (o :: rest) s)
    (hroom : offsetsOffset + 4 * (files body).length ≤ h) (hplain : ∀ o' ∈ o :: rest, o'.Plain) :
    Safe (Short size (total h body)) (opt heap s o) (Built heap size h version body rest) := by
  have ho := hplain o List.mem_cons_self
  have hneeds : advance s.curLen o ≤ total h body := by
    rw [← hb.needs, total_cons]
    exact le_total fun o' h' => hplain o' (List.mem_cons_of_mem o h')
  have hfits32 : advance s.curLen o < 2 ^ 32 := by
    have h32 := Nat.lt_of_le_of_lt (le_roundUp _ (by decide)) hb.fits32
    rw [hb.needs] at h32
    omega
  have hinside := hb.inside
  have hlength := hb.length
  cases o with
  | f file =>
    cases file with
    | none => cases ho
    | some file =>
      have hheader := hb.header_le
      have hslot : offsetsOffset + 4 * s.i + (le32 s.curLen).length ≤ s.buf.length := by
        obtain ⟨done, hi, heq, -⟩ := hb.parts
        have hcount := congrArg List.length heq
        rw [files, List.length_append, List.length_map, List.length_cons] at hcount
        have h4 := length_le32 s.curLen
        omega
      have hlen : (poke s.buf (offsetsOffset + 4 * s.i) (le32 s.curLen)).length = size :=
        (length_poke _ _ _).trans hlength
      rw [opt, startPart, store_eq hslot]
      have hspec := appendFile_spec (s := { s with
        buf := poke s.buf (offsetsOffset + 4 * s.i) (le32 s.curLen), i := s.i + 1 })
        (hlen ▸ hinside) hfits32
      dsimp only at hspec
      rw [hlen] at hspec
      refine (hspec.weaken fun e he => he.mono hneeds).mono ?_
      rintro t ⟨buf, rfl, hext, hdata, hfits⟩
      exact hb.part hroom ⟨hext.length, hext.same⟩ hdata hfits
  | A file =>
    cases file with
    | none => cases ho
    | some file =>
      have hspec := appendFile_spec (hlength ▸ hinside) hfits32
      rw [hlength] at hspec
      refine (hspec.weaken fun e he => he.mono hneeds).mono ?_
      rintro t ⟨buf, rfl, hext, -, hfits⟩
      exact hb.extend hroom hext ho rfl true (fun _ => rfl) hfits
  | a n =>
    cases n with
    | none => cases ho
    | some n =>
      have hle := le_advance (c := s.curLen) ho
      obtain ⟨k, hk⟩ := id ho
      have hlow := toNat_low (c := s.curLen) hk (by omega)
      have hround := add_rest_eq_roundUp s.curLen (hk ▸ Nat.two_pow_pos k : 0 < n.toNat)
      have hmod := Nat.mod_lt s.curLen (hk ▸ Nat.two_pow_pos k : 0 < n.toNat)
      have hextend (buf : Bytes) (hext : Extends s buf) :=
        hb.extend hroom hext ho rfl s.opened id
      rw [opt]
      rw [advance, ← hround] at hfits32 hneeds hextend
      split
      next hne =>
        have hne : s.curLen % n.toNat ≠ 0 := by
          rw [← hlow]
          exact fun h0 => hne (UInt64.toNat_inj.mp h0)
        have hrest : (n - (UInt64.ofNat s.curLen &&& (n - 1))).toNat =
            n.toNat - s.curLen % n.toNat := by
          rw [UInt64.toNat_sub_of_le _ _ (UInt64.le_iff_toNat_le.mpr (by omega)), hlow]
        rw [if_pos hne] at hfits32 hneeds hextend
        have hspec := fill_spec (hlength ▸ hinside) hfits32
        rw [hlength] at hspec
        rw [hrest]
        refine (hspec.weaken fun e he => he.mono hneeds).mono ?_
        rintro t ⟨buf, rfl, hext, hfits⟩
        exact hextend buf hext hfits
      next heq =>
        have heq : s.curLen % n.toNat = 0 := by
          rw [← hlow, not_not.mp heq]
          rfl
        rw [if_neg (not_not.mpr heq)] at hextend
        exact .ok (hextend s.buf (.refl s) hinside)
  | b n =>
    cases n with
    | none => cases ho
    | some n =>
      have hextend (buf : Bytes) (hext : Extends s buf) :=
        hb.extend hroom hext ho rfl s.opened id
      rw [opt]
      split
      next hlt =>
        have hsame : advance s.curLen (.b (some n)) = s.curLen := Nat.max_eq_left (Nat.le_of_lt hlt)
        rw [hsame] at hextend
        exact .ok (hextend s.buf (.refl s) hinside)
      next hge =>
        have hmax : advance s.curLen (.b (some n)) = s.curLen + (n.toNat - s.curLen) := by
          rw [advance]
          omega
        rw [hmax] at hfits32 hneeds hextend
        have hspec := fill_spec (hlength ▸ hinside) hfits32
        rw [hlength] at hspec
        refine (hspec.weaken fun e he => he.mono hneeds).mono ?_
        rintro t ⟨buf, rfl, hext, hfits⟩
        exact hextend buf hext hfits
  | _ => cases ho

end

/-! ## The options in front -/

/-- The state when the options `rest` of `lead` are left. -/
structure Started (heap : Heap) (lead rest : List Opt) (s : State) : Prop where
  length : rest.foldl Opt.maxlen s.buf.length = maxlen lead
  aligned : 0x1000 ∣ s.buf.length
  large : 0x1000 ≤ s.buf.length
  sub : ∀ o ∈ rest, o ∈ lead
  header : s.version = 1 ∧ s.curLen = 28 ∧ (Opt.two ∈ lead → Opt.two ∈ rest) ∨
    s.version = 2 ∧ s.curLen = 32 ∧ Opt.two ∈ lead
  i : s.i = 0
  fsmark : s.fsmark = 0
  magic : load s.buf 0 4 = le32 trxMagic.toNat
  unused : ∀ k, offsetsOffset ≤ k → k < 32 → s.buf[k]? = some (heap 0 k)

/-- The text of a `-m` is not a length. -/
def BadMaxlen (lead : List Opt) (e : Exit) : Prop := e = .usage ∧ ∃ n, Opt.m (some n) ∈ lead

section
variable {heap : Heap} {lead rest : List Opt} {o : Opt} {s : State}

theorem length_realloc (k : Nat) (buf : Bytes) (n : Nat) : (realloc heap k buf n).length = n := by
  rw [realloc, List.length_append, List.length_take, List.length_map, List.length_range']
  omega

/-- What was there is kept. -/
theorem getElem?_realloc {k : Nat} {buf : Bytes} {n j : Nat} (hn : j < n) (hj : j < buf.length) :
    (realloc heap k buf n)[j]? = buf[j]? := by
  rw [realloc, List.getElem?_append_left (by rw [List.length_take]; omega),
    List.getElem?_take_of_lt hn]

theorem start_started {allowed : Exit → Prop} :
    Safe allowed (start heap) (Started heap lead lead) := by
  have hlen : (realloc heap 0 [] trxMaxLen).length = trxMaxLen := length_realloc _ _ _
  have h4 := length_le32 trxMagic.toNat
  have hslot : 0 + (le32 trxMagic.toNat).length ≤ (realloc heap 0 [] trxMaxLen).length := by
    rw [hlen, h4]
    decide
  rw [start, store_eq hslot]
  refine Safe.ok ⟨?_, ?_, ?_, fun _ => id, .inl ⟨rfl, rfl, id⟩, rfl, rfl, load_poke_self hslot, fun k h₁ h₂ => ?_⟩
  · show lead.foldl Opt.maxlen (poke _ _ _).length = _
    rw [length_poke, hlen]
    rfl
  · show 0x1000 ∣ (poke _ _ _).length
    rw [length_poke, hlen]
    decide
  · show 0x1000 ≤ (poke _ _ _).length
    rw [length_poke, hlen]
    decide
  · have h16 : offsetsOffset = 16 := rfl
    show (poke _ _ _)[k]? = _
    have hk : k < trxMaxLen := Nat.lt_trans h₂ (by decide)
    rw [getElem?_poke hslot, if_neg (by omega), realloc, List.take_nil, List.nil_append,
      List.getElem?_map, List.length_nil, Nat.sub_zero, List.getElem?_range' hk, Nat.zero_add,
      Nat.one_mul]
    rfl

theorem opt_started (hs : Started heap lead (o :: rest) s) (ho : o.IsLead) :
    Safe (BadMaxlen lead) (opt heap s o) (Started heap lead rest) := by
  have hlen := hs.length
  have hlarge := hs.large
  have hsub : ∀ o' ∈ rest, o' ∈ lead := fun o' h => hs.sub o' (List.mem_cons_of_mem o h)
  cases o with
  | two =>
    have hmem : Opt.two ∈ lead := hs.sub _ List.mem_cons_self
    rw [opt]
    split
    next hne =>
      have hheader : s.version = 2 ∧ s.curLen = 32 ∧ Opt.two ∈ lead := by
        rcases hs.header with ⟨-, hc, -⟩ | h
        · exact absurd hc hne
        · exact h
      exact .ok ⟨hlen, hs.aligned, hlarge, hsub, .inr hheader, hs.i, hs.fsmark, hs.magic, hs.unused⟩
    next heq =>
      have hc : s.curLen + 4 = 32 := by rw [not_not.mp heq, headerV1]
      exact .ok ⟨hlen, hs.aligned, hlarge, hsub, .inr ⟨rfl, hc, hmem⟩, hs.i, hs.fsmark, hs.magic,
        hs.unused⟩
  | m n =>
    cases n with
    | none => cases ho
    | some n =>
      have hround := add_rest_eq_roundUp n.toNat (show 0 < 0x1000 by decide)
      have hlt := roundUp_lt n.toNat (show 0 < 0x1000 by decide)
      have hn := n.toNat_lt
      rw [opt, hround]
      split
      · exact Safe.error ⟨rfl, n, hs.sub _ List.mem_cons_self⟩
      next hge =>
        -- a rounded length either fits or wraps to 0
        have hwrap : roundUp n.toNat 0x1000 % 2 ^ 64 = roundUp n.toNat 0x1000 := by
          obtain ⟨q, hq⟩ := dvd_roundUp n.toNat 0x1000
          omega
        rw [hwrap] at hge ⊢
        have hmem (h : Opt.two ∈ lead) (hrest : Opt.two ∈ lead → Opt.two ∈ .m (some n) :: rest) :
            Opt.two ∈ rest := by
          cases hrest h with
          | tail _ h => exact h
        have hkeep (k : Nat) (hk : k < 32) :
            (realloc heap s.allocs s.buf (roundUp n.toNat 0x1000))[k]? = s.buf[k]? :=
          getElem?_realloc (by omega) (by omega)
        refine .ok ⟨?_, ?_, ?_, hsub, ?_, hs.i, hs.fsmark, ?_, fun k h₁ h₂ => ?_⟩
        · rw [length_realloc]
          exact hlen
        · rw [length_realloc]
          exact dvd_roundUp _ _
        · rw [length_realloc]
          exact Nat.le_of_not_lt hge
        · rcases hs.header with ⟨hv, hc, hrest⟩ | h
          · exact .inl ⟨hv, hc, fun h => hmem h hrest⟩
          · exact .inr h
        · exact (load_congr fun k _ hk => hkeep k (by omega)).trans hs.magic
        · exact (hkeep k h₂).trans (hs.unused k h₁ h₂)
  | _ => cases ho

end

/-! ## The header -/

/-- The image that the CRC is for. -/
def masked (version : Nat) (m : Bytes) : Bytes :=
  if version = 2 then poke m ((word m 28).toNat + 22) (List.replicate 8 0xff) else m

theorem length_masked {version : Nat} {m : Bytes} : (masked version m).length = m.length := by
  rw [masked]
  split
  · exact length_poke _ _ _
  · rfl

/-- The buffer with the CRC and the length. -/
def withHeader (version : Nat) (m : Bytes) (len : Nat) : Bytes :=
  poke (poke m 8 (le32 (crc32 0xffffffff (load (masked version m) 12 (len - 12))).toNat)) 4
    (le32 len)

/-- There is no file, or the bin-header is not one. -/
def Unfinished (s : State) (e : Exit) : Prop :=
  e = .usage ∧ s.opened = false ∨
    e = .failure ∧ s.version = 2 ∧ s.curLen < (word s.buf 28).toNat + binheaderSize

/-- What `finish` writes. -/
structure Written (s : State) (out : Bytes) : Prop where
  length : out.length = roundUp s.curLen 0x1000
  len : load out 4 4 = le32 out.length
  crc : load out 8 4 = le32 (crc32 0xffffffff ((masked s.version out).drop 12)).toNat
  binheader : s.version = 2 → (word out 28).toNat + binheaderSize ≤ out.length
  same : ∀ k < s.curLen, k < 4 ∨ 16 ≤ k → out[k]? = s.buf[k]?

section
variable {s : State}

/-- The words of the header are written before the 32nd byte. -/
theorem header_writes {buf binheader : Bytes} {len : Nat} (h28 : 28 ≤ len)
    (hle : len ≤ buf.length) :
    (do
      let data ← fetch Exit.fault buf 12 (len - 12)
      let buf ← store Exit.fault buf 8 (le32 (crc32 0xffffffff data).toNat)
      let buf ← store Exit.fault buf 4 (le32 len)
      store Exit.fault buf (word buf 28).toNat binheader) =
    store .fault (poke (poke buf 8 (le32 (crc32 0xffffffff (load buf 12 (len - 12))).toNat)) 4
      (le32 len)) (word buf 28).toNat binheader := by
  have hcrc (n : Nat) : 8 + (le32 n).length ≤ buf.length := by
    rw [length_le32]
    omega
  have hlen (n : Nat) (bs : Bytes) : 4 + (le32 n).length ≤ (poke buf 8 bs).length := by
    rw [length_le32, length_poke]
    omega
  rw [fetch_eq (by omega), ok_bind, store_eq (hcrc _), ok_bind, store_eq (hlen _ _), ok_bind]
  congr 2
  rw [word, word, load_poke_of_disjoint (hlen _ _) (.inr (by rw [length_le32]; decide)),
    load_poke_of_disjoint (hcrc _) (.inr (by rw [length_le32]; decide))]

/-- The bin-header is put back behind the header. -/
theorem restore_eq {buf ff crc len : Bytes} {off : Nat} (hlo : 32 ≤ off)
    (hff : ff.length = 8) (hcrc : crc.length = 4) (hlen : len.length = 4)
    (hhi : off + binheaderSize ≤ buf.length) :
    store Exit.fault (poke (poke (poke buf (off + 22) ff) 8 crc) 4 len) off
      (load buf off binheaderSize) = .ok (poke (poke buf 8 crc) 4 len) := by
  have h32 : binheaderSize = 32 := rfl
  have hbin : (load buf off binheaderSize).length = binheaderSize := length_load hhi
  have h₁ : off + 22 + ff.length ≤ buf.length := by omega
  have h₂ : 8 + crc.length ≤ (poke buf (off + 22) ff).length := by
    rw [length_poke]
    omega
  have h₃ : 4 + len.length ≤ (poke (poke buf (off + 22) ff) 8 crc).length := by
    rw [length_poke, length_poke]
    omega
  have h₄ : off + (load buf off binheaderSize).length ≤
      (poke (poke (poke buf (off + 22) ff) 8 crc) 4 len).length := by
    rw [length_poke, length_poke, length_poke]
    omega
  have h₅ : 8 + crc.length ≤ buf.length := by omega
  have h₆ : 4 + len.length ≤ (poke buf 8 crc).length := by
    rw [length_poke]
    omega
  rw [store_eq h₄]
  congr 1
  apply List.ext_getElem?
  intro k
  rw [getElem?_poke h₄, getElem?_poke h₃, getElem?_poke h₂, getElem?_poke h₁, getElem?_poke h₆,
    getElem?_poke h₅, hbin]
  by_cases hk : off ≤ k ∧ k < off + binheaderSize
  · rw [if_pos hk, getElem?_load hk.1 hk.2, if_neg (by omega), if_neg (by omega)]
  · rw [if_neg hk, if_neg (c := off + 22 ≤ k ∧ _) (by omega)]

theorem writeCrc_spec (hfsmark : s.fsmark = 0) (hle : s.curLen ≤ s.buf.length)
    (hheader : 28 ≤ s.curLen) (h32 : s.curLen < 2 ^ 32)
    (hoff : s.version = 2 → 32 ≤ (word s.buf 28).toNat ∧ (word s.buf 28).toNat ≤ s.curLen) :
    Safe (Unfinished s) (writeCrc s) fun buf => buf = withHeader s.version s.buf s.curLen ∧
      (s.version = 2 → (word s.buf 28).toNat + binheaderSize ≤ s.curLen) := by
  have hlen : (if (0 : Nat) ≠ 0 then 0 else s.curLen) = s.curLen := if_neg (not_not.mpr rfl)
  have hdata : (if 12 ≤ s.curLen then s.curLen - 12 else 2 ^ 64 + s.curLen - 12) = s.curLen - 12 :=
    if_pos (by omega)
  rw [writeCrc, hfsmark, hlen, hdata]
  by_cases hv : s.version = 2
  · obtain ⟨hlo, hhi⟩ := hoff hv
    generalize hoffset : (word s.buf 28).toNat = off at hlo hhi ⊢
    have hdiff : u32 (s.curLen + 2 ^ 32 - off) = s.curLen - off := by
      rw [u32]
      omega
    rw [hdiff]
    by_cases hsmall : s.curLen - off < binheaderSize
    · rw [if_pos ⟨hv, hsmall⟩]
      exact Safe.error (.inr ⟨rfl, hv, by rw [hoffset]; omega⟩)
    · have h32 : binheaderSize = 32 := rfl
      have hmask : off + 22 + (List.replicate 8 (0xff : UInt8)).length ≤ s.buf.length := by
        rw [List.length_replicate]
        omega
      rw [if_neg fun h => hsmall h.2, if_pos hv, fetch_eq (by omega), ok_bind]
      dsimp only
      rw [if_pos hv, store_eq hmask, ok_bind, header_writes hheader (by rwa [length_poke])]
      have hword : (word (poke s.buf (off + 22) (List.replicate 8 0xff)) 28).toNat = off := by
        rw [word, load_poke_of_disjoint hmask (.inl (by omega)), ← word, hoffset]
      rw [hword, restore_eq hlo rfl (length_le32 _) (length_le32 _) (by omega)]
      refine .ok ⟨?_, fun _ => by omega⟩
      rw [withHeader, masked, if_pos hv, hoffset]
  · rw [if_neg (fun h => hv h.1), if_neg hv, ok_bind]
    dsimp only
    rw [if_neg hv, ok_bind, header_writes hheader hle]
    refine .ok ⟨?_, fun h => absurd h hv⟩
    rw [withHeader, masked, if_neg hv]

theorem withHeader_same {version : Nat} {m : Bytes} {len k : Nat} (hlen : 12 ≤ m.length)
    (hk : k < 4 ∨ 12 ≤ k) : (withHeader version m len)[k]? = m[k]? := by
  have hcrc (n : Nat) : 8 + (le32 n).length ≤ m.length := by rwa [length_le32]
  have hput (n : Nat) (bs : Bytes) : 4 + (le32 n).length ≤ (poke m 8 bs).length := by
    rw [length_le32, length_poke]
    omega
  rw [withHeader, getElem?_poke (hput _ _), getElem?_poke (hcrc _), length_le32, length_le32,
    if_neg (by omega), if_neg (by omega)]

/-- What is written, from the buffer after the filling. -/
theorem written {buf : Bytes} {len : Nat} (hlen : len = roundUp s.curLen 0x1000)
    (hle : len ≤ buf.length) (h28 : 28 ≤ len)
    (hsame : ∀ k < s.curLen, k < 12 ∨ 16 ≤ k → buf[k]? = s.buf[k]?)
    (hoff : s.version = 2 → (word buf 28).toNat + binheaderSize ≤ len) :
    Written s (load (withHeader s.version buf len) 0 len) := by
  have hkeep (k : Nat) (hk : k < 4 ∨ 12 ≤ k) :
      (withHeader s.version buf len)[k]? = buf[k]? := withHeader_same (by omega) hk
  have hbuf : (withHeader s.version buf len).length = buf.length := by
    rw [withHeader, length_poke, length_poke]
  generalize hout : load (withHeader s.version buf len) 0 len = out
  have hlength : out.length = len := by
    rw [← hout, load, List.length_take, List.length_drop, hbuf]
    omega
  have hget (k : Nat) (hk : k < len) : out[k]? = (withHeader s.version buf len)[k]? := by
    rw [← hout, load, List.getElem?_take_of_lt hk, List.getElem?_drop, Nat.zero_add]
  have hload (off n : Nat) (h : off + n ≤ len) :
      load out off n = load (withHeader s.version buf len) off n :=
    load_congr fun k _ hk => hget k (by omega)
  have hcrc (n : Nat) : 8 + (le32 n).length ≤ buf.length := by
    rw [length_le32]
    omega
  have hput (n : Nat) (bs : Bytes) : 4 + (le32 n).length ≤ (poke buf 8 bs).length := by
    rw [length_le32, length_poke]
    omega
  have h32 : binheaderSize = 32 := rfl
  have hword (hend : 32 ≤ len) : word out 28 = word buf 28 := by
    rw [word, hload 28 4 hend, load_congr fun k hlo _ => hkeep k (by omega), ← word]
  have hmasked : (masked s.version out).drop 12 = load (masked s.version buf) 12 (len - 12) := by
    rw [drop_eq_load (length_masked.trans hlength)]
    refine load_congr fun k h₁ h₂ => ?_
    have hsame := (hget k (by omega)).trans (hkeep k (.inr h₁))
    by_cases hv : s.version = 2
    · have hend := hoff hv
      have hff : (List.replicate 8 (0xff : UInt8)).length = 8 := rfl
      rw [masked, masked, if_pos hv, if_pos hv, hword (by omega),
        getElem?_poke (by rw [hff, hlength]; omega), getElem?_poke (by rw [hff]; omega), hsame]
    · rw [masked, masked, if_neg hv, if_neg hv, hsame]
  refine ⟨hlength.trans hlen, ?_, ?_, fun hv => ?_, fun k hk hout => ?_⟩
  · rw [hload 4 4 (by omega), withHeader, hlength, ← length_le32 len]
    exact load_poke_self (hput _ _)
  · rw [hload 8 4 (by omega), hmasked, withHeader, load_poke_of_disjoint (hput _ _)
      (.inr (by rw [length_le32]))]
    have h := load_poke_self (hcrc
      (crc32 0xffffffff (load (masked s.version buf) 12 (len - 12))).toNat)
    rwa [length_le32] at h
  · have hend := hoff hv
    rw [hword (by omega), hlength]
    exact hend
  · have hle := le_roundUp s.curLen (show 0 < 0x1000 by decide)
    rw [hget k (by omega), hkeep k (by omega), hsame k hk (by omega)]

/-- The rest of `finish`. -/
theorem finish_filled (buf : Bytes) (hfsmark : s.fsmark = 0) (hheader : 28 ≤ s.curLen)
    (hup : roundUp s.curLen 0x1000 ≤ buf.length) (h32 : roundUp s.curLen 0x1000 < 2 ^ 32)
    (hsame : ∀ k < s.curLen, k < 12 ∨ 16 ≤ k → buf[k]? = s.buf[k]?)
    (hoff : s.version = 2 → 32 ≤ (word s.buf 28).toNat ∧ (word s.buf 28).toNat ≤ s.curLen) :
    Safe (Unfinished s) (do
        let buf ← writeCrc { s with buf := buf, curLen := roundUp s.curLen 0x1000 }
        if roundUp s.curLen 0x1000 = 0 then throw .failure
        fetch .fault buf 0 (roundUp s.curLen 0x1000)) (Written s) := by
  have hle := le_roundUp s.curLen (show 0 < 0x1000 by decide)
  have hword (h : s.version = 2) : word buf 28 = word s.buf 28 := by
    have hend := hoff h
    rw [word, load_congr fun k _ hk => hsame k (by omega) (by omega), ← word]
  have hwrite := writeCrc_spec (s := { s with buf := buf, curLen := roundUp s.curLen 0x1000 })
    hfsmark hup (Nat.le_trans hheader hle) h32 fun h => by
      have hend := hoff h
      dsimp only
      rw [hword h]
      omega
  refine (hwrite.weaken fun e he => ?_).bind ?_
  · rcases he with h | ⟨he, hv, hsmall⟩
    · exact .inl h
    · have hv : s.version = 2 := hv
      dsimp only at hsmall
      rw [hword hv] at hsmall
      exact .inr ⟨he, hv, by omega⟩
  · rintro out ⟨rfl, hend⟩
    have hlen : 0 + roundUp s.curLen 0x1000 ≤
        (withHeader s.version buf (roundUp s.curLen 0x1000)).length := by
      rw [withHeader, length_poke, length_poke, Nat.zero_add]
      exact hup
    rw [if_neg (by omega), fetch_eq hlen]
    exact .ok (written rfl hup (Nat.le_trans hheader hle) hsame hend)

theorem finish_spec (hfsmark : s.fsmark = 0) (haligned : 0x1000 ∣ s.buf.length)
    (hle : s.curLen ≤ s.buf.length)
    (hheader : 28 ≤ s.curLen) (h32 : roundUp s.curLen 0x1000 < 2 ^ 32)
    (hoff : s.version = 2 → 32 ≤ (word s.buf 28).toNat ∧ (word s.buf 28).toNat ≤ s.curLen) :
    Safe (Unfinished s) (finish s) (Written s) := by
  have hflags : 12 + (le32 (s.version * 2 ^ 16)).length ≤ s.buf.length := by
    rw [length_le32]
    omega
  have hpoke (k : Nat) (hout : k < 12 ∨ 16 ≤ k) :
      (poke s.buf 12 (le32 (s.version * 2 ^ 16)))[k]? = s.buf[k]? := by
    rw [getElem?_poke hflags, length_le32, if_neg (by omega)]
  have hround := add_rest_eq_roundUp s.curLen (show 0 < 0x1000 by decide)
  have hup := (roundUp_le_iff (show 0 < 0x1000 by decide) haligned).mpr hle
  have hlen : (poke s.buf 12 (le32 (s.version * 2 ^ 16))).length = s.buf.length := length_poke _ _ _
  rw [finish, store_eq hflags, ok_bind]
  split
  next hopened => exact Safe.error (.inl ⟨rfl, hopened⟩)
  dsimp only
  split
  next hne =>
    rw [if_pos hne] at hround
    obtain ⟨buf, hfill, hext⟩ := fill_eq
      (s := { s with buf := poke s.buf 12 (le32 (s.version * 2 ^ 16)) })
      (n := 0x1000 - s.curLen % 0x1000) (by rw [hlen, hround]; exact hup) (by rw [hround]; exact h32)
    rw [hfill, ok_bind]
    dsimp only
    rw [hround]
    exact finish_filled buf hfsmark hheader (hext.length.trans hlen ▸ hup) h32
      (fun k hk hout => (hext.same k hk).trans (hpoke k hout)) hoff
  next heq =>
    rw [if_neg heq, Nat.add_zero] at hround
    have h := finish_filled (poke s.buf 12 (le32 (s.version * 2 ^ 16))) hfsmark hheader
      (hlen ▸ hup) h32 (fun k _ hout => hpoke k hout) hoff
    rw [← hround] at h
    exact h

end

/-! ## The file -/

/-- The `j`-th offset of the header. -/
def offset (out : Bytes) (j : Nat) : Nat := (word out (offsetsOffset + 4 * j)).toNat

/-- The image with 0xff for the flags of the bin-header. -/
def flagsCleared (out : Bytes) : Bytes := poke out (offset out 3 + 22) (List.replicate 8 0xff)

/-- What the file says about itself. -/
structure Agrees (heap : Heap) (lead body : List Opt) (out : Bytes) : Prop where
  length : (word out 4).toNat = out.length
  parts : ∀ j file, (files body)[j]? = some file → load out (offset out j) file.length = file
  v1 : Opt.two ∉ lead → Otrx.otrxCheck 0 out = .ok ()
  unused : Opt.two ∉ lead → (∀ k < 28, heap 0 k = 0) →
    ∀ j < 3, (files body).length ≤ j → offset out j = 0
  v2 : Opt.two ∈ lead → word out 8 = crc32 0xffffffff ((flagsCleared out).drop 12) ∧
    (Otrx.otrxCheck 0 out = .ok () ↔
      crc32 0 (load out (offset out 3 + 22) 8) = crc32 0 (List.replicate 8 0xff))

/-- There is an offset for each file, and a v2 header has all of them. -/
def Room (lead body : List Opt) : Prop :=
  if Opt.two ∈ lead then (files body).length = 4 else (files body).length ≤ 3

section
variable {heap : Heap} {lead body : List Opt} {s : State} {out : Bytes}

/-- otrx's check of an image whose length is the one in the header. -/
theorem otrxCheck_iff (hmagic : load out 0 4 = le32 trxMagic.toNat) (h28 : 28 ≤ out.length)
    (h32 : out.length < 2 ^ 32) (hlen : load out 4 4 = le32 out.length) {crc : UInt32}
    (hcrc : load out 8 4 = le32 crc.toNat) :
    Otrx.otrxCheck 0 out = .ok () ↔ crc32 0xffffffff (out.drop 12) = crc := by
  have hword (p : Nat) (hp : p + 4 ≤ Otrx.headerSize) :
      word (load out 0 Otrx.headerSize) p = word out p := by
    rw [word, load_load hp, Nat.zero_add, ← word]
  have hdata : (load out (0 + Otrx.trxFlagsOffset) (out.length - Otrx.trxFlagsOffset)).length =
      out.length - Otrx.trxFlagsOffset := length_load (by rw [Otrx.trxFlagsOffset]; omega)
  have hm : word out 0 = Otrx.trxMagic :=
    UInt32.toNat_inj.mp (word_eq hmagic trxMagic.toNat_lt)
  have hc : word out 8 = crc := UInt32.toNat_inj.mp (word_eq hcrc crc.toNat_lt)
  rw [Otrx.otrxCheck]
  dsimp only [Otrx.TrxHeader.parse]
  rw [hword 0 (by decide), hword 4 (by decide), hword 8 (by decide), hm, hc, word_eq hlen h32,
    if_neg (not_not.mpr (length_load (by rw [Otrx.headerSize]; omega))),
    if_neg (not_not.mpr rfl), if_neg (by rw [Otrx.headerSize]; omega), hdata,
    if_neg (by omega), copyChunks_crc32 (by decide), Nat.zero_add, ← drop_eq_load rfl]
  split
  next h => exact ⟨(fun h' => by cases h'), fun h' => absurd h' h⟩
  next h => exact ⟨fun _ => not_not.mp h, fun _ => rfl⟩

/-- The version that the options in front leave. -/
def version (lead : List Opt) : Nat := if Opt.two ∈ lead then 2 else 1

theorem lead_started (hlead : ∀ o ∈ lead, o.IsLead) (hs : Started heap lead lead s) :
    Safe (BadMaxlen lead) (lead.foldlM (opt heap) s) (Started heap lead []) := by
  refine (@Safe.foldlM _ _ _ _ (opt heap)
    (fun rest s => Started heap lead rest s ∧ ∀ o ∈ rest, o.IsLead) lead s ⟨hs, hlead⟩ ?_).mono
    fun t ht => ht.1
  rintro o rest t ⟨ht, hrest⟩
  exact (opt_started ht (hrest o List.mem_cons_self)).mono fun u hu =>
    ⟨hu, fun o' h => hrest o' (List.mem_cons_of_mem o h)⟩

theorem room_le (hroom : Room lead body) : offsetsOffset + 4 * (files body).length ≤ header lead := by
  have h16 : offsetsOffset = 16 := rfl
  rw [Room] at hroom
  rw [header]
  split
  next h =>
    rw [if_pos h] at hroom
    omega
  next h =>
    rw [if_neg h] at hroom
    omega

theorem built_of_started (hs : Started heap lead [] s)
    (h32 : roundUp (total (header lead) body) 0x1000 < 2 ^ 32) :
    Built heap (maxlen lead) (header lead) (version lead) body body s := by
  have hstart : s.curLen = header lead ∧ s.version = version lead := by
    rw [header, version]
    rcases hs.header with ⟨hv, hc, hrest⟩ | ⟨hv, hc, hmem⟩
    · have hout : Opt.two ∉ lead := fun h => absurd (hrest h) List.not_mem_nil
      rw [if_neg hout, if_neg hout]
      exact ⟨hc, hv⟩
    · rw [if_pos hmem, if_pos hmem]
      exact ⟨hc, hv⟩
  obtain ⟨hc, hv⟩ := hstart
  have hi := hs.i
  have hlength : s.buf.length = maxlen lead := hs.length
  have hlarge := hs.large
  have h32' : header lead ≤ 32 := by
    rw [header]
    split <;> omega
  refine ⟨hlength, Nat.le_of_eq hc.symm, by omega, by rw [hc], by rwa [hc], hv, hs.fsmark,
    fun h => absurd hi h, hs.magic, fun k h₁ h₂ => ?_,
    [], hi, rfl, nofun⟩
  exact hs.unused k (by omega) (by omega)

theorem body_built (hbody : ∀ o ∈ body, o.Plain) (hroom : Room lead body)
    {size h v : Nat} (hh : h = header lead) (hs : Built heap size h v body body s) :
    Safe (Short size (total h body)) (body.foldlM (opt heap) s) (Built heap size h v body []) := by
  refine (@Safe.foldlM _ _ _ _ (opt heap)
    (fun rest s => Built heap size h v body rest s ∧ ∀ o ∈ rest, o.Plain) body s ⟨hs, hbody⟩
    ?_).mono fun t ht => ht.1
  rintro o rest t ⟨ht, hrest⟩
  exact (opt_built ht (hh ▸ room_le hroom) hrest).mono fun u hu =>
    ⟨hu, fun o' h => hrest o' (List.mem_cons_of_mem o h)⟩

/-- For the same CRC the flags need not be 0xff, but have its CRC. -/
theorem crc_flags_iff {off : Nat} (h32 : 32 ≤ off) (hend : off + binheaderSize ≤ out.length) :
    crc32 0xffffffff (out.drop 12) =
        crc32 0xffffffff ((poke out (off + 22) (List.replicate 8 0xff)).drop 12) ↔
      crc32 0 (load out (off + 22) 8) = crc32 0 (List.replicate 8 0xff) := by
  have hsize : binheaderSize = 32 := rfl
  have hff : (List.replicate 8 (0xff : UInt8)).length = 8 := rfl
  have htake : 12 ≤ (out.take (off + 22)).length := by
    rw [List.length_take]
    omega
  rw [poke_eq_append (by rw [hff]; omega), List.append_assoc, List.drop_append_of_le_length htake,
    hff]
  conv =>
    lhs
    lhs
    rw [split_load out (off + 22) 8, List.drop_append_of_le_length htake]
  exact crc32_middle (length_load (by omega))

/-- The recorded offsets. -/
theorem Built.part_at {size v : Nat} (hb : Built heap size (header lead) v body [] s) {j : Nat}
    {file : Bytes} (hj : (files body)[j]? = some file) :
    ∃ p, PartAt s.buf (header lead) s.curLen j (p, file) := by
  obtain ⟨done, -, heq, hparts⟩ := hb.parts
  rw [files, List.append_nil] at heq
  rw [← heq, List.getElem?_map] at hj
  obtain ⟨p, hp, rfl⟩ := Option.map_eq_some_iff.mp hj
  exact ⟨p.1, hparts j p hp⟩

theorem built_agrees {size : Nat} (hb : Built heap size (header lead) (version lead) body [] s)
    (hroom : Room lead body) (hw : Written s out) : Agrees heap lead body out := by
  have h16 : offsetsOffset = 16 := rfl
  have hheader := hb.header_le
  have hle := room_le hroom
  have h28 : 28 ≤ header lead := by
    rw [header]
    split <;> omega
  have hlong := hw.length
  have hgrow := le_roundUp s.curLen (show 0 < 0x1000 by decide)
  have h32 : out.length < 2 ^ 32 := by
    rw [hlong]
    exact hb.fits32
  have hload (off n : Nat) (h : 16 ≤ off) (hend : off + n ≤ s.curLen) :
      load out off n = load s.buf off n :=
    load_congr fun k h₁ h₂ => hw.same k (by omega) (.inr (by omega))
  have hmagic : load out 0 4 = le32 trxMagic.toNat :=
    (load_congr fun k h₁ h₂ => hw.same k (by omega) (.inl (by omega))).trans hb.magic
  have hcheck := otrxCheck_iff hmagic (by omega) h32 hw.len hw.crc
  have hversion := hb.version
  have hoffset (j : Nat) (file : Bytes) (hj : (files body)[j]? = some file) :
      header lead ≤ offset out j ∧ offset out j + file.length ≤ s.curLen ∧
        load s.buf (offset out j) file.length = file := by
    obtain ⟨p, hp⟩ := hb.part_at hj
    have hlt : j < (files body).length := (List.getElem?_eq_some_iff.mp hj).1
    have hlo := hp.lo
    have hhi := hp.hi
    have hp32 : p < 2 ^ 32 := by omega
    have hoff : offset out j = p :=
      word_eq ((hload _ 4 (by omega) (by omega)).trans hp.offset) hp32
    rw [hoff]
    exact ⟨hlo, hhi, hp.data⟩
  refine ⟨word_eq hw.len h32, fun j file hj => ?_, fun hv => ?_, fun hv hzero j hj hfree => ?_,
    fun hv => ?_⟩
  · obtain ⟨hlo, hhi, hdata⟩ := hoffset j file hj
    exact (hload _ _ (by omega) hhi).trans hdata
  · have hv : s.version ≠ 2 := by
      rw [hversion, version, if_neg hv]
      decide
    rw [hcheck, masked, if_neg hv]
  · have hfree : s.i ≤ j := by
      obtain ⟨done, hi, heq, -⟩ := hb.parts
      have hcount := congrArg List.length heq
      rw [files, List.append_nil, List.length_map] at hcount
      omega
    have hh : header lead = 28 := if_neg hv
    have hz : load out (offsetsOffset + 4 * j) 4 = le32 0 := load_eq_replicate fun k h₁ h₂ => by
      rw [hw.same k (by omega) (.inr (by omega)), hb.unused k (by omega) (by omega),
        hzero k (by omega)]
      rfl
    exact word_eq hz (by decide)
  · rw [Room, if_pos hv] at hroom
    obtain ⟨hlo, -, -⟩ := hoffset 3 _ (List.getElem?_eq_getElem (by omega))
    have hh : header lead = 32 := if_pos hv
    have hv : s.version = 2 := by
      rw [hversion, version, if_pos hv]
    have hcrc := hw.crc
    have hend := hw.binheader hv
    rw [masked, if_pos hv] at hcrc
    rw [hcheck, masked, if_pos hv]
    exact ⟨UInt32.toNat_inj.mp (word_eq hcrc (UInt32.toNat_lt _)), crc_flags_iff (hh ▸ hlo) hend⟩

/-- Why there is no file. -/
def Refused (lead body : List Opt) (e : Exit) : Prop :=
  BadMaxlen lead e ∨ Short (maxlen lead) (total (header lead) body) e ∨
    e ≠ .fault ∧ (files body = [] ∨ Opt.two ∈ lead ∧
      ∀ file, (files body)[3]? = some file → file.length < binheaderSize)

theorem trx_spec (hlead : ∀ o ∈ lead, o.IsLead) (hbody : ∀ o ∈ body, o.Plain)
    (hroom : Room lead body) (h32 : roundUp (total (header lead) body) 0x1000 < 2 ^ 32) :
    Safe (Refused lead body) (trx heap (lead ++ body)) (Agrees heap lead body) := by
  rw [trx]
  have hstart : Safe (Refused lead body) (start heap) (Started heap lead lead) := start_started
  refine hstart.bind fun s hs => ?_
  rw [List.foldlM_append, bind_assoc]
  refine ((lead_started hlead hs).weaken fun e => .inl).bind fun s hs => ?_
  have haligned : 0x1000 ∣ maxlen lead := by
    rw [← hs.length]
    exact hs.aligned
  refine ((body_built hbody hroom rfl (built_of_started hs h32)).weaken
    fun e h => .inr (.inl h)).bind fun s hs => ?_
  have hheader := hs.header_le
  have h28 : 28 ≤ header lead := by
    rw [header]
    split <;> omega
  -- the bin-header is the fourth file
  have hoff (hv : s.version = 2) : Opt.two ∈ lead ∧ 32 ≤ (word s.buf 28).toNat ∧
      ∀ file, (files body)[3]? = some file →
        (word s.buf 28).toNat + file.length ≤ s.curLen := by
    have hv : Opt.two ∈ lead := by
      by_contra hout
      rw [hs.version, version, if_neg hout] at hv
      exact absurd hv (by decide)
    have hh : header lead = 32 := if_pos hv
    have hgrow := le_roundUp s.curLen (show 0 < 0x1000 by decide)
    have hfits32 : roundUp s.curLen 0x1000 < 2 ^ 32 := hs.fits32
    have hpart (file : Bytes) (hj : (files body)[3]? = some file) :
        32 ≤ (word s.buf 28).toNat ∧ (word s.buf 28).toNat + file.length ≤ s.curLen := by
      obtain ⟨p, hp⟩ := hs.part_at hj
      have hlo : header lead ≤ p := hp.lo
      have hhi : p + file.length ≤ s.curLen := hp.hi
      have hword : (word s.buf 28).toNat = p := word_eq hp.offset (by omega)
      rw [hword]
      omega
    rw [Room, if_pos hv] at hroom
    exact ⟨hv, (hpart _ (List.getElem?_eq_getElem (by omega))).1, fun file hj => (hpart file hj).2⟩
  refine ((finish_spec hs.fsmark ?_ ?_ (Nat.le_trans h28 hheader) hs.fits32 fun hv => ?_).mono
    fun out hw => built_agrees hs hroom hw).weaken ?_
  · rwa [hs.length]
  · rw [hs.length]
    exact hs.inside
  · obtain ⟨hv, hlo, hhi⟩ := hoff hv
    rw [Room, if_pos hv] at hroom
    have hend := hhi _ (List.getElem?_eq_getElem (by omega))
    exact ⟨hlo, by omega⟩
  · rintro e (⟨rfl, hopened⟩ | ⟨rfl, hv, hsmall⟩)
    · refine .inr (.inr ⟨nofun, .inl ?_⟩)
      obtain ⟨done, hi, heq, -⟩ := hs.parts
      have hzero : s.i = 0 := by
        by_contra hne
        rw [hs.opened hne] at hopened
        cases hopened
      obtain rfl := List.length_eq_zero_iff.mp (hi ▸ hzero)
      exact heq.symm
    · obtain ⟨hv, -, hhi⟩ := hoff hv
      exact .inr (.inr ⟨nofun, .inr ⟨hv, fun file hj => by have := hhi file hj; omega⟩⟩)

/-- **Agreement.** With an offset for each file, the file describes itself. No write leaves the
buffer if the data fits. -/
theorem trx_agree (hlead : ∀ o ∈ lead, o.IsLead) (hbody : ∀ o ∈ body, o.Plain)
    (hroom : Room lead body) (h32 : roundUp (total (header lead) body) 0x1000 < 2 ^ 32) :
    (total (header lead) body ≤ maxlen lead → trx heap (lead ++ body) ≠ .error .fault) ∧
      ∀ out, trx heap (lead ++ body) = .ok out → Agrees heap lead body out := by
  have hspec : Safe (Refused lead body) (trx heap (lead ++ body)) (Agrees heap lead body) :=
    trx_spec hlead hbody hroom h32
  refine ⟨fun hfits => hspec.ne_error ?_, fun out h => hspec.of_ok h⟩
  rintro (⟨h, -⟩ | h | ⟨h, -⟩)
  · cases h
  · have hshort := h.2 rfl
    omega
  · exact h rfl

/-- Two files, and room in front of the second one. -/
def twoFiles : List Opt := [.f (some [1, 2, 3]), .b (some 64), .f (some [4]), .a (some 256)]

theorem trx_agree_twoFiles :
    (total (header [.m (some 8192)]) twoFiles ≤ maxlen [.m (some 8192)] →
      trx (fun _ _ => 0) ([.m (some 8192)] ++ twoFiles) ≠ .error .fault) ∧
    ∀ out, trx (fun _ _ => 0) ([.m (some 8192)] ++ twoFiles) = .ok out →
      Agrees (fun _ _ => 0) [.m (some 8192)] twoFiles out := by
  refine trx_agree ?_ ?_ ?_ (by decide)
  · intro o ho
    obtain rfl := List.mem_singleton.mp ho
    exact trivial
  · intro o ho
    simp only [twoFiles, List.mem_cons, List.not_mem_nil, or_false] at ho
    rcases ho with rfl | rfl | rfl | rfl
    · exact rfl
    · exact trivial
    · exact rfl
    · exact ⟨8, rfl⟩
  · rw [Room, if_neg (by decide)]
    decide

/-- otrx does not know the flags of a bin-header. -/
theorem trx_v2 {file : Bytes} (hlead : ∀ o ∈ lead, o.IsLead) (hbody : ∀ o ∈ body, o.Plain)
    (hroom : Room lead body) (h32 : roundUp (total (header lead) body) 0x1000 < 2 ^ 32)
    (hm : ∀ n, Opt.m n ∉ lead) (hfits : total (header lead) body < maxlen lead)
    (htwo : Opt.two ∈ lead) (hfile : (files body)[3]? = some file)
    (hlen : binheaderSize ≤ file.length) :
    ∃ out, trx heap (lead ++ body) = .ok out ∧ (Otrx.otrxCheck 0 out = .ok () ↔
      crc32 0 (load file 22 8) = crc32 0 (List.replicate 8 0xff)) := by
  have hspec : Safe (Refused lead body) (trx heap (lead ++ body)) (Agrees heap lead body) :=
    trx_spec hlead hbody hroom h32
  cases hout : trx heap (lead ++ body) with
  | error e =>
    exfalso
    rcases hspec.of_error hout with ⟨-, n, hn⟩ | ⟨hshort, -⟩ | ⟨-, hnone | ⟨-, hsmall⟩⟩
    · exact hm _ hn
    · omega
    · rw [hnone] at hfile
      cases hfile
    · have hlt := hsmall _ hfile
      omega
  | ok out =>
    have hagrees := hspec.of_ok hout
    have h32 : binheaderSize = 32 := rfl
    refine ⟨out, rfl, ?_⟩
    rw [(hagrees.v2 htwo).2, ← load_load (n := file.length) (by omega), hagrees.parts 3 _ hfile]

/-- Four empty bin-headers. -/
def binHeaders : List Opt := List.replicate 4 (.f (some (zeros binheaderSize)))

/-- A version 2 image is written, but otrx's CRC has no 0xff for its flags. -/
theorem trx_binHeaders :
    ∃ out, trx (fun _ _ => 0) ([.two] ++ binHeaders) = .ok out ∧ Otrx.otrxCheck 0 out ≠ .ok () := by
  have hlead : ∀ o ∈ [Opt.two], o.IsLead := by
    intro o ho
    obtain rfl := List.mem_singleton.mp ho
    exact trivial
  have hbody : ∀ o ∈ binHeaders, o.Plain := by
    intro o ho
    obtain rfl := List.eq_of_mem_replicate ho
    exact rfl
  have hroom : Room [.two] binHeaders := by
    rw [Room, if_pos List.mem_cons_self]
    decide
  have hfile : (files binHeaders)[3]? = some (zeros binheaderSize) := by decide
  obtain ⟨out, hout, hcheck⟩ := trx_v2 hlead hbody hroom (by decide)
    (fun n hn => by cases List.mem_singleton.mp hn) (by decide) List.mem_cons_self hfile
    (by decide)
  refine ⟨out, hout, fun h => ?_⟩
  exact absurd (hcheck.mp h) (by decide +kernel)

end

end UolaOs.Trx
