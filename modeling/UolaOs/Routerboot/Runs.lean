import Mathlib.Data.List.Forall2
import UolaOs.Lib.Reaches
import UolaOs.Routerboot.Partitions

/-!
# One RouterBOOT device after another

The entries of the well-known partitions are kept from one device to the next.

* `Twin`: an entry as it was left, and as it is at first, for a device that does not use it when
  it was found before;
* `parsed_alone`: what is returned for a device when no such entry is used.
-/

namespace UolaOs.Routerboot

/-- What `routerboot_partitions_parse` is called for. -/
structure Job where
  device : Device
  nodes : List Node
  kcalloc : Bool

def Job.parse (j : Job) (e : Endian) (fuel : Nat) (dynparts : List Dynpart) : Option Parsed :=
  partitionsParse j.device e fuel j.nodes j.kcalloc dynparts

/-- The search ends, and what is returned is what a parser returns that has seen no other device. -/
structure Alone (e : Endian) (j : Job) (dynparts : List Dynpart) : Prop where
  ends : ∃ fuel dynparts', findDynparts j.device e fuel dynparts = some dynparts'
  same : ∀ fuel fuel' p p', j.parse e fuel dynparts = some p →
    j.parse e fuel' (rbDynparts e) = some p' → p.ret = p'.ret

/-- An entry that plays no part on a device: no dynamic node has its name, and when it may skip
blocks, none begins with its magic. -/
structure Idle (e : Endian) (j : Job) (p : Dynpart) : Prop where
  unasked : ∀ n ∈ j.nodes, n.reg = none → n.partname ≠ p.name
  unseen : p.size_fixup = true → ∀ o, blockSize ∣ o → o < j.device.size →
    e.get (load j.device.flash o 4) ≠ p.magic

/-- What the parser needs to be right about a device: its reads do not fail for ever, and the
entries that other devices left found play no part on it. -/
structure Meets (e : Endian) (j : Job) (dynparts : List Dynpart) : Prop where
  readable : Readable j.device
  idle : ∀ p ∈ dynparts, p.found = true → Idle e j p

/-- The parser goes from one device to the next. -/
def Parses (e : Endian) (dynparts : List Dynpart) (j : Job) (dynparts' : List Dynpart) : Prop :=
  ∃ fuel ret, j.parse e fuel dynparts = some ⟨ret, dynparts'⟩

/-! ## What stays of an entry -/

/-- All but what the search writes into an entry. -/
structure Kept (p q : Dynpart) : Prop where
  name : q.name = p.name
  magic : q.magic = p.magic
  size_fixup : q.size_fixup = p.size_fixup
  size : p.size_fixup = false → q.size = p.size

section
variable {d : Device} {e : Endian} {j : Job} {buf offset calls fuel : Nat} {p q : Dynpart}
  {ps parts parts' : List Dynpart}

theorem Kept.refl (p : Dynpart) : Kept p p := ⟨rfl, rfl, rfl, fun _ => rfl⟩

theorem Kept.trans {r : Dynpart} (h : Kept p q) (h' : Kept q r) : Kept p r :=
  ⟨h'.name.trans h.name, h'.magic.trans h.magic, h'.size_fixup.trans h.size_fixup,
    fun hno => (h'.size (h.size_fixup.trans hno)).trans (h.size hno)⟩

theorem kept_refl (ps : List Dynpart) : List.Forall₂ Kept ps ps :=
  List.forall₂_same.mpr fun p _ => .refl p

theorem kept_trans {qs rs : List Dynpart} (h : List.Forall₂ Kept ps qs)
    (h' : List.Forall₂ Kept qs rs) : List.Forall₂ Kept ps rs := by
  induction h generalizing rs with
  | nil => exact h'
  | cons hp _ ih =>
    cases h' with
    | cons hq hqs => exact .cons (hp.trans hq) (ih hqs)

theorem checkParts_kept (d : Device) (buf offset calls : Nat) (ps : List Dynpart) :
    List.Forall₂ Kept ps (checkParts d buf offset calls ps).parts := by
  induction ps generalizing calls with
  | nil => exact .nil
  | cons p ps ih =>
    rw [checkParts]
    split
    · exact .cons (.refl p) (ih _)
    split
    · dsimp only
      split
      · rename_i hfix
        cases hfixup : dtbsfixup d calls { p with offset := offset } with
        | none => exact .cons ⟨rfl, rfl, rfl, fun _ => rfl⟩ (ih _)
        | some q =>
          have hq := dtbsfixup_eq hfixup
          rw [hq]
          exact .cons ⟨rfl, rfl, rfl, fun hno => by cases hfix.symm.trans hno⟩ (kept_refl ps)
      · exact .cons ⟨rfl, rfl, rfl, fun _ => rfl⟩ (kept_refl ps)
    · exact .cons (.refl p) (ih _)

/-- What stays of the entries over a search. -/
theorem scan_kept {r : Nat × List Dynpart}
    (h : loop (scanRound d e) fuel offset (calls, ps) = some r) : List.Forall₂ Kept ps r.2 := by
  induction fuel generalizing offset calls ps with
  | zero => cases h
  | succ fuel ih =>
    by_cases hlt : offset < d.size
    · cases hread : d.read calls offset 4 with
      | error err =>
        rw [loop_next (scanRound_again hlt hread)] at h
        exact ih h
      | ok bs =>
        have hround := scanRound_read e ps hlt hread rfl
        have hkept := checkParts_kept d (e.get bs) offset (calls + 1) ps
        generalize checkParts d (e.get bs) offset (calls + 1) ps = c at hround hkept
        cases hall : c.allfound with
        | true =>
          rw [hall, if_pos rfl] at hround
          rw [loop, hround] at h
          cases h
          exact hkept
        | false =>
          rw [hall, if_neg (by decide)] at hround
          rw [loop_next hround] at h
          exact kept_trans hkept (ih h)
    · rw [loop, scanRound_past (Nat.le_of_not_lt hlt)] at h
      cases h
      exact kept_refl ps

theorem parses_kept (h : Parses e ps j parts) : List.Forall₂ Kept ps parts := by
  obtain ⟨fuel, ret, hparse⟩ := h
  rw [Job.parse, partitionsParse] at hparse
  split at hparse
  · cases hparse
    exact kept_refl ps
  split at hparse
  · cases hparse
    exact kept_refl ps
  · obtain ⟨found, hfound, heq⟩ := Option.map_eq_some_iff.mp hparse
    cases heq
    obtain ⟨r, hloop, rfl⟩ := Option.map_eq_some_iff.mp hfound
    exact scan_kept hloop

/-- Any run keeps all that the search does not write. -/
theorem reaches_kept (h : Reaches (· = rbDynparts e) (Parses e) parts) :
    List.Forall₂ Kept (rbDynparts e) parts :=
  h.invariant (by rintro _ rfl; exact kept_refl _) fun _ _ _ hkept hstep =>
    kept_trans hkept (parses_kept hstep)

end

/-! ## An entry as it was left, and as it is at first -/

/-- Two entries that are the same, or one that was found before and is idle. -/
structure Twin (e : Endian) (j : Job) (a f : Dynpart) : Prop where
  kept : Kept f a
  size : f.size_fixup = false → f.size = blockSize
  state : a.found = f.found ∧ (a.found = true → a.offset = f.offset ∧ a.size = f.size) ∨
    a.found = true ∧ Idle e j f

section
variable {d : Device} {e : Endian} {j : Job} {buf offset calls fuel fuel' : Nat} {a f : Dynpart}
  {as fs : List Dynpart}

/-- Entries without the magic of a block stay as they are. -/
theorem checkParts_other (d : Device) (offset calls : Nat) (h : ∀ p ∈ as, p.magic ≠ buf) :
    (checkParts d buf offset calls as).parts = as ∧
      (checkParts d buf offset calls as).calls = calls ∧
      (checkParts d buf offset calls as).offset = offset := by
  induction as with
  | nil => exact ⟨rfl, rfl, rfl⟩
  | cons p ps ih =>
    obtain ⟨hparts, hcalls, hoffset⟩ := ih fun q hq => h q (List.mem_cons_of_mem _ hq)
    have hp := h p List.mem_cons_self
    rw [checkParts]
    split
    · exact ⟨congrArg (p :: ·) hparts, hcalls, hoffset⟩
    · exact ⟨congrArg (p :: ·) hparts, hcalls, hoffset⟩

theorem checkParts_allfound (d : Device) (buf offset calls : Nat) (as : List Dynpart)
    (h : ∀ p ∈ as, p.found = true) :
    checkParts d buf offset calls as = ⟨as, calls, true, offset⟩ := by
  induction as with
  | nil => rfl
  | cons p ps ih =>
    rw [checkParts, if_pos (h p List.mem_cons_self),
      ih fun q hq => h q (List.mem_cons_of_mem _ hq)]
    rfl

theorem found_of_allfound (d : Device) (buf offset calls : Nat) (as : List Dynpart)
    (h : (checkParts d buf offset calls as).allfound = true) :
    ∀ p ∈ as, p.found = true := by
  induction as generalizing calls with
  | nil => exact nofun
  | cons p ps ih =>
    rw [checkParts] at h
    split at h
    · rename_i hp
      intro q hq
      rcases List.mem_cons.mp hq with rfl | hq
      · exact hp
      · exact ih _ h q hq
    split at h
    · dsimp only at h
      split at h
      · split at h
        · cases h
        · cases h
      · cases h
    · cases h

/-- Both lists after the loop over the entries. -/
structure Twins (e : Endian) (j : Job) (a f : Check) : Prop where
  parts : List.Forall₂ (Twin e j) a.parts f.parts
  calls : a.calls = f.calls
  offset : a.offset = f.offset
  allfound : f.allfound = true → a.allfound = true

theorem Twins.cons {ca cf : Check} {b c : Bool} (h : Twins e j ca cf) (htwin : Twin e j a f)
    (hbool : c = true → b = true) : Twins e j (ca.cons a b) (cf.cons f c) := by
  refine ⟨.cons htwin h.parts, h.calls, h.offset, fun hall => ?_⟩
  rw [Check.cons, Bool.and_eq_true] at hall ⊢
  exact ⟨hbool hall.1, h.allfound hall.2⟩

/-- What is read of a blob does not depend on the rest of the entry. -/
theorem dtbsfixup_some {p q : Dynpart} {call : Nat} (h : dtbsfixup d call p = some q) (r : Dynpart)
    (hoffset : r.offset = p.offset) : dtbsfixup d call r = some { r with size := q.size } := by
  rw [dtbsfixup] at h ⊢
  rw [hoffset]
  split at h
  · cases h
  · dsimp only at h ⊢
    split at h
    · cases h
    · rename_i hpos
      cases h
      exact if_neg hpos

theorem checkParts_match {p : Dynpart} (hfound : p.found = false) (hmagic : p.magic = buf)
    (hfix : p.size_fixup = false) : checkParts d buf offset calls (p :: as) =
      ⟨{ p with offset := offset, found := true } :: as, calls, false, skip d offset p.size⟩ := by
  rw [checkParts, hfound, if_neg (by decide), if_pos hmagic]
  dsimp only
  rw [hfix]
  rfl

theorem checkParts_blob {p : Dynpart} (hfound : p.found = false) (hmagic : p.magic = buf)
    (hfix : p.size_fixup = true) : checkParts d buf offset calls (p :: as) =
      match dtbsfixup d calls { p with offset := offset } with
      | none => (checkParts d buf offset (calls + 1) as).cons { p with offset := offset } false
      | some q => ⟨{ q with found := true } :: as, calls + 1, false, skip d offset q.size⟩ := by
  rw [checkParts, hfound, if_neg (by decide), if_pos hmagic]
  exact if_pos hfix

theorem checkParts_pass {p : Dynpart} (h : p.found = true ∨ p.magic ≠ buf) :
    checkParts d buf offset calls (p :: as) =
      (checkParts d buf offset calls as).cons p p.found := by
  rw [checkParts]
  split
  · rename_i hfound
    rw [hfound]
  · rename_i hfound
    rw [if_neg (h.resolve_left hfound), Bool.eq_false_of_not_eq_true hfound]

/-- The same loop over both lists. -/
theorem checkParts_twin (d : Device) (offset calls : Nat) (h : List.Forall₂ (Twin e j) as fs)
    (hmagic : (as.map (·.magic)).Nodup)
    (hbuf : ∀ f, Idle e j f → f.size_fixup = true → f.magic ≠ buf) :
    Twins e j (checkParts d buf offset calls as) (checkParts d buf offset calls fs) := by
  induction h generalizing calls with
  | nil => exact ⟨.nil, rfl, rfl, id⟩
  | @cons a f as fs htwin hrest ih =>
    obtain ⟨hnew, hdistinct⟩ := List.nodup_cons.mp hmagic
    have hkept := htwin.kept
    rcases htwin.state with ⟨hfound, hsame⟩ | ⟨hfound, hidle⟩
    · by_cases hpass : f.found = true ∨ f.magic ≠ buf
      · have hpass' : a.found = true ∨ a.magic ≠ buf := by rwa [hfound, hkept.magic]
        rw [checkParts_pass hpass, checkParts_pass hpass']
        exact (ih _ hdistinct).cons htwin fun hf => hfound.trans hf
      -- both are found here
      obtain ⟨hno, hhere⟩ := not_or.mp hpass
      rw [not_not] at hhere
      have hf := Bool.eq_false_of_not_eq_true hno
      have ha : a.found = false := hfound.trans hf
      have hahere : a.magic = buf := hkept.magic.trans hhere
      cases hfix : f.size_fixup with
      | true =>
        have hblob (h : f.size_fixup = false) : False := by cases hfix.symm.trans h
        rw [checkParts_blob hf hhere hfix, checkParts_blob ha hahere (hkept.size_fixup.trans hfix)]
        cases hfixup : dtbsfixup d calls { f with offset := offset } with
        | some q =>
          rw [dtbsfixup_some hfixup { a with offset := offset } rfl, dtbsfixup_eq hfixup]
          exact ⟨.cons ⟨⟨hkept.name, hkept.magic, hkept.size_fixup, fun _ => rfl⟩,
            fun h => (hblob h).elim, .inl ⟨rfl, fun _ => ⟨rfl, rfl⟩⟩⟩ hrest, rfl, rfl, nofun⟩
        | none =>
          cases hfixup' : dtbsfixup d calls { a with offset := offset } with
          | some q =>
            have hsome := dtbsfixup_some hfixup' { f with offset := offset } rfl
            cases hfixup.symm.trans hsome
          | none =>
            refine (ih _ hdistinct).cons ⟨⟨hkept.name, hkept.magic, hkept.size_fixup, hkept.size⟩,
              htwin.size, .inl ⟨hfound, fun h => ?_⟩⟩ nofun
            cases ha.symm.trans h
      | false =>
        have hsize := hkept.size hfix
        rw [checkParts_match hf hhere hfix,
          checkParts_match ha hahere (hkept.size_fixup.trans hfix), hsize]
        exact ⟨.cons ⟨⟨hkept.name, hkept.magic, hkept.size_fixup, fun _ => rfl⟩, htwin.size,
          .inl ⟨rfl, fun _ => ⟨rfl, rfl⟩⟩⟩ hrest, rfl, rfl, nofun⟩
    · rw [checkParts_pass (.inl hfound)]
      by_cases hpass : f.found = true ∨ f.magic ≠ buf
      · rw [checkParts_pass hpass]
        exact (ih _ hdistinct).cons htwin fun _ => hfound
      -- only the fresh list finds the entry here, and skips nothing
      obtain ⟨hno, hhere⟩ := not_or.mp hpass
      rw [not_not] at hhere
      have hfix : f.size_fixup = false :=
        Bool.eq_false_of_not_eq_true fun hfix => hbuf f hidle hfix hhere
      have hother : ∀ p ∈ as, p.magic ≠ buf := by
        intro p hp heq
        refine hnew (List.mem_map.mpr ⟨p, hp, ?_⟩)
        exact heq.trans (hkept.magic.trans hhere).symm
      obtain ⟨hparts, hcalls, hoffset⟩ := checkParts_other d offset calls hother
      rw [checkParts_match (Bool.eq_false_of_not_eq_true hno) hhere hfix, htwin.size hfix,
        skip_block]
      refine ⟨.cons ⟨⟨hkept.name, hkept.magic, hkept.size_fixup,
        fun h => (hkept.size h).trans (htwin.size h)⟩, fun _ => rfl,
        .inr ⟨hfound, ⟨hidle.unasked, hidle.unseen⟩⟩⟩ ?_, hcalls, hoffset, nofun⟩
      rw [hparts]
      exact hrest

theorem sized_of_twins (h : List.Forall₂ (Twin e j) as fs) : Sized fs := by
  induction h with
  | nil => exact nofun
  | cons htwin _ ih =>
    intro p hp
    rcases List.mem_cons.mp hp with rfl | hp
    · exact htwin.size
    · exact ih p hp

theorem magic_of_kept (h : List.Forall₂ Kept fs as) : as.map (·.magic) = fs.map (·.magic) := by
  induction h with
  | nil => rfl
  | cons hkept _ ih => rw [List.map_cons, List.map_cons, hkept.magic, ih]

/-- The offset behind what was found, which is the same for both lists. -/
theorem blockSize_dvd_next (d : Device) (buf calls : Nat) (h : List.Forall₂ (Twin e j) as fs)
    (hdvd : blockSize ∣ offset) :
    blockSize ∣ d.trunc ((checkParts d buf offset calls fs).offset + blockSize) :=
  have hchecked := checkParts_checked d buf offset calls (sized_of_twins h)
  blockSize_dvd_trunc (Nat.dvd_add (hchecked.dvd hdvd) (Nat.dvd_refl _))

theorem not_idle_magic (hdvd : blockSize ∣ offset) (hlt : offset < j.device.size) {bs : Bytes}
    (hread : j.device.read calls offset 4 = .ok bs) (f : Dynpart) (hidle : Idle e j f)
    (hfix : f.size_fixup = true) : f.magic ≠ e.get bs := by
  rw [read_ok hread]
  exact (hidle.unseen hfix offset hdvd hlt).symm

/-- When all entries of one list are found, the search with the other only finds idle ones. -/
theorem scan_rest (h : List.Forall₂ (Twin e j) as fs) (hmagic : (as.map (·.magic)).Nodup)
    (hall : ∀ a ∈ as, a.found = true) (hdvd : blockSize ∣ offset) {r : Nat × List Dynpart}
    (hloop : loop (scanRound j.device e) fuel offset (calls, fs) = some r) :
    List.Forall₂ (Twin e j) as r.2 := by
  induction fuel generalizing offset calls fs with
  | zero => cases hloop
  | succ fuel ih =>
    by_cases hlt : offset < j.device.size
    · cases hread : j.device.read calls offset 4 with
      | error err =>
        rw [loop_next (scanRound_again hlt hread)] at hloop
        exact ih h hdvd hloop
      | ok bs =>
        have hround := scanRound_read e fs hlt hread rfl
        have htwins := (checkParts_twin j.device offset (calls + 1) h
          hmagic (not_idle_magic hdvd hlt hread)).parts
        have hnext := blockSize_dvd_next j.device (e.get bs) (calls + 1) h
          hdvd
        rw [checkParts_allfound _ _ _ _ as hall] at htwins
        generalize checkParts j.device (e.get bs) offset (calls + 1) fs = c at hround htwins hnext
        cases hstop : c.allfound with
        | true =>
          rw [hstop, if_pos rfl] at hround
          rw [loop, hround] at hloop
          cases hloop
          exact htwins
        | false =>
          rw [hstop, if_neg (by decide)] at hround
          rw [loop_next hround] at hloop
          exact ih htwins hnext hloop
    · rw [loop, scanRound_past (Nat.le_of_not_lt hlt)] at hloop
      cases hloop
      exact h

/-- The same search with both lists. -/
theorem scan_twin (h : List.Forall₂ (Twin e j) as fs) (hmagic : (as.map (·.magic)).Nodup)
    (hdvd : blockSize ∣ offset) {ra rf : Nat × List Dynpart}
    (ha : loop (scanRound j.device e) fuel offset (calls, as) = some ra)
    (hf : loop (scanRound j.device e) fuel' offset (calls, fs) = some rf) :
    List.Forall₂ (Twin e j) ra.2 rf.2 := by
  induction fuel generalizing fuel' offset calls as fs with
  | zero => cases ha
  | succ fuel ih =>
    obtain ⟨fuel', rfl⟩ : ∃ n, fuel' = n + 1 := by
      cases fuel' with
      | zero => cases hf
      | succ n => exact ⟨n, rfl⟩
    by_cases hlt : offset < j.device.size
    · cases hread : j.device.read calls offset 4 with
      | error err =>
        rw [loop_next (scanRound_again hlt hread)] at ha hf
        exact ih h hmagic hdvd ha hf
      | ok bs =>
        have hrounda := scanRound_read e as hlt hread rfl
        have hroundf := scanRound_read e fs hlt hread rfl
        have htwins := checkParts_twin j.device offset (calls + 1) h
          hmagic (not_idle_magic hdvd hlt hread)
        have hnext := blockSize_dvd_next j.device (e.get bs) (calls + 1) h
          hdvd
        have hkept := checkParts_kept j.device (e.get bs) offset (calls + 1) as
        have hfound := found_of_allfound j.device (e.get bs) offset (calls + 1) as
        have hstill := checkParts_allfound j.device (e.get bs) offset (calls + 1) as
        generalize checkParts j.device (e.get bs) offset (calls + 1) as = ca at *
        generalize checkParts j.device (e.get bs) offset (calls + 1) fs = cf at *
        have hmagic' : (ca.parts.map (·.magic)).Nodup := by rwa [magic_of_kept hkept]
        cases hstopf : cf.allfound with
        | true =>
          rw [htwins.allfound hstopf, if_pos rfl] at hrounda
          rw [hstopf, if_pos rfl] at hroundf
          rw [loop, hrounda] at ha
          rw [loop, hroundf] at hf
          cases ha
          cases hf
          exact htwins.parts
        | false =>
          rw [hstopf, if_neg (by decide)] at hroundf
          rw [loop_next hroundf] at hf
          cases hstopa : ca.allfound with
          | true =>
            rw [hstopa, if_pos rfl] at hrounda
            rw [loop, hrounda] at ha
            cases ha
            have hsame := hstill (hfound hstopa)
            have hparts : ca.parts = as := congrArg Check.parts hsame
            refine scan_rest htwins.parts hmagic' (fun p hp => ?_) hnext hf
            rw [hparts] at hp
            exact hfound hstopa p hp
          | false =>
            rw [hstopa, if_neg (by decide)] at hrounda
            rw [loop_next hrounda, htwins.offset, htwins.calls] at ha
            exact ih htwins.parts hmagic' hnext ha hf
    · rw [loop, scanRound_past (Nat.le_of_not_lt hlt)] at ha hf
      cases ha
      cases hf
      exact h

end

/-! ## The partitions of a device -/

section
variable {d : Device} {e : Endian} {j : Job} {a f : Dynpart} {as fs dynparts : List Dynpart}
  {master_ofs : Nat} {ns : List Node} {parts : List Part}

theorem Twin.eq (h : Twin e j a f) (hidle : ¬ Idle e j f) (hfound : f.found = true) : a = f := by
  obtain ⟨hkept, -, ⟨hsame, hall⟩ | ⟨-, hyes⟩⟩ := h
  · obtain ⟨hoffset, hsize⟩ := hall (hsame.trans hfound)
    obtain ⟨hname, hmagic, hfix, -⟩ := hkept
    cases a
    cases f
    simp_all
  · exact absurd hyes hidle

theorem findEntry_twin (h : List.Forall₂ (Twin e j) as fs) {name : Bytes}
    (hno : ∀ f, Idle e j f → name ≠ f.name) : findEntry as name = findEntry fs name := by
  induction h with
  | nil => rfl
  | @cons a f as fs htwin _ ih =>
    have hname := htwin.kept.name
    rw [findEntry, findEntry] at ih ⊢
    rw [List.find?_cons, List.find?_cons, hname, ih]
    by_cases hidle : Idle e j f
    · rw [decide_eq_false (hno f hidle), Bool.false_and, Bool.false_and]
    · have hfound : a.found = f.found := by
        rcases htwin.state with ⟨hsame, -⟩ | ⟨-, hyes⟩
        · exact hsame
        · exact absurd hyes hidle
      rw [hfound]
      cases hf : f.found with
      | true => rw [htwin.eq hidle hf]
      | false => rw [Bool.and_false]

theorem nodeRange_congr {n : Node}
    (h : n.reg = none → findEntry as n.partname = findEntry fs n.partname) :
    nodeRange d as master_ofs n = nodeRange d fs master_ofs n := by
  rw [nodeRange, nodeRange]
  cases hreg : n.reg with
  | some reg => rfl
  | none => rw [h hreg]

theorem placeNodes_congr
    (h : ∀ n ∈ ns, n.reg = none → findEntry as n.partname = findEntry fs n.partname) :
    placeNodes d as master_ofs parts ns = placeNodes d fs master_ofs parts ns := by
  induction ns generalizing master_ofs parts with
  | nil => rfl
  | cons n ns ih =>
    have hrest (o : Nat) (ps : List Part) := @ih o ps fun m hm => h m (List.mem_cons_of_mem _ hm)
    rw [placeNodes, placeNodes, nodeRange_congr (h n List.mem_cons_self)]
    simp only [hrest]

theorem parse_twin {fuel fuel' : Nat} {p p' : Parsed} (h : List.Forall₂ (Twin e j) as fs)
    (hmagic : (as.map (·.magic)).Nodup) (hp : j.parse e fuel as = some p)
    (hp' : j.parse e fuel' fs = some p') : p.ret = p'.ret := by
  rw [Job.parse, partitionsParse] at hp hp'
  by_cases hnodes : j.nodes = []
  · rw [if_pos hnodes] at hp hp'
    cases hp
    cases hp'
    rfl
  rw [if_neg hnodes] at hp hp'
  cases hk : j.kcalloc with
  | false =>
    rw [hk, if_pos rfl] at hp hp'
    cases hp
    cases hp'
    rfl
  | true =>
    rw [hk, if_neg (by decide)] at hp hp'
    obtain ⟨as', hfind, rfl⟩ := Option.map_eq_some_iff.mp hp
    obtain ⟨fs', hfind', rfl⟩ := Option.map_eq_some_iff.mp hp'
    obtain ⟨ra, hloop, rfl⟩ := Option.map_eq_some_iff.mp hfind
    obtain ⟨rf, hloop', rfl⟩ := Option.map_eq_some_iff.mp hfind'
    have htwins := scan_twin h hmagic (Nat.dvd_zero _) hloop hloop'
    dsimp only
    rw [placeNodes_congr fun n hn hreg => findEntry_twin htwins fun f hidle =>
      hidle.unasked n hn hreg]

/-! ## Runs -/

theorem sized_rbDynparts : Sized (rbDynparts e) := by
  intro p hp hfix
  rcases List.mem_cons.mp hp with rfl | hp
  · rfl
  rcases List.mem_cons.mp hp with rfl | hp
  · rfl
  · rw [List.mem_singleton.mp hp] at hfix
    cases hfix

theorem Sized.of_kept (hsized : Sized fs) (h : List.Forall₂ Kept fs as) : Sized as := by
  induction h with
  | nil => exact nofun
  | cons hkept _ ih =>
    intro p hp hfix
    rcases List.mem_cons.mp hp with rfl | hp
    · have hno := hkept.size_fixup.symm.trans hfix
      exact (hkept.size hno).trans (hsized _ List.mem_cons_self hno)
    · exact ih (fun q hq => hsized q (List.mem_cons_of_mem _ hq)) p hp hfix

/-- Entries that are idle where they were found, beside ones that are not found. -/
theorem twins_of_kept (h : List.Forall₂ Kept fs as) (hsized : Sized fs)
    (hnone : ∀ f ∈ fs, f.found = false) (hidle : ∀ a ∈ as, a.found = true → Idle e j a) :
    List.Forall₂ (Twin e j) as fs := by
  induction h with
  | nil => exact .nil
  | @cons f a fs as hkept _ ih =>
    refine .cons ⟨hkept, hsized f List.mem_cons_self, ?_⟩
      (ih (fun q hq => hsized q (List.mem_cons_of_mem _ hq))
        (fun q hq => hnone q (List.mem_cons_of_mem _ hq))
        fun q hq => hidle q (List.mem_cons_of_mem _ hq))
    have hf := hnone f List.mem_cons_self
    cases ha : a.found with
    | false => exact .inl ⟨hf.symm, nofun⟩
    | true =>
      have hyes := hidle a List.mem_cons_self ha
      refine .inr ⟨rfl, ?_, ?_⟩
      · rw [← hkept.name]
        exact hyes.unasked
      · rw [← hkept.size_fixup, ← hkept.magic]
        exact hyes.unseen

/-- **A device is parsed as if it were the only one**, and the search on it ends, in every run whose
devices can be read and do not use what was found on those before. -/
theorem parsed_alone
    (h : Reaches (· = rbDynparts e) (fun s j t => Meets e j s ∧ Parses e s j t) dynparts)
    (hj : Meets e j dynparts) : Alone e j dynparts := by
  have hkept := reaches_kept (h.mono fun _ _ _ hstep => hstep.2)
  have hnone : ∀ f ∈ rbDynparts e, f.found = false := by
    intro f hf
    simp only [rbDynparts, List.mem_cons, List.not_mem_nil, or_false] at hf
    rcases hf with rfl | rfl | rfl <;> rfl
  have hmagic : (dynparts.map (·.magic)).Nodup := by
    rw [magic_of_kept hkept]
    cases e <;> decide
  have htwins := twins_of_kept hkept sized_rbDynparts hnone hj.idle
  constructor
  · obtain ⟨fuel, r, hloop⟩ := scan_ends e 0 hj.readable
      (sized_rbDynparts.of_kept hkept) (Nat.dvd_zero _)
    exact ⟨fuel, r.2, by rw [findDynparts, hloop]; rfl⟩
  · exact fun fuel fuel' p p' hp hp' => parse_twin htwins hmagic hp hp'

end

/-! ## Two small devices -/

/-- A flash that begins with the signature of the hard configuration. -/
def hardFlash : Device :=
  ⟨32, [0x48, 0x61, 0x72, 0x64, 0, 0, 0, 0], fun _ => none, wide_32⟩

/-- A flash whose reads fail. -/
def brokenFlash : Device := ⟨32, [0, 0, 0, 0, 0, 0, 0, 0], fun _ => some (-5), wide_32⟩

def dynamicNode (name : Bytes) : Node := ⟨none, none, name, none, none, 1, 1, false, false⟩

/-- What is left of `hardFlash`. -/
def hardFound : List Dynpart :=
  ⟨hardConfig, 0x64726148, false, 0, blockSize, true⟩ :: (rbDynparts .little).drop 1

theorem readable_small {d : Device} (hflash : d.size = 8) (hok : ∀ k, d.fails k = none) :
    Readable d where
  again := fun k => ⟨k, Nat.le_refl k, hok k⟩
  word := by
    intro o hdvd hlt
    have ho := Nat.eq_zero_of_dvd_of_lt hdvd (Nat.lt_trans hlt (hflash ▸ by decide))
    omega
  room := by
    have hpow : 2 ^ 32 ≤ 2 ^ d.sizeBits := Nat.pow_le_pow_right (by decide) d.wide
    rw [hflash, blockSize]
    omega

theorem scan_broken (fuel calls : Nat) (parts : List Dynpart) :
    loop (scanRound brokenFlash .little) fuel 0 (calls, parts) = none := by
  induction fuel generalizing calls with
  | zero => rfl
  | succ fuel ih =>
    rw [loop_next (scanRound_again (show 0 < 8 by decide) (read_failed rfl 4))]
    exact ih (calls + 1)

theorem meets_hard :
    Meets .little ⟨hardFlash, [dynamicNode hardConfig], true⟩ (rbDynparts .little) := by
  refine ⟨readable_small rfl fun _ => rfl, fun p hp hfound => ?_⟩
  simp only [rbDynparts, List.mem_cons, List.not_mem_nil, or_false] at hp
  rcases hp with rfl | rfl | rfl <;> cases hfound

theorem parses_hard :
    Parses .little (rbDynparts .little) ⟨hardFlash, [dynamicNode hardConfig], true⟩ hardFound :=
  ⟨2, _, rfl⟩

theorem parsed_alone_hard :
    Alone .little ⟨plainFlash, [dynamicNode softConfig], true⟩ hardFound := by
  refine parsed_alone (.next (.start rfl) ⟨meets_hard, parses_hard⟩)
    ⟨readable_small rfl fun _ => rfl, fun p hp hfound => ?_⟩
  simp only [hardFound, rbDynparts, List.drop_one, List.tail_cons, List.mem_cons,
    List.not_mem_nil, or_false] at hp
  rcases hp with rfl | rfl | rfl
  · refine ⟨fun n hn _ => ?_, nofun⟩
    rw [List.mem_singleton.mp hn]
    decide
  · cases hfound
  · cases hfound

theorem not_alone :
    ¬ Alone .little ⟨brokenFlash, [dynamicNode hardConfig], true⟩ (rbDynparts .little) ∧
      ∃ dynparts, Reaches (· = rbDynparts .little) (Parses .little) dynparts ∧
        ¬ Alone .little ⟨plainFlash, [dynamicNode hardConfig], true⟩ dynparts := by
  constructor
  · intro h
    obtain ⟨fuel, dynparts, hfind⟩ := h.ends
    rw [findDynparts, scan_broken] at hfind
    cases hfind
  · refine ⟨hardFound, .next (.start rfl) parses_hard, fun h => ?_⟩
    -- the entry of the other device is too long for this one
    have hret := h.same 2 2 _ _ rfl rfl
    cases hret

end UolaOs.Routerboot
