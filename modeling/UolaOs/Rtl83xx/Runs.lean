import UolaOs.Rtl83xx.Fdb

/-!
# Runs of the forwarding database

* `fdbAdd_blank`: an entry is said to be added, and is not;
* `fdb_iff`: when the dump is the map that the calls build.
-/

namespace UolaOs.Rtl83xx

/-! ## Commands -/

section
variable {base idx low c : UInt32} {hw : Hw}

theorem or_and (a b c : UInt32) : (a ||| b) &&& c = (a &&& c) ||| (b &&& c) := by
  apply UInt32.toBitVec_inj.mp
  ext i hi
  simp [Bool.and_or_distrib_right]

theorem command_and (h : low &&& c = 0) : (base ||| (idx &&& low)) &&& c = base &&& c := by
  rw [or_and, UInt32.and_assoc, h, UInt32.and_zero, UInt32.or_zero]

theorem command_shift (h : low >>> 13 = 0) : (base ||| (idx &&& low)) >>> 13 = base >>> 13 := by
  rw [UInt32.shiftRight_or, UInt32.shiftRight_and, h, UInt32.and_zero, UInt32.or_zero]

/-- The rows of both tables are zero. -/
def Blank (hw : Hw) : Prop := (∀ i, hw.l2 i = Words.zero) ∧ ∀ i, hw.cam i = Words.zero

/-- A read of a blank table. -/
theorem exec_read (hb : Blank hw) (h16 : base &&& bit16 ≠ 0) (h15 : base &&& bit15 ≠ 0)
    (ht : (base >>> 13) &&& 3 = 0 ∨ (base >>> 13) &&& 3 = 1) (hl16 : low &&& bit16 = 0)
    (hl15 : low &&& bit15 = 0) (hl13 : low >>> 13 = 0) :
    exec (base ||| (idx &&& low)) hw = { hw with data := Words.zero } := by
  rw [exec, command_and hl16, command_and hl15, command_shift hl13, if_neg h16, if_pos h15,
    if_pos h15, hb.1, hb.2]
  rcases ht with h0 | h1
  · rw [if_pos h0]
  · rw [if_neg (by rw [h1]; decide), if_pos h1]

theorem entryWord_zero : entryWord Words.zero = 0 := by decide

theorem readL2_blank (hb : Blank hw) (hash position : UInt32) :
    readL2EntryUsingHash hash position hw =
      ((0, decodeEntry Words.zero), { hw with data := Words.zero }) := by
  rw [readL2EntryUsingHash, exec_read hb (by decide) (by decide) (.inl (by decide)) (by decide)
    (by decide) (by decide)]
  dsimp only
  rw [entryWord_zero]

theorem readCam_blank (hb : Blank hw) (i : UInt32) :
    readCam i hw = ((0, decodeEntry Words.zero), { hw with data := Words.zero }) := by
  rw [readCam, exec_read hb (by decide) (by decide) (.inr (by decide)) (by decide) (by decide)
    (by decide)]
  dsimp only
  rw [entryWord_zero]

theorem Blank.data (hb : Blank hw) (r : Words) : Blank { hw with data := r } := hb

/-- What is written to the hash table is zero. -/
theorem writeHash_blank (hb : Blank hw) (i : UInt32) (r : Words) : Blank (writeHash i r hw) := by
  have h16 : bit16 &&& bit16 ≠ 0 := by decide
  have h15 : bit16 &&& bit15 = 0 := by decide
  have h13 : (bit16 >>> 13) &&& 3 = 0 := by decide
  rw [writeHash, exec]
  dsimp only
  rw [command_and (by decide), command_and (by decide), command_shift (by decide), if_neg h16,
    if_pos h13, if_neg (not_not.mpr h15)]
  refine ⟨fun j => ?_, hb.2⟩
  dsimp only
  by_cases hj : j = ((bit16 ||| (i &&& 0x1fff)) &&& 0x1fff).toNat
  · rw [hj, Function.update_self]
  · rw [Function.update_of_ne hj]
    exact hb.1 j

end

/-! ## Calls on blank tables -/

section
variable {hw : Hw} {addr : Mac} {vid : UInt16}

/-- A search that does not stop at blank entries. -/
theorem search_blank {read : UInt32 → Hw → (UInt64 × L2Entry) × Hw} {hit : UInt64 → L2Entry → Bool}
    (hb : Blank hw)
    (hread : ∀ i hw, Blank hw →
      read i hw = ((0, decodeEntry Words.zero), { hw with data := Words.zero }))
    (hhit : hit 0 (decodeEntry Words.zero) = false) (is : List UInt32) :
    (search read hit is hw).1 = none ∧ Blank (search read hit is hw).2 := by
  induction is generalizing hw with
  | nil => exact ⟨rfl, hb⟩
  | cons i is ih =>
    rw [search, hread i hw hb]
    dsimp only
    rw [hhit, if_neg Bool.noConfusion]
    exact ih (hb.data _)

/-- An entry is said to be added, and is not. -/
theorem fdbAdd_blank (hb : Blank hw) (port : UInt32) (addr : Mac) (vid : UInt16) :
    (fdbAdd port addr vid hw).1 = 0 ∧ Blank (fdbAdd port addr vid hw).2 := by
  have hinvalid : (decodeEntry Words.zero).valid = false := by decide
  rw [fdbAdd, bucket, search, readL2_blank hb]
  dsimp only
  rw [hinvalid, Bool.not_false, Bool.true_or, if_pos rfl]
  have hzero : Blank { hw with data := Words.zero } := hb
  exact ⟨rfl, writeHash_blank hzero _ (encodeEntry port addr vid)⟩

theorem isTarget_zero (h : vid ≠ 0) : isTarget addr vid 0 = false := by
  apply decide_eq_false
  rw [UInt64.zero_and, target]
  intro h0
  have hvid := congrArg UInt64.toUInt16 (UInt64.or_eq_zero_iff.mp h0.symm).2
  rw [UInt16.toUInt16_toUInt64] at hvid
  exact h hvid

/-- No entry is found. -/
theorem fdbDel_blank (hb : Blank hw) (h : vid ≠ 0) (port : UInt32) (addr : Mac) :
    (fdbDel port addr vid hw).1 = enoent ∧ Blank (fdbDel port addr vid hw).2 := by
  have hinvalid : (decodeEntry Words.zero).valid = false := by decide
  have hread (i : UInt32) (hw' : Hw) (hb' : Blank hw') :=
    readL2_blank hb' (hashKey hw addr vid) i
  have hcam (i : UInt32) (hw' : Hw) (hb' : Blank hw') := readCam_blank hb' i
  let hit (entry : UInt64) (e : L2Entry) : Bool := e.valid && isTarget addr vid entry
  let hitCam (entry : UInt64) (_ : L2Entry) : Bool := isTarget addr vid entry
  have hmiss : hit 0 (decodeEntry Words.zero) = false := by
    show ((decodeEntry Words.zero).valid && isTarget addr vid 0) = false
    rw [hinvalid, Bool.false_and]
  have hmissCam : hitCam 0 (decodeEntry Words.zero) = false := isTarget_zero h
  obtain ⟨hnone, hblank⟩ := search_blank hb hread hmiss bucket
  rw [fdbDel]
  generalize search (readL2EntryUsingHash (hashKey hw addr vid)) _ bucket hw = r at hnone hblank ⊢
  obtain ⟨found, hw₁⟩ := r
  obtain rfl : found = none := hnone
  obtain ⟨hnone', hblank'⟩ := search_blank hblank hcam hmissCam camPlaces
  dsimp only
  generalize search readCam _ camPlaces hw₁ = r at hnone' hblank' ⊢
  obtain ⟨found, hw₂⟩ := r
  obtain rfl : found = none := hnone'
  exact ⟨rfl, hblank'⟩

theorem dumpPlaces_blank {read : UInt32 → Hw → (UInt64 × L2Entry) × Hw} (hb : Blank hw)
    (port : UInt32)
    (hread : ∀ i hw, Blank hw →
      read i hw = ((0, decodeEntry Words.zero), { hw with data := Words.zero }))
    (is : List UInt32) :
    (dumpPlaces port read is hw).1 = [] ∧ Blank (dumpPlaces port read is hw).2 := by
  have hinvalid : (decodeEntry Words.zero).valid = false := by decide
  induction is generalizing hw with
  | nil => exact ⟨rfl, hb⟩
  | cons i is ih =>
    rw [dumpPlaces, hread i hw hb]
    dsimp only
    rw [hinvalid, if_neg fun h => Bool.noConfusion h.1]
    exact ih (hb.data _)

theorem fdbDump_blank (hb : Blank hw) (port : UInt32) :
    (fdbDump port hw).1 = [] ∧ Blank (fdbDump port hw).2 := by
  have hread (i : UInt32) (hw' : Hw) (hb' : Blank hw') :=
    readL2_blank hb' (i >>> 2) (i &&& 3)
  have hcam (i : UInt32) (hw' : Hw) (hb' : Blank hw') := readCam_blank hb' i
  obtain ⟨hhash, hblank⟩ :=
    dumpPlaces_blank hb port hread ((List.range fibEntries).map UInt32.ofNat)
  obtain ⟨hempty, hblank'⟩ := dumpPlaces_blank hblank port hcam camPlaces
  rw [fdbDump]
  dsimp only
  rw [hhash, hempty]
  exact ⟨rfl, hblank'⟩

theorem dumpAll_blank (hb : Blank hw) (ports : List UInt32) : dumpAll ports hw = [] := by
  induction ports generalizing hw with
  | nil => rfl
  | cons port ports ih =>
    obtain ⟨hempty, hblank⟩ := fdbDump_blank hb port
    rw [dumpAll, hempty, ih hblank]
    rfl

end

/-! ## Runs -/

inductive Op where
  | add (port : UInt32) (addr : Mac) (vid : UInt16)
  | del (port : UInt32) (addr : Mac) (vid : UInt16)

def Op.IsAdd : Op → Prop
  | add _ _ _ => True
  | del _ _ _ => False

/-- A port, an address and a VID that the bridge can pass. -/
def Fits (port : UInt32) (addr : Mac) (vid : UInt16) : Prop :=
  port < 28 ∧ addr.Unicast ∧ 1 ≤ vid ∧ vid ≤ 4095

instance (port : UInt32) (addr : Mac) (vid : UInt16) : Decidable (Fits port addr vid) :=
  inferInstanceAs (Decidable (_ ∧ _))

def Op.Valid : Op → Prop
  | add port addr vid => Fits port addr vid
  | del port addr vid => Fits port addr vid

/-- The hardware, and the map that the successful calls build. -/
structure Sys where
  hw : Hw
  map : Mac × UInt16 → Option UInt32

/-- The map after a call that returned `err`. -/
def mapAfter (err : Int) (map : Mac × UInt16 → Option UInt32) (key : Mac × UInt16)
    (port : Option UInt32) : Mac × UInt16 → Option UInt32 :=
  if err = 0 then Function.update map key port else map

def Sys.step (s : Sys) : Op → Sys
  | .add port addr vid =>
    let r := fdbAdd port addr vid s.hw
    ⟨r.2, mapAfter r.1 s.map (addr, vid) (some port)⟩
  | .del port addr vid =>
    let r := fdbDel port addr vid s.hw
    ⟨r.2, mapAfter r.1 s.map (addr, vid) none⟩

/-- A run from empty tables. -/
def run (hw : Hw) (ops : List Op) : Sys := ops.foldl Sys.step ⟨hw, fun _ => none⟩

/-- The ports of the switch, the CPU port among them. -/
def allPorts : List UInt32 := (List.range 29).map UInt32.ofNat

/-- The dump is the map, and entries are deleted when they are in it. -/
structure IsMap (hw : Hw) (ops : List Op) : Prop where
  nodup : ((dumpAll allPorts (run hw ops).hw).map fun x => (x.2.mac, x.2.vid)).Nodup
  reported : ∀ addr vid port, (run hw ops).map (addr, vid) = some port ↔
    ∃ x, (port, x) ∈ dumpAll allPorts (run hw ops).hw ∧ x.mac = addr ∧ x.vid = vid
  deleted : ∀ pre port addr vid post, ops = pre ++ .del port addr vid :: post →
    ((fdbDel port addr vid (run hw pre).hw).1 = 0 ↔ (run hw pre).map (addr, vid) ≠ none)

section
variable {hw : Hw} {ops : List Op}

theorem step_add {s : Sys} (hb : Blank s.hw) (port : UInt32) (addr : Mac) (vid : UInt16) :
    Blank (s.step (.add port addr vid)).hw ∧
      (s.step (.add port addr vid)).map = Function.update s.map (addr, vid) (some port) := by
  have hadd := fdbAdd_blank hb port addr vid
  refine ⟨hadd.2, ?_⟩
  rw [Sys.step]
  dsimp only
  rw [hadd.1, mapAfter, if_pos rfl]

theorem step_del {s : Sys} (hb : Blank s.hw) {port : UInt32} {addr : Mac} {vid : UInt16}
    (h : Fits port addr vid) :
    Blank (s.step (.del port addr vid)).hw ∧ (s.step (.del port addr vid)).map = s.map := by
  have hvid : vid ≠ 0 := by
    rintro rfl
    exact absurd h.2.2.1 (by decide)
  have hdel := fdbDel_blank hb hvid port addr
  refine ⟨hdel.2, ?_⟩
  rw [Sys.step]
  dsimp only
  rw [hdel.1, mapAfter, if_neg (by decide)]

/-- The tables stay empty, and what has been added stays in the map. -/
theorem foldl_blank {s : Sys} (hb : Blank s.hw) (hvalid : ∀ o ∈ ops, o.Valid) :
    Blank (ops.foldl Sys.step s).hw ∧
      ((∀ o ∈ ops, ¬ o.IsAdd) → (ops.foldl Sys.step s).map = s.map) ∧
      ((∃ key, s.map key ≠ none) ∨ (∃ o ∈ ops, o.IsAdd) →
        ∃ key, (ops.foldl Sys.step s).map key ≠ none) := by
  induction ops generalizing s with
  | nil =>
    refine ⟨hb, fun _ => rfl, ?_⟩
    rintro (hkey | ⟨o, ho, -⟩)
    · exact hkey
    · cases ho
  | cons o ops ih =>
    rw [List.foldl_cons]
    have hrest (o' : Op) (ho : o' ∈ ops) : o'.Valid := hvalid o' (List.mem_cons_of_mem o ho)
    cases o with
    | add port addr vid =>
      obtain ⟨hblank, hmap⟩ := step_add hb port addr vid
      obtain ⟨hend, -, hsome⟩ := ih hblank hrest
      refine ⟨hend, fun h => absurd trivial (h _ List.mem_cons_self), fun _ => ?_⟩
      refine hsome (.inl ⟨(addr, vid), ?_⟩)
      rw [hmap, Function.update_self]
      exact Option.some_ne_none port
    | del port addr vid =>
      obtain ⟨hblank, hmap⟩ := step_del hb (hvalid _ List.mem_cons_self)
      obtain ⟨hend, hsame, hsome⟩ := ih hblank hrest
      refine ⟨hend, fun h => ?_, ?_⟩
      · rw [hsame fun o' ho => h o' (List.mem_cons_of_mem _ ho), hmap]
      · rintro (hkey | ⟨o', ho, hadd⟩)
        · exact hsome (.inl (hmap.symm ▸ hkey))
        · rcases List.mem_cons.mp ho with rfl | ho
          · exact absurd hadd not_false
          · exact hsome (.inr ⟨o', ho, hadd⟩)

/-- **Map.** From empty tables the dump is the map that the calls build if and only if nothing is
ever added. -/
theorem fdb_iff (hb : Blank hw) (hvalid : ∀ o ∈ ops, o.Valid) :
    IsMap hw ops ↔ ∀ o ∈ ops, ¬ o.IsAdd := by
  have hstart : Blank (Sys.mk hw fun _ => none).hw := hb
  obtain ⟨hblank, hnone, hsome⟩ := foldl_blank hstart hvalid
  have hdump : dumpAll allPorts (run hw ops).hw = [] := dumpAll_blank hblank allPorts
  constructor
  · intro h o ho hadd
    obtain ⟨key, hkey⟩ := hsome (.inr ⟨o, ho, hadd⟩)
    obtain ⟨port, hport⟩ := Option.ne_none_iff_exists'.mp hkey
    obtain ⟨x, hx, -⟩ := (h.reported key.1 key.2 port).mp hport
    rw [hdump] at hx
    cases hx
  · intro hno
    have hempty : (run hw ops).map = fun _ => none := hnone hno
    refine ⟨?_, fun addr vid port => ?_, ?_⟩
    · rw [hdump]
      exact List.nodup_nil
    · rw [hdump, hempty]
      constructor
      · intro h
        cases h
      · rintro ⟨x, hx, -⟩
        cases hx
    · rintro pre port addr vid post rfl
      -- the calls before have left the tables and the map empty
      have hpre : ∀ o ∈ pre, o.Valid := fun o ho => hvalid o (List.mem_append_left _ ho)
      obtain ⟨hblank', hnone', -⟩ := foldl_blank hstart hpre
      have hmap : (run hw pre).map = fun _ => none :=
        hnone' fun o ho => hno o (List.mem_append_left _ ho)
      have hfits := hvalid _ (List.mem_append_right pre List.mem_cons_self)
      have hvid : vid ≠ 0 := by
        rintro rfl
        exact absurd hfits.2.2.1 (by decide)
      have hdel : (fdbDel port addr vid (run hw pre).hw).1 = enoent :=
        (fdbDel_blank hblank' hvid port addr).1
      rw [hdel, hmap]
      exact ⟨fun h => absurd h (by decide), fun h => absurd rfl h⟩

end

section

def blankHw : Hw := ⟨fun _ => Words.zero, fun _ => Words.zero, Words.zero, 0⟩

def someMac : Mac := ⟨0x02, 0, 0, 0, 0, 1⟩

theorem blank_blankHw : Blank blankHw := ⟨fun _ => rfl, fun _ => rfl⟩

/-- Nothing is there that could be deleted. -/
theorem fdb_del : IsMap blankHw [.del 3 someMac 7] := by
  refine (fdb_iff blank_blankHw fun o ho => ?_).mpr fun o ho => ?_
  · obtain rfl := List.mem_singleton.mp ho
    exact (by decide : Fits 3 someMac 7)
  · obtain rfl := List.mem_singleton.mp ho
    exact not_false

/-- An entry is added and not reported. -/
theorem fdb_add : (fdbAdd 3 someMac 7 blankHw).1 = 0 ∧ ¬ IsMap blankHw [.add 3 someMac 7] := by
  refine ⟨(fdbAdd_blank blank_blankHw 3 someMac 7).1, fun h => ?_⟩
  obtain ⟨hblank, hmap⟩ := step_add (s := ⟨blankHw, fun _ => none⟩) blank_blankHw 3 someMac 7
  have hdump : dumpAll allPorts (run blankHw [.add 3 someMac 7]).hw = [] :=
    dumpAll_blank hblank allPorts
  have hsome : (run blankHw [.add 3 someMac 7]).map (someMac, 7) = some 3 := by
    show (Sys.step ⟨blankHw, fun _ => none⟩ (.add 3 someMac 7)).map (someMac, 7) = some 3
    rw [hmap, Function.update_self]
  obtain ⟨x, hx, -⟩ := (h.reported someMac 7 3).mp hsome
  rw [hdump] at hx
  cases hx

end

end UolaOs.Rtl83xx
