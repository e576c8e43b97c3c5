import UolaOs.Lib.Bytes
import UolaOs.Lib.Loop

/-!
# Dynamic partitions of RouterBOOT (routerbootpart.c)

The search for the signatures of the well-known partitions.

* `scanRound`: one round of `routerboot_find_dynparts`;
* `scan_ends`: the search ends on a device whose reads do not fail for ever.
-/

namespace UolaOs.Routerboot

/-- `RB_BLOCK_SIZE` -/
def blockSize : Nat := 0x1000

/-- A device, and which of the reads on it fail. -/
structure Device where
  /-- The width of `size_t`. -/
  sizeBits : Nat
  flash : Bytes
  /-- The error of a call of `mtd_read`. -/
  fails : Nat → Option Int
  wide : 32 ≤ sizeBits

namespace Device

variable (d : Device)

def size : Nat := d.flash.length

/-- A value in a `size_t`. -/
def trunc (n : Nat) : Nat := n % 2 ^ d.sizeBits

/-- `mtd_read` -/
def read (call offset len : Nat) : Except Int Bytes :=
  match d.fails call with
  | some err => .error err
  | none => if offset + len ≤ d.size then .ok (load d.flash offset len) else .error (-22)

end Device

/-- `struct routerboot_dynpart`. The only `size_fixup` is `routerboot_dtbsfixup`. -/
structure Dynpart where
  name : Bytes
  magic : Nat
  size_fixup : Bool
  offset : Nat
  size : Nat
  found : Bool
  deriving DecidableEq

def hardConfig : Bytes := [0x68, 0x61, 0x72, 0x64, 0x5f, 0x63, 0x6f, 0x6e, 0x66, 0x69, 0x67]

def softConfig : Bytes := [0x73, 0x6f, 0x66, 0x74, 0x5f, 0x63, 0x6f, 0x6e, 0x66, 0x69, 0x67]

def dtbConfig : Bytes := [0x64, 0x74, 0x62, 0x5f, 0x63, 0x6f, 0x6e, 0x66, 0x69, 0x67]

/-- `fdt32_to_cpu(OF_DT_HEADER)` -/
def fdtMagic (e : Endian) : Nat := e.get [0xd0, 0x0d, 0xfe, 0xed]

/-- `rb_dynparts`, before the first device. -/
def rbDynparts (e : Endian) : List Dynpart :=
  [⟨hardConfig, 0x64726148, false, 0, blockSize, false⟩,
    ⟨softConfig, 0x74666f53, false, 0, blockSize, false⟩,
    ⟨dtbConfig, fdtMagic e, true, 0, 0, false⟩]

/-- `routerboot_dtbsfixup`. An entry is what it becomes, unless the fixup fails. -/
def dtbsfixup (d : Device) (call : Nat) (p : Dynpart) : Option Dynpart :=
  match d.read call p.offset 40 with
  | .error _ => none
  | .ok fdt_header =>
    let psize := Endian.big.get (load fdt_header 4 4)
    if psize = 0 then none else some { p with size := psize }

/-- What the loop over the entries leaves. -/
structure Check where
  parts : List Dynpart
  calls : Nat
  allfound : Bool
  offset : Nat
  deriving DecidableEq

/-- An entry that the loop goes past. -/
def Check.cons (p : Dynpart) (allfound : Bool) (c : Check) : Check :=
  { c with parts := p :: c.parts, allfound := allfound && c.allfound }

/-- Behind the content of a partition but for its last block. -/
def skip (d : Device) (offset size : Nat) : Nat :=
  if blockSize < size then d.trunc (offset + (size - blockSize) / blockSize * blockSize) else offset

/-- The loop over the entries, for what was read at an offset. -/
def checkParts (d : Device) (buf offset : Nat) : Nat → List Dynpart → Check
  | calls, [] => ⟨[], calls, true, offset⟩
  | calls, p :: ps =>
    if p.found then (checkParts d buf offset calls ps).cons p true
    else if p.magic = buf then
      let p := { p with offset := offset }
      if p.size_fixup then
        match dtbsfixup d calls p with
        | none => (checkParts d buf offset (calls + 1) ps).cons p false
        | some p => ⟨{ p with found := true } :: ps, calls + 1, false, skip d offset p.size⟩
      else ⟨{ p with found := true } :: ps, calls, false, skip d offset p.size⟩
    else (checkParts d buf offset calls ps).cons p false

/-- One round of `routerboot_find_dynparts`, with how often was read and the entries. A read that
fails is tried again. -/
def scanRound (d : Device) (e : Endian) (offset : Nat) (s : Nat × List Dynpart) :
    Option (Round Nat (Nat × List Dynpart)) :=
  if offset < d.size then
    match d.read s.1 offset 4 with
    | .error _ => some (.next offset (s.1 + 1, s.2))
    | .ok buf =>
      let c := checkParts d (e.get buf) offset (s.1 + 1) s.2
      if c.allfound then some (.stop (c.calls, c.parts))
      else some (.next (d.trunc (c.offset + blockSize)) (c.calls, c.parts))
  else some (.stop s)

/-- `routerboot_find_dynparts`, for at most `fuel` rounds. -/
def findDynparts (d : Device) (e : Endian) (fuel : Nat) (parts : List Dynpart) :
    Option (List Dynpart) :=
  (loop (scanRound d e) fuel 0 (0, parts)).map (·.2)

/-! ## The end of the search -/

/-- The entries for which the search may skip blocks. -/
def left (parts : List Dynpart) : Nat := parts.countP fun p => p.size_fixup && !p.found

/-- Only the entry of the blob has another size than a block. -/
def Sized (parts : List Dynpart) : Prop :=
  ∀ p ∈ parts, p.size_fixup = false → p.size = blockSize

/-- The reads of the search do not fail for ever, and its offsets do not overflow. -/
structure Readable (d : Device) : Prop where
  again : ∀ k, ∃ j, k ≤ j ∧ d.fails j = none
  word : ∀ o, blockSize ∣ o → o < d.size → o + 4 ≤ d.size
  room : d.size + blockSize ≤ 2 ^ d.sizeBits

section
variable {d : Device} {e : Endian} {buf offset calls : Nat} {p : Dynpart} {ps parts : List Dynpart}

theorem blockSize_dvd_trunc {n : Nat} (h : blockSize ∣ n) : blockSize ∣ d.trunc n := by
  have hpow : blockSize ∣ 2 ^ d.sizeBits := by
    have hdvd : 2 ^ 12 ∣ 2 ^ d.sizeBits := Nat.pow_dvd_pow 2 (by have := d.wide; omega)
    exact hdvd
  exact (Nat.dvd_mod_iff hpow).mpr h

theorem blockSize_dvd_skip {size : Nat} (h : blockSize ∣ offset) :
    blockSize ∣ skip d offset size := by
  rw [skip]
  split
  · exact blockSize_dvd_trunc (Nat.dvd_add h (Nat.dvd_mul_left _ _))
  · exact h

theorem left_cons (p : Dynpart) (ps : List Dynpart) :
    left (p :: ps) = left ps + if p.size_fixup && !p.found then 1 else 0 := by
  rw [left, List.countP_cons]
  rfl

theorem skip_block : skip d offset blockSize = offset := if_neg (Nat.lt_irrefl _)

/-- What the loop over the entries does: it skips blocks only with the entry of the blob. -/
structure Checked (d : Device) (offset : Nat) (ps : List Dynpart) (c : Check) : Prop where
  sized : Sized c.parts
  le : left c.parts ≤ left ps
  moves : c.offset = offset ∨ left c.parts < left ps
  dvd : blockSize ∣ offset → blockSize ∣ c.offset

theorem Checked.cons {allfound : Bool} {c : Check} {q : Dynpart} (h : Checked d offset ps c)
    (hsized : Sized (p :: ps)) (hfix : q.size_fixup = p.size_fixup) (hsize : q.size = p.size)
    (hfound : q.found = p.found) : Checked d offset (p :: ps) (c.cons q allfound) := by
  have hle := h.le
  have hmoves := h.moves
  refine ⟨?_, ?_, ?_, h.dvd⟩
  · intro x hx
    rcases List.mem_cons.mp hx with rfl | hx
    · rw [hfix, hsize]
      exact hsized p List.mem_cons_self
    · exact h.sized x hx
  · rw [Check.cons, left_cons, left_cons, hfix, hfound]
    exact Nat.add_le_add_right hle _
  · rw [Check.cons, left_cons, left_cons, hfix, hfound]
    exact hmoves.imp_right fun hlt => Nat.add_lt_add_right hlt _

theorem dtbsfixup_eq {call : Nat} {q : Dynpart} (h : dtbsfixup d call p = some q) :
    q = { p with size := q.size } := by
  rw [dtbsfixup] at h
  split at h
  · cases h
  · dsimp only at h
    split at h
    · cases h
    · cases h
      rfl

theorem checkParts_checked (d : Device) (buf offset calls : Nat) (hsized : Sized parts) :
    Checked d offset parts (checkParts d buf offset calls parts) := by
  induction parts generalizing calls with
  | nil => exact ⟨hsized, Nat.le_refl _, .inl rfl, id⟩
  | cons p ps ih =>
    have hrest : Sized ps := fun x hx => hsized x (List.mem_cons_of_mem _ hx)
    rw [checkParts]
    split
    · exact (ih _ hrest).cons hsized rfl rfl rfl
    rename_i hfound
    split
    · dsimp only
      split
      · rename_i hfix
        cases hfixup : dtbsfixup d calls { p with offset := offset } with
        | none => exact (ih _ hrest).cons hsized rfl rfl rfl
        | some q =>
          have hq := dtbsfixup_eq hfixup
          have hleft : left ({ q with found := true } :: ps) < left (p :: ps) := by
            rw [left_cons, left_cons, hfix, Bool.eq_false_of_not_eq_true hfound]
            simp
          refine ⟨fun x hx => ?_, Nat.le_of_lt hleft, .inr hleft, blockSize_dvd_skip⟩
          rcases List.mem_cons.mp hx with rfl | hx
          · intro hno
            rw [hq] at hno
            cases hfix.symm.trans hno
          · exact hrest x hx
      · rename_i hfix
        have hno := Bool.eq_false_of_not_eq_true hfix
        have hsize := hsized p List.mem_cons_self hno
        have hleft : left ({ p with offset := offset, found := true } :: ps) = left (p :: ps) := by
          rw [left_cons, left_cons, hno]
          rfl
        refine ⟨fun x hx => ?_, Nat.le_of_eq hleft, .inl ?_, blockSize_dvd_skip⟩
        · rcases List.mem_cons.mp hx with rfl | hx
          · exact fun _ => hsize
          · exact hrest x hx
        · rw [hsize, skip_block]
    · exact (ih _ hrest).cons hsized rfl rfl rfl

theorem read_failed {err : Int} (h : d.fails calls = some err) (n : Nat) :
    d.read calls offset n = .error err := by
  rw [Device.read, h]

theorem read_done {n : Nat} (h : d.fails calls = none) (hin : offset + n ≤ d.size) :
    d.read calls offset n = .ok (load d.flash offset n) := by
  rw [Device.read, h]
  exact if_pos hin

theorem read_ok {n : Nat} {bs : Bytes} (h : d.read calls offset n = .ok bs) :
    bs = load d.flash offset n := by
  rw [Device.read] at h
  split at h
  · cases h
  · split at h
    · cases h
      rfl
    · cases h

theorem scanRound_past (h : d.size ≤ offset) (s : Nat × List Dynpart) :
    scanRound d e offset s = some (.stop s) := by
  rw [scanRound, if_neg (Nat.not_lt.mpr h)]

/-- A read that fails is tried again. -/
theorem scanRound_again (hlt : offset < d.size) {err : Int}
    (h : d.read calls offset 4 = .error err) :
    scanRound d e offset (calls, parts) = some (.next offset (calls + 1, parts)) := by
  rw [scanRound, if_pos hlt, h]

theorem scanRound_read (e : Endian) (parts : List Dynpart) (hlt : offset < d.size) {bs : Bytes}
    (h : d.read calls offset 4 = .ok bs) {c : Check} (hc : checkParts d (e.get bs) offset (calls + 1) parts = c) :
    scanRound d e offset (calls, parts) = some (if c.allfound then .stop (c.calls, c.parts)
      else .next (d.trunc (c.offset + blockSize)) (c.calls, c.parts)) := by
  rw [scanRound, if_pos hlt, h]
  dsimp only
  rw [hc]
  split <;> rfl

/-- Reads that fail are passed over. -/
theorem scan_retries (hlt : offset < d.size) {j : Nat} (hj : calls ≤ j) (hok : d.fails j = none)
    (h : ∀ calls, d.fails calls = none →
      ∃ fuel r, loop (scanRound d e) fuel offset (calls, parts) = some r) :
    ∃ fuel r, loop (scanRound d e) fuel offset (calls, parts) = some r := by
  induction hk : j - calls generalizing calls with
  | zero =>
    obtain rfl : calls = j := by omega
    exact h calls hok
  | succ k ih =>
    cases hfail : d.fails calls with
    | none => exact h calls hfail
    | some err =>
      have hnext : calls + 1 ≤ j := by omega
      obtain ⟨fuel, r, hrun⟩ := ih hnext (by omega)
      exact ⟨fuel + 1, r, by rw [loop_next (scanRound_again hlt (read_failed hfail 4)), hrun]⟩

/-- **The search ends** on a readable device. -/
theorem scan_ends (e : Endian) (calls : Nat) (h : Readable d) (hsized : Sized parts)
    (hdvd : blockSize ∣ offset) :
    ∃ fuel r, loop (scanRound d e) fuel offset (calls, parts) = some r := by
  induction hn : left parts using Nat.strongRecOn generalizing offset calls parts with
  | ind n ihn =>
    induction hm : d.size - offset using Nat.strongRecOn generalizing offset calls parts with
    | ind m ihm =>
      by_cases hlt : offset < d.size
      · obtain ⟨j, hj, hok⟩ := h.again calls
        refine scan_retries hlt hj hok fun calls hread => ?_
        have hround := scanRound_read e parts hlt
          (read_done hread (h.word offset hdvd hlt)) rfl
        have hchecked := checkParts_checked d (e.get (load d.flash offset 4)) offset (calls + 1)
          hsized
        generalize checkParts d (e.get (load d.flash offset 4)) offset (calls + 1) parts = c
          at hround hchecked
        cases hall : c.allfound with
        | true => exact ⟨1, _, loop_stop (by rw [hround, hall]; rfl)⟩
        | false =>
          rw [hall] at hround
          have hnext : blockSize ∣ d.trunc (c.offset + blockSize) :=
            blockSize_dvd_trunc (Nat.dvd_add (hchecked.dvd hdvd) (Nat.dvd_refl _))
          obtain ⟨fuel, r, hrun⟩ : ∃ fuel r, loop (scanRound d e) fuel
              (d.trunc (c.offset + blockSize)) (c.calls, c.parts) = some r := by
            rcases Nat.lt_or_ge (left c.parts) (left parts) with hfewer | hsame
            · exact ihn _ (hn ▸ hfewer) _ hchecked.sized hnext rfl
            · have hstay := hchecked.moves.resolve_right (Nat.not_lt.mpr hsame)
              have hroom := h.room
              have heq : d.trunc (c.offset + blockSize) = offset + blockSize := by
                rw [hstay, Device.trunc, Nat.mod_eq_of_lt (by omega)]
              have hpos : 0 < blockSize := by decide
              refine ihm _ ?_ _ hchecked.sized hnext ?_ rfl
              · rw [heq]
                omega
              · rw [← hn]
                exact Nat.le_antisymm hchecked.le hsame
          exact ⟨fuel + 1, r, by rw [loop_next hround, hrun]⟩
      · exact ⟨1, _, loop_stop (scanRound_past (Nat.le_of_not_lt hlt) _)⟩

end

end UolaOs.Routerboot
