import UolaOs.Lib.Bytes
import Mathlib.Data.List.TakeWhile

/-!
# Texts

Lines of a text, and the part of a text in front of some other one.

* `readLines_unlines`: lines that are put together are found again;
* `splitBefore_iff`: the part in front of the first occurrence;
* `words_cons`: the first word.
-/

namespace UolaOs

/-! ## Lines -/

def newline : UInt8 := 0x0a

/-- The lines, without their newlines. -/
def readLines : Bytes → List Bytes
  | [] => []
  | c :: text =>
    if c = newline then [] :: readLines text
    else
      match readLines text with
      | [] => [[c]]
      | line :: lines => (c :: line) :: lines

/-- Lines, each with a newline behind it. -/
def unlines (lines : List Bytes) : Bytes := lines.flatMap fun line => line ++ [newline]

theorem readLines_line {line : Bytes} (h : newline ∉ line) (text : Bytes) :
    readLines (line ++ newline :: text) = line :: readLines text := by
  induction line with
  | nil => exact if_pos rfl
  | cons c line ih =>
    obtain ⟨hc, hline⟩ := List.ne_and_not_mem_of_not_mem_cons h
    rw [List.cons_append, readLines, if_neg (Ne.symm hc), ih hline]

theorem readLines_unlines {lines : List Bytes} (h : ∀ line ∈ lines, newline ∉ line) :
    readLines (unlines lines) = lines := by
  induction lines with
  | nil => rfl
  | cons line lines ih =>
    obtain ⟨hline, hlines⟩ := List.forall_mem_cons.mp h
    rw [unlines, List.flatMap_cons, List.append_assoc, List.singleton_append,
      readLines_line hline, ← unlines, ih hlines]

theorem newline_notMem_readLines (text : Bytes) : ∀ line ∈ readLines text, newline ∉ line := by
  induction text with
  | nil => exact fun _ h => absurd h List.not_mem_nil
  | cons c text ih =>
    rw [readLines]
    by_cases hc : c = newline
    · rw [if_pos hc]
      exact List.forall_mem_cons.mpr ⟨List.not_mem_nil, ih⟩
    · rw [if_neg hc]
      cases hlines : readLines text with
      | nil =>
        refine List.forall_mem_cons.mpr ⟨fun h => ?_, fun _ h => absurd h List.not_mem_nil⟩
        exact hc (List.mem_singleton.mp h).symm
      | cons line lines =>
        rw [hlines] at ih
        obtain ⟨hline, hrest⟩ := List.forall_mem_cons.mp ih
        refine List.forall_mem_cons.mpr ⟨fun h => ?_, hrest⟩
        exact (List.mem_cons.mp h).elim (fun heq => hc heq.symm) hline

/-! ## Searching -/

/-- What stands in front of the first occurrence of `pat`. -/
def splitBefore (pat : Bytes) : Bytes → Option Bytes
  | [] => if pat <+: [] then some [] else none
  | c :: text => if pat <+: c :: text then some [] else (splitBefore pat text).map (c :: ·)

/-- `pat` stands behind `front`, and nowhere before. -/
def FirstAt (pat front text : Bytes) : Prop :=
  front <+: text ∧ pat <+: text.drop front.length ∧
    ∀ i < front.length, ¬ pat <+: text.drop i

theorem splitBefore_iff {pat front text : Bytes} :
    splitBefore pat text = some front ↔ FirstAt pat front text := by
  induction text generalizing front with
  | nil =>
    rw [splitBefore]
    constructor
    · intro h
      split at h
      · next hpat =>
        cases h
        exact ⟨List.nil_prefix, hpat, fun i hi => absurd hi (Nat.not_lt_zero i)⟩
      · cases h
    · rintro ⟨hnil, hpat, -⟩
      obtain rfl := List.prefix_nil.mp hnil
      exact if_pos hpat
  | cons c text ih =>
    rw [splitBefore]
    by_cases hpat : pat <+: c :: text
    · rw [if_pos hpat]
      constructor
      · intro h
        cases h
        exact ⟨List.nil_prefix, hpat, fun i hi => absurd hi (Nat.not_lt_zero i)⟩
      · rintro ⟨-, -, hno⟩
        cases front with
        | nil => rfl
        | cons b front => exact absurd hpat (hno 0 (Nat.succ_pos _))
    · rw [if_neg hpat, Option.map_eq_some_iff]
      constructor
      · rintro ⟨rest, hrest, rfl⟩
        obtain ⟨hstart, hbehind, hno⟩ := ih.mp hrest
        refine ⟨List.cons_prefix_cons.mpr ⟨rfl, hstart⟩, hbehind, fun i hi => ?_⟩
        cases i with
        | zero => exact hpat
        | succ i => exact hno i (Nat.lt_of_succ_lt_succ hi)
      · rintro ⟨hstart, hbehind, hno⟩
        cases front with
        | nil => exact absurd hbehind hpat
        | cons b front =>
          obtain ⟨rfl, hfront⟩ := List.cons_prefix_cons.mp hstart
          exact ⟨front, ih.mpr ⟨hfront, hbehind, fun i hi => hno (i + 1) (Nat.succ_lt_succ hi)⟩,
            rfl⟩

/-! ## Words -/

section
variable {sep : UInt8 → Bool}

/-- The parts of a text between separators. -/
def words (sep : UInt8 → Bool) (s : Bytes) : List Bytes := (s.splitOnP sep).filter fun w => w ≠ []

theorem words_nil : words sep [] = [] := rfl

theorem words_cons_sep {c : UInt8} (hc : sep c = true) (s : Bytes) :
    words sep (c :: s) = words sep s := by
  have hsplit : (c :: s).splitOnP sep = [] :: s.splitOnP sep :=
    List.splitOnP_append_cons_of_forall_mem (fun x hx => absurd hx List.not_mem_nil) c hc s
  rw [words, hsplit]
  exact List.filter_cons_of_neg (by decide)

theorem words_dropWhile (s : Bytes) : words sep (s.dropWhile sep) = words sep s := by
  induction s with
  | nil => rfl
  | cons c s ih =>
    cases hc : sep c with
    | true => rw [List.dropWhile_cons_of_pos hc, ih, words_cons_sep hc]
    | false => rw [List.dropWhile_cons_of_neg (by rw [hc]; decide)]

/-- The first word, and those behind the separator that ends it. -/
theorem words_cons {c : UInt8} (hc : sep c = false) (s : Bytes) :
    words sep (c :: s) = (c :: s.takeWhile fun b => !sep b) ::
      words sep ((s.dropWhile fun b => !sep b).drop 1) := by
  have hfree : ∀ b ∈ c :: s.takeWhile (fun b => !sep b), sep b = false := by
    intro b hb
    rcases List.mem_cons.mp hb with rfl | hb
    · exact hc
    · simpa using List.mem_takeWhile_imp hb
  have hsplit : c :: s = (c :: s.takeWhile fun b => !sep b) ++ s.dropWhile fun b => !sep b := by
    rw [List.cons_append, List.takeWhile_append_dropWhile]
  rw [words, hsplit]
  cases hrest : s.dropWhile fun b => !sep b with
  | nil =>
    rw [List.append_nil, List.splitOnP_eq_singleton hfree,
      List.filter_cons_of_pos (by simp)]
    rfl
  | cons b rest =>
    have hb : sep b = true := by
      have hhead := List.head?_dropWhile_not (fun b => !sep b) s
      rw [hrest] at hhead
      simpa using hhead
    rw [List.splitOnP_append_cons_of_forall_mem hfree b hb,
      List.filter_cons_of_pos (by simp), List.drop_one, List.tail_cons, words]

end

end UolaOs
