import Mathlib.Data.List.TakeWhile
import UolaOs.Lib.Bytes

/-!
# C strings

`CStr` is a string without a zero byte; `readCStr` reads one from memory and
`CStr.splitAt` cuts it at the first occurrence of a character.
-/

namespace UolaOs

/-- The bytes of a C string, without the terminator. -/
@[ext] structure CStr where
  bytes : Bytes
  nulFree : 0 ∉ bytes
  deriving DecidableEq

/-- The bytes of an ASCII text. -/
def ascii (s : String) : Bytes := s.toList.map fun c => UInt8.ofNat c.toNat

namespace CStr

/-- The string that starts here. -/
def ofBytes (bs : Bytes) : CStr :=
  ⟨bs.takeWhile (· != 0), fun h => by simpa using List.mem_takeWhile_imp h⟩

theorem ofBytes_bytes (s : CStr) : ofBytes s.bytes = s := by
  apply CStr.ext
  rw [ofBytes, List.takeWhile_eq_self_iff]
  intro b hb
  simp only [bne_iff_ne, ne_eq]
  rintro rfl
  exact s.nulFree hb

def empty : CStr := ⟨[], by simp⟩

def cons (b : UInt8) (s : CStr) (h : b ≠ 0) : CStr :=
  ⟨b :: s.bytes, by simp [s.nulFree, Ne.symm h]⟩

def length (s : CStr) : Nat := s.bytes.length

/-- The string as it lies in memory. -/
def stored (s : CStr) : Bytes := s.bytes ++ [0]

@[simp] theorem length_stored (s : CStr) : s.stored.length = s.length + 1 := by
  simp [stored, length]

/-- The parts before and after the first `c`, as `strchr` finds it. -/
def splitAt (c : UInt8) (s : CStr) : Option (CStr × CStr) :=
  if c ∈ s.bytes then
    some (⟨s.bytes.takeWhile (· != c), fun h => s.nulFree ((List.takeWhile_prefix _).subset h)⟩,
      ⟨(s.bytes.dropWhile (· != c)).tail,
        fun h => s.nulFree ((List.dropWhile_suffix _).subset (List.mem_of_mem_tail h))⟩)
  else none

theorem splitAt_append {c : UInt8} {s a b : CStr} (hs : s.bytes = a.bytes ++ c :: b.bytes)
    (ha : c ∉ a.bytes) : s.splitAt c = some (a, b) := by
  have hc : c ∈ s.bytes := by simp [hs]
  have keep : ∀ x ∈ a.bytes, (x != c) = true := by
    intro x hx
    simp only [bne_iff_ne, ne_eq]
    rintro rfl
    exact ha hx
  rw [splitAt, if_pos hc]
  congr 1
  apply Prod.ext <;> apply CStr.ext <;>
    simp [hs, List.takeWhile_append_of_pos keep, List.dropWhile_append_of_pos keep]

theorem splitAt_spec {c : UInt8} {s a b : CStr} (h : s.splitAt c = some (a, b)) :
    s.bytes = a.bytes ++ c :: b.bytes ∧ c ∉ a.bytes := by
  unfold splitAt at h
  split at h
  · rename_i hc
    obtain ⟨pre, post, hs, hpre⟩ := List.eq_append_cons_of_mem hc
    have hpre' : ∀ x ∈ pre, (x != c) = true := by
      intro x hx
      simp only [bne_iff_ne, ne_eq]
      rintro rfl
      exact hpre hx
    simp only [hs, List.takeWhile_append_of_pos hpre', List.dropWhile_append_of_pos hpre',
      bne_self_eq_false, Bool.false_eq_true, not_false_eq_true, List.takeWhile_cons_of_neg,
      List.dropWhile_cons_of_neg, List.append_nil, List.tail_cons, Option.some.injEq,
      Prod.mk.injEq] at h
    obtain ⟨rfl, rfl⟩ := h
    exact ⟨hs, hpre⟩
  · cases h

end CStr

/-- Read the string at the start of `m`; `none` when no terminator follows. -/
def readCStr : Bytes → Option (CStr × Bytes)
  | [] => none
  | b :: m =>
    if h : b = 0 then some (CStr.empty, m)
    else (readCStr m).map fun p => (p.1.cons b h, p.2)

theorem readCStr_stored (s : CStr) (m : Bytes) : readCStr (s.stored ++ m) = some (s, m) := by
  obtain ⟨bs, hbs⟩ := s
  induction bs with
  | nil => simp [CStr.stored, readCStr, CStr.empty]
  | cons b bs ih =>
    have hb : b ≠ 0 := fun h => hbs (by simp [h])
    have ih' := ih (fun h => hbs (List.mem_cons_of_mem b h))
    simp only [CStr.stored, List.append_assoc, List.cons_append, List.nil_append] at ih' ⊢
    simp [readCStr, hb, ih', CStr.cons]

theorem readCStr_spec {m rest : Bytes} {s : CStr} (h : readCStr m = some (s, rest)) :
    m = s.stored ++ rest := by
  induction m generalizing s rest with
  | nil => simp [readCStr] at h
  | cons b m ih =>
    unfold readCStr at h
    split at h
    · rename_i hb
      obtain ⟨rfl, rfl⟩ := by simpa using h
      simp [CStr.stored, CStr.empty, hb]
    · obtain ⟨⟨s', rest'⟩, hs', heq⟩ := Option.map_eq_some_iff.mp h
      obtain ⟨rfl, rfl⟩ := Prod.mk.injEq .. ▸ heq
      simp [CStr.stored, CStr.cons, ih hs']

end UolaOs
