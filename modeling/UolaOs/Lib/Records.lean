import UolaOs.Lib.Bytes

/-!
# Structs and padded records

* `Endian.putAll`: a C struct as its fields in order, each a width and a value;
* `drop_flatMap`: an array of structs, from one of them on;
* `padTo`: a record filled up with `0xff` to an alignment;
* `splitRecords`: the records of an area, from the front, until only `0xff` is left;
* `splitRecords_packed`: what was laid out by `padTo` is split back.
-/

namespace UolaOs

/-! ## Structs -/

/-- The fields of a struct in memory. -/
def Endian.putAll (e : Endian) (fields : List (Nat × Nat)) : Bytes :=
  fields.flatMap fun f => e.put f.1 f.2

/-- The bytes the fields take. -/
def width (fields : List (Nat × Nat)) : Nat := (fields.map Prod.fst).sum

section
variable (e : Endian) (fields : List (Nat × Nat))

@[simp] theorem Endian.putAll_nil : e.putAll [] = [] := rfl

@[simp] theorem Endian.putAll_cons (f : Nat × Nat) :
    e.putAll (f :: fields) = e.put f.1 f.2 ++ e.putAll fields := rfl

theorem Endian.putAll_append (more : List (Nat × Nat)) :
    e.putAll (fields ++ more) = e.putAll fields ++ e.putAll more := List.flatMap_append

@[simp] theorem Endian.length_putAll : (e.putAll fields).length = width fields := by
  induction fields with
  | nil => rfl
  | cons f fields ih => simp [width, ih]

theorem Endian.take_putAll (more : List (Nat × Nat)) (rest : Bytes) :
    (e.putAll (fields ++ more) ++ rest).take (width fields) = e.putAll fields := by
  rw [e.putAll_append, List.append_assoc, List.take_left' (by simp)]

/-- Field `i` is read back behind the fields before it. -/
theorem Endian.get_field {widths : List Nat} (hw : fields.map Prod.fst = widths) {i k n : Nat}
    (h : fields[i]? = some (k, n)) (rest : Bytes) :
    e.get (load (e.putAll fields ++ rest) (widths.take i).sum k) = n % 256 ^ k := by
  obtain ⟨hi, hget⟩ := List.getElem?_eq_some_iff.mp h
  have hsplit : fields = fields.take i ++ (k, n) :: fields.drop (i + 1) := by
    rw [← hget, List.getElem_cons_drop, List.take_append_drop]
  have hoff : (e.putAll (fields.take i)).length = (widths.take i).sum := by
    rw [e.length_putAll, width, ← hw, List.map_take]
  rw [← hoff]
  conv_lhs =>
    enter [2, 1]
    rw [hsplit, e.putAll_append, List.append_assoc]
  rw [load_append_right rfl, e.putAll_cons, List.append_assoc, List.take_left' (by simp), e.get_put]

end

/-! ## Arrays of structs -/

/-- An array in memory from its element `i` on. -/
theorem drop_flatMap {α : Type} {f : α → Bytes} {n : Nat} (hf : ∀ x, (f x).length = n) {xs : List α}
    {i : Nat} {x : α} (h : xs[i]? = some x) (rest : Bytes) :
    ∃ after, (xs.flatMap f ++ rest).drop (n * i) = f x ++ after := by
  induction xs generalizing i with
  | nil => cases h
  | cons y xs ih =>
    rw [List.flatMap_cons, List.append_assoc]
    cases i with
    | zero =>
      obtain rfl : y = x := Option.some.inj h
      exact ⟨_, rfl⟩
    | succ i =>
      obtain ⟨after, hafter⟩ := ih h
      refine ⟨after, ?_⟩
      rw [Nat.mul_succ, Nat.add_comm, ← List.drop_drop, List.drop_left' (hf y), hafter]

/-! ## Padded records -/

/-- `m` filled up to a multiple of `a`. -/
def padTo (a : Nat) (m : Bytes) : Bytes :=
  m ++ List.replicate (roundUp m.length a - m.length) 0xff

/-- Nothing but erased bytes. -/
def blank (m : Bytes) : Bool := m.all (· == 0xff)

@[simp] theorem blank_replicate (k : Nat) : blank (List.replicate k 0xff) = true := by
  simp [blank]

/-- The records at the front of `m`, where `size` tells the size of the record an area starts
with; `none` when the area holds something else. -/
def splitRecords (a : Nat) (size : Bytes → Option Nat) : Nat → Bytes → Option (List Bytes)
  | 0, m => if blank m then some [] else none
  | fuel + 1, m =>
    if blank m then some []
    else match size m with
      | none => none
      | some n =>
        if n = 0 ∨ m.length < roundUp n a ∨ ¬ blank (load m n (roundUp n a - n)) then none
        else (splitRecords a size fuel (m.drop (roundUp n a))).map (m.take n :: ·)

/-- `n` is a record by itself, whatever follows it, and does not look erased. -/
structure IsRecord (size : Bytes → Option Nat) (n : Bytes) : Prop where
  written : ∃ b t, n = b :: t ∧ b ≠ 0xff
  size_eq : ∀ rest, size (n ++ rest) = some n.length

section
variable {a : Nat} {size : Bytes → Option Nat}

theorem length_padTo (ha : 0 < a) (m : Bytes) : (padTo a m).length = roundUp m.length a := by
  have := le_roundUp m.length ha
  simp only [padTo, List.length_append, List.length_replicate]
  omega

theorem splitRecords_blank (fuel k : Nat) :
    splitRecords a size fuel (List.replicate k 0xff) = some [] := by
  cases fuel <;> simp [splitRecords]

theorem splitRecords_cons (ha : 0 < a) {n : Bytes} (hn : IsRecord size n) (fuel : Nat)
    (rest : Bytes) :
    splitRecords a size (fuel + 1) (padTo a n ++ rest) =
      (splitRecords a size fuel rest).map (n :: ·) := by
  obtain ⟨⟨b, t, rfl, hb⟩, hsize⟩ := hn
  have written : blank (padTo a (b :: t) ++ rest) = false := by simp [blank, padTo, hb]
  have hle := le_roundUp (b :: t).length ha
  have hlen := length_padTo ha (b :: t)
  have hpad : load (padTo a (b :: t) ++ rest) (b :: t).length
      (roundUp (b :: t).length a - (b :: t).length) =
        List.replicate (roundUp (b :: t).length a - (b :: t).length) 0xff := by
    rw [padTo, List.append_assoc, load_append_right rfl, List.take_left' (by simp)]
  have htake : (padTo a (b :: t) ++ rest).take (b :: t).length = b :: t := by
    rw [padTo, List.append_assoc, List.take_left]
  have hsome : size (padTo a (b :: t) ++ rest) = some (b :: t).length := by
    rw [padTo, List.append_assoc]
    exact hsize _
  have fits : ¬ ((b :: t).length = 0 ∨
      (padTo a (b :: t) ++ rest).length < roundUp (b :: t).length a ∨
      ¬ blank (load (padTo a (b :: t) ++ rest) (b :: t).length
        (roundUp (b :: t).length a - (b :: t).length)) = true) := by
    rw [hpad, blank_replicate, List.length_append, hlen]
    simp
  rw [splitRecords, written, hsome]
  simp only [Bool.false_eq_true, if_false]
  rw [if_neg fits, htake, List.drop_left' hlen]

/-- **Split.** Records laid out with their padding, and then erased bytes, are found again. -/
theorem splitRecords_packed (ha : 0 < a) {ns : List Bytes} (hns : ∀ n ∈ ns, IsRecord size n)
    (k : Nat) {fuel : Nat} (hf : ns.length ≤ fuel) :
    splitRecords a size fuel (ns.flatMap (padTo a) ++ List.replicate k 0xff) = some ns := by
  induction ns generalizing fuel with
  | nil => exact splitRecords_blank fuel k
  | cons n ns ih =>
    obtain ⟨fuel, rfl⟩ : ∃ f, fuel = f + 1 := ⟨fuel - 1, by
      rw [List.length_cons] at hf
      omega⟩
    rw [List.flatMap_cons, List.append_assoc, splitRecords_cons ha (hns n (by simp)),
      ih (fun x hx => hns x (by simp [hx])) (by simpa using hf)]
    rfl

end

end UolaOs
