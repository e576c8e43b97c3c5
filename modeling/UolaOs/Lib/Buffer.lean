import UolaOs.Lib.Bytes

/-!
# Programs that work on a buffer

`store` and `fetch` are accesses to a buffer that fail outside of it. `Safe` is partial correctness
of a program that may end with some of its errors; its rules follow the program.
-/

namespace UolaOs

section
variable {ε α β σ ι : Type} {allowed : ε → Prop} {x : Except ε α} {post : α → Prop}

/-- If the program goes on, `post` holds; otherwise it ends with an error that is allowed. -/
def Safe (allowed : ε → Prop) (x : Except ε α) (post : α → Prop) : Prop :=
  match x with
  | .ok a => post a
  | .error e => allowed e

theorem Safe.ok {a : α} (h : post a) : Safe allowed (.ok a) post := h

theorem Safe.error {e : ε} (h : allowed e) : Safe allowed (.error e : Except ε α) post := h

theorem ok_bind (a : α) (f : α → Except ε β) : (Except.ok a >>= f) = f a := rfl

/-- What the parts of a program that goes on have returned. -/
theorem bind_eq_ok {f : α → Except ε β} {b : β} :
    (x >>= f) = .ok b ↔ ∃ a, x = .ok a ∧ f a = .ok b := by
  cases x with
  | error e =>
    constructor
    · intro h
      cases h
    · rintro ⟨_, h, _⟩
      cases h
  | ok a =>
    constructor
    · intro h
      exact ⟨a, rfl, h⟩
    · rintro ⟨_, h, hf⟩
      cases h
      exact hf

theorem map_eq_ok {f : α → β} {b : β} : x.map f = .ok b ↔ ∃ a, x = .ok a ∧ f a = b := by
  cases x with
  | error e =>
    constructor
    · intro h
      cases h
    · rintro ⟨_, h, _⟩
      cases h
  | ok a =>
    constructor
    · intro h
      exact ⟨a, rfl, Except.ok.inj h⟩
    · rintro ⟨_, h, rfl⟩
      cases h
      rfl

theorem Safe.bind {f : α → Except ε β} {post' : β → Prop} (hx : Safe allowed x post)
    (hf : ∀ a, post a → Safe allowed (f a) post') : Safe allowed (x >>= f) post' := by
  cases x with
  | error e => exact hx
  | ok a => exact hf a hx

theorem Safe.mono {post' : α → Prop} (hx : Safe allowed x post) (h : ∀ a, post a → post' a) :
    Safe allowed x post' := by
  cases x with
  | error e => exact hx
  | ok a => exact h a hx

theorem Safe.weaken {allowed' : ε → Prop} (hx : Safe allowed x post)
    (h : ∀ e, allowed e → allowed' e) : Safe allowed' x post := by
  cases x with
  | error e => exact h e hx
  | ok a => exact hx

/-- A loop that may leave with an error; what holds depends on the rest of the list. -/
theorem Safe.foldlM {f : σ → ι → Except ε σ} {inv : List ι → σ → Prop} {is : List ι} {s : σ}
    (hs : inv is s) (hf : ∀ i is s, inv (i :: is) s → Safe allowed (f s i) (inv is)) :
    Safe allowed (is.foldlM f s) (inv []) := by
  induction is generalizing s with
  | nil => exact hs
  | cons i is ih =>
    rw [List.foldlM_cons]
    exact (hf i is s hs).bind fun t ht => ih ht

theorem Safe.of_ok {a : α} (hx : Safe allowed x post) (h : x = .ok a) : post a := by
  rw [h] at hx
  exact hx

theorem Safe.of_error {e : ε} (hx : Safe allowed x post) (h : x = .error e) : allowed e := by
  rw [h] at hx
  exact hx

theorem Safe.exists_ok (hx : Safe allowed x post) (h : ∀ e, ¬ allowed e) :
    ∃ a, x = .ok a ∧ post a := by
  cases x with
  | error e => exact absurd hx (h e)
  | ok a => exact ⟨a, rfl, hx⟩

theorem Safe.ne_error {e : ε} (hx : Safe allowed x post) (h : ¬ allowed e) : x ≠ .error e :=
  fun hx' => h (hx.of_error hx')

-- a proof about a program goes by the rules, not by running it
attribute [irreducible] Safe

end

/-! ## Accesses -/

section
variable {ε : Type} {allowed : ε → Prop} {fault : ε} {m bs : Bytes} {off n : Nat}

/-- Write `bs` at `off`. -/
def store (fault : ε) (m : Bytes) (off : Nat) (bs : Bytes) : Except ε Bytes :=
  if bs = [] then .ok m
  else if off + bs.length ≤ m.length then .ok (poke m off bs)
  else .error fault

/-- Read `n` bytes at `off`. -/
def fetch (fault : ε) (m : Bytes) (off n : Nat) : Except ε Bytes :=
  if n = 0 then .ok []
  else if off + n ≤ m.length then .ok (load m off n)
  else .error fault

theorem poke_nil (m : Bytes) (off : Nat) : poke m off [] = m := by
  rw [poke]
  simp

theorem store_eq (h : off + bs.length ≤ m.length) : store fault m off bs = .ok (poke m off bs) := by
  by_cases hnil : bs = []
  · rw [store, if_pos hnil, hnil, poke_nil]
  · rw [store, if_neg hnil, if_pos h]

/-- A write may fail where it does not fit. -/
theorem Safe.store {post : Bytes → Prop} (hoff : off ≤ m.length)
    (hok : off + bs.length ≤ m.length → post (poke m off bs))
    (hfault : m.length < off + bs.length → allowed fault) :
    Safe allowed (store fault m off bs) post := by
  by_cases h : off + bs.length ≤ m.length
  · rw [store_eq h]
    exact .ok (hok h)
  · have hnil : bs ≠ [] := by
      rintro rfl
      exact h hoff
    rw [UolaOs.store, if_neg hnil, if_neg h]
    exact .error (hfault (Nat.lt_of_not_le h))

theorem fetch_eq (h : off + n ≤ m.length) : fetch fault m off n = .ok (load m off n) := by
  by_cases hn : n = 0
  · rw [fetch, if_pos hn, hn, load, List.take_zero]
  · rw [fetch, if_neg hn, if_pos h]

theorem fetch_eq_ok (hn : 0 < n) : fetch fault m off n = .ok bs ↔
    off + n ≤ m.length ∧ load m off n = bs := by
  rw [fetch, if_neg (Nat.ne_of_gt hn)]
  by_cases h : off + n ≤ m.length
  · rw [if_pos h]
    exact ⟨fun heq => ⟨h, Except.ok.inj heq⟩, fun heq => congrArg _ heq.2⟩
  · rw [if_neg h]
    exact ⟨(fun heq => by cases heq), fun heq => absurd heq.1 h⟩

theorem store_eq_ok {m' : Bytes} (hbs : 0 < bs.length) : store fault m off bs = .ok m' ↔
    off + bs.length ≤ m.length ∧ poke m off bs = m' := by
  have hnil : bs ≠ [] := List.length_pos_iff.mp hbs
  rw [store, if_neg hnil]
  by_cases h : off + bs.length ≤ m.length
  · rw [if_pos h]
    exact ⟨fun heq => ⟨h, Except.ok.inj heq⟩, fun heq => congrArg _ heq.2⟩
  · rw [if_neg h]
    exact ⟨(fun heq => by cases heq), fun heq => absurd heq.1 h⟩

end

end UolaOs
