import Mathlib.Order.Lattice

/-!
# What comes first, and else a key

A relation puts some things before others, and a key orders the rest.

* `Before`: the order, which need not be transitive;
* `before_trans_iff`: it is, when nothing that is related to neither lies between two things that
  the relation turns round.
-/

namespace UolaOs

section
variable {α κ : Type} [LinearOrder κ] (after : α → α → Prop) (key : α → κ)

/-- `b` comes after `a`, or nothing is said and `a` has the smaller key. -/
def Before (a b : α) : Prop := after b a ∨ ¬ after a b ∧ key a < key b

/-- Something is said about two things. -/
def Related (a b : α) : Prop := after a b ∨ after b a

/-- What lies between two things by its key is related to one of them, when the first comes after
the last. -/
def Separate (s : Set α) : Prop :=
  ∀ a ∈ s, ∀ b ∈ s, ∀ c ∈ s, after a c → key a < key b → key b < key c →
    Related after a b ∨ Related after b c

variable {after : α → α → Prop} {key : α → κ} {s : Set α}

/-- **When the order is transitive.** -/
theorem before_trans_iff (htrans : ∀ a b c, after a b → after b c → after a c)
    (hirrefl : ∀ a ∈ s, ¬ after a a) (hkey : ∀ a ∈ s, ∀ b ∈ s, key a = key b → a = b) :
    (∀ a ∈ s, ∀ b ∈ s, ∀ c ∈ s, Before after key a b → Before after key b c →
      Before after key a c) ↔ Separate after key s := by
  constructor
  · intro h a ha b hb c hc hac hab hbc
    by_contra hno
    rw [not_or, Related, Related, not_or, not_or] at hno
    rcases h a ha b hb c hc (.inr ⟨hno.1.1, hab⟩) (.inr ⟨hno.2.1, hbc⟩) with hca | ⟨hnot, -⟩
    · exact hirrefl a ha (htrans a c a hac hca)
    · exact hnot hac
  · intro h a ha b hb c hc hab hbc
    by_cases hca : after c a
    · exact .inl hca
    -- two things with the same key are one
    have hlt (hne : a ≠ c) (hno : ¬ key c < key a) : key a < key c :=
      lt_of_le_of_ne (not_lt.mp hno) fun heq => hne (hkey a ha c hc heq)
    rcases hab with hba | ⟨hnab, hab⟩
    · rcases hbc with hcb | ⟨hnbc, hbc⟩
      · exact absurd (htrans c b a hcb hba) hca
      · refine .inr ⟨fun hac => hnbc (htrans b a c hba hac), hlt ?_ fun hlow => ?_⟩
        · rintro rfl
          exact hnbc hba
        · rcases h b hb c hc a ha hba hbc hlow with (hbc' | hcb) | (hca' | hac)
          · exact hnbc hbc'
          · exact hca (htrans c b a hcb hba)
          · exact hca hca'
          · exact hnbc (htrans b a c hba hac)
    · rcases hbc with hcb | ⟨hnbc, hbc⟩
      · refine .inr ⟨fun hac => hnab (htrans a c b hac hcb), hlt ?_ fun hlow => ?_⟩
        · rintro rfl
          exact hnab hcb
        · rcases h c hc a ha b hb hcb hlow hab with (hca' | hac) | (hab' | hba)
          · exact hca hca'
          · exact hnab (htrans a c b hac hcb)
          · exact hnab hab'
          · exact hca (htrans c b a hcb hba)
      · refine .inr ⟨fun hac => ?_, hab.trans hbc⟩
        rcases h a ha b hb c hc hac hab hbc with (hab' | hba) | (hbc' | hcb)
        · exact hnab hab'
        · exact hnbc (htrans b a c hba hac)
        · exact hnbc hbc'
        · exact hnab (htrans a c b hac hcb)

end

end UolaOs
