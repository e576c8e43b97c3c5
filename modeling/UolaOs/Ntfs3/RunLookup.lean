import UolaOs.Ntfs3.Run

/-!
# Looking up a cluster

* `Sorted`: runs in order and apart;
* `runLookup_spec`: the binary search finds the run of a cluster, or where to insert one;
* `runLookupEntry_spec`: the place that is found, and how far it goes on.
-/

namespace UolaOs.Ntfs3

namespace NtfsRun

/-- A run that is not empty and does not wrap. -/
structure Good (r : NtfsRun) : Prop where
  pos : 0 < r.len
  lt : r.vcn + r.len < 2 ^ 32
  lcn : r.lcn < 2 ^ 32

def Has (r : NtfsRun) (v : Nat) : Prop := r.vcn ≤ v ∧ v < r.vcn + r.len

instance (r : NtfsRun) (v : Nat) : Decidable (r.Has v) := inferInstanceAs (Decidable (_ ∧ _))

/-- The place of a cluster of the run, none when it is sparse. -/
def place (r : NtfsRun) (v : Nat) : Option Nat :=
  if r.lcn = sparseLcn then none else some (clstAdd r.lcn (v - r.vcn))

theorem Good.next {r : NtfsRun} (h : r.Good) : r.next = r.vcn + r.len :=
  Nat.mod_eq_of_lt h.lt

theorem lcnAt_eq (r : NtfsRun) (v : Nat) : r.lcnAt (v - r.vcn) = (r.place v).getD sparseLcn := by
  rw [lcnAt, place]
  split
  · rfl
  · rfl

end NtfsRun

theorem clstSub_eq {a b : Nat} (h : b ≤ a) (ha : a < 2 ^ 32) : clstSub a b = a - b := by
  rw [clstSub]
  omega

theorem clstAdd_eq {a b : Nat} (h : a + b < 2 ^ 32) : clstAdd a b = a + b :=
  Nat.mod_eq_of_lt h

theorem clstAdd_assoc (a b c : Nat) : clstAdd (clstAdd a b) c = clstAdd a (b + c) := by
  rw [clstAdd, clstAdd, clstAdd, Nat.mod_add_mod, Nat.add_assoc]

/-- The place of a cluster, none when it is not mapped. The first run that has it says where. -/
def place (run : List NtfsRun) (v : Nat) : Option (Option Nat) :=
  (run.find? fun r => r.Has v).map fun r => r.place v

structure Sorted (run : List NtfsRun) : Prop where
  good : ∀ r ∈ run, r.Good
  apart : run.Pairwise fun r s => r.vcn + r.len ≤ s.vcn

/-- The result of a lookup. -/
inductive Found (run : List NtfsRun) (v : Nat) : Bool × Nat → Prop
  | hit (pre post : List NtfsRun) (r : NtfsRun) (h : run = pre ++ r :: post) (hr : r.Has v) :
      Found run v (true, pre.length)
  | miss (pre post : List NtfsRun) (h : run = pre ++ post)
      (hpre : ∀ r ∈ pre, r.vcn + r.len ≤ v) (hpost : ∀ r ∈ post, v < r.vcn) :
      Found run v (false, pre.length)

section
variable {run a b : List NtfsRun} {r : NtfsRun} {v : Nat}

/-! ## Places -/

@[simp] theorem place_nil (v : Nat) : place [] v = none := rfl

theorem place_cons (r : NtfsRun) (run : List NtfsRun) (v : Nat) :
    place (r :: run) v = if r.Has v then some (r.place v) else place run v := by
  rw [place, List.find?_cons]
  by_cases h : r.Has v
  · rw [if_pos h, decide_eq_true h]
    rfl
  · rw [if_neg h, decide_eq_false h]
    rfl

theorem place_append (a b : List NtfsRun) (v : Nat) :
    place (a ++ b) v = (place a v).or (place b v) := by
  induction a with
  | nil => rfl
  | cons r a ih =>
    rw [List.cons_append, place_cons, place_cons, ih]
    split
    · rfl
    · rfl

theorem place_eq_none (h : ∀ r ∈ run, ¬ r.Has v) : place run v = none := by
  induction run with
  | nil => rfl
  | cons r run ih =>
    rw [place_cons, if_neg (h r List.mem_cons_self)]
    exact ih fun s hs => h s (List.mem_cons_of_mem r hs)

/-- Runs that agree where another one does not come first. -/
theorem place_append_congr (h : place a v = none → place b v = place run v) :
    place (a ++ b) v = place (a ++ run) v := by
  rw [place_append, place_append]
  cases ha : place a v with
  | none => exact h ha
  | some p => rfl

/-! ## Runs in order -/

theorem sorted_append : Sorted (a ++ b) ↔
    Sorted a ∧ Sorted b ∧ ∀ r ∈ a, ∀ s ∈ b, r.vcn + r.len ≤ s.vcn := by
  constructor
  · rintro ⟨hgood, hapart⟩
    obtain ⟨ha, hb, hab⟩ := List.pairwise_append.mp hapart
    exact ⟨⟨fun r hr => hgood r (List.mem_append_left b hr), ha⟩,
      ⟨fun r hr => hgood r (List.mem_append_right a hr), hb⟩, hab⟩
  · rintro ⟨⟨hga, ha⟩, ⟨hgb, hb⟩, hab⟩
    refine ⟨fun r hr => ?_, List.pairwise_append.mpr ⟨ha, hb, hab⟩⟩
    rcases List.mem_append.mp hr with hr | hr
    · exact hga r hr
    · exact hgb r hr

theorem sorted_cons : Sorted (r :: run) ↔
    r.Good ∧ Sorted run ∧ ∀ s ∈ run, r.vcn + r.len ≤ s.vcn := by
  constructor
  · rintro ⟨hgood, hapart⟩
    obtain ⟨hr, hrun⟩ := List.pairwise_cons.mp hapart
    exact ⟨hgood r List.mem_cons_self, ⟨fun s hs => hgood s (List.mem_cons_of_mem r hs), hrun⟩, hr⟩
  · rintro ⟨hr, ⟨hgood, hapart⟩, hle⟩
    refine ⟨fun s hs => ?_, List.pairwise_cons.mpr ⟨hle, hapart⟩⟩
    rcases List.mem_cons.mp hs with rfl | hs
    · exact hr
    · exact hgood s hs

theorem sorted_nil : Sorted [] := ⟨fun _ h => (List.not_mem_nil h).elim, .nil⟩

theorem place_eq_of_mem (h : Sorted (a ++ r :: b)) (hv : r.Has v) :
    place (a ++ r :: b) v = some (r.place v) := by
  obtain ⟨-, -, hab⟩ := sorted_append.mp h
  have hnone : place a v = none := by
    apply place_eq_none
    rintro s hs ⟨-, hlt⟩
    have hle := hab s hs r List.mem_cons_self
    have hle' := hv.1
    omega
  rw [place_append, hnone, place_cons, if_pos hv]
  rfl

/-! ## The search -/

theorem getD_eq {i : Nat} (h : i < run.length) : run.getD i ⟨0, 0, 0⟩ = run[i] := by
  rw [List.getD_eq_getElem?_getD, List.getElem?_eq_getElem h, Option.getD_some]

theorem Sorted.getElem_le (hs : Sorted run) {i j : Nat} (hi : i < run.length)
    (hj : j < run.length) (hij : i < j) : run[i].vcn + run[i].len ≤ run[j].vcn :=
  List.pairwise_iff_getElem.mp hs.apart i j hi hj hij

theorem found_hit {k : Nat} (hk : k < run.length) (hr : run[k].Has v) : Found run v (true, k) := by
  have hsplit : run = run.take k ++ run[k] :: run.drop (k + 1) := by
    rw [← List.drop_eq_getElem_cons hk, List.take_append_drop]
  have hlen : (run.take k).length = k := List.length_take_of_le (Nat.le_of_lt hk)
  have h := Found.hit (run.take k) (run.drop (k + 1)) run[k] hsplit hr
  rwa [hlen] at h

theorem found_miss {k : Nat} (hk : k ≤ run.length)
    (hpre : ∀ i (hi : i < run.length), i < k → run[i].vcn + run[i].len ≤ v)
    (hpost : ∀ i (hi : i < run.length), k ≤ i → v < run[i].vcn) : Found run v (false, k) := by
  have hlen : (run.take k).length = k := List.length_take_of_le hk
  have h := Found.miss (v := v) (run.take k) (run.drop k) (List.take_append_drop k run).symm
    (fun r hr => ?_) (fun r hr => ?_)
  · rwa [hlen] at h
  · obtain ⟨i, hi, rfl⟩ := List.getElem_of_mem hr
    rw [hlen] at hi
    rw [List.getElem_take]
    exact hpre i (by omega) hi
  · obtain ⟨i, hi, rfl⟩ := List.getElem_of_mem hr
    rw [List.length_drop] at hi
    rw [List.getElem_drop]
    exact hpost (k + i) (by omega) (Nat.le_add_right k i)

theorem lookupRounds_spec (hs : Sorted run) {fuel minIdx maxIdx : Nat} (hle : minIdx ≤ maxIdx)
    (hmax : maxIdx < run.length) (hfuel : maxIdx - minIdx < fuel)
    (hpre : ∀ i (hi : i < run.length), i < minIdx → run[i].vcn + run[i].len ≤ v)
    (hpost : ∀ i (hi : i < run.length), maxIdx < i → v < run[i].vcn) :
    Found run v (lookupRounds run v fuel minIdx maxIdx) := by
  induction fuel generalizing minIdx maxIdx with
  | zero => omega
  | succ fuel ih =>
    rw [lookupRounds]
    generalize hmid : minIdx + (maxIdx - minIdx) / 2 = mid
    have hlt : mid < run.length := by omega
    rw [getD_eq hlt, (hs.good _ (List.getElem_mem hlt)).next]
    have hpos := (hs.good _ (List.getElem_mem hlt)).pos
    split
    · rename_i hbefore
      have hafter : ∀ i (hi : i < run.length), mid ≤ i → v < run[i].vcn := by
        intro i hi hmi
        rcases Nat.eq_or_lt_of_le hmi with rfl | hmi
        · exact hbefore
        · have happart := hs.getElem_le hlt hi hmi
          omega
      split
      · rename_i hzero
        subst hzero
        exact found_miss (Nat.zero_le _) (fun i _ hi => absurd hi (Nat.not_lt_zero i)) hafter
      · split
        · rename_i hne hmin
          exact ih hmin (by omega) (by omega) hpre fun i hi hmi => hafter i hi (by omega)
        · exact found_miss (Nat.le_of_lt hlt) (fun i hi hik => hpre i hi (by omega)) hafter
    · rename_i hnot
      split
      · rename_i hend
        have hearlier : ∀ i (hi : i < run.length), i < mid + 1 → run[i].vcn + run[i].len ≤ v := by
          intro i hi him
          rcases Nat.lt_succ_iff_lt_or_eq.mp him with him | rfl
          · have happart := hs.getElem_le hi hlt him
            omega
          · exact hend
        split
        · rename_i hmore
          exact ih hmore hmax (by omega) hearlier hpost
        · exact found_miss (by omega) (fun i hi hik => hearlier i hi (by omega))
            fun i hi hik => hpost i hi (by omega)
      · rename_i hend
        exact found_hit hlt ⟨Nat.le_of_not_lt hnot, Nat.lt_of_not_le hend⟩

/-- **Lookup.** The binary search finds the run of a cluster, or where to insert one. -/
theorem runLookup_spec (hs : Sorted run) (v : Nat) : Found run v (runLookup run v) := by
  rw [runLookup]
  split
  · rename_i hnil
    subst hnil
    exact .miss [] [] rfl (fun r hr => (List.not_mem_nil hr).elim)
      fun r hr => (List.not_mem_nil hr).elim
  · rename_i hne
    have hpos := List.length_pos_of_ne_nil hne
    have hlast : run.length - 1 < run.length := by omega
    dsimp only
    rw [getD_eq hpos, getD_eq hlast, (hs.good _ (List.getElem_mem hpos)).next,
      (hs.good _ (List.getElem_mem hlast)).next]
    split
    · rename_i hbefore
      refine found_miss (Nat.zero_le _) (fun i _ hi => absurd hi (Nat.not_lt_zero i)) ?_
      intro i hi _
      rcases Nat.eq_zero_or_pos i with rfl | hi0
      · exact hbefore
      · have happart := hs.getElem_le hpos hi hi0
        omega
    · rename_i hnot
      split
      · rename_i hin
        exact found_hit hpos ⟨Nat.le_of_not_lt hnot, hin⟩
      · split
        · rename_i hend
          refine found_miss (Nat.le_refl _) (fun i hi _ => ?_) fun i hi hle => by omega
          rcases Nat.eq_or_lt_of_le (Nat.le_sub_one_of_lt hi) with rfl | hlt
          · exact hend
          · have happart := hs.getElem_le hi hlast hlt
            have hgood := (hs.good _ (List.getElem_mem hlast)).pos
            omega
        · rename_i hend
          split
          · rename_i hin
            exact found_hit hlast ⟨hin, Nat.lt_of_not_le hend⟩
          · exact lookupRounds_spec hs (Nat.zero_le _) hlast (by omega)
              (fun i _ hi => absurd hi (Nat.not_lt_zero i)) fun i hi hlt => by omega

theorem found_iff {i : Nat} (hs : Sorted run) (h : Found run v (true, i)) :
    ∃ r, ∃ hi : i < run.length, run[i] = r ∧ r.Has v ∧ r.Good ∧ place run v = some (r.place v) := by
  cases h with
  | hit pre post r h hr =>
    subst h
    have hi : pre.length < (pre ++ r :: post).length := by
      rw [List.length_append, List.length_cons]
      omega
    refine ⟨r, hi, ?_, hr, ?_, place_eq_of_mem hs hr⟩
    · rw [List.getElem_append_right (Nat.le_refl _)]
      simp only [Nat.sub_self, List.getElem_cons_zero]
    · exact hs.good r (List.mem_append_right pre List.mem_cons_self)

theorem found_none {i : Nat} (h : Found run v (false, i)) : place run v = none := by
  cases h with
  | miss pre post h hpre hpost =>
    subst h
    apply place_eq_none
    rintro r hr ⟨hle, hlt⟩
    rcases List.mem_append.mp hr with hr | hr
    · have hend := hpre r hr
      omega
    · have hafter := hpost r hr
      omega

/-- The entry of a cluster has its place, and goes on from there for as long as the entry says. -/
theorem runLookupEntry_spec (hs : Sorted run) (v : Nat) :
    (place run v = none ∧ runLookupEntry run v = none) ∨
      ∃ c n i, place run v = some c ∧ runLookupEntry run v = some (c.getD sparseLcn, n, i) ∧
        0 < n ∧ ∀ k, k < n → place run (v + k) = some (c.map fun c => clstAdd c k) := by
  have hfound := runLookup_spec hs v
  rw [runLookupEntry]
  rcases hlook : runLookup run v with ⟨_ | _, i⟩
  · rw [hlook] at hfound
    exact .inl ⟨found_none hfound, rfl⟩
  · rw [hlook] at hfound
    obtain ⟨r, hi, hget, hhas, hgood, hplace⟩ := found_iff hs hfound
    have hlt := hgood.lt
    have hhas' := hhas
    obtain ⟨hle, hend⟩ := hhas
    have hgap : clstSub v r.vcn = v - r.vcn := clstSub_eq hle (by omega)
    refine .inr ⟨r.place v, r.vcn + r.len - v, i, hplace, ?_, by omega, fun k hk => ?_⟩
    · simp only [if_true, getD_eq hi, hget, hgood.next, hgap]
      have hrest : r.len - (v - r.vcn) = r.vcn + r.len - v := by omega
      rw [if_neg (by omega), if_neg (by omega), r.lcnAt_eq, clstSub_eq (by omega) (by omega), hrest]
    · obtain ⟨s, t, rfl⟩ := List.append_of_mem (hget ▸ List.getElem_mem hi)
      rw [place_eq_of_mem hs (v := v + k) ⟨by omega, by omega⟩, NtfsRun.place, NtfsRun.place]
      split
      · rfl
      · rw [Option.map_some, clstAdd_assoc]
        congr 3
        omega

end

end UolaOs.Ntfs3
