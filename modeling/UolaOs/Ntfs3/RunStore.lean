import UolaOs.Ntfs3.RunAdd

/-!
# The tree of runs as a store

* `runTruncate_spec`, `runTruncateHead_spec`, `runCollapseRange_spec`: what each of them does to the
  places;
* `runIsMappedFull_iff`: the test for a range;
* `store_spec`: after any calls, a lookup says what the calls have left.
-/

namespace UolaOs.Ntfs3

section
variable {run a b pre post rest : List NtfsRun} {r : NtfsRun} {u v vcn len : Nat}

/-! ## Parts of a tree -/

theorem Sorted.sublist (hs : Sorted b) (h : a.Sublist b) : Sorted a :=
  ⟨fun r hr => hs.good r (h.subset hr), hs.apart.sublist h⟩

theorem place_left (h : ∀ s ∈ b, v < s.vcn) : place (a ++ b) v = place a v := by
  have hnone : place b v = none := place_eq_none fun s hs hhas => by
    have hlt := h s hs
    have hle := hhas.1
    omega
  rw [place_append, hnone, Option.or_none]

theorem place_right (h : ∀ p ∈ a, p.vcn + p.len ≤ v) : place (a ++ b) v = place b v := by
  have hnone : place a v = none := place_eq_none fun p hp hhas => by
    have hle := h p hp
    have hlt := hhas.2
    omega
  rw [place_append, hnone, Option.none_or]

theorem Sorted.behind (hs : Sorted (pre ++ r :: post)) : ∀ s ∈ post, r.vcn + r.len ≤ s.vcn :=
  (sorted_cons.mp (sorted_append.mp hs).2.1).2.2

theorem clean_of_place (hc : Clean run) (h : ∀ v, place a v = none ∨ ∃ u, place a v = place run u) :
    Clean a := by
  intro v
  rcases h v with h | ⟨u, h⟩
  · rw [h]
    exact fun h => nomatch h
  · rw [h]
    exact hc u

theorem Sorted.place_far (hs : Sorted run) (hv : 2 ^ 32 ≤ v) : place run v = none :=
  place_eq_none fun r hr hhas => by
    have hlt := (hs.good r hr).lt
    have hend := hhas.2
    omega

/-- What is before `vcn`. -/
theorem sorted_prefix (hs : Sorted (pre ++ post)) (hpre : ∀ p ∈ pre, p.vcn + p.len ≤ vcn)
    (hpost : ∀ s ∈ post, vcn ≤ s.vcn) :
    Sorted pre ∧ ∀ v, place pre v = if v < vcn then place (pre ++ post) v else none := by
  refine ⟨hs.sublist (List.sublist_append_left pre post), fun v => ?_⟩
  split
  · rename_i hv
    rw [place_left fun s hmem => Nat.lt_of_lt_of_le hv (hpost s hmem)]
  · rename_i hv
    exact place_eq_none fun p hp hhas => by
      have hle := hpre p hp
      have hlt := hhas.2
      omega

/-- What is from `vcn` on. -/
theorem sorted_suffix (hs : Sorted (pre ++ post)) (hpre : ∀ p ∈ pre, p.vcn + p.len ≤ vcn)
    (hpost : ∀ s ∈ post, vcn ≤ s.vcn) :
    Sorted post ∧ ∀ v, place post v = if vcn ≤ v then place (pre ++ post) v else none := by
  refine ⟨hs.sublist (List.sublist_append_right pre post), fun v => ?_⟩
  split
  · rename_i hv
    rw [place_right fun p hp => Nat.le_trans (hpre p hp) hv]
  · rename_i hv
    exact place_eq_none fun s hmem hhas => by
      have hle := hpost s hmem
      have hge := hhas.1
      omega

/-- A run that ends at or starts from a cluster. -/
theorem Sorted.starts_from (hs : Sorted (pre ++ r :: post)) (hv : r.vcn = vcn) :
    ∀ s ∈ r :: post, vcn ≤ s.vcn := by
  intro s hmem
  rcases List.mem_cons.mp hmem with rfl | hmem
  · exact Nat.le_of_eq hv.symm
  · have hge := hs.behind s hmem
    omega

/-! ## `run_truncate` and `run_truncate_head` -/

theorem runTruncate_spec (hs : Sorted run) (vcn : Nat) :
    Sorted (runTruncate run vcn) ∧
      ∀ v, place (runTruncate run vcn) v = if v < vcn then place run v else none := by
  have hfound := runLookup_spec hs vcn
  rw [runTruncate]
  generalize runLookup run vcn = found at hfound
  cases hfound with
  | miss pre post h hpre hpost =>
    subst h
    have hspec := sorted_prefix hs hpre fun s hmem => Nat.le_of_lt (hpost s hmem)
    dsimp only
    rw [List.drop_left, List.take_left]
    split
    · exact hspec
    · rw [if_neg fun h => nomatch h.1]
      exact hspec
  | hit pre post r h hr =>
    subst h
    have hover := hs.over
    have hbehind := hs.behind
    have hlt := hover.good.lt
    obtain ⟨hle, hin⟩ := hr
    have hsub : clstSub vcn r.vcn = vcn - r.vcn := clstSub_eq hle (by omega)
    dsimp only
    rw [List.drop_left, List.take_left]
    dsimp only
    rw [hsub]
    by_cases hpos : 0 < vcn - r.vcn
    · have huntil := until_sorted hs (show r.vcn < vcn by omega) (Nat.le_of_lt hin)
      rw [append_singleton] at huntil
      rw [if_pos ⟨rfl, hpos⟩]
      refine ⟨huntil.sublist (List.sublist_append_left _ _), fun v => ?_⟩
      have hplace := place_insert (r := r.until vcn) hover.apart [] v
      rw [List.append_nil] at hplace
      refine hplace.trans ?_
      rw [place_insert hover.apart]
      simp only [until_has (Nat.le_of_lt hin)]
      by_cases hv : v < vcn
      · simp only [hv, and_true, if_true]
        rw [place_left (b := post) fun s hmem => by have hge := hbehind s hmem; omega]
        rfl
      · simp only [hv, and_false, if_false]
        exact place_eq_none fun p hp hhas => by
          have hle := hover.apart p hp
          have hlt := hhas.2
          omega
    · rw [if_neg fun h => hpos h.2]
      exact sorted_prefix hs (fun p hp => Nat.le_trans (hover.apart p hp) hle)
        (hs.starts_from (by omega))

/-- The part of a run from `v` on. -/
theorem cut_from (hr : r.Good) (hlt : r.vcn < v) (hv : v < r.vcn + r.len)
    (hcut : r.place v ≠ some sparseLcn) : Rest (r.until v) r (r.cut (clstSub v r.vcn)) := by
  have hrlt := hr.lt
  have hend : (r.until v).vcn + (r.until v).len = v := Nat.add_sub_cancel' (Nat.le_of_lt hlt)
  have hgood : (r.until v).Good := ⟨Nat.sub_pos_of_lt hlt, by omega, hr.lcn⟩
  have hrest := cut_rest hgood hr (by omega) (by omega) (hend.symm ▸ hcut)
  rwa [hgood.next, hend] at hrest

theorem runTruncateHead_spec (hs : Sorted run) (hc : Clean run) (vcn : Nat) :
    Sorted (runTruncateHead run vcn) ∧
      ∀ v, place (runTruncateHead run vcn) v = if vcn ≤ v then place run v else none := by
  have hfound := runLookup_spec hs vcn
  rw [runTruncateHead]
  generalize runLookup run vcn = found at hfound
  cases hfound with
  | miss pre post h hpre hpost =>
    subst h
    have hspec := sorted_suffix hs hpre fun s hmem => Nat.le_of_lt (hpost s hmem)
    dsimp only
    rw [List.drop_left]
    split
    · exact hspec
    · rw [if_neg fun h => nomatch h.1]
      exact hspec
  | hit pre post r h hr =>
    subst h
    have hover := hs.over
    have hbehind := hs.behind
    obtain ⟨hle, hin⟩ := hr
    dsimp only
    rw [List.drop_left]
    dsimp only
    by_cases hpos : r.vcn < vcn
    · rw [if_pos ⟨rfl, hpos⟩]
      have hplace := place_eq_of_mem hs (v := vcn) ⟨hle, hin⟩
      have hrest := cut_from hover.good hpos hin fun heq =>
        hc vcn (hplace.trans (congrArg some heq))
      have hvcn : (r.cut (clstSub vcn r.vcn)).vcn = vcn :=
        hrest.vcn.trans (Nat.add_sub_cancel' hle)
      have hnext := hrest.next
      refine ⟨sorted_cons.mpr ⟨hrest.good, hover.after, fun s hmem => ?_⟩, fun v => ?_⟩
      · rw [hnext]
        exact hbehind s hmem
      · rw [place_cons, place_insert hover.apart]
        by_cases hv : vcn ≤ v
        · have hiff : (r.cut (clstSub vcn r.vcn)).Has v ↔ r.Has v := by
            simp only [NtfsRun.Has]
            omega
          have hsame := hrest.place v
            (Nat.le_trans (Nat.le_of_eq (Nat.add_sub_cancel' hle)) hv)
          rw [if_pos hv, place_right fun p hp => Nat.le_trans (hover.apart p hp) (by omega), hsame]
          simp only [hiff]
        · rw [if_neg hv, if_neg fun h => hv (hvcn ▸ h.1)]
          exact place_eq_none fun s hmem hhas => by
            have hge := hbehind s hmem
            have hsle := hhas.1
            omega
    · rw [if_neg fun h => hpos h.2]
      exact sorted_suffix hs (fun p hp => Nat.le_trans (hover.apart p hp) hle)
        (hs.starts_from (by omega))

/-- What `run_truncate_around` leaves starts at `vcn`, and has the cluster there. -/
theorem runTruncateAround_spec (hs : Sorted run) (hc : Clean run) (vcn : Nat) :
    Sorted (runTruncateAround run vcn) ∧ ∃ top, vcn < top ∧
      ∀ v, place (runTruncateAround run vcn) v = if vcn ≤ v ∧ v < top then place run v else none := by
  obtain ⟨hhead, hplace⟩ := runTruncateHead_spec hs hc vcn
  rw [runTruncateAround]
  generalize runTruncateHead run vcn = run' at hhead hplace
  split
  · rename_i hlong
    have hmany : 2 ≤ run'.length := Nat.le_trans (by decide) hlong
    have hfirst : 0 < run'.length := by omega
    have hhalf : run'.length / 2 < run'.length := by omega
    have hge : vcn ≤ run'[0].vcn := by
      have hpos := (hhead.good _ (List.getElem_mem hfirst)).pos
      have hat := hplace run'[0].vcn
      obtain ⟨s, t, hst⟩ := List.append_of_mem (List.getElem_mem hfirst)
      have hhas : place run' run'[0].vcn = some (run'[0].place run'[0].vcn) := by
        generalize run'[0] = q at hst hpos ⊢
        subst hst
        exact place_eq_of_mem hhead ⟨Nat.le_refl _, Nat.lt_add_of_pos_right hpos⟩
      by_contra hlt
      rw [if_neg hlt, hhas] at hat
      cases hat
    have hpos := (hhead.good _ (List.getElem_mem hfirst)).pos
    have hapart := hhead.getElem_le hfirst hhalf (by omega)
    obtain ⟨hsorted, htrunc⟩ := runTruncate_spec hhead (run'.getD (run'.length / 2) ⟨0, 0, 0⟩).vcn
    refine ⟨hsorted, (run'.getD (run'.length / 2) ⟨0, 0, 0⟩).vcn, ?_, fun v => ?_⟩
    · rw [getD_eq hhalf]
      omega
    · rw [htrunc, hplace, ← ite_and]
      simp only [and_comm]
  · refine ⟨hhead, 2 ^ 32 + vcn + 1, by omega, fun v => ?_⟩
    rw [hplace]
    by_cases hv : v < 2 ^ 32 + vcn + 1
    · simp only [hv, and_true]
    · rw [hs.place_far (by omega), ite_self, ite_self]

/-! ## `run_collapse_range` -/

/-- A run `len` clusters earlier. -/
def NtfsRun.back (r : NtfsRun) (len : Nat) : NtfsRun := { r with vcn := clstSub r.vcn len }

theorem back_vcn (hr : r.Good) (hle : len ≤ r.vcn) : (r.back len).vcn = r.vcn - len :=
  clstSub_eq hle (Nat.lt_of_le_of_lt (Nat.le_add_right _ _) hr.lt)

theorem back_spec (hs : Sorted run) (hle : ∀ s ∈ run, len ≤ s.vcn) :
    Sorted (run.map fun s => s.back len) ∧
      ∀ v, place (run.map fun s => s.back len) v = place run (v + len) := by
  induction run with
  | nil => exact ⟨sorted_nil, fun _ => rfl⟩
  | cons r run ih =>
    obtain ⟨hr, hrun, hapart⟩ := sorted_cons.mp hs
    obtain ⟨hsorted, hplace⟩ := ih hrun fun s hmem => hle s (List.mem_cons_of_mem r hmem)
    have hrle := hle r List.mem_cons_self
    have hvcn := back_vcn hr hrle
    have hlt := hr.lt
    have hgood : (r.back len).Good := ⟨hr.pos, show (r.back len).vcn + r.len < _ by omega, hr.lcn⟩
    refine ⟨sorted_cons.mpr ⟨hgood, hsorted, fun s hmem => ?_⟩, fun v => ?_⟩
    · obtain ⟨t, ht, rfl⟩ := List.mem_map.mp hmem
      have htle := hle t (List.mem_cons_of_mem r ht)
      have happart := hapart t ht
      show (r.back len).vcn + r.len ≤ (t.back len).vcn
      rw [hvcn, back_vcn (hrun.good t ht) htle]
      omega
    · have hiff : (r.back len).Has v ↔ r.Has (v + len) := by
        show (r.back len).vcn ≤ v ∧ v < (r.back len).vcn + r.len ↔ _
        rw [hvcn, NtfsRun.Has]
        omega
      have hsame : (r.back len).place v = r.place (v + len) := by
        rw [NtfsRun.place, NtfsRun.place, hvcn, show v - (r.vcn - len) = v + len - r.vcn by omega]
        rfl
      rw [List.map_cons, place_cons, place_cons, hplace, hsame]
      simp only [hiff]

theorem collapseRounds_back {stop : Nat} (h : ∀ s ∈ rest, stop ≤ s.vcn) (kept : List NtfsRun) :
    collapseRounds stop len kept rest = kept ++ rest.map fun s => s.back len := by
  induction rest generalizing kept with
  | nil => rw [collapseRounds, List.map_nil, List.append_nil]
  | cons r rest ih =>
    rw [collapseRounds, if_pos (h r List.mem_cons_self),
      ih fun s hmem => h s (List.mem_cons_of_mem r hmem), List.append_assoc]
    rfl

/-- The runs from `stop` on, `len` clusters earlier. -/
structure Shifted (stop len : Nat) (rest out : List NtfsRun) : Prop where
  sorted : Sorted out
  starts : ∀ s ∈ out, stop - len ≤ s.vcn
  place : ∀ v, place out v = if stop ≤ v + len then place rest (v + len) else none

theorem shifted_back {stop : Nat} (hs : Sorted rest) (hle : len ≤ stop)
    (h : ∀ s ∈ rest, stop ≤ s.vcn) :
    Shifted stop len rest (rest.map fun s => s.back len) := by
  obtain ⟨hsorted, hplace⟩ := back_spec hs fun s hmem => Nat.le_trans hle (h s hmem)
  refine ⟨hsorted, fun s hmem => ?_, fun v => ?_⟩
  · obtain ⟨t, ht, rfl⟩ := List.mem_map.mp hmem
    have hge := h t ht
    rw [back_vcn (hs.good t ht) (Nat.le_trans hle hge)]
    omega
  · rw [hplace]
    split
    · rfl
    · exact place_eq_none fun s hmem hhas => by
        have hge := h s hmem
        have hsle := hhas.1
        omega

theorem collapseRounds_spec {stop : Nat} (hs : Sorted rest) (hlt : stop < 2 ^ 32) (hle : len ≤ stop)
    (hge : ∀ s ∈ rest, stop - len ≤ s.vcn) (hstop : place rest stop ≠ some (some sparseLcn)) :
    Shifted stop len rest (collapseRounds stop len [] rest) := by
  induction rest with
  | nil => exact ⟨sorted_nil, fun s hs => (List.not_mem_nil hs).elim, fun v => by
      rw [collapseRounds, place_nil, place_nil, ite_self]⟩
  | cons r rest ih =>
    obtain ⟨hr, hrest, hapart⟩ := sorted_cons.mp hs
    have hrlt := hr.lt
    by_cases hbehind : stop ≤ r.vcn
    · have hall : ∀ s ∈ r :: rest, stop ≤ s.vcn := fun s hmem => by
        rcases List.mem_cons.mp hmem with rfl | hmem
        · exact hbehind
        · have happart := hapart s hmem
          omega
      rw [collapseRounds_back hall, List.nil_append]
      exact shifted_back hs hle hall
    · rw [collapseRounds, if_neg hbehind, hr.next]
      by_cases heat : r.vcn + r.len ≤ stop
      · rw [if_pos heat]
        have hnot : ∀ v, stop ≤ v → ¬ r.Has v := fun v hv hhas => by
          have hend := hhas.2
          omega
        have hspec := ih hrest (fun s hmem => hge s (List.mem_cons_of_mem r hmem)) (by
          rwa [place_cons, if_neg (hnot stop (Nat.le_refl _))] at hstop)
        refine ⟨hspec.sorted, hspec.starts, fun v => ?_⟩
        rw [hspec.place, place_cons]
        split
        · rename_i hv
          rw [if_neg (hnot _ hv)]
        · rfl
      · have hhas : r.Has stop := ⟨by omega, by omega⟩
        have hcut := cut_from hr (Nat.lt_of_not_le hbehind) (Nat.lt_of_not_le heat) fun heq => hstop (by
          rw [place_cons, if_pos hhas, heq])
        have hrge := hge r List.mem_cons_self
        have hvcn : (r.cut (clstSub stop r.vcn)).vcn = stop :=
          hcut.vcn.trans (Nat.add_sub_cancel' hhas.1)
        have hnext := hcut.next
        have hafter : ∀ s ∈ rest, stop ≤ s.vcn := fun s hmem => by
          have happart := hapart s hmem
          omega
        have hsorted : Sorted (r.cut (clstSub stop r.vcn) :: rest) :=
          sorted_cons.mpr ⟨hcut.good, hrest, fun s hmem => hnext ▸ hapart s hmem⟩
        have hfirst : (⟨clstSub r.vcn (clstSub len (clstSub stop r.vcn)),
            clstSub r.len (clstSub stop r.vcn), r.lcnAt (clstSub stop r.vcn)⟩ : NtfsRun) =
            (r.cut (clstSub stop r.vcn)).back len := by
          have hat := back_vcn hcut.good (show len ≤ _ by omega)
          have hd : clstSub stop r.vcn = stop - r.vcn := clstSub_eq hhas.1 hlt
          have hd' : clstSub len (clstSub stop r.vcn) = len - (stop - r.vcn) := by
            rw [hd]
            exact clstSub_eq (by omega) (by omega)
          have hd'' : clstSub r.vcn (len - (stop - r.vcn)) = r.vcn - (len - (stop - r.vcn)) :=
            clstSub_eq (by omega) (by omega)
          rw [NtfsRun.back] at hat ⊢
          rw [hd', hd'']
          congr 1
          have hat' : clstSub (r.cut (clstSub stop r.vcn)).vcn len =
            (r.cut (clstSub stop r.vcn)).vcn - len := hat
          omega
        have hback := shifted_back hsorted hle fun s hmem => by
          rcases List.mem_cons.mp hmem with rfl | hmem
          · exact Nat.le_of_eq hvcn.symm
          · exact hafter s hmem
        rw [if_neg heat, collapseRounds_back hafter, List.nil_append, hfirst, List.singleton_append]
        refine ⟨hback.sorted, hback.starts, fun v => ?_⟩
        refine (hback.place v).trans ?_
        split
        · rename_i hv
          have hiff : (r.cut (clstSub stop r.vcn)).Has (v + len) ↔ r.Has (v + len) := by
            simp only [NtfsRun.Has]
            omega
          rw [place_cons, place_cons, hcut.place _ (Nat.le_trans
            (Nat.le_of_eq (Nat.add_sub_cancel' hhas.1)) hv)]
          simp only [hiff]
        · rfl

/-- The clusters from `vcn` on, without the first `len` of them. -/
structure Collapsed (vcn len : Nat) (run run' : List NtfsRun) : Prop where
  sorted : Sorted run'
  place : ∀ v, place run' v = if v < vcn then place run v else place run (v + len)

theorem collapsed_append {out : List NtfsRun} (ha : Sorted pre)
    (hend : ∀ p ∈ pre, p.vcn + p.len ≤ vcn) (hout : Shifted (vcn + len) len b out)
    (hstop : ∀ p ∈ a, p.vcn + p.len ≤ vcn + len)
    (hplace : ∀ v, v < vcn → place pre v = place (a ++ b) v) :
    Collapsed vcn len (a ++ b) (pre ++ out) := by
  have hstarts : ∀ s ∈ out, vcn ≤ s.vcn := fun s hmem => by
    have hge := hout.starts s hmem
    omega
  refine ⟨sorted_append.mpr ⟨ha, hout.sorted, fun p hp s hmem =>
    Nat.le_trans (hend p hp) (hstarts s hmem)⟩, fun v => ?_⟩
  split
  · rename_i hv
    rw [place_left fun s hmem => Nat.lt_of_lt_of_le hv (hstarts s hmem), hplace v hv]
  · rename_i hv
    rw [place_right fun p hp => Nat.le_trans (hend p hp) (Nat.le_of_not_lt hv), hout.place,
      if_pos (by omega), place_right fun p hp => Nat.le_trans (hstop p hp) (by omega)]

/-- The range starts where a run does. -/
theorem collapse_start (hs : Sorted (pre ++ r :: post)) (hc : Clean (pre ++ r :: post))
    (hlt : r.vcn + len < 2 ^ 32) :
    Collapsed r.vcn len (pre ++ r :: post)
      (pre ++ collapseRounds (r.vcn + len) len [] (r :: post)) := by
  obtain ⟨hpre, hrest, hab⟩ := sorted_append.mp hs
  have hapart : ∀ p ∈ pre, p.vcn + p.len ≤ r.vcn := fun p hp => hab p hp r List.mem_cons_self
  have hstarts := hs.starts_from rfl
  have hstop : place (r :: post) (r.vcn + len) ≠ some (some sparseLcn) := by
    have hclean := hc (r.vcn + len)
    rwa [place_right fun p hp => Nat.le_trans (hapart p hp) (Nat.le_add_right _ _)] at hclean
  have hout := collapseRounds_spec hrest hlt (Nat.le_add_left _ _)
    (fun s hmem => Nat.le_trans (by omega) (hstarts s hmem)) hstop
  refine collapsed_append hpre hapart hout
    (fun p hp => Nat.le_trans (hapart p hp) (Nat.le_add_right _ _)) fun v hv => ?_
  rw [place_left fun s hmem => Nat.lt_of_lt_of_le hv (hstarts s hmem)]

/-- The range reaches the end of the run it starts in. -/
theorem collapse_tail (hs : Sorted (pre ++ r :: post)) (hc : Clean (pre ++ r :: post))
    (hlt : vcn + len < 2 ^ 32) (hvcn : r.vcn < vcn) (hin : vcn < r.vcn + r.len)
    (hend : r.vcn + r.len ≤ vcn + len) :
    Collapsed vcn len (pre ++ r :: post)
      (pre ++ r.until vcn :: collapseRounds (vcn + len) len [] post) := by
  have hbehind := hs.behind
  have hover := hs.over
  have huntil := until_sorted hs hvcn (Nat.le_of_lt hin)
  rw [append_singleton] at huntil
  have hstop : place post (vcn + len) ≠ some (some sparseLcn) := by
    have hclean := hc (vcn + len)
    rwa [append_singleton, place_right fun p hp => ?_] at hclean
    rcases List.mem_append.mp hp with hp | hp
    · exact Nat.le_trans (hover.apart p hp) (by omega)
    · rwa [List.mem_singleton.mp hp]
  have hout := collapseRounds_spec hover.after hlt (Nat.le_add_left _ _)
    (fun s hmem => Nat.le_trans (by omega) (hbehind s hmem)) hstop
  rw [append_singleton pre r, append_singleton pre (r.until vcn)]
  refine collapsed_append (huntil.sublist (List.sublist_append_left _ _)) (fun p hp => ?_) hout
    (fun p hp => ?_) fun v hv => ?_
  · rcases List.mem_append.mp hp with hp | hp
    · exact Nat.le_trans (hover.apart p hp) (Nat.le_of_lt hvcn)
    · rw [List.mem_singleton.mp hp]
      exact Nat.le_of_eq (Nat.add_sub_cancel' (Nat.le_of_lt hvcn))
  · rcases List.mem_append.mp hp with hp | hp
    · exact Nat.le_trans (hover.apart p hp) (by omega)
    · rwa [List.mem_singleton.mp hp]
  · have hplace := place_insert (r := r.until vcn) hover.apart [] v
    rw [List.append_nil] at hplace
    refine hplace.trans ?_
    rw [← append_singleton, place_insert hover.apart,
      place_left (b := post) fun s hmem => by have hge := hbehind s hmem; omega]
    simp only [until_has (Nat.le_of_lt hin), hv, and_true]
    rfl

/-- The range is inside of a sparse run. -/
theorem collapse_sparse (hs : Sorted (pre ++ r :: post)) (hvcn : r.vcn < vcn)
    (hend : vcn + len < r.vcn + r.len) (hsparse : r.lcn = sparseLcn) :
    Collapsed vcn len (pre ++ r :: post)
      (pre ++ { r with len := r.len - len } :: collapseRounds (vcn + len) len [] post) := by
  have hbehind := hs.behind
  have hover := hs.over
  have hr := hover.good
  have hrlt := hr.lt
  have hafter : ∀ s ∈ post, vcn + len ≤ s.vcn := fun s hmem => by
    have hge := hbehind s hmem
    omega
  obtain ⟨hback, hplace⟩ := back_spec hover.after fun s hmem =>
    Nat.le_trans (Nat.le_add_left len vcn) (hafter s hmem)
  have hshort : NtfsRun.Good { r with len := r.len - len } :=
    ⟨show 0 < r.len - len by omega, show r.vcn + (r.len - len) < _ by omega, hr.lcn⟩
  have hstarts : ∀ s ∈ post.map fun s => s.back len, r.vcn + (r.len - len) ≤ s.vcn := by
    intro s hmem
    obtain ⟨t, ht, rfl⟩ := List.mem_map.mp hmem
    have hge := hafter t ht
    have hbt := hbehind t ht
    rw [back_vcn (hover.after.good t ht) (by omega)]
    omega
  rw [collapseRounds_back hafter, List.nil_append]
  refine ⟨sorted_append.mpr ⟨hover.before, sorted_cons.mpr ⟨hshort, hback, hstarts⟩,
    fun p hp s hmem => ?_⟩, fun v => ?_⟩
  · have hle := hover.apart p hp
    rcases List.mem_cons.mp hmem with rfl | hmem
    · exact hle
    · have hge := hstarts s hmem
      omega
  · rw [place_insert (r := { r with len := r.len - len }) hover.apart, place_insert hover.apart,
      place_insert hover.apart]
    have hnone : NtfsRun.place { r with len := r.len - len } v = none := if_pos hsparse
    have hnone' : ∀ u, r.place u = none := fun u => if_pos hsparse
    rw [hnone, hnone', hnone']
    have hhas : NtfsRun.Has { r with len := r.len - len } v ↔
        r.vcn ≤ v ∧ v < r.vcn + (r.len - len) := Iff.rfl
    by_cases hv : v < vcn
    · rw [if_pos hv]
      have hiff : r.vcn ≤ v ∧ v < r.vcn + (r.len - len) ↔ r.Has v := by
        simp only [NtfsRun.Has]
        omega
      rw [place_left fun s hmem => by have hge := hstarts s hmem; omega,
        place_left (b := post) fun s hmem => by have hge := hbehind s hmem; omega]
      simp only [hhas, hiff]
    · rw [if_neg hv]
      have hiff : r.vcn ≤ v ∧ v < r.vcn + (r.len - len) ↔ r.Has (v + len) := by
        simp only [NtfsRun.Has]
        omega
      have hpre : ∀ p ∈ pre, p.vcn + p.len ≤ v := fun p hp => by
        have hle := hover.apart p hp
        omega
      rw [place_right hpre, place_right fun p hp => Nat.le_trans (hpre p hp) (Nat.le_add_right _ _),
        hplace]
      simp only [hhas, hiff]

/-- A collapse of a range whose first cluster starts a run. -/
theorem runCollapseRange_start (alloc : Nat → Bool) (fuel : Nat) (hs : Sorted run) (hc : Clean run)
    (hlt : vcn + len < 2 ^ 32) (hmap : place run vcn ≠ none)
    (hstart : ∀ r ∈ run, r.Has vcn → r.vcn = vcn) :
    ∃ run', runCollapseRange alloc (fuel + 1) run vcn len = .ok run' ∧
      Collapsed vcn len run run' := by
  have hfound := runLookup_spec hs vcn
  rw [runCollapseRange, clstAdd_eq hlt]
  generalize runLookup run vcn = found at hfound
  cases hfound with
  | miss pre post h hpre hpost =>
    exact absurd (found_none (.miss pre post h hpre hpost)) hmap
  | hit pre post r h hr =>
    subst h
    have hvcn := hstart r (List.mem_append_right pre List.mem_cons_self) hr
    subst hvcn
    dsimp only
    rw [List.drop_left, List.take_left, if_neg (by decide)]
    dsimp only
    rw [if_neg (Nat.lt_irrefl _)]
    exact ⟨_, rfl, collapse_start hs hc hlt⟩

/-- The range is inside of a run. It becomes a sparse one first, which starts there. -/
theorem collapse_middle (alloc : Nat → Bool) (hs : Sorted (pre ++ r :: post))
    (hc : Clean (pre ++ r :: post)) (hlen : 0 < len) (hlt : vcn + len < 2 ^ 32)
    (hvcn : r.vcn < vcn) (hend : vcn + len < r.vcn + r.len) (hnot : r.lcn ≠ sparseLcn) :
    (∃ left, runAddEntry alloc 3 (pre ++ r :: post) vcn sparseLcn len = .error left ∧
      (∃ n, alloc n = false) ∧ Sorted left) ∨
    ∃ run run', runAddEntry alloc 3 (pre ++ r :: post) vcn sparseLcn len = .ok run ∧
      runCollapseRange alloc 1 run vcn len = .ok run' ∧
      Collapsed vcn len (pre ++ r :: post) run' := by
  have hfits : NtfsRun.Fits ⟨vcn, len, sparseLcn⟩ :=
    ⟨⟨hlen, hlt, Nat.sub_lt (by decide) (by decide)⟩, .inl rfl⟩
  rcases runAddEntry_spec alloc hs hc hfits with ⟨left, heq, hfail⟩ | ⟨run, heq, hsorted, hclean, hplace⟩
  · exact .inl ⟨left, heq, hfail.alloc, hfail.sorted⟩
  · have hat : place run vcn = some none := by
      rw [hplace, place_cons, if_pos ⟨Nat.le_refl _, Nat.lt_add_of_pos_right hlen⟩]
      exact congrArg some (if_pos rfl)
    have hbefore : ∀ v, v < vcn → place run v = place (pre ++ r :: post) v := fun v hv => by
      rw [hplace, place_cons, if_neg fun h => Nat.not_le_of_lt hv h.1]
    have hbehind : ∀ v, vcn + len ≤ v → place run v = place (pre ++ r :: post) v := fun v hv => by
      rw [hplace, place_cons, if_neg fun h => Nat.not_le_of_lt h.2 hv]
    have hstart : ∀ s ∈ run, s.Has vcn → s.vcn = vcn := by
      intro s hmem hhas
      obtain ⟨a, b, rfl⟩ := List.append_of_mem hmem
      have hsparse : s.lcn = sparseLcn := by
        rw [place_eq_of_mem hsorted hhas, NtfsRun.place] at hat
        by_contra h
        rw [if_neg h] at hat
        cases hat
      by_contra hne
      obtain ⟨hle, hin⟩ := hhas
      have hprev := hbefore (vcn - 1) (by omega)
      rw [place_eq_of_mem hsorted ⟨by omega, by omega⟩, place_eq_of_mem hs ⟨by omega, by omega⟩,
        NtfsRun.place, NtfsRun.place, if_pos hsparse, if_neg hnot] at hprev
      cases hprev
    obtain ⟨run', hok, hcoll⟩ := runCollapseRange_start alloc 0 hsorted hclean hlt
      (by rw [hat]; exact Option.some_ne_none _) hstart
    refine .inr ⟨run, run', heq, hok, hcoll.sorted, fun v => ?_⟩
    rw [hcoll.place]
    split
    · rename_i hv
      exact hbefore v hv
    · rename_i hv
      exact hbehind (v + len) (by omega)

/-- **Collapsing.** The clusters of the range are gone and the ones behind it moved up to it. -/
theorem runCollapseRange_spec (alloc : Nat → Bool) (hs : Sorted run) (hc : Clean run)
    (hlen : 0 < len) (hlt : vcn + len < 2 ^ 32) :
    (∃ left, runCollapseRange alloc 2 run vcn len = .error left ∧ (∃ n, alloc n = false) ∧
      Sorted left) ∨
    ∃ run', runCollapseRange alloc 2 run vcn len = .ok run' ∧ Sorted run' ∧
      ∀ v, place run' v =
        if place run vcn = none ∨ v < vcn then place run v else place run (v + len) := by
  have hfound := runLookup_spec hs vcn
  rw [runCollapseRange, clstAdd_eq hlt]
  generalize runLookup run vcn = found at hfound
  cases hfound with
  | miss pre post h hpre hpost =>
    refine .inr ⟨run, if_pos rfl, hs, fun v => ?_⟩
    rw [if_pos (.inl (found_none (.miss pre post h hpre hpost)))]
  | hit pre post r h hr =>
    subst h
    have hhas := hr
    have hr := hs.over.good
    have hrlt := hr.lt
    obtain ⟨hle, hin⟩ := hhas
    have hplace : place (pre ++ r :: post) vcn = some (r.place vcn) := place_eq_of_mem hs ⟨hle, hin⟩
    have hdone : ∀ run', Collapsed vcn len (pre ++ r :: post) run' → Sorted run' ∧
        ∀ v, place run' v = if place (pre ++ r :: post) vcn = none ∨ v < vcn then
          place (pre ++ r :: post) v else place (pre ++ r :: post) (v + len) := by
      intro run' h
      refine ⟨h.sorted, fun v => ?_⟩
      rw [h.place, hplace]
      simp only [reduceCtorEq, false_or]
    dsimp only
    rw [List.drop_left, List.take_left, if_neg (by decide)]
    dsimp only
    rw [hr.next]
    by_cases hvcn : r.vcn < vcn
    · rw [if_pos hvcn]
      by_cases hend : r.vcn + r.len ≤ vcn + len
      · have hsub : clstSub vcn r.vcn = vcn - r.vcn := clstSub_eq hle (by omega)
        rw [if_pos hend, hsub]
        exact .inr ⟨_, rfl, hdone _ (collapse_tail hs hc hlt hvcn hin hend)⟩
      · rw [if_neg hend]
        by_cases hsparse : r.lcn = sparseLcn
        · have hsub : clstSub r.len len = r.len - len := clstSub_eq (by omega) (by omega)
          rw [if_pos hsparse, hsub]
          exact .inr ⟨_, rfl, hdone _ (collapse_sparse hs hvcn (by omega) hsparse)⟩
        · rw [if_neg hsparse]
          rcases collapse_middle alloc hs hc hlen hlt hvcn (by omega) hsparse with
            ⟨left, heq, hleft⟩ | ⟨run, run', heq, hok, hcoll⟩
          · rw [heq]
            exact .inl ⟨left, rfl, hleft⟩
          · rw [heq]
            exact .inr ⟨run', hok, hdone run' hcoll⟩
    · obtain rfl : r.vcn = vcn := by omega
      rw [if_neg hvcn]
      exact .inr ⟨_, rfl, hdone _ (collapse_start hs hc hlt)⟩

/-! ## `run_is_mapped_full` -/

theorem place_ne_none_iff : place run v ≠ none ↔ ∃ r ∈ run, r.Has v := by
  rw [place, Ne, Option.map_eq_none_iff, List.find?_eq_none]
  simp only [decide_eq_true_eq, not_forall, not_not, exists_prop]

theorem mappedRounds_iff {evcn : Nat} (hs : Sorted (r :: rest)) (hv : r.Has v) :
    mappedRounds evcn r rest = true ↔
      ∀ u, v ≤ u → u ≤ evcn → place (r :: rest) u ≠ none := by
  induction rest generalizing r v with
  | nil =>
    obtain ⟨hr, -, -⟩ := sorted_cons.mp hs
    rw [mappedRounds, hr.next, decide_eq_true_eq]
    constructor
    · intro hlt u hu hue
      exact place_ne_none_iff.mpr ⟨r, List.mem_cons_self, Nat.le_trans hv.1 hu, by omega⟩
    · intro h
      by_contra hge
      have hend := hv.2
      obtain ⟨s, hmem, hhas⟩ := place_ne_none_iff.mp (h (r.vcn + r.len) (by omega) (by omega))
      rw [List.mem_singleton.mp hmem] at hhas
      exact Nat.lt_irrefl _ hhas.2
  | cons n rest ih =>
    obtain ⟨hr, hrest, hapart⟩ := sorted_cons.mp hs
    obtain ⟨hn, -, hbehind⟩ := sorted_cons.mp hrest
    have hend := hv.2
    have hle := hv.1
    rw [mappedRounds, hr.next, Bool.or_eq_true, Bool.and_eq_true, decide_eq_true_eq,
      decide_eq_true_eq, ih hrest ⟨Nat.le_refl _, Nat.lt_add_of_pos_right hn.pos⟩]
    have hlater : ∀ u, r.vcn + r.len ≤ u → place (r :: n :: rest) u = place (n :: rest) u :=
      fun u hu => by rw [place_cons, if_neg fun h => Nat.not_le_of_lt h.2 hu]
    constructor
    · rintro (hlt | ⟨hnext, hall⟩) u hu hue
      · exact place_ne_none_iff.mpr ⟨r, List.mem_cons_self, by omega, by omega⟩
      · by_cases hin : u < r.vcn + r.len
        · exact place_ne_none_iff.mpr ⟨r, List.mem_cons_self, by omega, hin⟩
        · rw [hlater u (by omega)]
          exact hall u (by omega) hue
    · intro h
      by_cases hlt : evcn < r.vcn + r.len
      · exact .inl hlt
      · have hat := h (r.vcn + r.len) (by omega) (by omega)
        rw [hlater _ (Nat.le_refl _), place_ne_none_iff] at hat
        obtain ⟨s, hmem, hhas⟩ := hat
        have hnext : n.vcn = r.vcn + r.len := by
          refine Nat.le_antisymm (Nat.le_trans ?_ hhas.1) (hapart n List.mem_cons_self)
          rcases List.mem_cons.mp hmem with rfl | hmem
          · exact Nat.le_refl _
          · exact Nat.le_trans (Nat.le_add_right _ _) (hbehind s hmem)
        refine .inr ⟨hnext, fun u hu hue => ?_⟩
        rw [← hlater u (by omega)]
        exact h u (by omega) hue

/-- The test for a range looks at every cluster of it. -/
theorem runIsMappedFull_iff {svcn evcn : Nat} (hs : Sorted run) (hle : svcn ≤ evcn) :
    runIsMappedFull run svcn evcn = true ↔ ∀ v, svcn ≤ v → v ≤ evcn → place run v ≠ none := by
  have hfound := runLookup_spec hs svcn
  rw [runIsMappedFull]
  generalize runLookup run svcn = found at hfound
  cases hfound with
  | miss pre post h hpre hpost =>
    have hnone := found_none (.miss pre post h hpre hpost)
    constructor
    · exact fun h => nomatch h
    · exact fun h => absurd hnone (h svcn (Nat.le_refl _) hle)
  | hit pre post r h hr =>
    subst h
    have hover := hs.over
    have hrest := (sorted_append.mp hs).2.1
    dsimp only
    rw [if_pos rfl, List.drop_left]
    dsimp only
    rw [mappedRounds_iff hrest hr]
    refine forall_congr' fun v => imp_congr_right fun hv => ?_
    rw [place_right fun p hp => Nat.le_trans (hover.apart p hp) (Nat.le_trans hr.1 hv)]

end

/-! ## Any calls -/

/-- A call that changes a tree. -/
inductive Op where
  | add (r : NtfsRun)
  | truncate (vcn : Nat)
  | truncateHead (vcn : Nat)
  | truncateAround (vcn : Nat)
  | collapse (vcn len : Nat)

/-- What the callers see to. -/
def Op.Fits : Op → Prop
  | .add r => r.Fits
  | .collapse vcn len => 0 < len ∧ vcn + len < 2 ^ 32
  | _ => True

def Op.apply (alloc : Nat → Bool) (run : List NtfsRun) : Op → Except (List NtfsRun) (List NtfsRun)
  | .add r => runAddEntry alloc 3 run r.vcn r.lcn r.len
  | .truncate vcn => .ok (runTruncate run vcn)
  | .truncateHead vcn => .ok (runTruncateHead run vcn)
  | .truncateAround vcn => .ok (runTruncateAround run vcn)
  | .collapse vcn len => runCollapseRange alloc 2 run vcn len

/-- The calls up to the first one that fails. -/
def applyAll (alloc : Nat → Bool) : List Op → List NtfsRun → Except (List NtfsRun) (List NtfsRun)
  | [], run => .ok run
  | op :: ops, run =>
    match op.apply alloc run with
    | .error left => .error left
    | .ok run' => applyAll alloc ops run'

/-- Where the clusters of a file are: not known, sparse, or at some cluster. -/
def Places := Nat → Option (Option Nat)

/-- What a call is for. -/
def Op.Acts (m m' : Places) : Op → Prop
  | .add r => ∀ v, m' v = if r.Has v then some (r.place v) else m v
  | .truncate vcn => ∀ v, m' v = if v < vcn then m v else none
  | .truncateHead vcn => ∀ v, m' v = if vcn ≤ v then m v else none
  | .truncateAround vcn => ∃ top, vcn < top ∧ ∀ v, m' v = if vcn ≤ v ∧ v < top then m v else none
  | .collapse vcn len => ∀ v, m' v = if m vcn = none ∨ v < vcn then m v else m (v + len)

inductive ActsAll : List Op → Places → Places → Prop
  | nil (m : Places) : ActsAll [] m m
  | cons {op : Op} {ops : List Op} {m m' m'' : Places} (h : op.Acts m m')
      (hs : ActsAll ops m' m'') : ActsAll (op :: ops) m m''

section
variable {run : List NtfsRun}

/-- One call keeps the order and does what it is for. -/
theorem Op.apply_spec (alloc : Nat → Bool) {op : Op} (hs : Sorted run) (hc : Clean run)
    (hfits : op.Fits) :
    (∃ left, op.apply alloc run = .error left ∧ (∃ n, alloc n = false) ∧ Sorted left) ∨
    ∃ run', op.apply alloc run = .ok run' ∧ Sorted run' ∧ Clean run' ∧
      op.Acts (place run) (place run') := by
  cases op with
  | add r =>
    rcases runAddEntry_spec alloc hs hc hfits with ⟨left, heq, hfail⟩ | ⟨run', heq, hs', hc', hplace⟩
    · exact .inl ⟨left, heq, hfail.alloc, hfail.sorted⟩
    · exact .inr ⟨run', heq, hs', hc', fun v => (hplace v).trans (place_cons r run v)⟩
  | truncate vcn =>
    obtain ⟨hs', hplace⟩ := runTruncate_spec hs vcn
    refine .inr ⟨_, rfl, hs', clean_of_place hc fun v => ?_, hplace⟩
    rw [hplace]
    split
    · exact .inr ⟨v, rfl⟩
    · exact .inl rfl
  | truncateHead vcn =>
    obtain ⟨hs', hplace⟩ := runTruncateHead_spec hs hc vcn
    refine .inr ⟨_, rfl, hs', clean_of_place hc fun v => ?_, hplace⟩
    rw [hplace]
    split
    · exact .inr ⟨v, rfl⟩
    · exact .inl rfl
  | truncateAround vcn =>
    obtain ⟨hs', top, htop, hplace⟩ := runTruncateAround_spec hs hc vcn
    refine .inr ⟨_, rfl, hs', clean_of_place hc fun v => ?_, top, htop, hplace⟩
    rw [hplace]
    split
    · exact .inr ⟨v, rfl⟩
    · exact .inl rfl
  | collapse vcn len =>
    rcases runCollapseRange_spec alloc hs hc hfits.1 hfits.2 with
      ⟨left, heq, hleft⟩ | ⟨run', heq, hs', hplace⟩
    · exact .inl ⟨left, heq, hleft⟩
    · refine .inr ⟨run', heq, hs', clean_of_place hc fun v => ?_, hplace⟩
      rw [hplace]
      split
      · exact .inr ⟨v, rfl⟩
      · exact .inr ⟨v + len, rfl⟩

theorem applyAll_spec (alloc : Nat → Bool) {ops : List Op} (hs : Sorted run) (hc : Clean run)
    (hfits : ∀ op ∈ ops, op.Fits) :
    (∃ left, applyAll alloc ops run = .error left ∧ (∃ n, alloc n = false) ∧ Sorted left) ∨
    ∃ run', applyAll alloc ops run = .ok run' ∧ Sorted run' ∧
      ActsAll ops (place run) (place run') := by
  induction ops generalizing run with
  | nil => exact .inr ⟨run, rfl, hs, .nil _⟩
  | cons op ops ih =>
    have hops : ∀ op ∈ ops, op.Fits := fun o ho => hfits o (List.mem_cons_of_mem op ho)
    rcases op.apply_spec alloc hs hc (hfits op List.mem_cons_self) with
      ⟨left, heq, hleft⟩ | ⟨run', heq, hs', hc', hacts⟩
    · refine .inl ⟨left, ?_, hleft⟩
      rw [applyAll, heq]
    · rw [applyAll, heq]
      rcases ih hs' hc' hops with ⟨left, hall, hleft⟩ | ⟨run'', hall, hs'', hrest⟩
      · exact .inl ⟨left, hall, hleft⟩
      · exact .inr ⟨run'', hall, hs'', .cons hacts hrest⟩

/-- **Store.** After any calls a tree has its runs in order, and a lookup finds what the calls have
left at a cluster and for how long it goes on. Only an allocation can make a call fail. -/
theorem store_spec (alloc : Nat → Bool) (ops : List Op) (hfits : ∀ op ∈ ops, op.Fits) :
    (∃ left, applyAll alloc ops [] = .error left ∧ (∃ n, alloc n = false) ∧ Sorted left) ∨
    ∃ run m, applyAll alloc ops [] = .ok run ∧ Sorted run ∧ ActsAll ops (fun _ => none) m ∧
      (∀ v, m v = none → runLookupEntry run v = none) ∧
      (∀ v c, m v = some c → ∃ n i, runLookupEntry run v = some (c.getD sparseLcn, n, i) ∧ 0 < n ∧
        ∀ k, k < n → m (v + k) = some (c.map fun c => clstAdd c k)) ∧
      ∀ svcn evcn, svcn ≤ evcn →
        (runIsMappedFull run svcn evcn = true ↔ ∀ v, svcn ≤ v → v ≤ evcn → m v ≠ none) := by
  have hempty : place ([] : List NtfsRun) = fun _ => none := rfl
  rcases applyAll_spec alloc sorted_nil (fun v h => nomatch h) hfits with
    hfail | ⟨run, heq, hs, hacts⟩
  · exact .inl hfail
  · refine .inr ⟨run, place run, heq, hs, hempty ▸ hacts, fun v hv => ?_, fun v c hv => ?_,
      fun svcn evcn hle => runIsMappedFull_iff hs hle⟩
    · rcases runLookupEntry_spec hs v with ⟨-, hnone⟩ | ⟨c, n, i, hplace, -⟩
      · exact hnone
      · rw [hv] at hplace
        cases hplace
    · rcases runLookupEntry_spec hs v with ⟨hnone, -⟩ | ⟨c', n, i, hplace, hentry, hpos, hon⟩
      · rw [hv] at hnone
        cases hnone
      · obtain rfl : c = c' := Option.some.inj (hv.symm.trans hplace)
        exact ⟨n, i, hentry, hpos, hon⟩

theorem store_spec_small :
    ∃ run, applyAll (fun _ => true) [.add ⟨0, 10, 100⟩, .add ⟨4, 2, 500⟩, .collapse 3 2] [] = .ok run ∧
      Sorted run ∧ runLookupEntry run 3 = some (501, 1, 1) ∧ runIsMappedFull run 0 7 = true := by
  have hfits : ∀ op ∈ [Op.add ⟨0, 10, 100⟩, .add ⟨4, 2, 500⟩, .collapse 3 2], op.Fits := by
    intro op hop
    simp only [List.mem_cons, List.not_mem_nil, or_false] at hop
    rcases hop with rfl | rfl | rfl
    · exact ⟨⟨by decide, by decide, by decide⟩, .inr (by decide)⟩
    · exact ⟨⟨by decide, by decide, by decide⟩, .inr (by decide)⟩
    · exact ⟨by decide, by decide⟩
  rcases store_spec (fun _ => true) _ hfits with ⟨-, -, ⟨n, hn⟩, -⟩ | ⟨run, -, heq, hs, -⟩
  · cases hn
  · have hrun : Except.ok run = .ok [⟨0, 3, 100⟩, ⟨3, 1, 501⟩, ⟨4, 4, 106⟩] := heq.symm.trans rfl
    obtain rfl := Except.ok.inj hrun
    exact ⟨_, heq, hs, by decide, by decide⟩

end

end UolaOs.Ntfs3
