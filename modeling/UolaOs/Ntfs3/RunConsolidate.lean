import UolaOs.Ntfs3.RunLookup

/-!
# Consolidating runs

* `consolidate_spec`: a run swallows what it lies over, and the first one to have a cluster says
  where it is;
* `Over.normalize`: what the two calls at the end of an insertion leave.
-/

namespace UolaOs.Ntfs3

/-- A run that reaches at least as far both ways. -/
def Covers (run : List NtfsRun) (s : NtfsRun) : Prop :=
  ∃ t ∈ run, t.vcn ≤ s.vcn ∧ s.vcn + s.len ≤ t.vcn + t.len

theorem covers_of_mem {run : List NtfsRun} {s : NtfsRun} (h : s ∈ run) : Covers run s :=
  ⟨s, h, Nat.le_refl _, Nat.le_refl _⟩

theorem Covers.mono {a b : List NtfsRun} {s : NtfsRun} (h : Covers a s) (hab : ∀ t ∈ a, t ∈ b) :
    Covers b s := by
  obtain ⟨t, ht, hle⟩ := h
  exact ⟨t, hab t ht, hle⟩

theorem Covers.within {run : List NtfsRun} {s t : NtfsRun} (h : Covers run t) (hle : t.vcn ≤ s.vcn)
    (hend : s.vcn + s.len ≤ t.vcn + t.len) : Covers run s := by
  obtain ⟨u, hu, hul, hue⟩ := h
  exact ⟨u, hu, Nat.le_trans hul hle, Nat.le_trans hend hue⟩

/-- The run that `r` meets can be cut where `r` ends. -/
def Cuttable (r s : NtfsRun) : Prop :=
  s.vcn < r.vcn + r.len → s.Has (r.vcn + r.len) → s.place (r.vcn + r.len) ≠ some sparseLcn

/-- The places are the same ones, and the runs are in order now. -/
structure Settles (run run' : List NtfsRun) : Prop where
  sorted : Sorted run'
  place : ∀ v, place run' v = place run v

/-- `n` goes on where `r` ends. -/
structure Joins (r n : NtfsRun) : Prop where
  vcn : n.vcn = r.vcn + r.len
  sparse : n.lcn = sparseLcn ↔ r.lcn = sparseLcn
  lcn : n.lcn = sparseLcn ∨ n.lcn = clstAdd r.lcn r.len

/-- What is left of a run behind `r`. -/
structure Rest (r n n' : NtfsRun) : Prop where
  good : n'.Good
  vcn : n'.vcn = r.vcn + r.len
  next : n'.vcn + n'.len = n.vcn + n.len
  place : ∀ v, r.vcn + r.len ≤ v → n'.place v = n.place v

section
variable {r n n' s : NtfsRun} {a run rest : List NtfsRun} {v : Nat}

/-! ## Two runs -/

theorem lcnAt_sparse {dl : Nat} (hr : r.place (r.vcn + dl) ≠ some sparseLcn) :
    r.lcnAt dl = sparseLcn ↔ r.lcn = sparseLcn := by
  rw [NtfsRun.lcnAt]
  rw [NtfsRun.place, Nat.add_sub_cancel_left] at hr
  split
  · rename_i h
    exact iff_of_true rfl h
  · rename_i h
    rw [if_neg h] at hr
    exact iff_of_false (fun heq => hr (congrArg some heq)) h

theorem cut_rest (hr : r.Good) (hn : n.Good) (hle : n.vcn ≤ r.vcn + r.len)
    (hlt : r.vcn + r.len < n.vcn + n.len) (hcut : n.place (r.vcn + r.len) ≠ some sparseLcn) :
    Rest r n (n.cut (clstSub r.next n.vcn)) := by
  have hdl : clstSub r.next n.vcn = r.vcn + r.len - n.vcn := by
    rw [hr.next]
    exact clstSub_eq hle hr.lt
  have hend := hn.lt
  rw [hdl]
  have hvcn : (n.cut (r.vcn + r.len - n.vcn)).vcn = r.vcn + r.len :=
    Eq.trans (clstAdd_eq (by omega)) (Nat.add_sub_cancel' hle)
  have hlen : (n.cut (r.vcn + r.len - n.vcn)).len = n.len - (r.vcn + r.len - n.vcn) :=
    clstSub_eq (by omega) (by omega)
  have hlcn : (n.cut (r.vcn + r.len - n.vcn)).lcn = sparseLcn ↔ n.lcn = sparseLcn := by
    apply lcnAt_sparse
    rwa [Nat.add_sub_cancel' hle]
  refine ⟨⟨?_, ?_, ?_⟩, hvcn, ?_, fun v hv => ?_⟩
  · rw [hlen]
    omega
  · rw [hvcn, hlen]
    omega
  · rw [NtfsRun.cut, NtfsRun.lcnAt]
    split
    · exact Nat.sub_lt (by decide) (by decide)
    · exact Nat.mod_lt _ (by decide)
  · rw [hvcn, hlen]
    omega
  · rw [NtfsRun.place, NtfsRun.place, hvcn]
    by_cases hs : n.lcn = sparseLcn
    · rw [if_pos hs, if_pos (hlcn.mpr hs)]
    · have hat : (n.cut (r.vcn + r.len - n.vcn)).lcn = clstAdd n.lcn (r.vcn + r.len - n.vcn) :=
        if_neg hs
      rw [if_neg hs, if_neg (fun h => hs (hlcn.mp h)), hat, clstAdd_assoc]
      congr 2
      omega

theorem place_rest (h : Rest r n n') (hle : r.vcn ≤ n.vcn) (hn : n.vcn ≤ r.vcn + r.len)
    (rest : List NtfsRun) (v : Nat) :
    place (r :: n' :: rest) v = place (r :: n :: rest) v := by
  rw [place_cons, place_cons, place_cons, place_cons]
  by_cases hv : r.Has v
  · rw [if_pos hv, if_pos hv]
  · rw [if_neg hv, if_neg hv]
    have hvcn := h.vcn
    have hnext := h.next
    have hiff : n'.Has v ↔ n.Has v := by
      simp only [NtfsRun.Has] at hv ⊢
      omega
    by_cases hhas : n'.Has v
    · rw [if_pos hhas, if_pos (hiff.mp hhas), h.place v (hvcn ▸ hhas.1)]
    · rw [if_neg hhas, if_neg (fun hh => hhas (hiff.mpr hh))]

theorem join_good (hr : r.Good) (hn : n.Good) (h : Joins r n) :
    NtfsRun.Good { r with len := r.len + n.len } := by
  have hpos := hr.pos
  have hlt := hn.lt
  have hvcn := h.vcn
  exact ⟨Nat.add_pos_left hpos _, show r.vcn + (r.len + n.len) < _ by omega, hr.lcn⟩

theorem place_join (h : Joins r n) (rest : List NtfsRun) (v : Nat) :
    place ({ r with len := r.len + n.len } :: rest) v = place (r :: n :: rest) v := by
  have hvcn := h.vcn
  rw [place_cons, place_cons, place_cons]
  by_cases hr : r.Has v
  · have hhas : NtfsRun.Has { r with len := r.len + n.len } v :=
      ⟨hr.1, Nat.lt_of_lt_of_le hr.2 (Nat.add_le_add_left (Nat.le_add_right _ _) _)⟩
    rw [if_pos hr, if_pos hhas]
    rfl
  · rw [if_neg hr]
    by_cases hn : n.Has v
    · have hbetween := hn
      simp only [NtfsRun.Has] at hr hbetween
      have hhas : NtfsRun.Has { r with len := r.len + n.len } v :=
        ⟨show r.vcn ≤ v by omega, show v < r.vcn + (r.len + n.len) by omega⟩
      rw [if_pos hn, if_pos hhas, NtfsRun.place, NtfsRun.place]
      rcases h.lcn with hs | hl
      · rw [if_pos hs, if_pos (h.sparse.mp hs)]
      · by_cases hs : n.lcn = sparseLcn
        · rw [if_pos hs, if_pos (h.sparse.mp hs)]
        · rw [if_neg hs, if_neg (fun hh => hs (h.sparse.mpr hh)), hl, clstAdd_assoc]
          show some (some (clstAdd r.lcn (v - r.vcn))) = _
          congr 3
          omega
    · have hnot : ¬ NtfsRun.Has { r with len := r.len + n.len } v := by
        intro hh
        have h1 : r.vcn ≤ v := hh.1
        have h2 : v < r.vcn + (r.len + n.len) := hh.2
        simp only [NtfsRun.Has] at hr hn
        omega
      rw [if_neg hn, if_neg hnot]

/-! ## One round -/

/-- What one round does with the next run `n`. -/
theorem consolidate_cons (hr : r.Good) (hn : n.Good) (hcut : Cuttable r n) (rest : List NtfsRun) :
    (r.vcn + r.len < n.vcn ∧ consolidate r (n :: rest) = r :: n :: rest) ∨
      (n.vcn < r.vcn + r.len ∧ n.vcn + n.len ≤ r.vcn + r.len ∧
        consolidate r (n :: rest) = consolidate r rest) ∨
      n.vcn ≤ r.vcn + r.len ∧ ∃ n', Rest r n n' ∧
        (consolidate r (n :: rest) = r :: consolidate n' rest ∨
          consolidate r (n :: rest) = r :: n' :: rest ∨
          Joins r n' ∧
            consolidate r (n :: rest) = consolidate { r with len := r.len + n'.len } rest) := by
  have hrlt := hr.lt
  have hnlt := hn.lt
  have hnpos := hn.pos
  rw [consolidate, hr.next]
  by_cases hapart : r.vcn + r.len < n.vcn
  · exact .inl ⟨hapart, if_pos hapart⟩
  · have hnle := Nat.le_of_not_lt hapart
    have hdl : clstSub (r.vcn + r.len) n.vcn = r.vcn + r.len - n.vcn := clstSub_eq hnle hr.lt
    rw [if_neg hapart]
    by_cases hin : 0 < clstSub (r.vcn + r.len) n.vcn ∧ n.len ≤ clstSub (r.vcn + r.len) n.vcn
    · refine .inr (.inl ⟨?_, ?_, if_pos hin⟩)
      · omega
      · omega
    · have hlt : r.vcn + r.len < n.vcn + n.len := by omega
      refine .inr (.inr ⟨hnle, ?_⟩)
      dsimp only
      rw [if_neg hin]
      generalize hn' : (if 0 < clstSub (r.vcn + r.len) n.vcn then
        n.cut (clstSub (r.vcn + r.len) n.vcn) else n) = n'
      have hrest : Rest r n n' := by
        rw [← hn']
        split
        · rename_i hpos
          rw [← hr.next]
          exact cut_rest hr hn hnle hlt (hcut (by omega) ⟨hnle, hlt⟩)
        · exact ⟨hn, by omega, rfl, fun _ _ => rfl⟩
      refine ⟨n', hrest, ?_⟩
      by_cases hsparse : n'.lcn = sparseLcn ↔ r.lcn = sparseLcn
      · rw [if_neg (not_not_intro hsparse)]
        by_cases hlcn : n'.lcn ≠ sparseLcn ∧ n'.lcn ≠ clstAdd r.lcn r.len
        · exact .inr (.inl (if_pos hlcn))
        · refine .inr (.inr ⟨⟨hrest.vcn, hsparse, by tauto⟩, ?_⟩)
          have hvcn := hrest.vcn
          have hnext := hrest.next
          rw [if_neg hlcn, clstAdd_eq (by omega)]
      · exact .inl (if_pos hsparse)

/-! ## The rounds -/

theorem place_within (hle : r.vcn ≤ n.vcn) (hend : n.vcn + n.len ≤ r.vcn + r.len)
    (rest : List NtfsRun) (v : Nat) : place (r :: n :: rest) v = place (r :: rest) v := by
  rw [place_cons, place_cons, place_cons]
  by_cases hr : r.Has v
  · rw [if_pos hr, if_pos hr]
  · have hn : ¬ n.Has v := fun hn =>
      hr ⟨Nat.le_trans hle hn.1, Nat.lt_of_lt_of_le hn.2 hend⟩
    rw [if_neg hr, if_neg hr, if_neg hn]

theorem cuttable_of_le (h : r.vcn + r.len ≤ s.vcn) : Cuttable r s := fun hlt => by omega

/-- What consolidating from `r` on leaves. -/
structure Consolidated (r : NtfsRun) (rest run : List NtfsRun) : Prop where
  settles : Settles (r :: rest) run
  starts : ∀ s ∈ run, r.vcn ≤ s.vcn
  covers : Covers run r

/-- Nothing is left to be done. -/
theorem consolidated_apart (hr : r.Good) (hs : Sorted rest)
    (hapart : ∀ s ∈ rest, r.vcn + r.len ≤ s.vcn) : Consolidated r rest (r :: rest) := by
  refine ⟨⟨sorted_cons.mpr ⟨hr, hs, hapart⟩, fun _ => rfl⟩, fun s hs => ?_,
    covers_of_mem List.mem_cons_self⟩
  rcases List.mem_cons.mp hs with rfl | hs
  · exact Nat.le_refl _
  · exact Nat.le_trans (Nat.le_add_right _ _) (hapart s hs)

theorem Consolidated.remove (hle : r.vcn ≤ n.vcn) (hend : n.vcn + n.len ≤ r.vcn + r.len)
    (h : Consolidated r rest run) : Consolidated r (n :: rest) run := by
  refine ⟨⟨h.settles.sorted, fun v => ?_⟩, h.starts, h.covers⟩
  rw [h.settles.place, place_within hle hend]

theorem Consolidated.skip (hr : r.Good) (hle : r.vcn ≤ n.vcn) (hn : n.vcn ≤ r.vcn + r.len)
    (hrest : Rest r n n') (h : Consolidated n' rest run) : Consolidated r (n :: rest) (r :: run) := by
  have hvcn := hrest.vcn
  refine ⟨⟨sorted_cons.mpr ⟨hr, h.settles.sorted, fun s hs => ?_⟩, fun v => ?_⟩, fun s hs => ?_,
    covers_of_mem List.mem_cons_self⟩
  · exact hvcn ▸ h.starts s hs
  · rw [← place_rest hrest hle hn, place_cons, h.settles.place, ← place_cons]
  · rcases List.mem_cons.mp hs with rfl | hs
    · exact Nat.le_refl _
    · have hstart := h.starts s hs
      omega

theorem Consolidated.join (hle : r.vcn ≤ n.vcn) (hn : n.vcn ≤ r.vcn + r.len)
    (hrest : Rest r n n') (hjoin : Joins r n')
    (h : Consolidated { r with len := r.len + n'.len } rest run) :
    Consolidated r (n :: rest) run := by
  refine ⟨⟨h.settles.sorted, fun v => ?_⟩, h.starts, h.covers.within (Nat.le_refl _)
    (Nat.add_le_add_left (Nat.le_add_right _ _) _)⟩
  rw [h.settles.place, place_join hjoin, place_rest hrest hle hn]

/-- A run swallows what it lies over, and says where its clusters are. -/
theorem consolidate_spec (hr : r.Good) (hs : Sorted rest) (hle : ∀ s ∈ rest, r.vcn ≤ s.vcn)
    (hcut : ∀ s ∈ rest, Cuttable r s) : Consolidated r rest (consolidate r rest) := by
  induction rest generalizing r with
  | nil => exact consolidated_apart hr sorted_nil fun s hs => (List.not_mem_nil hs).elim
  | cons n rest ih =>
    obtain ⟨hn, hrest, hapart⟩ := sorted_cons.mp hs
    have hrn := hle n List.mem_cons_self
    have hlater : ∀ s ∈ rest, r.vcn ≤ s.vcn := fun s h => hle s (List.mem_cons_of_mem n h)
    rcases consolidate_cons hr hn (hcut n List.mem_cons_self) rest with
      ⟨hfar, heq⟩ | ⟨-, hend, heq⟩ | ⟨hnle, n', hleft, hcase⟩
    · rw [heq]
      refine consolidated_apart hr hs fun s h => ?_
      rcases List.mem_cons.mp h with rfl | h
      · exact Nat.le_of_lt hfar
      · have happart := hapart s h
        omega
    · rw [heq]
      exact (ih hr hrest hlater fun s h => hcut s (List.mem_cons_of_mem n h)).remove hrn hend
    · have hvcn := hleft.vcn
      have hnext := hleft.next
      have hbehind : ∀ s ∈ rest, n'.vcn + n'.len ≤ s.vcn := fun s h => hnext ▸ hapart s h
      have hskip : ∀ run, Consolidated n' rest run → Consolidated r (n :: rest) (r :: run) :=
        fun run h => h.skip hr hrn hnle hleft
      rcases hcase with heq | heq | ⟨hjoin, heq⟩
      · rw [heq]
        exact hskip _ (ih hleft.good hrest
          (fun s h => Nat.le_trans (Nat.le_add_right _ _) (hbehind s h))
          fun s h => cuttable_of_le (hbehind s h))
      · rw [heq]
        exact hskip _ (consolidated_apart hleft.good hrest hbehind)
      · rw [heq]
        have hgood := join_good hr hleft.good hjoin
        refine (ih hgood hrest hlater fun s h => cuttable_of_le ?_).join hrn hnle hleft hjoin
        have happart := hapart s h
        exact show r.vcn + (r.len + n'.len) ≤ s.vcn by omega

/-- No run that is apart is lost. -/
theorem consolidate_covers (hs : Sorted (r :: rest)) :
    ∀ s ∈ r :: rest, Covers (consolidate r rest) s := by
  induction rest generalizing r with
  | nil => exact fun s => covers_of_mem
  | cons n rest ih =>
    obtain ⟨hr, hrest, hapart⟩ := sorted_cons.mp hs
    obtain ⟨hn, hafter, hbehind⟩ := sorted_cons.mp hrest
    have hrn := hapart n List.mem_cons_self
    have hrpos := hr.pos
    have hnpos := hn.pos
    rcases consolidate_cons hr hn (cuttable_of_le hrn) rest with
      ⟨-, heq⟩ | ⟨hlt, -, -⟩ | ⟨-, n', hleft, hcase⟩
    · rw [heq]
      exact fun s => covers_of_mem
    · omega
    · have hvcn := hleft.vcn
      have hnext := hleft.next
      have hn' : Sorted (n' :: rest) :=
        sorted_cons.mpr ⟨hleft.good, hafter, fun s h => hnext ▸ hbehind s h⟩
      have hskip : ∀ run, (∀ s ∈ n' :: rest, Covers run s) →
          ∀ s ∈ r :: n :: rest, Covers (r :: run) s := by
        intro run h s hmem
        have hmono : ∀ t, Covers run t → Covers (r :: run) t :=
          fun t ht => ht.mono fun u => List.mem_cons_of_mem r
        rcases List.mem_cons.mp hmem with rfl | hmem
        · exact covers_of_mem List.mem_cons_self
        · rcases List.mem_cons.mp hmem with rfl | hmem
          · exact hmono _ ((h n' List.mem_cons_self).within (by omega) (Nat.le_of_eq hnext.symm))
          · exact hmono s (h s (List.mem_cons_of_mem n' hmem))
      rcases hcase with heq | heq | ⟨hjoin, heq⟩
      · rw [heq]
        exact hskip _ (ih hn')
      · rw [heq]
        exact hskip _ fun s => covers_of_mem
      · rw [heq]
        have hjoined : Sorted ({ r with len := r.len + n'.len } :: rest) := by
          refine sorted_cons.mpr ⟨join_good hr hleft.good hjoin, hafter, fun s h => ?_⟩
          have happart := hbehind s h
          exact show r.vcn + (r.len + n'.len) ≤ s.vcn by omega
        intro s hmem
        have hcover := ih hjoined
        have hfirst := hcover _ List.mem_cons_self
        rcases List.mem_cons.mp hmem with rfl | hmem
        · exact hfirst.within (Nat.le_refl _) (Nat.add_le_add_left (Nat.le_add_right _ _) _)
        · rcases List.mem_cons.mp hmem with rfl | hmem
          · exact hfirst.within (show r.vcn ≤ s.vcn by omega)
              (show s.vcn + s.len ≤ r.vcn + (r.len + n'.len) by omega)
          · exact hcover s (List.mem_cons_of_mem _ hmem)

theorem Rest.eq (h : Rest r n n') (hn : n.Good) (hvcn : n.vcn = r.vcn + r.len) : n' = n := by
  have hv := h.vcn
  have hnext := h.next
  have hplace := h.place n.vcn (Nat.le_of_eq hvcn.symm)
  rw [NtfsRun.place, NtfsRun.place, show n'.vcn = n.vcn by omega, Nat.sub_self,
    clstAdd_eq h.good.lcn, clstAdd_eq hn.lcn] at hplace
  have hlcn : n'.lcn = n.lcn := by
    split at hplace
    · split at hplace
      · omega
      · cases hplace
    · split at hplace
      · cases hplace
      · exact Option.some.inj hplace
  obtain ⟨vcn, len, lcn⟩ := n
  obtain ⟨vcn', len', lcn'⟩ := n'
  simp only [NtfsRun.mk.injEq] at hv hnext hvcn hlcn ⊢
  omega

/-! ## Normalizing -/

/-- Runs in order, of which `r` may lie over those behind it. -/
structure Over (a : List NtfsRun) (r : NtfsRun) (rest : List NtfsRun) : Prop where
  before : Sorted a
  good : r.Good
  after : Sorted rest
  apart : ∀ p ∈ a, p.vcn + p.len ≤ r.vcn
  le : ∀ s ∈ rest, r.vcn ≤ s.vcn
  cut : ∀ s ∈ rest, Cuttable r s

theorem Sorted.over (h : Sorted (a ++ r :: rest)) : Over a r rest := by
  obtain ⟨hbefore, hrest, hab⟩ := sorted_append.mp h
  obtain ⟨hr, hafter, hle⟩ := sorted_cons.mp hrest
  exact ⟨hbefore, hr, hafter, fun p hp => hab p hp r List.mem_cons_self,
    fun s hs => Nat.le_trans (Nat.le_add_right _ _) (hle s hs), fun s hs => cuttable_of_le (hle s hs)⟩

theorem settles_append {b c : List NtfsRun} (ha : Sorted a) (h : Settles b c)
    (hac : ∀ p ∈ a, ∀ s ∈ c, p.vcn + p.len ≤ s.vcn) : Settles (a ++ b) (a ++ c) := by
  refine ⟨sorted_append.mpr ⟨ha, h.sorted, hac⟩, fun v => ?_⟩
  rw [place_append, place_append, h.place]

theorem Over.consolidate (h : Over a r rest) :
    Settles (a ++ r :: rest) (a ++ consolidate r rest) ∧ Covers (a ++ consolidate r rest) r := by
  have hspec := consolidate_spec h.good h.after h.le h.cut
  exact ⟨settles_append h.before hspec.settles fun p hp s hs =>
      Nat.le_trans (h.apart p hp) (hspec.starts s hs),
    hspec.covers.mono fun t => List.mem_append_right a⟩

theorem runConsolidate_append (a : List NtfsRun) (r : NtfsRun) (rest : List NtfsRun) :
    runConsolidate (a ++ r :: rest) a.length = a ++ UolaOs.Ntfs3.consolidate r rest := by
  rw [runConsolidate, List.drop_left, List.take_left]

/-- Runs in order stay so, and none is lost. -/
theorem runConsolidate_sorted (hs : Sorted run) (index : Nat) :
    Settles run (runConsolidate run index) ∧ ∀ s ∈ run, Covers (runConsolidate run index) s := by
  rw [runConsolidate]
  split
  · exact ⟨⟨hs, fun _ => rfl⟩, fun s => covers_of_mem⟩
  · rename_i r rest hdrop
    have heq : run = run.take index ++ r :: rest := by rw [← hdrop, List.take_append_drop]
    generalize run.take index = a at heq
    subst heq
    have hover := hs.over
    refine ⟨hover.consolidate.1, fun s hmem => ?_⟩
    rcases List.mem_append.mp hmem with hmem | hmem
    · exact covers_of_mem (List.mem_append_left _ hmem)
    · exact (consolidate_covers (sorted_append.mp hs).2.1 s hmem).mono
        fun t => List.mem_append_right a

theorem Settles.trans {b c : List NtfsRun} (h : Settles a b) (h' : Settles b c) : Settles a c :=
  ⟨h'.sorted, fun v => (h'.place v).trans (h.place v)⟩

theorem settles_again {l : List NtfsRun} (h : Settles run l) (hr : Covers l r) (index : Nat) :
    Settles run (runConsolidate l index) ∧ Covers (runConsolidate l index) r := by
  obtain ⟨hsettles, hcovers⟩ := runConsolidate_sorted h.sorted index
  obtain ⟨t, ht, hle, hend⟩ := hr
  exact ⟨h.trans hsettles, (hcovers t ht).within hle hend⟩

/-- The call for the run before `r` leaves everything as it is, or consolidates `r` as well. -/
theorem Over.previous {p : NtfsRun} (h : Over (a ++ [p]) r rest) :
    runConsolidate (a ++ p :: r :: rest) a.length = a ++ p :: r :: rest ∨
      Settles (a ++ p :: r :: rest) (runConsolidate (a ++ p :: r :: rest) a.length) ∧
        Covers (runConsolidate (a ++ p :: r :: rest) a.length) r := by
  obtain ⟨hbefore, hp, hap⟩ := sorted_append.mp h.before
  have hp := hp.good p List.mem_cons_self
  have hpr := h.apart p (List.mem_append_right a List.mem_cons_self)
  have hpos := hp.pos
  have hle : ∀ s ∈ rest, p.vcn ≤ s.vcn := fun s hs => Nat.le_trans (by omega) (h.le s hs)
  have happend : ∀ l, Consolidated p (r :: rest) l → Settles (a ++ p :: r :: rest) (a ++ l) :=
    fun l hl => settles_append hbefore hl.settles fun q hq s hs =>
      Nat.le_trans (hap q hq p List.mem_cons_self) (hl.starts s hs)
  rw [runConsolidate_append]
  rcases consolidate_cons hp h.good (cuttable_of_le hpr) rest with
    ⟨-, heq⟩ | ⟨hlt, -, -⟩ | ⟨hrp, r', hleft, hcase⟩
  · exact .inl (congrArg (a ++ ·) heq)
  · omega
  · have hvcn : r.vcn = p.vcn + p.len := Nat.le_antisymm hrp hpr
    have hr' := hleft.eq h.good hvcn
    subst hr'
    rcases hcase with heq | heq | ⟨hjoin, heq⟩
    · have hspec := consolidate_spec h.good h.after h.le h.cut
      have hskip := hspec.skip hp (by omega) hrp hleft
      rw [heq]
      exact .inr ⟨happend _ hskip,
        hspec.covers.mono fun t ht => List.mem_append_right a (List.mem_cons_of_mem p ht)⟩
    · exact .inl (congrArg (a ++ ·) heq)
    · have hgood := join_good hp h.good hjoin
      have hend : ∀ s ∈ rest, Cuttable { p with len := p.len + r'.len } s := by
        intro s hs
        have hcut := h.cut s hs
        rw [Cuttable, hvcn] at hcut
        rw [Cuttable, ← Nat.add_assoc]
        exact hcut
      have hspec := consolidate_spec hgood h.after hle hend
      rw [heq]
      refine .inr ⟨happend _ (hspec.join (by omega) hrp hleft hjoin), ?_⟩
      refine (hspec.covers.within (show p.vcn ≤ r'.vcn by omega) ?_).mono
        fun t => List.mem_append_right a
      exact show r'.vcn + r'.len ≤ p.vcn + (p.len + r'.len) by omega

/-- **Normalizing.** The two calls put the runs in order, from `r` on or from the one before it. -/
theorem Over.normalize (h : Over a r rest) {i : Nat} (hi : i = a.length ∨ i + 1 = a.length) :
    Settles (a ++ r :: rest) (UolaOs.Ntfs3.normalize (a ++ r :: rest) i) ∧
      Covers (UolaOs.Ntfs3.normalize (a ++ r :: rest) i) r := by
  rw [UolaOs.Ntfs3.normalize]
  rcases hi with rfl | hi
  · rw [runConsolidate_append]
    exact settles_again h.consolidate.1 h.consolidate.2 _
  · rcases List.eq_nil_or_concat a with rfl | ⟨b, p, rfl⟩
    · cases hi
    · obtain rfl : i = b.length := by
        rw [List.length_concat] at hi
        omega
      rw [List.concat_eq_append] at h ⊢
      rw [List.append_assoc, List.singleton_append]
      rcases h.previous with heq | ⟨hsettles, hcovers⟩
      · rw [heq]
        have hsame := runConsolidate_append (b ++ [p]) r rest
        rw [List.append_assoc, List.singleton_append, List.length_append] at hsame
        have hboth := h.consolidate
        rw [← hsame, List.append_assoc, List.singleton_append] at hboth
        exact hboth
      · exact settles_again hsettles hcovers _

end

end UolaOs.Ntfs3
