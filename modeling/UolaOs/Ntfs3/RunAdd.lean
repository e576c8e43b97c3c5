import UolaOs.Ntfs3.RunConsolidate

/-!
# Adding runs

* `Start`: where an insertion starts;
* `addEntry_spec`: what it leaves before the tail, and the tail;
* `runAddEntry_spec`: the clusters of the new run are where it says, and all the others where they
  were.
-/

namespace UolaOs.Ntfs3

/-- A run to be added: it does not wrap, and does not reach the number of sparse clusters. -/
structure NtfsRun.Fits (r : NtfsRun) : Prop where
  good : r.Good
  lcn : r.lcn = sparseLcn ∨ r.lcn + r.len ≤ sparseLcn

/-- No cluster is where sparse ones are said to be. -/
def Clean (run : List NtfsRun) : Prop := ∀ v, place run v ≠ some (some sparseLcn)

/-- Where `run_add_entry` starts. -/
inductive Start (run : List NtfsRun) (vcn lcn : Nat) : Bool × Nat → Prop
  | hit (pre post : List NtfsRun) (r : NtfsRun) (h : run = pre ++ r :: post) (hr : r.Has vcn) :
      Start run vcn lcn (true, pre.length)
  | next (pre post : List NtfsRun) (r : NtfsRun) (h : run = pre ++ r :: post)
      (hend : r.vcn + r.len = vcn) (hlcn : r.continues vcn lcn) (hpost : ∀ s ∈ post, vcn < s.vcn) :
      Start run vcn lcn (true, pre.length)
  | miss (pre post : List NtfsRun) (h : run = pre ++ post)
      (hpre : ∀ r ∈ pre, r.vcn + r.len ≤ vcn) (hpost : ∀ r ∈ post, vcn < r.vcn) :
      Start run vcn lcn (false, pre.length)

/-- How often the tails behind `v` have to be added again. -/
def depth (run : List NtfsRun) (v : Nat) : Nat :=
  if place run v = none then 0 else if ∃ r ∈ run, r.vcn < v ∧ r.Has v then 1 else 2

/-- The part of a run that the new one cut off. -/
structure Tail (run : List NtfsRun) (new : NtfsRun) (run' : List NtfsRun) (t : NtfsRun) : Prop where
  good : t.Good
  vcn : t.vcn = new.vcn + new.len
  kept : ∀ v, t.Has v → place run v = some (t.place v)
  sorted : Sorted run'
  place : ∀ v, ¬ t.Has v → place run' v = place (new :: run) v
  lt : depth run' t.vcn < depth run new.vcn

/-- The runs that are left when there is no memory. -/
structure Failed (alloc : Nat → Bool) (run : List NtfsRun) (vcn : Nat) (left : List NtfsRun) :
    Prop where
  alloc : ∃ n, alloc n = false
  sorted : Sorted left
  place : ∀ v, v < vcn → place left v = place run v

inductive Added (alloc : Nat → Bool) (run : List NtfsRun) (new : NtfsRun) :
    Except (List NtfsRun) (List NtfsRun × Option NtfsRun) → Prop
  | failed (left : List NtfsRun) (h : Failed alloc run new.vcn left) :
      Added alloc run new (.error left)
  | done (run' : List NtfsRun) (h : Settles (new :: run) run') : Added alloc run new (.ok (run', none))
  | tail (run' : List NtfsRun) (t : NtfsRun) (h : Tail run new run' t) :
      Added alloc run new (.ok (run', some t))

/-- The part of a run before `v`. -/
def NtfsRun.until (r : NtfsRun) (v : Nat) : NtfsRun := ⟨r.vcn, v - r.vcn, r.lcn⟩

section
variable {run pre post : List NtfsRun} {r new : NtfsRun} {v vcn lcn len : Nat}

/-! ## The start -/

theorem getD_append (pre : List NtfsRun) (r : NtfsRun) (post : List NtfsRun) :
    (pre ++ r :: post).getD pre.length ⟨0, 0, 0⟩ = r := by
  rw [List.getD_eq_getElem?_getD, List.getElem?_append_right (Nat.le_refl _), Nat.sub_self]
  rfl

theorem set_append (pre : List NtfsRun) (r s : NtfsRun) (post : List NtfsRun) :
    (pre ++ r :: post).set pre.length s = pre ++ s :: post := by
  rw [List.set_append_right _ _ (Nat.le_refl _), Nat.sub_self, List.set_cons_zero]

theorem startPoint_spec (hs : Sorted run) (vcn lcn : Nat) :
    Start run vcn lcn (startPoint run vcn lcn) := by
  have hfound := runLookup_spec hs vcn
  rw [startPoint]
  generalize runLookup run vcn = found at hfound
  cases hfound with
  | hit pre post r h hr => exact .hit pre post r h hr
  | miss pre post h hpre hpost =>
    dsimp only
    split
    · rename_i hcond
      obtain ⟨-, hpos, hcont⟩ := hcond
      rcases List.eq_nil_or_concat pre with rfl | ⟨a, r, rfl⟩
      · cases hpos
      · rw [List.concat_eq_append] at h hpre hcont ⊢
        have hlen : (a ++ [r]).length - 1 = a.length := by
          rw [List.length_append]
          rfl
        rw [hlen] at hcont ⊢
        rw [List.append_assoc, List.singleton_append] at h
        subst h
        rw [getD_append] at hcont
        have hgood := hs.good r (List.mem_append_right a List.mem_cons_self)
        exact .next a post r rfl (hgood.next ▸ hcont.1) hcont hpost
    · exact .miss pre post h hpre hpost

/-! ## Changing one run -/

theorem extend_eq (hr : r.Good) (hlt : vcn + len < 2 ^ 32) (hle : vcn ≤ r.vcn + r.len)
    (hvcn : r.vcn ≤ vcn) :
    r.extend vcn len = { r with len := max r.len (vcn + len - r.vcn) } := by
  have hrlt := hr.lt
  rw [NtfsRun.extend, hr.next, clstAdd_eq hlt]
  split
  · have hsub : clstSub (r.vcn + r.len) vcn = r.vcn + r.len - vcn := clstSub_eq hle hrlt
    have hsub' : clstSub len (r.vcn + r.len - vcn) = len - (r.vcn + r.len - vcn) :=
      clstSub_eq (by omega) (by omega)
    have hadd : clstAdd r.len (len - (r.vcn + r.len - vcn)) = r.len + (len - (r.vcn + r.len - vcn)) :=
      clstAdd_eq (by omega)
    rw [hsub, hsub', hadd]
    congr 1
    omega
  · rw [Nat.max_eq_left (by omega)]

/-- The runs before `r` have none of its clusters. -/
theorem place_insert (h : ∀ p ∈ pre, p.vcn + p.len ≤ r.vcn) (post : List NtfsRun) (v : Nat) :
    place (pre ++ r :: post) v = if r.Has v then some (r.place v) else place (pre ++ post) v := by
  rw [place_append, place_append, place_cons]
  by_cases hv : r.Has v
  · have hnone : place pre v = none := by
      apply place_eq_none
      rintro p hp ⟨-, hlt⟩
      have hle := h p hp
      have hge := hv.1
      omega
    rw [hnone, if_pos hv, if_pos hv]
    rfl
  · rw [if_neg hv, if_neg hv]

theorem Sorted.eq_of_has {s : NtfsRun} (hs : Sorted run) (hr : r ∈ run) (hs' : s ∈ run)
    (hrv : r.Has v) (hsv : s.Has v) : r = s := by
  obtain ⟨i, hi, rfl⟩ := List.getElem_of_mem hr
  obtain ⟨j, hj, rfl⟩ := List.getElem_of_mem hs'
  have h1 := hrv.1
  have h2 := hrv.2
  have h3 := hsv.1
  have h4 := hsv.2
  rcases Nat.lt_trichotomy i j with hlt | rfl | hlt
  · have hle := hs.getElem_le hi hj hlt
    omega
  · rfl
  · have hle := hs.getElem_le hj hi hlt
    omega

theorem cuttable_of_place {s : NtfsRun} (hs : Sorted run) (hmem : s ∈ run)
    (hend : place run (r.vcn + r.len) ≠ some (some sparseLcn)) : Cuttable r s := by
  intro _ hhas heq
  obtain ⟨a, b, rfl⟩ := List.append_of_mem hmem
  rw [place_eq_of_mem hs hhas, heq] at hend
  exact hend rfl

/-- One run of a tree in order, with another length and place. -/
theorem over_set {len lcn : Nat} (hs : Sorted (pre ++ r :: post))
    (hgood : NtfsRun.Good ⟨r.vcn, len, lcn⟩)
    (hend : r.vcn + len ≤ r.vcn + r.len ∨
      place (pre ++ r :: post) (r.vcn + len) ≠ some (some sparseLcn)) :
    Over pre ⟨r.vcn, len, lcn⟩ post := by
  have hover := hs.over
  refine ⟨hover.before, hgood, hover.after, hover.apart, hover.le, fun s hmem => ?_⟩
  rcases hend with hend | hend
  · have hle := (sorted_cons.mp (sorted_append.mp hs).2.1).2.2 s hmem
    exact cuttable_of_le (Nat.le_trans hend hle)
  · exact cuttable_of_place hs (List.mem_append_right pre (List.mem_cons_of_mem r hmem)) hend

/-! ## A run behind the others -/

theorem insertRun_append (alloc : Nat → Bool) (pre post : List NtfsRun) (r : NtfsRun) :
    insertRun alloc (pre ++ post) pre.length r =
      if alloc ((pre ++ post).length + 1) then .ok (pre ++ r :: post) else .error (pre ++ post) := by
  rw [insertRun, List.take_left, List.drop_left]

theorem added_miss (alloc : Nat → Bool) (hs : Sorted (pre ++ post)) (hn : new.Good)
    (hend : place (pre ++ post) (new.vcn + new.len) ≠ some (some sparseLcn))
    (hpre : ∀ r ∈ pre, r.vcn + r.len ≤ new.vcn) (hpost : ∀ r ∈ post, new.vcn < r.vcn) :
    Added alloc (pre ++ post) new ((insertRun alloc (pre ++ post) pre.length new).map
      fun run => (normalize run pre.length, none)) := by
  rw [insertRun_append]
  split
  · obtain ⟨hbefore, hafter, -⟩ := sorted_append.mp hs
    have hover : Over pre new post := ⟨hbefore, hn, hafter, hpre,
      fun s hmem => Nat.le_of_lt (hpost s hmem),
      fun s hmem => cuttable_of_place hs (List.mem_append_right pre hmem) hend⟩
    have hsettles := (hover.normalize (.inl rfl)).1
    refine .done _ ⟨hsettles.sorted, fun v => ?_⟩
    rw [hsettles.place, place_insert hpre, place_cons]
  · rename_i halloc
    exact .failed _ ⟨⟨_, Bool.eq_false_of_not_eq_true halloc⟩, hs, fun _ _ => rfl⟩

/-! ## A run that goes on -/

theorem place_of_not_differs (hr : r.Good) (hle : r.vcn ≤ vcn) (hlt : vcn < 2 ^ 32)
    (h : ¬ r.differs vcn lcn) (len : Nat) (hv : vcn ≤ v) :
    NtfsRun.place ⟨vcn, len, lcn⟩ v = r.place v := by
  have hrpos := hr.pos
  rw [NtfsRun.differs, clstSub_eq hle hlt] at h
  have hsparse : lcn = sparseLcn ↔ r.lcn = sparseLcn := Decidable.of_not_not fun hh => h (.inl hh)
  rw [NtfsRun.place, NtfsRun.place]
  by_cases hl : lcn = sparseLcn
  · rw [if_pos hl, if_pos (hsparse.mp hl)]
  · have hat : lcn = clstAdd r.lcn (vcn - r.vcn) :=
      Decidable.of_not_not fun hh => h (.inr ⟨hl, hh⟩)
    rw [if_neg hl, if_neg (fun hh => hl (hsparse.mpr hh))]
    show some (clstAdd lcn (v - vcn)) = _
    rw [hat, clstAdd_assoc]
    congr 2
    omega

/-- The call before `r`, where there is one. -/
theorem normalize_index (pre : List NtfsRun) :
    pre.length - 1 = pre.length ∨ pre.length - 1 + 1 = pre.length := by
  omega

theorem added_kept (alloc : Nat → Bool) (hs : Sorted (pre ++ r :: post)) (hn : new.Good)
    (hend : place (pre ++ r :: post) (new.vcn + new.len) ≠ some (some sparseLcn))
    (hle : r.vcn ≤ new.vcn) (hre : new.vcn ≤ r.vcn + r.len) (h : ¬ r.differs new.vcn new.lcn) :
    Added alloc (pre ++ r :: post) new
      (.ok (normalize (pre ++ r.extend new.vcn new.len :: post) (pre.length - 1), none)) := by
  have hr := hs.over.good
  have hrpos := hr.pos
  have hrlt := hr.lt
  have hnlt := hn.lt
  rw [extend_eq hr hnlt hre hle]
  generalize hm : max r.len (new.vcn + new.len - r.vcn) = m
  have hgood : NtfsRun.Good ⟨r.vcn, m, r.lcn⟩ :=
    ⟨show 0 < m by omega, show r.vcn + m < 2 ^ 32 by omega, hr.lcn⟩
  have hover : Over pre ⟨r.vcn, m, r.lcn⟩ post := by
    refine over_set hs hgood ?_
    by_cases hin : new.vcn + new.len ≤ r.vcn + r.len
    · exact .inl (by omega)
    · rw [show r.vcn + m = new.vcn + new.len by omega]
      exact .inr hend
  have hsettles := (hover.normalize (normalize_index pre)).1
  refine .done _ ⟨hsettles.sorted, fun v => ?_⟩
  rw [hsettles.place, place_cons, place_insert hs.over.apart, place_insert hover.apart]
  by_cases hnew : new.Has v
  · have hhas : NtfsRun.Has ⟨r.vcn, m, r.lcn⟩ v :=
      ⟨Nat.le_trans hle hnew.1, Nat.lt_of_lt_of_le hnew.2 (show _ ≤ r.vcn + m by omega)⟩
    rw [if_pos hnew, if_pos hhas]
    exact congrArg some (place_of_not_differs hr hle (by omega) h new.len hnew.1).symm
  · have hiff : NtfsRun.Has ⟨r.vcn, m, r.lcn⟩ v ↔ r.Has v := by
      simp only [NtfsRun.Has] at hnew ⊢
      omega
    rw [if_neg hnew]
    by_cases hhas : r.Has v
    · rw [if_pos hhas, if_pos (hiff.mpr hhas)]
      rfl
    · rw [if_neg hhas, if_neg (fun hh => hhas (hiff.mp hh))]

/-! ## A run of another place -/

/-- The tail is what is left of a run behind the new one. -/
theorem tail_rest (hr : r.Good) (hn : new.Good) (hhas : r.Has new.vcn)
    (hend : r.Has (new.vcn + new.len) → r.place (new.vcn + new.len) ≠ some sparseLcn)
    (hlt : clstAdd (clstSub new.vcn r.vcn) new.len < r.len) :
    Rest new r (r.cut (clstAdd (clstSub new.vcn r.vcn) new.len)) := by
  have hrlt := hr.lt
  have hnlt := hn.lt
  obtain ⟨hle, hre⟩ := hhas
  have hsub : clstSub new.vcn r.vcn = new.vcn - r.vcn := clstSub_eq hle (by omega)
  have hadd : clstAdd (new.vcn - r.vcn) new.len = new.vcn - r.vcn + new.len :=
    clstAdd_eq (by omega)
  have hcut : clstSub new.next r.vcn = new.vcn - r.vcn + new.len := by
    rw [hn.next, clstSub_eq (by omega) hnlt]
    omega
  rw [hsub, hadd] at hlt ⊢
  rw [← hcut]
  exact cut_rest hn hr (by omega) (by omega) (hend ⟨by omega, by omega⟩)

theorem depth_pos (hs : Sorted (pre ++ r :: post)) (hhas : r.Has v) :
    0 < depth (pre ++ r :: post) v := by
  rw [depth, place_eq_of_mem hs hhas, if_neg (by simp only [reduceCtorEq, not_false_eq_true])]
  split
  · decide
  · decide

theorem tail_of_rest {run' : List NtfsRun} {t : NtfsRun} (hs : Sorted (pre ++ r :: post))
    (hhas : r.Has new.vcn) (ht : Rest new r t) (hs' : Sorted run')
    (hplace : ∀ v, ¬ t.Has v → place run' v = place (new :: (pre ++ r :: post)) v)
    (hlt : depth run' t.vcn < depth (pre ++ r :: post) new.vcn) :
    Tail (pre ++ r :: post) new run' t := by
  refine ⟨ht.good, ht.vcn, fun v hv => ?_, hs', hplace, hlt⟩
  have hvcn := ht.vcn
  have hnext := ht.next
  have hle := hhas.1
  obtain ⟨hge, hlt⟩ := hv
  rw [place_eq_of_mem hs ⟨by omega, by omega⟩, ht.place v (by omega)]

theorem until_has (h : v ≤ r.vcn + r.len) (u : Nat) : (r.until v).Has u ↔ r.Has u ∧ u < v := by
  simp only [NtfsRun.Has, NtfsRun.until]
  omega

theorem until_sorted (hs : Sorted (pre ++ r :: post)) (hlt : r.vcn < v) (hv : v ≤ r.vcn + r.len) :
    Sorted (pre ++ r.until v :: post) := by
  obtain ⟨hbefore, hrest, hab⟩ := sorted_append.mp hs
  obtain ⟨hr, hafter, hbehind⟩ := sorted_cons.mp hrest
  have hrlt := hr.lt
  have hgood : (r.until v).Good :=
    ⟨show 0 < v - r.vcn by omega, show r.vcn + (v - r.vcn) < 2 ^ 32 by omega, hr.lcn⟩
  refine sorted_append.mpr ⟨hbefore, sorted_cons.mpr ⟨hgood, hafter, fun s hmem => ?_⟩, ?_⟩
  · have hle := hbehind s hmem
    exact show r.vcn + (v - r.vcn) ≤ s.vcn by omega
  · intro p hp s hmem
    rcases List.mem_cons.mp hmem with rfl | hmem
    · exact hab p hp r List.mem_cons_self
    · exact hab p hp s (List.mem_cons_of_mem r hmem)

theorem append_singleton (pre : List NtfsRun) (s : NtfsRun) (post : List NtfsRun) :
    pre ++ s :: post = (pre ++ [s]) ++ post := by
  rw [List.append_assoc, List.singleton_append]

/-- The new run behind what is left of the one it starts in. -/
theorem until_over (hs : Sorted (pre ++ r :: post)) (hn : new.Good)
    (hend : place (pre ++ r :: post) (new.vcn + new.len) ≠ some (some sparseLcn))
    (hhas : r.Has new.vcn) (hlt : r.vcn < new.vcn) : Over (pre ++ [r.until new.vcn]) new post := by
  have hsplit := until_sorted hs hlt (Nat.le_of_lt hhas.2)
  rw [append_singleton] at hsplit
  obtain ⟨hbefore, hafter, -⟩ := sorted_append.mp hsplit
  have hover := hs.over
  refine ⟨hbefore, hn, hafter, fun p hp => ?_, fun s hmem => ?_, fun s hmem =>
    cuttable_of_place hs (List.mem_append_right pre (List.mem_cons_of_mem r hmem)) hend⟩
  · rcases List.mem_append.mp hp with hp | hp
    · have hle := hover.apart p hp
      omega
    · obtain rfl := List.mem_singleton.mp hp
      exact show r.vcn + (new.vcn - r.vcn) ≤ new.vcn by omega
  · have hle := (sorted_cons.mp (sorted_append.mp hs).2.1).2.2 s hmem
    have hin := hhas.2
    omega

theorem place_until (hs : Sorted (pre ++ r :: post)) (h : Over (pre ++ [r.until vcn]) new post)
    (hv : vcn ≤ r.vcn + r.len) (v : Nat) :
    place ((pre ++ [r.until vcn]) ++ new :: post) v =
      if new.Has v then some (new.place v)
      else if r.Has v ∧ v < vcn then some (r.place v) else place (pre ++ post) v := by
  rw [place_insert h.apart, ← append_singleton,
    place_insert (r := r.until vcn) hs.over.apart]
  simp only [until_has hv]
  rfl

/-- The other runs have none of its clusters. -/
theorem place_around (hs : Sorted (pre ++ r :: post)) (hv : r.Has v) : place (pre ++ post) v = none := by
  obtain ⟨hle, hlt⟩ := hv
  apply place_eq_none
  rintro s hmem ⟨hsle, hslt⟩
  rcases List.mem_append.mp hmem with hmem | hmem
  · have hbefore := hs.over.apart s hmem
    omega
  · have hbehind := (sorted_cons.mp (sorted_append.mp hs).2.1).2.2 s hmem
    omega

theorem added_split (alloc : Nat → Bool) (hs : Sorted (pre ++ r :: post)) (hn : new.Good)
    (hend : place (pre ++ r :: post) (new.vcn + new.len) ≠ some (some sparseLcn))
    (hhas : r.Has new.vcn) (hlt : r.vcn < new.vcn) :
    Added alloc (pre ++ r :: post) new
      ((insertRun alloc (pre ++ { r with len := clstSub new.vcn r.vcn } :: post) (pre.length + 1)
        new).map fun run => (normalize run (pre.length + 1),
          if clstAdd (clstSub new.vcn r.vcn) new.len < r.len then
            some (r.cut (clstAdd (clstSub new.vcn r.vcn) new.len)) else none)) := by
  have hover := hs.over
  have hr := hover.good
  have hrlt := hr.lt
  have hnlt := hn.lt
  have hin := hhas.2
  have htail := tail_rest hr hn hhas fun h heq =>
    hend ((place_eq_of_mem hs h).trans (congrArg some heq))
  have hsub : clstSub new.vcn r.vcn = new.vcn - r.vcn := clstSub_eq hhas.1 (by omega)
  have hadd : clstAdd (new.vcn - r.vcn) new.len = new.vcn - r.vcn + new.len :=
    clstAdd_eq (by omega)
  have hnew := until_over hs hn hend hhas hlt
  have hsettles := (hnew.normalize (.inl rfl)).1
  have hplace := fun v => (hsettles.place v).trans (place_until hs hnew (Nat.le_of_lt hhas.2) v)
  have hlen : pre.length + 1 = (pre ++ [r.until new.vcn]).length := by
    rw [List.length_append]
    rfl
  have hsame : ∀ v, ¬ (new.vcn + new.len ≤ v ∧ r.Has v) →
      place (normalize ((pre ++ [r.until new.vcn]) ++ new :: post)
        (pre ++ [r.until new.vcn]).length) v = place (new :: (pre ++ r :: post)) v := by
    intro v hv
    rw [hplace, place_cons, place_insert hover.apart]
    by_cases hnot : new.Has v
    · rw [if_pos hnot, if_pos hnot]
    · have hiff : r.Has v ∧ v < new.vcn ↔ r.Has v := by
        simp only [NtfsRun.Has] at hv hnot ⊢
        omega
      rw [if_neg hnot, if_neg hnot]
      simp only [hiff]
  rw [hsub, hadd] at htail ⊢
  rw [show ({ r with len := new.vcn - r.vcn } : NtfsRun) = r.until new.vcn from rfl,
    append_singleton pre (r.until new.vcn) post, hlen, insertRun_append]
  by_cases halloc : alloc (((pre ++ [r.until new.vcn]) ++ post).length + 1) = true
  · rw [if_pos halloc]
    show Added alloc _ new (.ok (normalize _ _, _))
    by_cases htov : new.vcn - r.vcn + new.len < r.len
    · have hrest := htail htov
      have hvcn := hrest.vcn
      have hnext := hrest.next
      rw [if_pos htov]
      refine .tail _ _ (tail_of_rest hs hhas hrest hsettles.sorted (fun v hv => hsame v ?_) ?_)
      · simp only [NtfsRun.Has] at hv ⊢
        omega
      · rw [depth, if_pos]
        · exact depth_pos hs hhas
        · rw [hplace, hvcn, if_neg (fun h => Nat.lt_irrefl _ h.2),
            if_neg (fun h => absurd h.2 (by omega))]
          have hin : r.Has (new.vcn + new.len) := by
            simp only [NtfsRun.Has]
            omega
          exact place_around hs hin
    · rw [if_neg htov]
      refine .done _ ⟨hsettles.sorted, fun v => hsame v ?_⟩
      simp only [NtfsRun.Has]
      omega
  · rw [if_neg halloc]
    refine .failed _ ⟨⟨_, Bool.eq_false_of_not_eq_true halloc⟩, ?_, fun v hv => ?_⟩
    · rw [← append_singleton]
      exact until_sorted hs hlt (Nat.le_of_lt hhas.2)
    · rw [← append_singleton, place_insert (r := r.until new.vcn) hover.apart,
        place_insert hover.apart]
      have hiff : (r.until new.vcn).Has v ↔ r.Has v :=
        (until_has (Nat.le_of_lt hhas.2) v).trans (and_iff_left hv)
      simp only [hiff]
      rfl

/-- A run that starts at a cluster is the only one that has it. -/
theorem depth_start (hs : Sorted (pre ++ r :: post)) (hr : r.Has r.vcn) :
    depth (pre ++ r :: post) r.vcn = 2 := by
  have hnot : ¬ ∃ s ∈ pre ++ r :: post, s.vcn < r.vcn ∧ s.Has r.vcn := by
    rintro ⟨s, hmem, hlt, hhas⟩
    have heq := hs.eq_of_has hmem (List.mem_append_right pre List.mem_cons_self) hhas hr
    rw [heq] at hlt
    exact Nat.lt_irrefl _ hlt
  rw [depth, place_eq_of_mem hs hr, if_neg (by simp only [reduceCtorEq, not_false_eq_true]),
    if_neg hnot]

theorem depth_inside {s : NtfsRun} (hmem : s ∈ run) (hlt : s.vcn < v) (hhas : s.Has v) :
    depth run v ≤ 1 := by
  rw [depth]
  split
  · exact Nat.zero_le 1
  · rw [if_pos ⟨s, hmem, hlt, hhas⟩]

theorem added_front (alloc : Nat → Bool) (hs : Sorted (pre ++ r :: post)) (hn : new.Good)
    (hend : place (pre ++ r :: post) (new.vcn + new.len) ≠ some (some sparseLcn))
    (hvcn : r.vcn = new.vcn) :
    Added alloc (pre ++ r :: post) new
      (.ok (normalize (pre ++ NtfsRun.extend { r with lcn := new.lcn } new.vcn new.len :: post)
        (pre.length - 1), if clstAdd (clstSub new.vcn r.vcn) new.len < r.len then
          some (r.cut (clstAdd (clstSub new.vcn r.vcn) new.len)) else none)) := by
  have hr := hs.over.good
  have hrpos := hr.pos
  have hrlt := hr.lt
  have hnpos := hn.pos
  have hnlt := hn.lt
  have hhas : r.Has new.vcn := ⟨Nat.le_of_eq hvcn, by omega⟩
  have htail := tail_rest hr hn hhas fun h heq =>
    hend ((place_eq_of_mem hs h).trans (congrArg some heq))
  have hsub : clstSub new.vcn r.vcn = 0 := by
    rw [clstSub_eq (Nat.le_of_eq hvcn) (by omega)]
    omega
  have hadd : clstAdd 0 new.len = new.len := by
    rw [clstAdd_eq (by omega), Nat.zero_add]
  have hstart : NtfsRun.Good { r with lcn := new.lcn } := ⟨hrpos, hrlt, hn.lcn⟩
  rw [hsub, hadd] at htail ⊢
  rw [extend_eq hstart hnlt (show new.vcn ≤ r.vcn + r.len by omega) (Nat.le_of_eq hvcn)]
  show Added alloc _ new (.ok (normalize (pre ++ ⟨r.vcn, max r.len (new.vcn + new.len - r.vcn),
    new.lcn⟩ :: post) _, _))
  generalize hm : max r.len (new.vcn + new.len - r.vcn) = m
  have hgood : NtfsRun.Good ⟨r.vcn, m, new.lcn⟩ :=
    ⟨show 0 < m by omega, show r.vcn + m < 2 ^ 32 by omega, hn.lcn⟩
  have hover : Over pre ⟨r.vcn, m, new.lcn⟩ post := by
    refine over_set hs hgood ?_
    by_cases hin : new.vcn + new.len ≤ r.vcn + r.len
    · exact .inl (by omega)
    · rw [show r.vcn + m = new.vcn + new.len by omega]
      exact .inr hend
  obtain ⟨hsettles, hcovers⟩ := hover.normalize (normalize_index pre)
  have hplace : ∀ v, NtfsRun.place ⟨r.vcn, m, new.lcn⟩ v = new.place v := by
    intro v
    rw [NtfsRun.place, NtfsRun.place, hvcn]
  have hsame : ∀ v, ¬ (new.vcn + new.len ≤ v ∧ r.Has v) →
      place (normalize (pre ++ ⟨r.vcn, m, new.lcn⟩ :: post) (pre.length - 1)) v =
        place (new :: (pre ++ r :: post)) v := by
    intro v hv
    rw [hsettles.place, place_insert hover.apart, place_cons, place_insert hs.over.apart, hplace]
    by_cases hnew : new.Has v
    · have hhas : NtfsRun.Has ⟨r.vcn, m, new.lcn⟩ v := by
        simp only [NtfsRun.Has] at hnew ⊢
        omega
      rw [if_pos hnew, if_pos hhas]
    · have hnot : ¬ NtfsRun.Has ⟨r.vcn, m, new.lcn⟩ v := by
        simp only [NtfsRun.Has] at hnew hv ⊢
        omega
      have hnot' : ¬ r.Has v := by
        simp only [NtfsRun.Has] at hnew hv ⊢
        omega
      rw [if_neg hnew, if_neg hnot, if_neg hnot']
  by_cases htov : new.len < r.len
  · have hrest := htail htov
    rw [if_pos htov]
    refine .tail _ _ (tail_of_rest hs hhas hrest hsettles.sorted (fun v hv => hsame v ?_) ?_)
    · have hat := hrest.vcn
      have hnext := hrest.next
      simp only [NtfsRun.Has] at hv ⊢
      omega
    · obtain ⟨u, hu, hle, hreach⟩ := hcovers
      have hle' : u.vcn ≤ r.vcn := hle
      have hreach' : r.vcn + m ≤ u.vcn + u.len := hreach
      rw [hrest.vcn, ← hvcn, depth_start hs (hvcn ▸ hhas)]
      exact Nat.lt_succ_of_le (depth_inside hu (by omega) ⟨by omega, by omega⟩)
  · rw [if_neg htov]
    refine .done _ ⟨hsettles.sorted, fun v => hsame v ?_⟩
    simp only [NtfsRun.Has]
    omega

/-! ## The whole insertion -/

/-- What is added before the tail, and what the tail is. -/
theorem addEntry_spec (alloc : Nat → Bool) (hs : Sorted run) (hn : new.Good)
    (hend : place run (new.vcn + new.len) ≠ some (some sparseLcn)) :
    Added alloc run new (addEntry alloc run new.vcn new.lcn new.len) := by
  have hstart := startPoint_spec hs new.vcn new.lcn
  have hnlt := hn.lt
  rw [addEntry]
  generalize startPoint run new.vcn new.lcn = start at hstart
  cases hstart with
  | miss pre post h hpre hpost =>
    subst h
    exact added_miss alloc hs hn hend hpre hpost
  | next pre post r h hat hcont hpost =>
    subst h
    have hr := hs.over.good
    have hrpos := hr.pos
    have hkept : ¬ r.differs new.vcn new.lcn := by
      obtain ⟨-, hsparse, hlcn⟩ := hcont
      have hsub : clstSub new.vcn r.vcn = r.len := by
        rw [clstSub_eq (by omega) (by omega)]
        omega
      rw [NtfsRun.differs, hsub]
      tauto
    simp only [if_true, getD_append, set_append, if_neg hkept]
    exact added_kept alloc hs hn hend (by omega) (by omega) hkept
  | hit pre post r h hhas =>
    subst h
    simp only [if_true, getD_append, set_append]
    by_cases hdiff : r.differs new.vcn new.lcn
    · rw [if_pos hdiff]
      have hsub : clstSub new.vcn r.vcn = new.vcn - r.vcn := clstSub_eq hhas.1 (by omega)
      by_cases heat : 0 < clstSub new.vcn r.vcn
      · rw [if_pos heat]
        exact added_split alloc hs hn hend hhas (by omega)
      · rw [if_neg heat]
        have hle := hhas.1
        exact added_front alloc hs hn hend (by omega)
    · rw [if_neg hdiff]
      exact added_kept alloc hs hn hend hhas.1 (Nat.le_of_lt hhas.2) hdiff

theorem depth_le (run : List NtfsRun) (v : Nat) : depth run v ≤ 2 := by
  rw [depth]
  split
  · exact Nat.zero_le 2
  · split
    · exact Nat.le_succ 1
    · exact Nat.le_refl 2

theorem place_behind {run' : List NtfsRun} {t : NtfsRun} (h : Tail run new run' t)
    (hv : t.vcn + t.len ≤ v) : place run' v = place run v := by
  have hvcn := h.vcn
  have hpos := h.good.pos
  rw [h.place v fun hhas => absurd hhas.2 (by omega), place_cons,
    if_neg fun hhas => absurd hhas.2 (by omega)]

theorem place_before {run' : List NtfsRun} {t : NtfsRun} (h : Tail run new run' t)
    (hv : v < new.vcn) : place run' v = place run v := by
  have hvcn := h.vcn
  rw [h.place v fun hhas => absurd hhas.1 (by omega), place_cons,
    if_neg fun hhas => absurd hhas.1 (by omega)]

/-- With the tail the rest of the run it is from is where it was. -/
theorem settles_tail {run' left : List NtfsRun} {t : NtfsRun} (h : Tail run new run' t)
    (h' : Settles (t :: run') left) : Settles (new :: run) left := by
  refine ⟨h'.sorted, fun v => ?_⟩
  have hvcn := h.vcn
  rw [h'.place, place_cons]
  by_cases hv : t.Has v
  · have hge := hv.1
    rw [if_pos hv, place_cons, if_neg fun hhas => absurd hhas.2 (by omega), h.kept v hv]
  · rw [if_neg hv, h.place v hv]

/-- The result of an insertion. -/
inductive AddedAll (alloc : Nat → Bool) (run : List NtfsRun) (new : NtfsRun) :
    Except (List NtfsRun) (List NtfsRun) → Prop
  | failed (left : List NtfsRun) (h : Failed alloc run new.vcn left) :
      AddedAll alloc run new (.error left)
  | done (run' : List NtfsRun) (h : Settles (new :: run) run') : AddedAll alloc run new (.ok run')

/-- Of the places the tails start at, each one is less deep than the one before it. -/
theorem runAddEntry_added (alloc : Nat → Bool) {fuel : Nat} (hs : Sorted run) (hn : new.Good)
    (hclean : ∀ v, new.vcn + new.len ≤ v → place run v ≠ some (some sparseLcn))
    (hfuel : depth run new.vcn < fuel) :
    AddedAll alloc run new (runAddEntry alloc fuel run new.vcn new.lcn new.len) := by
  induction fuel generalizing run new with
  | zero => omega
  | succ fuel ih =>
    rw [runAddEntry]
    have hadd := addEntry_spec alloc hs hn (hclean _ (Nat.le_refl _))
    generalize addEntry alloc run new.vcn new.lcn new.len = result at hadd
    cases hadd with
    | failed left h => exact .failed left h
    | done run' h => exact .done run' h
    | tail run' t h =>
      have hvcn := h.vcn
      have hlt := h.lt
      have hrec := ih h.sorted h.good
        (fun v hv => by rw [place_behind h hv]; exact hclean v (by omega)) (by omega)
      generalize hresult : runAddEntry alloc fuel run' t.vcn t.lcn t.len = result at hrec
      show AddedAll alloc run new (runAddEntry alloc fuel run' t.vcn t.lcn t.len)
      rw [hresult]
      cases hrec with
      | failed left h' =>
        refine .failed left ⟨h'.alloc, h'.sorted, fun v hv => ?_⟩
        rw [h'.place v (by omega), place_before h hv]
      | done left h' => exact .done left (settles_tail h h')

theorem NtfsRun.Fits.place_ne (h : new.Fits) (hv : new.Has v) : new.place v ≠ some sparseLcn := by
  obtain ⟨hle, hlt⟩ := hv
  rw [NtfsRun.place]
  rcases h.lcn with hs | hl
  · rw [if_pos hs]
    exact (Option.some_ne_none _).symm
  · have hsparse : sparseLcn < 2 ^ 32 := Nat.sub_lt (by decide) (by decide)
    have hadd : clstAdd new.lcn (v - new.vcn) = new.lcn + (v - new.vcn) := clstAdd_eq (by omega)
    rw [hadd]
    split
    · exact (Option.some_ne_none _).symm
    · intro heq
      have hat := Option.some.inj heq
      omega

theorem clean_cons (hc : Clean run) (hn : new.Fits) : Clean (new :: run) := by
  intro v
  rw [place_cons]
  split
  · rename_i hv
    exact fun h => hn.place_ne hv (Option.some.inj h)
  · exact hc v

/-- **Insertion.** The clusters of the new run are where it says and all the others where they were,
with no more than two calls for tails. Without memory the runs stay in order. -/
theorem runAddEntry_spec (alloc : Nat → Bool) (hs : Sorted run) (hc : Clean run) (hn : new.Fits) :
    (∃ left, runAddEntry alloc 3 run new.vcn new.lcn new.len = .error left ∧
      Failed alloc run new.vcn left) ∨
    ∃ run', runAddEntry alloc 3 run new.vcn new.lcn new.len = .ok run' ∧ Sorted run' ∧ Clean run' ∧
      ∀ v, place run' v = place (new :: run) v := by
  have hadded := runAddEntry_added alloc hs hn.good (fun v _ => hc v)
    (Nat.lt_succ_of_le (depth_le run new.vcn))
  generalize runAddEntry alloc 3 run new.vcn new.lcn new.len = result at hadded
  cases hadded with
  | failed left h => exact .inl ⟨left, rfl, h⟩
  | done run' h =>
    refine .inr ⟨run', rfl, h.sorted, fun v => ?_, h.place⟩
    rw [h.place]
    exact clean_cons hc hn v

end

end UolaOs.Ntfs3
