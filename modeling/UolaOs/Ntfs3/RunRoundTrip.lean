import UolaOs.Ntfs3.RunPack

/-!
# What is packed is unpacked

* `packRounds_spec`: the bytes are those of runs one behind the other, which have the places of the
  tree;
* `unpackRounds_packed`: what reading such bytes adds to a tree;
* `run_roundTrip`, `run_loadFrom`: a range that was packed, loaded again from its start or from some
  cluster of it.
-/

namespace UolaOs.Ntfs3

/-- The memory at `pos`. -/
def Holds (buf : Nat → UInt8) (pos : Nat) (bs : Bytes) : Prop :=
  ∀ i, i < bs.length → buf (pos + i) = bs.getD i 0

/-- The bytes of runs, from the place `prev` on. -/
def packedRuns : Nat → List NtfsRun → Bytes
  | _, [] => []
  | prev, r :: rs => packedRun r.lcn r.len prev ++ packedRuns (packOffset r.lcn prev).2.2 rs

/-- Runs one behind the other. -/
def Chain : Nat → List NtfsRun → Nat → Prop
  | v, [], stop => v = stop
  | v, r :: rs, stop => r.vcn = v ∧ r.Good ∧ Chain (v + r.len) rs stop

/-- Every place is another one than that before it. -/
def Moves : Nat → List NtfsRun → Prop
  | _, [] => True
  | prev, r :: rs => (r.lcn = sparseLcn ∨ r.lcn ≠ prev) ∧ Moves (packOffset r.lcn prev).2.2 rs

/-- A run of a volume of `nbits` clusters. -/
def NtfsRun.Within (nbits : Nat) (r : NtfsRun) : Prop := r.lcn = sparseLcn ∨ r.lcn + r.len ≤ nbits

section
variable {buf : Nat → UInt8} {pos : Nat} {a b bs : Bytes} {r : NtfsRun}
  {lcn len prev nbits : Nat}

/-! ## Bytes in memory -/

theorem Holds.left (h : Holds buf pos (a ++ b)) : Holds buf pos a := by
  intro i hi
  rw [h i (by rw [List.length_append]; omega), List.getD_append _ _ _ _ hi]

theorem Holds.right (h : Holds buf pos (a ++ b)) : Holds buf (pos + a.length) b := by
  intro i hi
  have hat := h (a.length + i) (by rw [List.length_append]; omega)
  rwa [← Nat.add_assoc, List.getD_append_right _ _ _ _ (Nat.le_add_right _ _),
    Nat.add_sub_cancel_left] at hat

theorem Holds.read (h : Holds buf pos bs) :
    (List.range bs.length).map (fun i => buf (pos + i)) = bs := by
  apply List.ext_getElem
  · rw [List.length_map, List.length_range]
  · intro i _ hi
    rw [List.getElem_map, List.getElem_range, h i hi, List.getD_eq_getElem?_getD,
      List.getElem?_eq_getElem hi, Option.getD_some]

theorem length_runPackS64 (size : Nat) (v : Int) : (runPackS64 size v).length = size :=
  length_leBytes _ _

theorem runUnpackS64_packed {n : Int} {k : Nat} (hfits : FitsIn k n)
    (h : Holds buf pos (runPackS64 (k + 1) n)) :
    runUnpackS64 buf pos (k + 1) (if n < 0 then -1 else 0) = n := by
  have hread := h.read
  rw [length_runPackS64] at hread
  rw [runUnpackS64, hread]
  exact leNat_runPackS64 hfits

/-- The sizes in the first byte. -/
theorem header_sizes {s o : Nat} (hs : s ≤ 8) (ho : o ≤ 8) :
    (UInt8.ofNat (s ||| o <<< 4)).toNat &&& 0xf = s ∧ (UInt8.ofNat (s ||| o <<< 4)).toNat >>> 4 = o := by
  have hall : ∀ s o : Fin 9, (UInt8.ofNat (s.val ||| o.val <<< 4)).toNat &&& 0xf = s.val ∧
      (UInt8.ofNat (s.val ||| o.val <<< 4)).toNat >>> 4 = o.val := by decide
  exact hall ⟨s, Nat.lt_succ_of_le hs⟩ ⟨o, Nat.lt_succ_of_le ho⟩

/-! ## One run -/

theorem packedSize_len (hlen : len < 2 ^ 32) : ∃ k, runPackedSize len = k + 1 ∧ k ≤ 7 ∧ FitsIn k len :=
  runPackedSize_spec (by omega) (by omega)

theorem packOffset_le (hlcn : lcn < 2 ^ 32) (hprev : prev < 2 ^ 32) : (packOffset lcn prev).1 ≤ 8 := by
  rw [packOffset]
  split
  · exact Nat.zero_le 8
  · obtain ⟨k, hk, hle, -⟩ := @runPackedSize_spec ((lcn : Int) - prev) (by omega) (by omega)
    rw [hk]
    exact Nat.succ_le_succ hle

theorem packOffset_lt (hlcn : lcn < 2 ^ 32) (hprev : prev < 2 ^ 32) :
    (packOffset lcn prev).2.2 < 2 ^ 32 := by
  rw [packOffset]
  split
  · exact hprev
  · exact hlcn

theorem length_packedRun (lcn len prev : Nat) :
    (packedRun lcn len prev).length = 1 + runPackedSize len + (packOffset lcn prev).1 := by
  rw [packedRun, List.length_cons, List.length_append, length_runPackS64, length_runPackS64]
  omega

/-- The place of a run as `run_unpack` knows it. -/
def lcn64 (lcn : Nat) : Nat := if lcn = sparseLcn then sparseLcn64 else lcn

theorem unpackOffset_packed (hlcn : lcn < 2 ^ 32) (hprev : prev < 2 ^ 32)
    (h : Holds buf pos (runPackS64 (packOffset lcn prev).1 (packOffset lcn prev).2.1)) :
    unpackOffset buf pos (packOffset lcn prev).1 prev =
      if lcn = sparseLcn ∨ lcn ≠ prev then .ok (lcn64 lcn, (packOffset lcn prev).2.2)
      else .error .einval := by
  by_cases hsparse : lcn = sparseLcn
  · rw [if_pos (.inl hsparse), packOffset, if_pos hsparse, unpackOffset, if_pos rfl, lcn64,
      if_pos hsparse]
  · have hoff : packOffset lcn prev = (runPackedSize ((lcn : Int) - prev), (lcn : Int) - prev, lcn) :=
      if_neg hsparse
    rw [hoff] at h ⊢
    obtain ⟨k, hk, hle, hfits⟩ := @runPackedSize_spec ((lcn : Int) - prev) (by omega) (by omega)
    rw [hk] at h ⊢
    have hlast := h k (by rw [length_runPackS64]; exact Nat.lt_succ_self k)
    have hsign := sign_iff hfits
    have hread := runUnpackS64_packed hfits h
    rw [unpackOffset, if_neg (Nat.succ_ne_zero k), if_pos (by omega),
      show pos + (k + 1) - 1 = pos + k by omega, hlast]
    simp only [hsign, hread]
    by_cases hsame : lcn = prev
    · rw [if_pos (by omega), if_neg (by tauto)]
    · have hmod : (((prev : Int) + ((lcn : Int) - prev)) % 2 ^ 64).toNat = lcn := by
        rw [Int.emod_eq_of_lt (by omega) (by omega)]
        omega
      rw [if_neg (by omega), if_pos (.inr hsame), hmod, lcn64, if_neg hsparse]

end

/-! ## Unpacking -/

/-- What is added of a run when the clusters from `vcn` on are wanted. -/
def loaded (vcn : Nat) (r : NtfsRun) : Option NtfsRun :=
  loadedPart vcn r.vcn (lcn64 r.lcn) r.len (r.vcn + r.len)

section
variable {alloc : Nat → Bool} {nbits evcn vcn size pos prev stop u v fuel : Nat}
  {buf : Nat → UInt8} {run es : List NtfsRun} {r q : NtfsRun}

theorem lcn64_mod (hr : r.Good) : lcn64 r.lcn % 2 ^ 32 = r.lcn := by
  rw [lcn64]
  split
  · rename_i h
    rw [h]
    decide
  · exact Nat.mod_eq_of_lt hr.lcn

/-- The run itself, what is left of it, or nothing. -/
theorem loaded_cases (vcn : Nat) (hr : r.Good) :
    (vcn ≤ r.vcn ∧ loaded vcn r = some r) ∨
    (r.vcn < vcn ∧ vcn < r.vcn + r.len ∧ loaded vcn r = some ⟨vcn, r.vcn + r.len - vcn,
      if r.lcn = sparseLcn then vcn - r.vcn - 1 else (r.lcn + (vcn - r.vcn)) % 2 ^ 32⟩) ∨
    (r.vcn + r.len ≤ vcn ∧ loaded vcn r = none) := by
  have hlt := hr.lt
  have hpos := hr.pos
  rw [loaded, loadedPart]
  by_cases hle : vcn ≤ r.vcn
  · refine .inl ⟨hle, ?_⟩
    rw [if_pos hle, lcn64_mod hr, Nat.mod_eq_of_lt (show r.vcn < 2 ^ 32 by omega),
      Nat.mod_eq_of_lt (show r.len < 2 ^ 32 by omega)]
  · rw [if_neg hle]
    by_cases hin : vcn < r.vcn + r.len
    · refine .inr (.inl ⟨by omega, hin, ?_⟩)
      rw [if_pos hin]
      dsimp only
      rw [Nat.mod_eq_of_lt (show r.len - (vcn - r.vcn) < 2 ^ 32 by omega),
        show r.len - (vcn - r.vcn) = r.vcn + r.len - vcn by omega, lcn64]
      split
      · rw [sparseLcn64, show (2 ^ 64 - 1 + (vcn - r.vcn)) % 2 ^ 32 = vcn - r.vcn - 1 by omega]
      · rfl
    · exact .inr (.inr ⟨by omega, if_neg hin⟩)

theorem loaded_fits (hr : r.Good) (hw : r.Within nbits) (hn : nbits ≤ sparseLcn)
    (h : loaded vcn r = some q) : q.Fits := by
  have hlt := hr.lt
  have hpos := hr.pos
  have hsparse : sparseLcn = 2 ^ 32 - 1 := rfl
  have hwr : r.lcn = sparseLcn ∨ r.lcn + r.len ≤ nbits := hw
  rcases loaded_cases vcn hr with ⟨-, heq⟩ | ⟨hvcn, hend, heq⟩ | ⟨-, heq⟩
  · obtain rfl := Option.some.inj (heq.symm.trans h)
    exact ⟨hr, hwr.imp_right fun h => Nat.le_trans h hn⟩
  · obtain rfl := Option.some.inj (heq.symm.trans h)
    by_cases hs : r.lcn = sparseLcn
    · rw [if_pos hs]
      exact ⟨⟨show 0 < r.vcn + r.len - vcn by omega, show vcn + (r.vcn + r.len - vcn) < _ by omega,
        show vcn - r.vcn - 1 < _ by omega⟩,
        .inr (show vcn - r.vcn - 1 + (r.vcn + r.len - vcn) ≤ _ by omega)⟩
    · rw [if_neg hs, Nat.mod_eq_of_lt (show r.lcn + (vcn - r.vcn) < 2 ^ 32 by omega)]
      exact ⟨⟨show 0 < r.vcn + r.len - vcn by omega, show vcn + (r.vcn + r.len - vcn) < _ by omega,
        show r.lcn + (vcn - r.vcn) < _ by omega⟩,
        .inr (show r.lcn + (vcn - r.vcn) + (r.vcn + r.len - vcn) ≤ _ by omega)⟩
  · rw [heq] at h
    cases h

theorem loaded_has (hr : r.Good) (h : loaded vcn r = some q) : q.Has u ↔ r.Has u ∧ vcn ≤ u := by
  rcases loaded_cases vcn hr with ⟨hle, heq⟩ | ⟨hvcn, hend, heq⟩ | ⟨-, heq⟩
  · obtain rfl := Option.some.inj (heq.symm.trans h)
    simp only [NtfsRun.Has]
    omega
  · obtain rfl := Option.some.inj (heq.symm.trans h)
    simp only [NtfsRun.Has]
    omega
  · rw [heq] at h
    cases h

/-- One round of `run_unpack` over what `run_pack` has written for a run. -/
theorem unpackRounds_round (hr : r.Good) (hprev : prev < 2 ^ 32) (hw : r.Within nbits)
    (hn : nbits ≤ sparseLcn) (hevcn : evcn + 1 < 2 ^ 32) (hend : r.vcn + r.len ≤ evcn + 1)
    (hsize : pos < size) (h : Holds buf pos (packedRun r.lcn r.len prev)) :
    unpackRounds alloc nbits evcn vcn buf size (fuel + 1) pos r.vcn prev run =
      if r.lcn = sparseLcn ∨ r.lcn ≠ prev then
        match loaded vcn r with
        | none => unpackRounds alloc nbits evcn vcn buf size fuel
            (pos + (packedRun r.lcn r.len prev).length) (r.vcn + r.len)
            (packOffset r.lcn prev).2.2 run
        | some q =>
          match runAddEntry alloc 3 run q.vcn q.lcn q.len with
          | .error _ => .error .enomem
          | .ok run => unpackRounds alloc nbits evcn vcn buf size fuel
              (pos + (packedRun r.lcn r.len prev).length) (r.vcn + r.len)
              (packOffset r.lcn prev).2.2 run
      else .error .einval := by
  have hlt := hr.lt
  have hpos := hr.pos
  have hlen := length_packedRun r.lcn r.len prev
  obtain ⟨k, hk, hk7, hfits⟩ := packedSize_len (show r.len < 2 ^ 32 by omega)
  have hoff := packOffset_le hr.lcn hprev
  have hhead := h 0 (by rw [hlen]; omega)
  rw [Nat.add_zero, packedRun, List.getD_cons_zero] at hhead
  rw [packedRun] at h
  have htail : Holds buf (pos + 1) (runPackS64 (runPackedSize r.len) r.len ++
      runPackS64 (packOffset r.lcn prev).1 (packOffset r.lcn prev).2.1) := by
    intro i hi
    have hat := h (i + 1) (by rw [List.length_cons]; omega)
    rwa [List.getD_cons_succ, show pos + (i + 1) = pos + 1 + i by omega] at hat
  have hread := htail.left
  have hreadOff := htail.right
  rw [length_runPackS64] at hreadOff
  obtain ⟨hs, ho⟩ := header_sizes (show runPackedSize r.len ≤ 8 by omega) hoff
  have hnum : runUnpackS64 buf (pos + 1) (runPackedSize r.len) 0 = r.len := by
    rw [hk] at hread ⊢
    have hnum := runUnpackS64_packed hfits hread
    rwa [if_neg (by omega)] at hnum
  have hcheck : checkRun nbits evcn (lcn64 r.lcn) r.len (r.vcn + r.len) = .ok () := by
    have hsparse : sparseLcn = 2 ^ 32 - 1 := rfl
    have hwr : r.lcn = sparseLcn ∨ r.lcn + r.len ≤ nbits := hw
    rw [checkRun, if_neg (by omega), lcn64]
    split
    · rw [sparseLcn64, if_neg (by omega), if_neg fun h => h.1 rfl]
    · rw [if_neg (by omega), if_neg (by omega)]
  rw [unpackRounds, if_neg (by omega), hhead]
  dsimp only
  rw [hs, ho, if_neg (by omega), if_neg (by omega), hnum, Int.toNat_natCast,
    Nat.mod_eq_of_lt (show r.vcn + r.len < 2 ^ 64 by omega), if_neg (by omega),
    unpackOffset_packed hr.lcn hprev hreadOff, hlen]
  by_cases hmove : r.lcn = sparseLcn ∨ r.lcn ≠ prev
  · rw [if_pos hmove, if_pos hmove]
    show (checkRun nbits evcn (lcn64 r.lcn) r.len (r.vcn + r.len)).bind _ = _
    rw [hcheck, ← Nat.add_assoc, ← Nat.add_assoc]
    rfl
  · rw [if_neg hmove, if_neg hmove]
    rfl

theorem Chain.starts (h : Chain v es stop) : ∀ e ∈ es, e.Good ∧ v ≤ e.vcn := by
  induction es generalizing v with
  | nil => exact fun e he => (List.not_mem_nil he).elim
  | cons r es ih =>
    obtain ⟨hv, hr, hchain⟩ := h
    intro e he
    rcases List.mem_cons.mp he with rfl | he
    · exact ⟨hr, Nat.le_of_eq hv.symm⟩
    · obtain ⟨hgood, hle⟩ := ih hchain e he
      exact ⟨hgood, by omega⟩

theorem Chain.stop_le (h : Chain v es stop) : v ≤ stop := by
  induction es generalizing v with
  | nil => exact Nat.le_of_eq h
  | cons r es ih => exact Nat.le_trans (Nat.le_add_right _ _) (ih h.2.2)

/-- None of the later runs has a cluster of the first one. -/
theorem place_loaded_later (hchain : Chain (v + r.len) es stop) (hv : r.vcn = v) (hr : r.Good)
    (hq : loaded vcn r = some q) (hhas : q.Has u) : place (es.filterMap (loaded vcn)) u = none := by
  apply place_eq_none
  intro s hmem hs
  obtain ⟨e, he, hse⟩ := List.mem_filterMap.mp hmem
  obtain ⟨hgood, hle⟩ := hchain.starts e he
  have hee := ((loaded_has hgood hse).mp hs).1.1
  have hre := ((loaded_has hr hq).mp hhas).1.2
  omega

/-- Reading what was written for runs adds what is wanted of them, unless a place is the one before
it. -/
theorem unpackRounds_packed (hn : nbits ≤ sparseLcn) (hevcn : evcn + 1 < 2 ^ 32)
    (hchain : Chain v es stop) (hstop : stop ≤ evcn + 1) (hw : ∀ e ∈ es, e.Within nbits)
    (hprev : prev < 2 ^ 32) (h : Holds buf pos (packedRuns prev es ++ [0]))
    (hsize : pos + (packedRuns prev es).length < size) (hfuel : es.length < fuel)
    (hs : Sorted run) (hc : Clean run) :
    (unpackRounds alloc nbits evcn vcn buf size fuel pos v prev run = .error .enomem ∧
      ∃ n, alloc n = false) ∨
    (¬ Moves prev es ∧
      unpackRounds alloc nbits evcn vcn buf size fuel pos v prev run = .error .einval) ∨
    Moves prev es ∧ ∃ run', unpackRounds alloc nbits evcn vcn buf size fuel pos v prev run =
        .ok (pos + (packedRuns prev es).length + 1, stop, run') ∧ Sorted run' ∧
      ∀ u, place run' u = (place (es.filterMap (loaded vcn)) u).or (place run u) := by
  induction es generalizing v prev pos fuel run with
  | nil =>
    obtain ⟨fuel, rfl⟩ := Nat.exists_eq_succ_of_ne_zero (Nat.ne_of_gt hfuel)
    obtain rfl : v = stop := hchain
    have hzero : buf pos = 0 := h 0 (Nat.lt_succ_self 0)
    refine .inr (.inr ⟨trivial, run, ?_, hs, fun u => rfl⟩)
    rw [unpackRounds, if_neg (by rw [packedRuns, List.length_nil] at hsize; omega), hzero]
    rfl
  | cons r es ih =>
    obtain ⟨fuel, rfl⟩ := Nat.exists_eq_succ_of_ne_zero (Nat.ne_of_gt (Nat.zero_lt_of_lt hfuel))
    obtain ⟨rfl, hr, hrest⟩ := hchain
    rw [packedRuns, List.append_assoc] at h
    rw [packedRuns, List.length_append] at hsize
    rw [List.length_cons] at hfuel
    have hle := Chain.stop_le hrest
    have hwr := hw r List.mem_cons_self
    have hround : unpackRounds alloc nbits evcn vcn buf size (fuel + 1) pos r.vcn prev run = _ :=
      unpackRounds_round hr hprev hwr hn hevcn (by omega) (by omega) h.left
    have hnext := fun run (hs : Sorted run) hc => ih hrest
      (fun e he => hw e (List.mem_cons_of_mem r he)) (packOffset_lt hr.lcn hprev) h.right
      (show _ < size by omega) (show es.length < fuel by omega) hs hc
    have hlen : pos + (packedRun r.lcn r.len prev).length +
        (packedRuns (packOffset r.lcn prev).2.2 es).length + 1 =
        pos + (packedRuns prev (r :: es)).length + 1 := by
      rw [packedRuns, List.length_append, Nat.add_assoc pos]
    rw [hround]
    by_cases hmove : r.lcn = sparseLcn ∨ r.lcn ≠ prev
    · rw [if_pos hmove]
      rcases hq : loaded vcn r with _ | q
      · dsimp only
        rw [List.filterMap_cons_none hq, ← hlen]
        rcases hnext run hs hc with hfail | ⟨hstay, heq⟩ | ⟨hmoves, hok⟩
        · exact .inl hfail
        · exact .inr (.inl ⟨fun h => hstay h.2, heq⟩)
        · exact .inr (.inr ⟨⟨hmove, hmoves⟩, hok⟩)
      · dsimp only
        rw [List.filterMap_cons_some hq, ← hlen]
        rcases runAddEntry_spec alloc hs hc (loaded_fits hr hwr hn hq) with
          ⟨left, heq, hfail⟩ | ⟨run', heq, hs', hc', hplace⟩
        · rw [heq]
          exact .inl ⟨rfl, hfail.alloc⟩
        · rw [heq]
          rcases hnext run' hs' hc' with hfail | ⟨hstay, heq⟩ | ⟨hmoves, run'', heq', hs'', hplace'⟩
          · exact .inl hfail
          · exact .inr (.inl ⟨fun h => hstay h.2, heq⟩)
          · refine .inr (.inr ⟨⟨hmove, hmoves⟩, run'', heq', hs'', fun u => ?_⟩)
            rw [hplace', hplace, place_cons, place_cons]
            by_cases hhas : q.Has u
            · rw [if_pos hhas, if_pos hhas, place_loaded_later hrest rfl hr hq hhas]
              rfl
            · rw [if_neg hhas, if_neg hhas]
    · rw [if_neg hmove]
      exact .inr (.inl ⟨fun h => hmove h.1, rfl⟩)

/-- What is left of a run that is not sparse has its places. -/
theorem place_part (hw : r.Within nbits) (hn : nbits ≤ sparseLcn)
    (hsparse : r.lcn ≠ sparseLcn) (hvcn : r.vcn < vcn) (hend : vcn < r.vcn + r.len) (len : Nat)
    (hu : vcn ≤ u) :
    NtfsRun.place ⟨vcn, len, (r.lcn + (vcn - r.vcn)) % 2 ^ 32⟩ u = r.place u := by
  have hlcn : r.lcn + r.len ≤ nbits := hw.resolve_left hsparse
  have hmod : (r.lcn + (vcn - r.vcn)) % 2 ^ 32 = r.lcn + (vcn - r.vcn) := by
    have hall : sparseLcn = 2 ^ 32 - 1 := rfl
    exact Nat.mod_eq_of_lt (by omega)
  have hgap : r.lcn + (vcn - r.vcn) + (u - vcn) = r.lcn + (u - r.vcn) := by omega
  rw [NtfsRun.place, NtfsRun.place, if_neg hsparse, hmod,
    if_neg (show r.lcn + (vcn - r.vcn) ≠ sparseLcn by omega)]
  show some ((r.lcn + (vcn - r.vcn) + (u - vcn)) % 2 ^ 32) = _
  rw [hgap]
  rfl

/-- The clusters from `vcn` on are where they were, unless `vcn` is inside of a sparse run. -/
theorem place_loaded (hchain : Chain v es stop) (hw : ∀ e ∈ es, e.Within nbits)
    (hn : nbits ≤ sparseLcn)
    (hwhole : ∀ e ∈ es, e.lcn = sparseLcn → ¬ (e.vcn < vcn ∧ e.Has vcn)) (u : Nat) :
    place (es.filterMap (loaded vcn)) u = if vcn ≤ u then place es u else none := by
  induction es generalizing v with
  | nil => rw [List.filterMap_nil, place_nil, ite_self]
  | cons r es ih =>
    obtain ⟨rfl, hr, hrest⟩ := hchain
    have hih := ih hrest (fun e he => hw e (List.mem_cons_of_mem r he))
      fun e he => hwhole e (List.mem_cons_of_mem r he)
    have hwr := hwhole r List.mem_cons_self
    rcases loaded_cases vcn hr with ⟨hle, heq⟩ | ⟨hvcn, hend, heq⟩ | ⟨hend, heq⟩
    · rw [List.filterMap_cons_some heq, place_cons, place_cons, hih]
      by_cases hhas : r.Has u
      · have hge := hhas.1
        rw [if_pos hhas, if_pos hhas, if_pos (by omega)]
      · rw [if_neg hhas, if_neg hhas]
    · have hsparse : r.lcn ≠ sparseLcn := fun h => hwr h ⟨hvcn, Nat.le_of_lt hvcn, hend⟩
      rw [if_neg hsparse] at heq
      rw [List.filterMap_cons_some heq, place_cons, place_cons, hih]
      have hiff := loaded_has (u := u) hr heq
      by_cases hhas : r.Has u ∧ vcn ≤ u
      · rw [if_pos (hiff.mpr hhas), if_pos hhas.2, if_pos hhas.1,
          place_part (hw r List.mem_cons_self) hn hsparse hvcn hend _ hhas.2]
      · rw [if_neg fun h => hhas (hiff.mp h)]
        by_cases hge : vcn ≤ u
        · rw [if_pos hge, if_pos hge, if_neg fun h => hhas ⟨h, hge⟩]
        · rw [if_neg hge, if_neg hge]
    · rw [List.filterMap_cons_none heq, place_cons, hih]
      by_cases hge : vcn ≤ u
      · rw [if_pos hge, if_pos hge, if_neg fun h => absurd h.2 (by omega)]
      · rw [if_neg hge, if_neg hge]

/-! ## Packing -/

/-- What `run_pack` has written from `r` on, up to `stop`. -/
structure Packed (evcn1 size prev packed : Nat) (out : Bytes) (r : NtfsRun)
    (rest : List NtfsRun) (bytes : Bytes) (packed' : Nat) (es : List NtfsRun) (stop : Nat) :
    Prop where
  written : bytes = out ++ packedRuns prev es ++ [0]
  chain : Chain r.vcn es stop
  le : stop ≤ evcn1
  count : packed' + r.vcn = packed + stop
  place : ∀ u, r.vcn ≤ u → u < stop → place es u = place (r :: rest) u
  part : ∀ e ∈ es, ∃ s ∈ r :: rest, e.vcn = s.vcn ∧ e.len ≤ s.len ∧ e.lcn = s.lcn
  size : bytes.length ≤ max 1 size

/-- The clusters of a round. -/
def roundLen (evcn1 : Nat) (r : NtfsRun) : Nat := min r.len (evcn1 - r.vcn)

theorem packRound_cases {evcn1 packed : Nat} {out : Bytes} (hr : r.Good) (hprev : prev < 2 ^ 32)
    (hlt : r.vcn < evcn1) (hevcn1 : evcn1 < 2 ^ 32) (hsize : size < 2 ^ 32)
    (hout : out.length + 1 ≤ max 1 size) (hpacked : packed + (evcn1 - r.vcn) < 2 ^ 32) :
    packRound evcn1 size r prev out packed = ⟨true, prev, out, packed⟩ ∨
    (out ++ packedRun r.lcn (roundLen evcn1 r) prev).length + 1 ≤ max 1 size ∧
      ∃ last, packRound evcn1 size r prev out packed = ⟨last, (packOffset r.lcn prev).2.2,
        out ++ packedRun r.lcn (roundLen evcn1 r) prev, packed + roundLen evcn1 r⟩ ∧
      (last = false → r.vcn + r.len < evcn1) := by
  have hrlt := hr.lt
  have hoff := packOffset_le hr.lcn hprev
  have hlen : (if evcn1 < r.vcn + r.len then clstSub evcn1 r.vcn else r.len) = roundLen evcn1 r := by
    rw [roundLen, clstSub_eq (Nat.le_of_lt hlt) hevcn1]
    split
    · rw [Nat.min_eq_right (by omega)]
    · rw [Nat.min_eq_left (by omega)]
  have hbound : roundLen evcn1 r ≤ evcn1 - r.vcn := Nat.min_le_right _ _
  have hadd : clstAdd packed (roundLen evcn1 r) = packed + roundLen evcn1 r :=
    clstAdd_eq (by omega)
  have hpos : 0 < runPackedSize (roundLen evcn1 r) := by
    obtain ⟨k, hk, -⟩ := packedSize_len (show roundLen evcn1 r < 2 ^ 32 by omega)
    omega
  rw [packRound, hr.next]
  dsimp only
  rw [hlen, hadd]
  generalize htmp : Int.bmod ((size : Int) - out.length - 2 - (packOffset r.lcn prev).1) (2 ^ 32) = tmp
  by_cases hfull : tmp ≤ 0 ∨ tmp < runPackedSize (roundLen evcn1 r)
  · exact .inl (if_pos hfull)
  · have hroom : tmp = (size : Int) - out.length - 2 - (packOffset r.lcn prev).1 := by
      rw [Int.bmod_def] at htmp
      split at htmp <;> omega
    refine .inr ⟨?_, _, if_neg hfull, fun h => ?_⟩
    · rw [List.length_append, length_packedRun]
      omega
    · have hnot := of_decide_eq_false h
      omega

/-- An entry is a part of the run it is from. -/
theorem round_good {evcn1 : Nat} (hr : r.Good) (hlt : r.vcn < evcn1) :
    NtfsRun.Good ⟨r.vcn, roundLen evcn1 r, r.lcn⟩ := by
  have hrlt := hr.lt
  have hpos := hr.pos
  have hle : roundLen evcn1 r ≤ r.len := Nat.min_le_left _ _
  have hlen : 0 < roundLen evcn1 r := Nat.lt_min.mpr ⟨hpos, by omega⟩
  exact ⟨hlen, show r.vcn + roundLen evcn1 r < _ by omega, hr.lcn⟩

theorem place_round {evcn1 : Nat} (rest es : List NtfsRun) (hu : r.vcn ≤ u)
    (hlt : u < r.vcn + roundLen evcn1 r) :
    place (⟨r.vcn, roundLen evcn1 r, r.lcn⟩ :: es) u = place (r :: rest) u := by
  have hle : roundLen evcn1 r ≤ r.len := Nat.min_le_left _ _
  have hhas : NtfsRun.Has ⟨r.vcn, roundLen evcn1 r, r.lcn⟩ u := ⟨hu, hlt⟩
  have hhas' : r.Has u := ⟨hu, by omega⟩
  rw [place_cons, place_cons, if_pos hhas, if_pos hhas']
  rfl

theorem packed_none {evcn1 packed : Nat} {out : Bytes} (hlt : r.vcn < evcn1)
    (hout : out.length + 1 ≤ max 1 size) (rest : List NtfsRun) :
    Packed evcn1 size prev packed out r rest (out ++ [0]) packed [] r.vcn := by
  refine ⟨?_, rfl, Nat.le_of_lt hlt, rfl, fun u _ _ => by omega,
    fun e he => (List.not_mem_nil he).elim, ?_⟩
  · rw [packedRuns, List.append_nil]
  · rwa [List.length_append]

theorem packed_cons {evcn1 packed packed' : Nat} {out bytes : Bytes} {rest : List NtfsRun}
    (hr : r.Good) (hlt : r.vcn < evcn1)
    (hchain : Chain (r.vcn + roundLen evcn1 r) es stop) (hle : stop ≤ evcn1)
    (hcount : packed' + (r.vcn + roundLen evcn1 r) = packed + roundLen evcn1 r + stop)
    (hwritten : bytes = out ++ packedRun r.lcn (roundLen evcn1 r) prev ++
      packedRuns (packOffset r.lcn prev).2.2 es ++ [0])
    (hplace : ∀ u, r.vcn + roundLen evcn1 r ≤ u → u < stop → place es u = place (r :: rest) u)
    (hpart : ∀ e ∈ es, ∃ s ∈ rest, e.vcn = s.vcn ∧ e.len ≤ s.len ∧ e.lcn = s.lcn)
    (hsize : bytes.length ≤ max 1 size) :
    Packed evcn1 size prev packed out r rest bytes packed'
      (⟨r.vcn, roundLen evcn1 r, r.lcn⟩ :: es) stop := by
  refine ⟨?_, ⟨rfl, round_good hr hlt, hchain⟩, hle, by omega, fun u hu hlt => ?_, fun e he => ?_,
    hsize⟩
  · rw [hwritten, packedRuns]
    simp only [List.append_assoc]
  · by_cases hin : u < r.vcn + roundLen evcn1 r
    · exact place_round rest es hu hin
    · rw [place_cons, if_neg fun h => hin h.2]
      exact hplace u (by omega) hlt
  · rcases List.mem_cons.mp he with rfl | he
    · exact ⟨r, List.mem_cons_self, rfl, Nat.min_le_left _ _, rfl⟩
    · obtain ⟨s, hs, hpart⟩ := hpart e he
      exact ⟨s, List.mem_cons_of_mem r hs, hpart⟩

theorem packed_last {evcn1 packed : Nat} {out : Bytes} (hr : r.Good) (hlt : r.vcn < evcn1)
    (hlen : (out ++ packedRun r.lcn (roundLen evcn1 r) prev).length + 1 ≤ max 1 size)
    (rest : List NtfsRun) :
    Packed evcn1 size prev packed out r rest
      (out ++ packedRun r.lcn (roundLen evcn1 r) prev ++ [0]) (packed + roundLen evcn1 r)
      [⟨r.vcn, roundLen evcn1 r, r.lcn⟩] (r.vcn + roundLen evcn1 r) := by
  have hmin : roundLen evcn1 r ≤ evcn1 - r.vcn := Nat.min_le_right _ _
  have hchain : Chain (r.vcn + roundLen evcn1 r) [] (r.vcn + roundLen evcn1 r) := rfl
  refine packed_cons hr hlt hchain (by omega) (by omega) ?_ (fun u _ _ => by omega)
    (fun e he => (List.not_mem_nil he).elim) ?_
  · rw [packedRuns, List.append_nil]
  · rw [List.length_append]
    exact hlen

/-- The bytes are those of entries one behind the other, with the places of the runs. -/
theorem packRounds_spec {evcn1 packed packed' : Nat} {out bytes : Bytes} {rest : List NtfsRun}
    (hs : Sorted (r :: rest)) (hprev : prev < 2 ^ 32)
    (hlt : r.vcn < evcn1) (hevcn1 : evcn1 < 2 ^ 32) (hsize : size < 2 ^ 32)
    (hout : out.length + 1 ≤ max 1 size) (hpacked : packed + (evcn1 - r.vcn) < 2 ^ 32)
    (h : packRounds evcn1 size rest r prev out packed = some (bytes, packed')) :
    ∃ es stop, Packed evcn1 size prev packed out r rest bytes packed' es stop := by
  induction rest generalizing r prev out packed with
  | nil =>
    have hr := hs.good r List.mem_cons_self
    rw [packRounds] at h
    rcases packRound_cases hr hprev hlt hevcn1 hsize hout hpacked with heq | ⟨hlen, last, heq, -⟩
    · rw [heq] at h
      obtain ⟨rfl, rfl⟩ := Prod.mk.inj (Option.some.inj h)
      exact ⟨_, _, packed_none hlt hout []⟩
    · rw [heq] at h
      cases last with
      | true =>
        obtain ⟨rfl, rfl⟩ := Prod.mk.inj (Option.some.inj h)
        exact ⟨_, _, packed_last hr hlt hlen []⟩
      | false => cases h
  | cons n rest ih =>
    obtain ⟨hr, hrest, hapart⟩ := sorted_cons.mp hs
    rw [packRounds] at h
    rcases packRound_cases hr hprev hlt hevcn1 hsize hout hpacked with heq | ⟨hlen, last, heq, hlast⟩
    · rw [heq] at h
      obtain ⟨rfl, rfl⟩ := Prod.mk.inj (Option.some.inj h)
      exact ⟨_, _, packed_none hlt hout (n :: rest)⟩
    · rw [heq] at h
      cases last with
      | true =>
        obtain ⟨rfl, rfl⟩ := Prod.mk.inj (Option.some.inj h)
        exact ⟨_, _, packed_last hr hlt hlen (n :: rest)⟩
      | false =>
        have hmore := hlast rfl
        have hfull : roundLen evcn1 r = r.len := Nat.min_eq_left (by omega)
        rw [if_neg Bool.false_ne_true] at h
        dsimp only at h
        split at h
        · cases h
        · rename_i hnext
          have hvcn : n.vcn = r.vcn + r.len := by
            rw [hr.next] at hnext
            by_contra hne
            exact hnext (.inr fun h => hne h.symm)
          obtain ⟨es, stop, hspec⟩ := ih hrest (packOffset_lt hr.lcn hprev)
            (hvcn ▸ hmore) hlen (by omega) h
          have hchain := hspec.chain
          have hcount := hspec.count
          refine ⟨_, stop, packed_cons hr hlt (by rwa [hfull, ← hvcn]) hspec.le (by omega)
            hspec.written (fun u hu hlt => ?_) hspec.part hspec.size⟩
          rw [hspec.place u (by omega) hlt, place_cons r, if_neg fun h => ?_]
          have hin := h.2
          omega

/-! ## A range of a tree -/

/-- The entry of a cluster is what is left of its run. -/
theorem runLookupEntry_hit (hs : Sorted run) {e : Nat × Nat × Nat}
    (h : runLookupEntry run v = some e) : ∃ pre r post, run = pre ++ r :: post ∧ r.Has v ∧
      e = ((r.place v).getD sparseLcn, r.vcn + r.len - v, pre.length) := by
  have hfound := runLookup_spec hs v
  rw [runLookupEntry] at h
  generalize runLookup run v = found at h hfound
  cases hfound with
  | miss pre post hrun hpre hpost => cases h
  | hit pre post r hrun hr =>
    subst hrun
    have hgood := hs.over.good
    have hlt := hgood.lt
    obtain ⟨hle, hend⟩ := hr
    have hgap : clstSub v r.vcn = v - r.vcn := clstSub_eq hle (by omega)
    have hrest : clstSub r.len (v - r.vcn) = r.vcn + r.len - v := by
      rw [clstSub_eq (by omega) (by omega)]
      omega
    simp only [if_true, getD_append, hgood.next, hgap] at h
    rw [if_neg (by omega), if_neg (by omega), hrest, r.lcnAt_eq] at h
    exact ⟨pre, r, post, rfl, ⟨hle, hend⟩, (Option.some.inj h).symm⟩

/-- The first run of a range: its part from the start of the range on. -/
theorem first_part (hr : r.Good) (hhas : r.Has v) (hw : r.Within nbits) (hn : nbits ≤ sparseLcn) :
    NtfsRun.Good ⟨v, r.vcn + r.len - v, (r.place v).getD sparseLcn⟩ ∧
      NtfsRun.Within nbits ⟨v, r.vcn + r.len - v, (r.place v).getD sparseLcn⟩ ∧
      ((r.place v).getD sparseLcn = sparseLcn ↔ r.lcn = sparseLcn) ∧
      ∀ u, v ≤ u → NtfsRun.place ⟨v, r.vcn + r.len - v, (r.place v).getD sparseLcn⟩ u = r.place u := by
  obtain ⟨hle, hend⟩ := hhas
  have hlt := hr.lt
  have hsparse : sparseLcn = 2 ^ 32 - 1 := rfl
  by_cases hs : r.lcn = sparseLcn
  · have hplace : ∀ u, r.place u = none := fun u => if_pos hs
    rw [hplace v, Option.getD_none]
    refine ⟨⟨show 0 < r.vcn + r.len - v by omega, show v + (r.vcn + r.len - v) < _ by omega,
      show sparseLcn < _ by omega⟩, .inl rfl, iff_of_true rfl hs, fun u _ => ?_⟩
    rw [hplace]
    exact if_pos rfl
  · have hlcn : r.lcn + r.len ≤ nbits := hw.resolve_left hs
    have hat : r.place v = some (r.lcn + (v - r.vcn)) := by
      have hadd : clstAdd r.lcn (v - r.vcn) = r.lcn + (v - r.vcn) := clstAdd_eq (by omega)
      rw [NtfsRun.place, if_neg hs, hadd]
    rw [hat, Option.getD_some]
    refine ⟨⟨show 0 < r.vcn + r.len - v by omega, show v + (r.vcn + r.len - v) < _ by omega,
      show r.lcn + (v - r.vcn) < _ by omega⟩,
      .inr (show r.lcn + (v - r.vcn) + (r.vcn + r.len - v) ≤ nbits by omega),
      iff_of_false (by omega) hs, fun u hu => ?_⟩
    have hgap : r.lcn + (v - r.vcn) + (u - v) = r.lcn + (u - r.vcn) := by omega
    rw [NtfsRun.place, NtfsRun.place, if_neg hs, if_neg (show r.lcn + (v - r.vcn) ≠ sparseLcn by omega)]
    show some (clstAdd (r.lcn + (v - r.vcn)) (u - v)) = _
    rw [clstAdd, clstAdd, hgap]

/-- The entries of a range. -/
structure Entries (run : List NtfsRun) (nbits svcn packed : Nat) (es : List NtfsRun) : Prop where
  chain : Chain svcn es (svcn + packed)
  within : ∀ e ∈ es, e.Within nbits
  place : ∀ u, svcn ≤ u → u < svcn + packed → place es u = place run u
  part : ∀ e ∈ es, ∃ s ∈ run, e.vcn = max s.vcn svcn ∧ e.vcn + e.len ≤ s.vcn + s.len ∧
    (e.lcn = sparseLcn ↔ s.lcn = sparseLcn)

theorem runPack_spec {svcn len packed : Nat} {bytes : Bytes} (hs : Sorted run)
    (hw : ∀ s ∈ run, s.Within nbits) (hn : nbits ≤ sparseLcn) (hend : svcn + len < 2 ^ 32)
    (hsize : size < 2 ^ 32) (h : runPack run svcn len size = some (bytes, packed))
    (hpos : 0 < packed) :
    ∃ es, bytes = packedRuns 0 es ++ [0] ∧ packed ≤ len ∧ bytes.length ≤ max 1 size ∧
      Entries run nbits svcn packed es := by
  rw [runPack] at h
  split at h
  · obtain ⟨-, rfl⟩ := Prod.mk.inj (Option.some.inj h)
    omega
  · rename_i hlen
    obtain ⟨e, he, hrounds⟩ := Option.bind_eq_some_iff.mp h
    obtain ⟨pre, r, post, rfl, hhas, rfl⟩ := runLookupEntry_hit hs he
    have hr := hs.over.good
    obtain ⟨hgood, hwithin, hsparse, hpart⟩ := first_part hr hhas
      (hw r (List.mem_append_right pre List.mem_cons_self)) hn
    have hadd : clstAdd svcn len = svcn + len := clstAdd_eq hend
    have hdrop : (pre ++ r :: post).drop (pre.length + 1) = post := by
      have hlen : pre.length + 1 = (pre ++ [r]).length := by
        rw [List.length_append]
        rfl
      rw [append_singleton, hlen, List.drop_left]
    dsimp only at hrounds
    rw [hadd, hdrop] at hrounds
    have hbehind := hs.behind
    have hhas' := hhas
    obtain ⟨hle, hin⟩ := hhas
    have hsorted : Sorted (⟨svcn, r.vcn + r.len - svcn, (r.place svcn).getD sparseLcn⟩ :: post) := by
      refine sorted_cons.mpr ⟨hgood, hs.over.after, fun s hmem => ?_⟩
      have hge := hbehind s hmem
      exact show svcn + (r.vcn + r.len - svcn) ≤ s.vcn by omega
    obtain ⟨es, stop, hspec⟩ := packRounds_spec hsorted (by decide)
      (show svcn < svcn + len by omega) hend hsize
      (show ([] : Bytes).length + 1 ≤ max 1 size from Nat.le_max_left 1 size)
      (show 0 + (svcn + len - svcn) < 2 ^ 32 by omega) hrounds
    have hcount : packed + svcn = 0 + stop := hspec.count
    have hstop : stop = svcn + packed := by omega
    have hlestop := hspec.le
    have hchain := hspec.chain
    rw [hstop] at hchain
    refine ⟨es, hspec.written, by omega, hspec.size, hchain, fun e he => ?_, fun u hu hlt => ?_,
      fun e he => ?_⟩
    · obtain ⟨s, hmem, -, hlen, hlcn⟩ := hspec.part e he
      have hws : s.Within nbits := by
        rcases List.mem_cons.mp hmem with rfl | hmem
        · exact hwithin
        · exact hw s (List.mem_append_right pre (List.mem_cons_of_mem r hmem))
      rcases hws with hws | hws
      · exact .inl (hlcn.trans hws)
      · exact .inr (by omega)
    · rw [hspec.place u hu (by omega), place_cons,
        place_right fun p hp => Nat.le_trans (hs.over.apart p hp) (Nat.le_trans hle hu), place_cons,
        hpart u hu]
      have hiff : NtfsRun.Has ⟨svcn, r.vcn + r.len - svcn, (r.place svcn).getD sparseLcn⟩ u ↔
          r.Has u := by
        simp only [NtfsRun.Has]
        omega
      simp only [hiff]
    · obtain ⟨s, hmem, hvcn, hlen, hlcn⟩ := hspec.part e he
      rcases List.mem_cons.mp hmem with rfl | hmem
      · have hvcn' : e.vcn = svcn := hvcn
        have hlen' : e.len ≤ r.vcn + r.len - svcn := hlen
        refine ⟨r, List.mem_append_right pre List.mem_cons_self, ?_, by omega, ?_⟩
        · rw [hvcn', Nat.max_eq_right hle]
        · rw [hlcn]
          exact hsparse
      · have hge := hbehind s hmem
        refine ⟨s, List.mem_append_right pre (List.mem_cons_of_mem r hmem), ?_, by omega, by rw [hlcn]⟩
        rw [hvcn, Nat.max_eq_left (by omega)]

/-! ## Places that differ -/

/-- No two clusters are at one place. -/
def Injective (run : List NtfsRun) : Prop :=
  ∀ v w c, place run v = some (some c) → place run w = some (some c) → v = w

/-- The first cluster that is not sparse is not at the start of the volume. -/
def StartsAbove (run : List NtfsRun) (v stop : Nat) : Prop :=
  ∀ u, v ≤ u → u < stop → place run u = some (some 0) → ∃ w, v ≤ w ∧ w < u ∧ place run w ≠ some none

theorem place_first (hr : r.Good) :
    r.place r.vcn = if r.lcn = sparseLcn then none else some r.lcn := by
  rw [NtfsRun.place, Nat.sub_self, clstAdd_eq (show r.lcn + 0 < 2 ^ 32 from hr.lcn), Nat.add_zero]

theorem chain_place (hchain : Chain (r.vcn + r.len) es stop)
    (hplace : ∀ u, r.vcn ≤ u → u < stop → place (r :: es) u = place run u) :
    (∀ u, r.Has u → place run u = some (r.place u)) ∧
      ∀ u, r.vcn + r.len ≤ u → u < stop → place es u = place run u := by
  have hle := hchain.stop_le
  refine ⟨fun u hu => ?_, fun u hu hlt => ?_⟩
  · have hend := hu.2
    rw [← hplace u hu.1 (by omega), place_cons, if_pos hu]
  · rw [← hplace u (by omega) hlt, place_cons, if_neg fun h => Nat.not_le_of_lt h.2 hu]

theorem moves_of_place (hinj : Injective run) (hchain : Chain v es stop)
    (hplace : ∀ u, v ≤ u → u < stop → place es u = place run u) {w : Nat} (hw : w < v)
    (hprev : place run w = some (some prev)) : Moves prev es := by
  induction es generalizing v prev w with
  | nil => trivial
  | cons r es ih =>
    obtain ⟨rfl, hr, hrest⟩ := hchain
    obtain ⟨hhas, hlater⟩ := chain_place hrest hplace
    have hpos := hr.pos
    have hat := hhas r.vcn ⟨Nat.le_refl _, by omega⟩
    rw [place_first hr] at hat
    by_cases hs : r.lcn = sparseLcn
    · refine ⟨.inl hs, ?_⟩
      rw [packOffset, if_pos hs]
      exact ih hrest hlater (by omega) hprev
    · rw [if_neg hs] at hat
      refine ⟨.inr fun heq => ?_, ?_⟩
      · rw [heq] at hat
        have hsame := hinj _ _ _ hat hprev
        omega
      · rw [packOffset, if_neg hs]
        exact ih hrest hlater (by omega) hat

theorem moves_iff (hinj : Injective run) (hchain : Chain v es stop)
    (hplace : ∀ u, v ≤ u → u < stop → place es u = place run u) :
    Moves 0 es ↔ StartsAbove run v stop := by
  induction es generalizing v with
  | nil =>
    obtain rfl : v = stop := hchain
    exact iff_of_true trivial fun u hu hlt => absurd hlt (Nat.not_lt_of_le hu)
  | cons r es ih =>
    obtain ⟨rfl, hr, hrest⟩ := hchain
    obtain ⟨hhas, hlater⟩ := chain_place hrest hplace
    have hpos := hr.pos
    have hle := hrest.stop_le
    have hat := hhas r.vcn ⟨Nat.le_refl _, by omega⟩
    rw [place_first hr] at hat
    by_cases hs : r.lcn = sparseLcn
    · have hnone : ∀ u, r.Has u → place run u = some none := fun u hu =>
        (hhas u hu).trans (congrArg some (if_pos hs))
      have hmoves : Moves 0 (r :: es) ↔ Moves 0 es := by
        rw [Moves, packOffset, if_pos hs]
        exact and_iff_right (.inl hs)
      rw [hmoves, ih hrest hlater]
      constructor
      · intro h u hu hlt hzero
        have hbehind : r.vcn + r.len ≤ u := by
          by_contra hnot
          rw [hnone u ⟨hu, by omega⟩] at hzero
          cases hzero
        obtain ⟨w, hw, hwu, hne⟩ := h u hbehind hlt hzero
        exact ⟨w, by omega, hwu, hne⟩
      · intro h u hu hlt hzero
        obtain ⟨w, hw, hwu, hne⟩ := h u (by omega) hlt hzero
        refine ⟨w, ?_, hwu, hne⟩
        by_contra hnot
        exact hne (hnone w ⟨hw, by omega⟩)
    · rw [if_neg hs] at hat
      constructor
      · intro hmoves u hu hlt hzero
        have hne : u ≠ r.vcn := by
          rintro rfl
          rw [hat] at hzero
          exact (hmoves.1.resolve_left hs) (Option.some.inj (Option.some.inj hzero))
        refine ⟨r.vcn, Nat.le_refl _, by omega, ?_⟩
        rw [hat]
        exact fun h => Option.some_ne_none _ (Option.some.inj h)
      · intro h
        refine ⟨.inr fun heq => ?_, ?_⟩
        · rw [heq] at hat
          obtain ⟨w, hw, hlt, -⟩ := h r.vcn (Nat.le_refl _) (by omega) hat
          omega
        · rw [packOffset, if_neg hs]
          exact moves_of_place hinj hrest hlater (show r.vcn < r.vcn + r.len by omega) hat

/-! ## Loading what was packed -/

theorem chain_place_none (hchain : Chain v es stop) (hu : u < v ∨ stop ≤ u) :
    place es u = none := by
  induction es generalizing v with
  | nil => rfl
  | cons r es ih =>
    obtain ⟨rfl, hr, hrest⟩ := hchain
    have hle := hrest.stop_le
    rw [place_cons, if_neg fun h => by
      have hge := h.1
      have hlt := h.2
      omega]
    exact ih hrest (by omega)

theorem length_packedRuns_le (prev : Nat) (es : List NtfsRun) :
    es.length ≤ (packedRuns prev es).length := by
  induction es generalizing prev with
  | nil => exact Nat.zero_le _
  | cons r es ih =>
    have hlen := ih (packOffset r.lcn prev).2.2
    rw [packedRuns, List.length_cons, List.length_append, length_packedRun]
    omega

theorem runUnpack_entries {svcn packed bufSize : Nat} {bytes : Bytes}
    (hes : Entries run nbits svcn packed es) (hbytes : bytes = packedRuns 0 es ++ [0])
    (hn : nbits ≤ sparseLcn) (hend : svcn + packed < 2 ^ 32) (hpos : 0 < packed)
    (hbuf : Holds buf 0 bytes) (hlen : bytes.length ≤ bufSize) :
    (runUnpack alloc nbits (svcn + packed - 1) vcn buf bufSize svcn [] = .error .enomem ∧
      ∃ n, alloc n = false) ∨
    (¬ Moves 0 es ∧
      runUnpack alloc nbits (svcn + packed - 1) vcn buf bufSize svcn [] = .error .einval) ∨
    Moves 0 es ∧ ∃ run', runUnpack alloc nbits (svcn + packed - 1) vcn buf bufSize svcn [] =
        .ok (bytes.length, run') ∧ Sorted run' ∧
      ∀ u, place run' u = place (es.filterMap (loaded vcn)) u := by
  have hmod : (svcn + packed - 1 + 1) % 2 ^ 32 = svcn + packed := by omega
  subst hbytes
  rw [List.length_append, List.length_singleton] at hlen
  have hentries := length_packedRuns_le 0 es
  rw [runUnpack, if_neg (by omega), if_neg (by omega)]
  rcases @unpackRounds_packed alloc nbits (svcn + packed - 1) vcn bufSize 0 0 (svcn + packed) svcn
    (bufSize + 1) buf [] es hn (by omega) hes.chain (by omega) hes.within (by decide) hbuf
    (by omega) (by omega) sorted_nil (fun v h => nomatch h) with
    ⟨heq, halloc⟩ | ⟨hstay, heq⟩ | ⟨hmoves, run', heq, hs, hplace⟩
  · rw [heq]
    exact .inl ⟨rfl, halloc⟩
  · rw [heq]
    exact .inr (.inl ⟨hstay, rfl⟩)
  · rw [heq]
    refine .inr (.inr ⟨hmoves, run', ?_, hs, fun u => ?_⟩)
    · show (if svcn + packed ≠ (svcn + packed - 1 + 1) % 2 ^ 32 then Except.error UnpackErr.einval
        else .ok (0 + (packedRuns 0 es).length + 1, run')) = _
      rw [hmod, if_neg (not_not_intro rfl), Nat.zero_add, List.length_append]
      rfl
    · rw [hplace, place_nil, Option.or_none]

theorem place_loaded_at {e : NtfsRun} (hchain : Chain v es stop) (he : e ∈ es)
    (hq : loaded vcn e = some q) (hu : q.Has u) :
    place (es.filterMap (loaded vcn)) u = some (q.place u) := by
  induction es generalizing v with
  | nil => exact (List.not_mem_nil he).elim
  | cons r es ih =>
    obtain ⟨rfl, hr, hrest⟩ := hchain
    rcases List.mem_cons.mp he with rfl | he
    · rw [List.filterMap_cons_some hq, place_cons, if_pos hu]
    · obtain ⟨hgood, hle⟩ := hrest.starts e he
      have hin := ((loaded_has hgood hq).mp hu).1.1
      rcases hloaded : loaded vcn r with _ | q'
      · rw [List.filterMap_cons_none hloaded]
        exact ih hrest he
      · rw [List.filterMap_cons_some hloaded, place_cons, if_neg fun h => ?_]
        · exact ih hrest he
        · have hend := ((loaded_has hr hloaded).mp h).1.2
          omega

theorem place_entries {svcn packed : Nat} (hes : Entries run nbits svcn packed es) (u : Nat) :
    place es u = if svcn ≤ u ∧ u < svcn + packed then place run u else none := by
  by_cases hin : svcn ≤ u ∧ u < svcn + packed
  · rw [if_pos hin, hes.place u hin.1 hin.2]
  · rw [if_neg hin]
    exact chain_place_none hes.chain (by omega)

/-- **Round trip.** What `run_pack` writes for a range, no more than there is room for, `run_unpack`
reads from wherever it is: the bytes are used up and the clusters are where they were. It refuses
only a range whose first cluster that is not sparse is the first one of the volume. -/
theorem run_roundTrip (alloc : Nat → Bool) {svcn len packed bufSize : Nat} {bytes : Bytes}
    (hs : Sorted run) (hinj : Injective run) (hw : ∀ r ∈ run, r.Within nbits)
    (hn : nbits ≤ sparseLcn) (hend : svcn + len < 2 ^ 32) (hsize : size < 2 ^ 32)
    (hpack : runPack run svcn len size = some (bytes, packed)) (hpos : 0 < packed)
    (hbuf : Holds buf 0 bytes) (hlen : bytes.length ≤ bufSize) :
    bytes.length ≤ max 1 size ∧ packed ≤ len ∧
    ((runUnpack alloc nbits (svcn + packed - 1) svcn buf bufSize svcn [] = .error .enomem ∧
      ∃ n, alloc n = false) ∨
    (¬ StartsAbove run svcn (svcn + packed) ∧
      runUnpack alloc nbits (svcn + packed - 1) svcn buf bufSize svcn [] = .error .einval) ∨
    StartsAbove run svcn (svcn + packed) ∧
      ∃ run', runUnpack alloc nbits (svcn + packed - 1) svcn buf bufSize svcn [] =
          .ok (bytes.length, run') ∧ Sorted run' ∧
        ∀ u, place run' u = if svcn ≤ u ∧ u < svcn + packed then place run u else none) := by
  obtain ⟨es, hbytes, hle, hroom, hes⟩ := runPack_spec hs hw hn hend hsize hpack hpos
  have hmoves := moves_iff hinj hes.chain hes.place
  refine ⟨hroom, hle, ?_⟩
  rw [← hmoves]
  rcases runUnpack_entries hes hbytes hn (by omega) hpos hbuf hlen with
    hfail | hstay | ⟨hmove, run', heq, hs', hplace⟩
  · exact .inl hfail
  · exact .inr (.inl hstay)
  · refine .inr (.inr ⟨hmove, run', heq, hs', fun u => ?_⟩)
    have hwhole : ∀ e ∈ es, e.lcn = sparseLcn → ¬ (e.vcn < svcn ∧ e.Has svcn) := fun e he _ h => by
      have hge := (hes.chain.starts e he).2
      omega
    rw [hplace, place_loaded hes.chain hes.within hn hwhole, place_entries hes]
    by_cases hu : svcn ≤ u
    · rw [if_pos hu]
    · rw [if_neg hu, if_neg fun h => hu h.1]

/-- A sparse run of the range that starts before `vcn` and goes on there. -/
structure Straddles (run : List NtfsRun) (svcn vcn : Nat) (r : NtfsRun) : Prop where
  mem : r ∈ run
  sparse : r.lcn = sparseLcn
  has : r.Has vcn
  lt : max r.vcn svcn < vcn

/-- **Loading from a cluster on.** The clusters from there on are where they were, unless the first
one is inside of a sparse run: then it is at a cluster of the volume, one less than how far it is
from where the run starts. -/
theorem run_loadFrom (alloc : Nat → Bool) {svcn len packed bufSize : Nat} {bytes : Bytes}
    (hs : Sorted run) (hinj : Injective run) (hw : ∀ r ∈ run, r.Within nbits)
    (hn : nbits ≤ sparseLcn) (hend : svcn + len < 2 ^ 32) (hsize : size < 2 ^ 32)
    (hpack : runPack run svcn len size = some (bytes, packed)) (hpos : 0 < packed)
    (hstart : StartsAbove run svcn (svcn + packed)) (hbuf : Holds buf 0 bytes)
    (hlen : bytes.length ≤ bufSize) (hvcn : vcn < svcn + packed) :
    (runUnpack alloc nbits (svcn + packed - 1) vcn buf bufSize svcn [] = .error .enomem ∧
      ∃ n, alloc n = false) ∨
    ∃ run', runUnpack alloc nbits (svcn + packed - 1) vcn buf bufSize svcn [] =
        .ok (bytes.length, run') ∧ Sorted run' ∧
      ((¬ ∃ r, Straddles run svcn vcn r) → ∀ u, place run' u =
        if max vcn svcn ≤ u ∧ u < svcn + packed then place run u else none) ∧
      ∀ r, Straddles run svcn vcn r → place run' vcn = some (some (vcn - max r.vcn svcn - 1)) := by
  obtain ⟨es, hbytes, hle, hroom, hes⟩ := runPack_spec hs hw hn hend hsize hpack hpos
  have hmoves := moves_iff hinj hes.chain hes.place
  rcases @runUnpack_entries alloc nbits vcn buf run es svcn packed bufSize bytes hes hbytes hn
    (by omega) hpos hbuf hlen with hfail | ⟨hstay, -⟩ | ⟨-, run', heq, hs', hplace⟩
  · exact .inl hfail
  · exact absurd (hmoves.mpr hstart) hstay
  · refine .inr ⟨run', heq, hs', fun hnone u => ?_, fun r hr => ?_⟩
    · have hwhole : ∀ e ∈ es, e.lcn = sparseLcn → ¬ (e.vcn < vcn ∧ e.Has vcn) := by
        rintro e he hsparse ⟨hlt, hhas⟩
        obtain ⟨s, hmem, hevcn, heend, hiff⟩ := hes.part e he
        have hee := hhas.2
        exact hnone ⟨s, hmem, hiff.mp hsparse, ⟨by omega, by omega⟩, by omega⟩
      rw [hplace, place_loaded hes.chain hes.within hn hwhole, place_entries hes, ← ite_and]
      congr 1
      exact propext (by omega)
    · obtain ⟨hmem, hsparse, hhas, hlt⟩ := hr
      obtain ⟨a, b, rfl⟩ := List.append_of_mem hmem
      have hat := hes.place vcn (by omega) hvcn
      rw [place_eq_of_mem hs hhas] at hat
      obtain ⟨e, he, hehas⟩ := place_ne_none_iff.mp (hat ▸ Option.some_ne_none _)
      obtain ⟨s, hs', hevcn, heend, hiff⟩ := hes.part e he
      have hgood := (hes.chain.starts e he).1
      have hegood := hgood.lt
      have hege := hehas.1
      have hee := hehas.2
      obtain rfl : s = r := hs.eq_of_has hs' hmem ⟨by omega, by omega⟩ hhas
      rcases loaded_cases vcn hgood with ⟨hge, -⟩ | ⟨hvlt, hvend, hq⟩ | ⟨hge, -⟩
      · omega
      · rw [if_pos (hiff.mpr hsparse)] at hq
        rw [hplace, place_loaded_at hes.chain he hq
          ⟨Nat.le_refl _, show vcn < vcn + (e.vcn + e.len - vcn) by omega⟩, NtfsRun.place, if_neg (show vcn - e.vcn - 1 ≠ sparseLcn from ?_)]
        · show some (some (clstAdd (vcn - e.vcn - 1) (vcn - vcn))) = _
          rw [Nat.sub_self, clstAdd_eq (by omega), Nat.add_zero, hevcn]
        · have hall : sparseLcn = 2 ^ 32 - 1 := rfl
          omega
      · omega

end

/-! ## A file of three runs -/

def threeRuns : List NtfsRun := [⟨0, 4, 100⟩, ⟨4, 3, sparseLcn⟩, ⟨7, 2, 50⟩]

def threePacked : Bytes := [0x11, 4, 100, 0x01, 3, 0x11, 2, 206, 0]

theorem sorted_threeRuns : Sorted threeRuns := by
  refine ⟨?_, by decide⟩
  simp only [threeRuns, List.forall_mem_cons, List.not_mem_nil, false_imp_iff, implies_true, and_true]
  exact ⟨⟨by decide, by decide, by decide⟩, ⟨by decide, by decide, by decide⟩,
    ⟨by decide, by decide, by decide⟩⟩

theorem place_threeRuns (v : Nat) : place threeRuns v =
    if v < 4 then some (some (100 + v)) else if v < 7 then some none
    else if v < 9 then some (some (43 + v)) else none := by
  have hfirst : NtfsRun.Has ⟨0, 4, 100⟩ v ↔ v < 4 := by simp only [NtfsRun.Has]; omega
  have hsecond : NtfsRun.Has ⟨4, 3, sparseLcn⟩ v ↔ 4 ≤ v ∧ v < 7 := Iff.rfl
  have hthird : NtfsRun.Has ⟨7, 2, 50⟩ v ↔ 7 ≤ v ∧ v < 9 := Iff.rfl
  rw [threeRuns, place_cons, place_cons, place_cons, place_nil]
  simp only [hfirst, hsecond, hthird]
  by_cases h4 : v < 4
  · have hadd : clstAdd 100 (v - 0) = 100 + v := clstAdd_eq (show 100 + (v - 0) < 2 ^ 32 by omega)
    rw [if_pos h4, if_pos h4]
    exact congrArg some ((if_neg (by decide)).trans (congrArg some hadd))
  · rw [if_neg h4, if_neg h4]
    by_cases h7 : v < 7
    · rw [if_pos ⟨by omega, h7⟩, if_pos h7]
      exact congrArg some (if_pos rfl)
    · rw [if_neg fun h => h7 h.2, if_neg h7]
      by_cases h9 : v < 9
      · have hadd : clstAdd 50 (v - 7) = 43 + v := (clstAdd_eq (by omega)).trans (by omega)
        rw [if_pos ⟨by omega, h9⟩, if_pos h9]
        exact congrArg some ((if_neg (by decide)).trans (congrArg some hadd))
      · rw [if_neg fun h => h9 h.2, if_neg h9]

theorem injective_threeRuns : Injective threeRuns := by
  intro v w c hv hw
  have hcases : ∀ u, place threeRuns u = some (some c) →
      u < 4 ∧ c = 100 + u ∨ 7 ≤ u ∧ u < 9 ∧ c = 43 + u := by
    intro u hu
    rw [place_threeRuns] at hu
    split at hu
    · rename_i h
      exact .inl ⟨h, (Option.some.inj (Option.some.inj hu)).symm⟩
    · split at hu
      · cases hu
      · split at hu
        · rename_i h
          exact .inr ⟨by omega, h, (Option.some.inj (Option.some.inj hu)).symm⟩
        · cases hu
  have hcv := hcases v hv
  have hcw := hcases w hw
  omega

theorem within_threeRuns : ∀ r ∈ threeRuns, r.Within 1000 := by
  simp only [threeRuns, List.forall_mem_cons, List.not_mem_nil, false_imp_iff, implies_true, and_true]
  exact ⟨.inr (by decide), .inl rfl, .inr (by decide)⟩

theorem pack_threeRuns : runPack threeRuns 0 9 64 = some (threePacked, 9) := by decide

theorem holds_threePacked : Holds (fun i => threePacked.getD i 0) 0 threePacked := fun i _ => by
  rw [Nat.zero_add]

theorem startsAbove_threeRuns : StartsAbove threeRuns 0 9 := by
  intro u _ _ hzero
  have hat := place_threeRuns u
  rw [hzero] at hat
  split at hat
  · have hc := Option.some.inj (Option.some.inj hat)
    omega
  · split at hat
    · cases hat
    · have hc := Option.some.inj (Option.some.inj hat)
      omega

theorem run_roundTrip_three :
    ∃ run', runUnpack (fun _ => true) 1000 8 0 (fun i => threePacked.getD i 0) 20 0 [] =
        .ok (9, run') ∧ ∀ u, u < 9 → place run' u = place threeRuns u := by
  obtain ⟨-, -, ⟨-, n, hn⟩ | ⟨hnot, -⟩ | ⟨-, run', heq, -, hplace⟩⟩ :=
    run_roundTrip (fun _ => true) sorted_threeRuns injective_threeRuns within_threeRuns (by decide)
      (by decide) (by decide) pack_threeRuns (by decide) holds_threePacked (by decide : 9 ≤ 20)
  · cases hn
  · exact absurd startsAbove_threeRuns hnot
  · exact ⟨run', heq, fun u hu => (hplace u).trans (if_pos ⟨Nat.zero_le u, by omega⟩)⟩

/-- From cluster 6 on: cluster 6 is sparse, and loaded as cluster 1 of the volume. -/
theorem run_loadFrom_six :
    ∃ run', runUnpack (fun _ => true) 1000 8 6 (fun i => threePacked.getD i 0) 20 0 [] =
        .ok (9, run') ∧ place run' 6 = some (some 1) ∧ place threeRuns 6 = some none := by
  rcases run_loadFrom (fun _ => true) sorted_threeRuns injective_threeRuns
      within_threeRuns (by decide) (by decide) (by decide) pack_threeRuns (by decide)
      startsAbove_threeRuns holds_threePacked (by decide : 9 ≤ 20) (show 6 < 0 + 9 by decide) with
    ⟨-, n, hn⟩ | ⟨run', heq, -, -, hstraddle⟩
  · cases hn
  · refine ⟨run', heq, hstraddle ⟨4, 3, sparseLcn⟩ ⟨?_, rfl, by decide, by decide⟩, ?_⟩
    · exact List.mem_cons_of_mem _ List.mem_cons_self
    · exact place_threeRuns 6

end UolaOs.Ntfs3
