import UolaOs.Lib.Explore
import UolaOs.Feeds.Install

/-!
# What is installed

The sources that a request leads to through dependencies, in terms of the indexes alone, and what
`install_src` and `install_package` do in these terms.

* `installSrc_spec`: one call walks the graph of the dependencies from its source.
-/

namespace UolaOs.Feeds

section
variable (t : Tree) (feed : Option Feed)

/-- The preferred feed or else the first one, of those with an entry. -/
def feedWith (found : Index → Bool) : Option Feed :=
  (feed.toList ++ t.feeds).find? fun f => (t.index f.name).any found

/-- The feed that a source is taken from. -/
def source (name : String) : Option Feed := feedWith t feed fun i => (i.findSrc name).isSome

/-- The source that has a package. -/
def packageSource (name : String) : Option String :=
  (feedWith t feed fun i => (i.vpackage.lookup name).isSome).bind fun f =>
    (t.index f.name).bind fun i => i.vpackage.lookup name

/-- A source that is in a feed. One that is core is installed only by force, and then also if it is
installed already. -/
def Installs (name : String) (force : Bool) : Prop :=
  ∃ f, source t feed name = some f ∧ (isCoreSrc t name = true → force = true ∨ f.force = true) ∧
    (name ∈ t.parsed → isCoreSrc t name = true)

/-- The source that an entry asks for. -/
def Dep.source (d : Dep) : Option String :=
  if '@' ∈ d.text.toList ∨ truthy d.edit.text = false then none
  else if d.build = true then some d.edit.text
  else packageSource t feed d.edit.text

/-- A dependency of a source, of the feed that this is taken from. -/
def Needs (name other : String) : Prop :=
  ∃ f src, source t feed name = some f ∧ (t.index f.name).bind (·.findSrc name) = some src ∧
    ∃ d ∈ src.deps, d.source t feed = some other

/-- A dependency that is installed. -/
def Follows (name other : String) : Prop := Needs t feed name other ∧ Installs t feed other false

/-- The sources with a link. -/
def marks (s : State) : Set String := {name | s.installed name = some .one}

/-- The sources of all feeds. -/
def sources : List String :=
  t.feeds.flatMap fun f => (t.index f.name).elim [] fun i => i.src.map Src.name

/-- How many sources are left. -/
def left (s : State) : Nat := (sources t).countP fun name => decide (s.installed name ≠ some .one)

/-- The state after `get_installed` and the loop over the feeds, and while sources are installed. -/
structure Inv (s : State) : Prop where
  cache : ∀ f ∈ t.feeds, s.cache f.name = t.index f.name
  object : ∀ f ∈ t.feeds, ∀ name, name ∉ marks s →
    s.object f.name name = (t.index f.name).bind (·.findSrc name)
  installed : ∀ name, name ∉ marks s → (s.installed name ≠ none ↔ name ∈ t.parsed)
  links : ∀ f name, (f, name) ∈ s.links ↔
    name ∈ marks s ∧ (source t feed name).map Feed.name = some f
  nodup : (s.links.map Prod.snd).Nodup
  selected : ∀ name, s.selected = some name → ∃ f ∈ t.feeds, f.name = name

/-- What a part of a run has done. -/
structure Ran (roots : Set String) (s s' : State) : Prop where
  inv : Inv t feed s'
  explores : Explores (Follows t feed) roots (marks s) (marks s')
  /-- A source with a link is not edited by others. -/
  object : ∀ f name, name ∈ marks s → s'.object f name = s.object f name

end

section
variable {t : Tree} {feed : Option Feed} {s s' s'' : State} {roots others : Set String} {α : Type}

theorem Ran.append (h : Ran t feed roots s s') (h' : Ran t feed others s' s'') :
    Ran t feed (roots ∪ others) s s'' :=
  ⟨h'.inv, h.explores.append h'.explores, fun f name hm =>
    (h'.object f name (h.explores.kept hm)).trans (h.object f name hm)⟩

theorem Ran.stay (h : Inv t feed s) (hroots : roots ⊆ marks s) : Ran t feed roots s s :=
  ⟨h, .nothing hroots, fun _ _ _ => rfl⟩

/-- Other tables are used. -/
theorem Ran.select {f : Feed} (h : Inv t feed s) (hf : f ∈ t.feeds) (hroots : roots ⊆ marks s) :
    Ran t feed roots s { s with selected := some f.name } :=
  ⟨⟨h.cache, h.object, h.installed, h.links, h.nodup, fun name hname => by
    obtain rfl := Option.some.inj hname
    exact ⟨f, hf, rfl⟩⟩, .nothing hroots, fun _ _ _ => rfl⟩

theorem subset_of_none (hroots : ∀ name, name ∉ roots) : roots ⊆ marks s :=
  fun name hname => absurd hname (hroots name)

theorem left_le (h : marks s ⊆ marks s') : left t s' ≤ left t s :=
  List.countP_mono_left fun name _ hleft => by
    rw [decide_eq_true_eq] at hleft ⊢
    exact fun hm => hleft (h hm)

theorem find?_congr {p q : α → Bool} {l : List α} (h : ∀ x ∈ l, p x = q x) :
    l.find? p = l.find? q := by
  induction l with
  | nil => rfl
  | cons x l ih =>
    rw [List.find?_cons, List.find?_cons, h x List.mem_cons_self,
      ih fun y hy => h y (List.mem_cons_of_mem x hy)]

end

/-! ## The tables -/

section
variable {t : Tree} {feed : Option Feed} {found : Index → Bool} {s s' : State} {f : Feed}
  {name other : String} {force : Bool} (hfeed : ∀ f, feed = some f → f ∈ t.feeds)
include hfeed

theorem mem_feeds (hf : f ∈ feed.toList ++ t.feeds) : f ∈ t.feeds :=
  (List.mem_append.mp hf).elim (fun h => hfeed f (Option.mem_toList.mp h)) id

theorem feedWith_some (h : feedWith t feed found = some f) :
    f ∈ t.feeds ∧ ∃ i, t.index f.name = some i ∧ found i = true := by
  rw [feedWith] at h
  have hfound := List.find?_some h
  exact ⟨mem_feeds hfeed (List.mem_of_find?_eq_some h), (Option.any_eq_true _ _).mp hfound⟩

theorem lookup_eq (hi : Inv t feed s) : lookup t found feed s = feedWith t feed found := by
  refine find?_congr fun f hf => ?_
  have hmem := mem_feeds hfeed hf
  rw [t.feeds_true f hmem, Bool.true_and, hi.cache f hmem]

theorem source_some (h : source t feed name = some f) :
    f ∈ t.feeds ∧ ∃ i src, t.index f.name = some i ∧ i.findSrc name = some src := by
  obtain ⟨hf, i, hi, hsrc⟩ := feedWith_some hfeed h
  obtain ⟨src, hsrc⟩ := Option.isSome_iff_exists.mp hsrc
  exact ⟨hf, i, src, hi, hsrc⟩

theorem mem_sources (h : source t feed name = some f) : name ∈ sources t := by
  obtain ⟨hf, i, src, hi, hsrc⟩ := source_some hfeed h
  rw [Index.findSrc] at hsrc
  refine List.mem_flatMap.mpr ⟨f, hf, ?_⟩
  have hname := List.find?_some hsrc
  rw [hi]
  exact List.mem_map.mpr ⟨src, List.mem_of_find?_eq_some hsrc, of_decide_eq_true hname⟩

theorem packageSource_eq (h : feedWith t feed (fun i => (i.vpackage.lookup name).isSome) = some f)
    (hi : Inv t feed s) :
    packageSource t feed name = feedVpackage name { s with selected := some f.name } := by
  rw [packageSource, h, feedVpackage]
  show _ = (s.cache f.name).bind _
  rw [hi.cache f (feedWith_some hfeed h).1]
  rfl

end

section
variable {t : Tree} {feed : Option Feed} {s : State} {f : Feed} {name : String}

/-- A feed that is in the cache. -/
theorem getFeed_eq (hi : Inv t feed s) (hf : f ∈ t.feeds) {i : Index}
    (hindex : t.index f.name = some i) :
    getFeed t f.name s = { s with selected := some f.name } := by
  rw [getFeed, hi.cache f hf, hindex]

theorem marks_doInstallSrc : marks (doInstallSrc f.name name s) = insert name (marks s) := by
  ext other
  show Function.update s.installed name (some .one) other = some .one ↔
    other = name ∨ s.installed other = some .one
  by_cases h : other = name
  · rw [h, Function.update_self]
    exact ⟨fun _ => .inl rfl, fun _ => rfl⟩
  · rw [Function.update_of_ne h]
    exact ⟨.inr, fun hor => hor.resolve_left h⟩

theorem Inv.doInstallSrc (hi : Inv t feed s) (hsource : source t feed name = some f)
    (hnew : name ∉ marks s) : Inv t feed (doInstallSrc f.name name s) := by
  have hmarks : marks (Feeds.doInstallSrc f.name name s) = insert name (marks s) :=
    marks_doInstallSrc
  have hnot (other : String) (h : other ∉ insert name (marks s)) :
      other ≠ name ∧ other ∉ marks s :=
    ⟨fun heq => h (.inl heq), fun hm => h (.inr hm)⟩
  refine ⟨hi.cache, fun g hg other h => ?_, fun other h => ?_, fun g other => ?_, ?_, hi.selected⟩
  · rw [hmarks] at h
    exact hi.object g hg other (hnot other h).2
  · rw [hmarks] at h
    show Function.update s.installed name (some .one) other ≠ none ↔ _
    rw [Function.update_of_ne (hnot other h).1]
    exact hi.installed other (hnot other h).2
  · show (g, other) ∈ s.links ++ [(f.name, name)] ↔ _
    rw [hmarks, List.mem_append, List.mem_singleton, hi.links, Set.mem_insert_iff,
      Prod.mk.injEq]
    constructor
    · rintro (⟨hm, hg⟩ | ⟨rfl, rfl⟩)
      · exact ⟨.inr hm, hg⟩
      · exact ⟨.inl rfl, hsource ▸ rfl⟩
    · rintro ⟨rfl | hm, hg⟩
      · rw [hsource] at hg
        exact .inr ⟨(Option.some.inj hg).symm, rfl⟩
      · exact .inl ⟨hm, hg⟩
  · show ((s.links ++ [(f.name, name)]).map Prod.snd).Nodup
    rw [List.map_append, List.nodup_append]
    refine ⟨hi.nodup, List.nodup_singleton _, fun a ha b hb heq => hnew ?_⟩
    obtain ⟨⟨g, other⟩, hmem, rfl⟩ := List.mem_map.mp ha
    obtain rfl := heq.trans (List.mem_singleton.mp hb)
    exact ((hi.links g other).mp hmem).1

theorem left_doInstallSrc (hmem : name ∈ sources t) (hnew : name ∉ marks s) :
    left t (doInstallSrc f.name name s) < left t s := by
  obtain ⟨front, back, hsplit⟩ := List.append_of_mem hmem
  have hle (l : List String) :
      l.countP (fun n => decide ((doInstallSrc f.name name s).installed n ≠ some .one)) ≤
        l.countP fun n => decide (s.installed n ≠ some .one) :=
    List.countP_mono_left fun other _ h => by
      rw [decide_eq_true_eq] at h ⊢
      intro hm
      have hins : other ∈ marks (doInstallSrc f.name name s) := by
        rw [marks_doInstallSrc]
        exact .inr hm
      exact h hins
  have hmarked : (doInstallSrc f.name name s).installed name = some .one := Function.update_self ..
  rw [left, left, hsplit, List.countP_append, List.countP_append, List.countP_cons_of_neg,
    List.countP_cons_of_pos]
  · have hfront := hle front
    have hback := hle back
    omega
  · exact decide_eq_true hnew
  · rw [hmarked]
    decide

end

/-! ## The calls -/

section
variable {t : Tree} {feed : Option Feed} {s : State} {force : Bool} {name : String}
  (hfeed : ∀ f, feed = some f → f ∈ t.feeds)

/-- What a call of `install_src` does, as long as fewer than `n` sources are left. -/
def Calls (t : Tree) (feed : Option Feed) (force : Bool) (n : Nat)
    (call : String → State → Option State) : Prop :=
  ∀ name s, Inv t feed s → left t s < n →
    ∃ s', call name s = some s' ∧
      Ran t feed {other | other = name ∧ Installs t feed other force} s s'

include hfeed in
theorem installPackage_spec {n : Nat} {call : String → State → Option State}
    (hcall : Calls t feed force n call) (hi : Inv t feed s) (hleft : left t s < n) :
    ∃ s', installPackage t call feed name s = some s' ∧
      Ran t feed {other | packageSource t feed name = some other ∧ Installs t feed other force}
        s s' := by
  rw [installPackage, lookupPackage, lookup_eq hfeed hi]
  cases hwith : feedWith t feed fun i => (i.vpackage.lookup name).isSome with
  | none =>
    refine ⟨s, rfl, .stay hi (subset_of_none ?_)⟩
    rintro other ⟨h, -⟩
    rw [packageSource, hwith] at h
    cases h
  | some f =>
    obtain ⟨hf, i, hindex, -⟩ := feedWith_some hfeed hwith
    dsimp only
    rw [getFeed_eq hi hf hindex, ← packageSource_eq hfeed hwith hi]
    cases hsrc : packageSource t feed name with
    | none =>
      refine ⟨_, rfl, .select hi hf (subset_of_none ?_)⟩
      rintro other ⟨h, -⟩
      cases h
    | some src =>
      have hselect : Ran t feed ∅ s { s with selected := some f.name } :=
        .select hi hf (Set.empty_subset _)
      obtain ⟨s', hs', hran⟩ := hcall src _ hselect.inv hleft
      refine ⟨s', hs', hran.inv, ?_, hran.object⟩
      have hroots : {other | some src = some other ∧ Installs t feed other force} =
          {other | other = src ∧ Installs t feed other force} := by
        ext other
        exact and_congr_left' (Option.some_inj.trans eq_comm)
      rw [hroots]
      exact hran.explores

/-- What the loop over the dependencies of a source has done up to its entry `i`. -/
structure Loop (t : Tree) (feed : Option Feed) (f : Feed) (src : Src) (name : String) (s : State)
    (i : Nat) (s' : State) : Prop where
  inv : Inv t feed s'
  explores : Explores (Follows t feed)
    {other | (∃ d ∈ src.deps.take i, d.source t feed = some other) ∧ Installs t feed other false}
    (marks s) (marks s')
  object : ∀ g other, other ∈ marks s → other ≠ name → s'.object g other = s.object g other
  /-- The entries that are left have not been edited. -/
  rest : ∃ src', s'.object f.name name = some src' ∧ ∀ j, i ≤ j → src'.deps[j]? = src.deps[j]?

variable {f : Feed} {src : Src} {s' : State} {i : Nat} {d : Dep}

theorem Loop.start (hi : Inv t feed s) (hsrc : s.object f.name name = some src) :
    Loop t feed f src name s 0 s := by
  refine ⟨hi, .nothing ?_, fun _ _ _ _ => rfl, src, hsrc, fun _ _ => rfl⟩
  rintro other ⟨⟨d, hd, -⟩, -⟩
  rw [List.take_zero] at hd
  cases hd

/-- The roots of the entry after the first `i`. -/
theorem take_succ_roots (hd : src.deps[i]? = some d) :
    {other | (∃ d ∈ src.deps.take (i + 1), d.source t feed = some other) ∧
        Installs t feed other false} =
      {other | (∃ d ∈ src.deps.take i, d.source t feed = some other) ∧
          Installs t feed other false} ∪
        {other | d.source t feed = some other ∧ Installs t feed other false} := by
  ext other
  show (∃ d ∈ src.deps.take (i + 1), _) ∧ _ ↔ (∃ d ∈ src.deps.take i, _) ∧ _ ∨ _ ∧ _
  rw [List.take_add_one, hd, ← or_and_right]
  refine and_congr_left' ⟨?_, ?_⟩
  · rintro ⟨e, he, hsrc⟩
    obtain he | he := List.mem_append.mp he
    · exact .inl ⟨e, he, hsrc⟩
    · rw [Option.toList_some, List.mem_singleton] at he
      exact .inr (he ▸ hsrc)
  · rintro (⟨e, he, hsrc⟩ | hsrc)
    · exact ⟨e, List.mem_append_left _ he, hsrc⟩
    · exact ⟨d, List.mem_append_right _ (List.mem_singleton.mpr rfl), hsrc⟩

/-- An entry that is done, after an edit and a call. -/
theorem Loop.next {u : State} (h : Loop t feed f src name s i s') (hmark : name ∈ marks s)
    (hd : src.deps[i]? = some d) (hmarks : marks u = marks s')
    (hother : ∀ g other, other ≠ name → u.object g other = s'.object g other)
    (hrest : ∃ src', u.object f.name name = some src' ∧ ∀ j, i + 1 ≤ j → src'.deps[j]? =
      src.deps[j]?)
    {s'' : State}
    (hran : Ran t feed {other | d.source t feed = some other ∧ Installs t feed other false} u s'') :
    Loop t feed f src name s (i + 1) s'' := by
  refine ⟨hran.inv, ?_, fun g other hm hne => ?_, ?_⟩
  · rw [take_succ_roots hd]
    exact h.explores.append (hmarks ▸ hran.explores)
  · rw [hran.object g other (hmarks ▸ h.explores.kept hm), hother g other hne]
    exact h.object g other hm hne
  · obtain ⟨src', hsrc, hsame⟩ := hrest
    exact ⟨src', (hran.object f.name name (hmarks ▸ h.explores.kept hmark)).trans hsrc, hsame⟩

theorem setDep_object_of_ne {g other : String} (hne : other ≠ name) :
    (setDep f.name name i d s).object g other = s.object g other := by
  show Function.update s.object f.name _ g other = _
  by_cases hg : g = f.name
  · rw [hg, Function.update_self, Function.update_of_ne hne]
  · rw [Function.update_of_ne hg]

theorem setDep_object (hsrc : s.object f.name name = some src) :
    (setDep f.name name i d s).object f.name name =
      some { src with deps := src.deps.set i d } := by
  show Function.update s.object f.name _ f.name name = _
  rw [Function.update_self, Function.update_self, hsrc]
  rfl

theorem Inv.setDep (hi : Inv t feed s) (hm : name ∈ marks s) :
    Inv t feed (setDep f.name name i d s) := by
  refine ⟨hi.cache, fun g hg other h => ?_, hi.installed, hi.links, hi.nodup, hi.selected⟩
  have hne : other ≠ name := by
    rintro rfl
    exact h hm
  rw [setDep_object_of_ne hne]
  exact hi.object g hg other h

include hfeed in
theorem Loop.dep {n : Nat} {call : String → State → Option State}
    (hcall : Calls t feed false n call) (hleft : left t s < n)
    (h : Loop t feed f src name s i s') (hmark : name ∈ marks s) (hd : src.deps[i]? = some d) :
    ∃ s'', installDep t call feed f.name name s' i = some s'' ∧
      Loop t feed f src name s (i + 1) s'' := by
  obtain ⟨src', hobj, hsame⟩ := h.rest
  have hleft' : left t s' < n := Nat.lt_of_le_of_lt (left_le h.explores.kept) hleft
  rw [installDep, hobj, Option.bind_some, hsame i (Nat.le_refl i), hd]
  dsimp only
  by_cases hat : '@' ∈ d.text.toList
  · rw [if_pos hat]
    refine ⟨s', rfl, h.next hmark hd rfl (fun _ _ _ => rfl)
      ⟨src', hobj, fun j hj => hsame j (by omega)⟩ (.stay h.inv (subset_of_none ?_))⟩
    rintro other ⟨hsrc, -⟩
    rw [Dep.source, if_pos (.inl hat)] at hsrc
    cases hsrc
  · rw [if_neg hat]
    have hinv : Inv t feed (setDep f.name name i d.edit s') := h.inv.setDep (h.explores.kept hmark)
    have hrest : ∃ src', (setDep f.name name i d.edit s').object f.name name = some src' ∧
        ∀ j, i + 1 ≤ j → src'.deps[j]? = src.deps[j]? := by
      refine ⟨_, setDep_object hobj, fun j hj => ?_⟩
      rw [List.getElem?_set_ne (by omega)]
      exact hsame j (by omega)
    have hnext {s'' : State} (hran : Ran t feed
        {other | d.source t feed = some other ∧ Installs t feed other false}
        (setDep f.name name i d.edit s') s'') : Loop t feed f src name s (i + 1) s'' :=
      h.next (u := setDep f.name name i d.edit s') hmark hd rfl
        (fun _ _ hne => setDep_object_of_ne hne) hrest hran
    by_cases htrue : truthy d.edit.text = false
    · rw [if_pos htrue]
      refine ⟨_, rfl, hnext (.stay hinv (subset_of_none ?_))⟩
      rintro other ⟨hsrc, -⟩
      rw [Dep.source, if_pos (.inr htrue)] at hsrc
      cases hsrc
    · rw [if_neg htrue]
      have hsource : d.source t feed = if d.build = true then some d.edit.text else
          packageSource t feed d.edit.text := if_neg (not_or.mpr ⟨hat, htrue⟩)
      by_cases hb : d.build = true
      · rw [if_pos hb]
        obtain ⟨s'', hs'', hran⟩ := hcall d.edit.text _ hinv hleft'
        have hroots : {other | d.source t feed = some other ∧ Installs t feed other false} =
            {other | other = d.edit.text ∧ Installs t feed other false} := by
          ext other
          rw [hsource, if_pos hb]
          exact and_congr_left' (Option.some_inj.trans eq_comm)
        exact ⟨s'', hs'', hnext (hroots ▸ hran)⟩
      · rw [if_neg hb]
        rw [if_neg hb] at hsource
        rw [hsource] at hnext
        obtain ⟨s'', hs'', hran⟩ := installPackage_spec hfeed hcall hinv hleft'
        exact ⟨s'', hs'', hnext hran⟩

include hfeed in
theorem loop_spec {n : Nat} {call : String → State → Option State}
    (hcall : Calls t feed false n call) (hleft : left t s < n) (hi : Inv t feed s)
    (hmark : name ∈ marks s) (hsrc : s.object f.name name = some src) (k : Nat)
    (hk : k ≤ src.deps.length) :
    ∃ s', (List.range k).foldlM (installDep t call feed f.name name) s = some s' ∧
      Loop t feed f src name s k s' := by
  induction k with
  | zero => exact ⟨s, rfl, .start hi hsrc⟩
  | succ k ih =>
    obtain ⟨s', hs', hloop⟩ := ih (by omega)
    obtain ⟨s'', hs'', hnext⟩ := hloop.dep hfeed hcall hleft hmark (List.getElem?_eq_getElem hk)
    refine ⟨s'', ?_, hnext⟩
    simp only [List.range_succ, List.foldlM_append, hs', Option.bind_eq_bind, Option.bind_some,
      List.foldlM_cons, hs'', List.foldlM_nil, Option.pure_def]

/-- The entries of a source are its dependencies. -/
theorem follows_eq (hsource : source t feed name = some f)
    (hsrc : (t.index f.name).bind (·.findSrc name) = some src) :
    {other | Follows t feed name other} =
      {other | (∃ d ∈ src.deps, d.source t feed = some other) ∧
        Installs t feed other false} := by
  ext other
  refine and_congr_left' ⟨?_, fun h => ⟨f, src, hsource, hsrc, h⟩⟩
  rintro ⟨g, src', hg, hsrc', h⟩
  obtain rfl := Option.some.inj (hsource.symm.trans hg)
  obtain rfl := Option.some.inj (hsrc.symm.trans hsrc')
  exact h

include hfeed in
/-- **A call of `install_src`.** It walks the graph from its source, and it ends when the bound on
its depth is above the number of sources that are left. -/
theorem installSrc_spec (fuel : Nat) (force : Bool) :
    Calls t feed force fuel (installSrc t fuel feed force) := by
  induction fuel generalizing force with
  | zero => exact fun name s _ h => absurd h (Nat.not_lt_zero _)
  | succ fuel ih =>
    intro name s hi hleft
    rw [installSrc, lookupSrc, lookup_eq hfeed hi, ← source]
    cases hsource : source t feed name with
    | none =>
      refine ⟨s, rfl, .stay hi (subset_of_none ?_)⟩
      rintro other ⟨rfl, f, hf, -⟩
      rw [hsource] at hf
      cases hf
    | some f =>
      obtain ⟨hf, i, src, hindex, hsrc⟩ := source_some hfeed hsource
      dsimp only
      rw [getFeed_eq hi hf hindex]
      have hsrc' : (t.index f.name).bind (·.findSrc name) = some src := by
        rw [hindex]
        exact hsrc
      by_cases hmark : name ∈ marks s
      · have hran : Ran t feed {other | other = name ∧ Installs t feed other force} s
            { s with selected := some f.name } := by
          refine .select hi hf ?_
          rintro other ⟨rfl, -⟩
          exact hmark
        cases feedSrc name { s with selected := some f.name } with
        | none => exact ⟨_, rfl, hran⟩
        | some src' =>
          dsimp only
          split
          · exact ⟨_, rfl, hran⟩
          · exact ⟨_, if_pos (.inl hmark), hran⟩
      · have hobj : s.object f.name name = some src := (hi.object f hf name hmark).trans hsrc'
        have hfeedSrc : feedSrc name { s with selected := some f.name } = some src := hobj
        rw [hfeedSrc]
        dsimp only
        by_cases hcore : isCoreSrc t name = true ∧ (force || f.force) = false
        · rw [if_pos hcore]
          refine ⟨_, rfl, .select hi hf (subset_of_none ?_)⟩
          rintro other ⟨rfl, g, hg, hforce, -⟩
          obtain rfl := Option.some.inj (hsource.symm.trans hg)
          have htrue := Bool.or_eq_true_iff.mpr (hforce hcore.1)
          rw [hcore.2] at htrue
          cases htrue
        · rw [if_neg hcore]
          by_cases hparsed : s.installed name ≠ none ∧ isCoreSrc t name = false
          · rw [if_pos (.inr hparsed)]
            refine ⟨_, rfl, .select hi hf (subset_of_none ?_)⟩
            rintro other ⟨rfl, -, -, -, hoverride⟩
            have htrue := hoverride ((hi.installed other hmark).mp hparsed.1)
            rw [hparsed.2] at htrue
            cases htrue
          · have hgo : ¬ (s.installed name = some .one ∨
                s.installed name ≠ none ∧ isCoreSrc t name = false) := not_or.mpr ⟨hmark, hparsed⟩
            rw [if_neg hgo]
            have hinstalls : Installs t feed name force := by
              refine ⟨f, hsource, fun hc => ?_, fun hp => ?_⟩
              · exact Bool.or_eq_true_iff.mp (Bool.of_not_eq_false fun h => hcore ⟨hc, h⟩)
              · exact Bool.of_not_eq_false fun h =>
                  hparsed ⟨(hi.installed name hmark).mpr hp, h⟩
            have hselect : Ran t feed ∅ s { s with selected := some f.name } :=
              .select hi hf (Set.empty_subset _)
            have hstart := hselect.inv.doInstallSrc hsource hmark
            have hdown := left_doInstallSrc (f := f) (s := { s with selected := some f.name })
              (mem_sources hfeed hsource) hmark
            have hloop := loop_spec hfeed (ih false) (Nat.lt_of_lt_of_le hdown
              (Nat.lt_succ_iff.mp hleft)) hstart (marks_doInstallSrc ▸ Set.mem_insert name _) hobj
              src.deps.length (Nat.le_refl _)
            obtain ⟨s', hs', hall⟩ := hloop
            refine ⟨s', hs', hall.inv, ?_, fun g other hm => ?_⟩
            · have hroots : {other | other = name ∧ Installs t feed other force} = {name} := by
                ext other
                exact ⟨fun h => h.1, fun h => ⟨h, h ▸ hinstalls⟩⟩
              have hexplores := hall.explores
              rw [List.take_length, ← follows_eq hsource hsrc', marks_doInstallSrc] at hexplores
              exact hroots ▸ hexplores.visit
            · have hne : other ≠ name := by
                rintro rfl
                exact hmark hm
              refine hall.object g other ?_ hne
              rw [marks_doInstallSrc]
              exact .inr hm

end

end UolaOs.Feeds
