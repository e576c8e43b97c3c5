import Mathlib.Data.List.TakeWhile
import UolaOs.Feeds.Closure

/-!
# What is installed, over a whole run

* `correct_iff`: `install` links what the request leads to, except when the feed of `-a -p` has no
  index and the tables that are in use then have something to install, or when an empty name or a 0
  ends the names early.
-/

namespace UolaOs.Feeds

section
variable (t : Tree) (o : Opts)

def hasIndex (f : Feed) : Bool := (t.index f.name).isSome

/-- The last feed with an index. -/
def lastFeed : Option Feed := (t.feeds.filter (hasIndex t)).getLast?

/-- The source that a name asks for. A target asks for none. -/
def asked (feed : Option Feed) (name : String) : Option String :=
  if (feedWith t feed fun i => decide (name ∈ i.target)).isSome = true then none
  else if (source t feed name).isSome = true then some name
  else packageSource t feed name

/-- The sources of the selected feeds, or those that the names ask for. -/
def requested : Set String :=
  if o.all = true then
    {name | ∃ f ∈ t.feeds, (o.prefer = none ∨ o.prefer = some f.name) ∧
      ∃ i, t.index f.name = some i ∧ name ∈ i.src.map Src.name}
  else {other | ∃ name ∈ o.names, asked t (preferred t o) name = some other}

/-- What a request leads to through dependencies. -/
def closure : Set String :=
  reach (Follows t (preferred t o))
    {name | name ∈ requested t o ∧ Installs t (preferred t o) name o.force}

/-- **Installation.** -/
structure Correct : Prop where
  closed : ∀ fuel, (sources t).length < fuel → ∃ s, install t fuel o = some s ∧
    (∀ f name, (f, name) ∈ s.links ↔
      name ∈ closure t o ∧ (source t (preferred t o) name).map Feed.name = some f) ∧
    (s.links.map Prod.snd).Nodup
  order : ∀ fuel, (sources t).length < fuel → ∀ names, names.Perm o.names → ∀ s s',
    install t fuel o = some s → install t fuel { o with names := names } = some s' →
      ∀ link, link ∈ s'.links ↔ link ∈ s.links

/-- The sources of the tables that are in use when the feed of `-p` has no index. -/
def leftover : Set String :=
  {name | ∃ f ∈ t.feeds, o.prefer = some f.name ∧ t.index f.name = none ∧
    ∃ g, lastFeed t = some g ∧ ∃ i, t.index g.name = some i ∧ name ∈ i.src.map Src.name}

/-- When `install` does what it is for. -/
def Holds : Prop :=
  if o.all = true then ∀ name ∈ leftover t o, ¬ Installs t (preferred t o) name o.force
  else (∀ name ∈ o.names, truthy name = true) ∨
    ∀ name ∈ o.names, ∀ other, asked t (preferred t o) name = some other →
      ¬ Installs t (preferred t o) other o.force

/-- The sources that `install` starts from. -/
def begun : Set String :=
  if o.all = true then requested t o ∪ leftover t o
  else {other | ∃ name ∈ o.names.takeWhile truthy, asked t (preferred t o) name = some other}

end

/-! ## The loop over the feeds -/

/-- After `get_feed` for some feeds. -/
structure Fetched (t : Tree) (done : List Feed) (s : State) : Prop where
  cache : ∀ name, s.cache name = none ∨ s.cache name = t.index name
  object : ∀ name src, s.object name src = (s.cache name).bind (·.findSrc src)
  fetched : ∀ f ∈ done, s.cache f.name = t.index f.name
  installed : s.installed = (getInstalled t).installed
  links : s.links = []
  selected : s.selected = ((done.filter (hasIndex t)).getLast?).map Feed.name

section
variable {t : Tree} {s : State} {done : List Feed} {f : Feed}

theorem forall_concat {p : Feed → Prop} (h : ∀ g ∈ done, p g) (hf : p f) :
    ∀ g ∈ done ++ [f], p g := by
  intro g hg
  obtain hg | hg := List.mem_append.mp hg
  · exact h g hg
  · exact List.mem_singleton.mp hg ▸ hf

theorem Fetched.next (h : Fetched t done s) (f : Feed) :
    Fetched t (done ++ [f]) (getFeed t f.name s) := by
  cases hindex : t.index f.name with
  | none =>
    have hnone : s.cache f.name = none := (h.cache f.name).elim id (·.trans hindex)
    have hskip : getFeed t f.name s = s := by
      rw [getFeed, hnone, hindex]
    have hbad : ¬ hasIndex t f = true := by
      rw [hasIndex, hindex]
      decide
    rw [hskip]
    refine ⟨h.cache, h.object, forall_concat h.fetched (hnone.trans hindex.symm), h.installed,
      h.links, ?_⟩
    rw [List.filter_append, List.filter_cons_of_neg (l := []) hbad, List.filter_nil,
      List.append_nil]
    exact h.selected
  | some i =>
    have hgood : hasIndex t f = true := by
      rw [hasIndex, hindex]
      rfl
    have hlast : some f.name = (((done ++ [f]).filter (hasIndex t)).getLast?).map Feed.name := by
      rw [List.filter_append, List.filter_cons_of_pos (l := []) hgood, List.filter_nil,
        List.getLast?_concat]
      rfl
    cases hcache : s.cache f.name with
    | some j =>
      rw [getFeed, hcache]
      have hsame := (h.cache f.name).resolve_left (by rw [hcache]; exact Option.some_ne_none j)
      exact ⟨h.cache, h.object, forall_concat h.fetched hsame, h.installed, h.links, hlast⟩
    | none =>
      rw [getFeed, hcache, hindex]
      refine ⟨fun name => ?_, fun name src => ?_, forall_concat (fun g hg => ?_) ?_, h.installed,
        h.links, hlast⟩
      · show Function.update s.cache f.name (some i) name = none ∨
          Function.update s.cache f.name (some i) name = t.index name
        by_cases hname : name = f.name
        · rw [hname, Function.update_self]
          exact .inr hindex.symm
        · rw [Function.update_of_ne hname]
          exact h.cache name
      · show Function.update s.object f.name i.findSrc name src =
          (Function.update s.cache f.name (some i) name).bind (·.findSrc src)
        by_cases hname : name = f.name
        · rw [hname, Function.update_self, Function.update_self]
          rfl
        · rw [Function.update_of_ne hname, Function.update_of_ne hname]
          exact h.object name src
      · show Function.update s.cache f.name (some i) g.name = t.index g.name
        by_cases hname : g.name = f.name
        · rw [hname, Function.update_self, hindex]
        · rw [Function.update_of_ne hname]
          exact h.fetched g hg
      · show Function.update s.cache f.name (some i) f.name = t.index f.name
        rw [Function.update_self, hindex]

theorem Fetched.all (h : Fetched t done s) (feeds : List Feed) :
    Fetched t (done ++ feeds) (feeds.foldl (fun s f => getFeed t f.name s) s) := by
  induction feeds generalizing done s with
  | nil => rwa [List.append_nil]
  | cons f feeds ih =>
    have hall := ih (h.next f)
    rwa [List.append_assoc] at hall

theorem fetched_start : Fetched t [] (getInstalled t) :=
  ⟨fun _ => .inl rfl, fun _ _ => rfl, fun _ hf => absurd hf List.not_mem_nil, rfl, rfl, rfl⟩

theorem Fetched.marks_eq (h : Fetched t done s) : marks s = ∅ := by
  ext name
  refine ⟨fun hm => ?_, fun hm => absurd hm (Set.notMem_empty name)⟩
  have hone : (if name ∈ t.parsed then some Mark.parsed else none) = some Mark.one :=
    (congrFun h.installed name).symm.trans hm
  split at hone
  · cases hone
  · cases hone

theorem lastFeed_some (h : lastFeed t = some f) : f ∈ t.feeds ∧ hasIndex t f = true :=
  List.mem_filter.mp (List.mem_of_getLast? h)

/-- What the loop leaves is where the installation starts. -/
theorem Fetched.inv (h : Fetched t t.feeds s) (feed : Option Feed) : Inv t feed s := by
  refine ⟨h.fetched, fun f hf name _ => ?_, fun name _ => ?_, fun f name => ?_, ?_,
    fun name hname => ?_⟩
  · rw [h.object, h.fetched f hf]
  · rw [h.installed]
    show (if name ∈ t.parsed then some Mark.parsed else none) ≠ none ↔ _
    split
    next hp => exact ⟨fun _ => hp, fun _ => nofun⟩
    next hp => exact ⟨fun hne => absurd rfl hne, fun hin => absurd hin hp⟩
  · rw [h.links, h.marks_eq]
    exact ⟨fun hmem => absurd hmem List.not_mem_nil,
      fun hmem => absurd hmem.1 (Set.notMem_empty name)⟩
  · rw [h.links]
    exact List.nodup_nil
  · rw [h.selected, Option.map_eq_some_iff] at hname
    obtain ⟨f, hf, hname⟩ := hname
    exact ⟨f, (lastFeed_some hf).1, hname⟩

end

/-! ## The requests -/

section
variable {t : Tree} {feed : Option Feed} {force : Bool} {n fuel : Nat} {s : State}
  {ι : Type} {lower : ι → Set String} {upper : Set String}

/-- Calls one after the other. Each starts from at least `lower`, and from nothing but `upper`. -/
theorem foldlM_ran {call : State → ι → Option State} {is : List ι}
    (hcall : ∀ i ∈ is, ∀ s, Inv t feed s → left t s < n → ∃ s' roots, call s i = some s' ∧
      Ran t feed roots s s' ∧ lower i ⊆ roots ∧ roots ⊆ upper)
    (hi : Inv t feed s) (hleft : left t s < n) :
    ∃ s' roots, is.foldlM call s = some s' ∧ Ran t feed roots s s' ∧
      (∀ i ∈ is, lower i ⊆ roots) ∧ roots ⊆ upper := by
  induction is generalizing s with
  | nil =>
    exact ⟨s, ∅, rfl, .stay hi (Set.empty_subset _), fun i h => absurd h List.not_mem_nil,
      Set.empty_subset _⟩
  | cons i is ih =>
    obtain ⟨s', roots, hs', hran, hlower, hupper⟩ := hcall i List.mem_cons_self s hi hleft
    have hleft' := Nat.lt_of_le_of_lt (left_le hran.explores.kept) hleft
    obtain ⟨s'', others, hs'', hran', hlower', hupper'⟩ :=
      ih (fun j hj => hcall j (List.mem_cons_of_mem i hj)) hran.inv hleft'
    refine ⟨s'', roots ∪ others, ?_, hran.append hran', fun j hj => ?_,
      Set.union_subset hupper hupper'⟩
    · rw [List.foldlM_cons, hs']
      exact hs''
    · obtain rfl | hj := List.mem_cons.mp hj
      · exact hlower.trans Set.subset_union_left
      · exact (hlower' j hj).trans Set.subset_union_right

end

section
variable {t : Tree} {feed : Option Feed} {force : Bool} {fuel : Nat} {s : State}
  (hfeed : ∀ f, feed = some f → f ∈ t.feeds)
include hfeed

theorem installTargetOrPackage_spec (hi : Inv t feed s) (hleft : left t s < fuel) (name : String) :
    ∃ s', installTargetOrPackage t fuel feed force name s = some s' ∧
      Ran t feed {other | asked t feed name = some other ∧ Installs t feed other force} s s' := by
  rw [installTargetOrPackage, lookupTarget, lookup_eq hfeed hi, lookupSrc, lookup_eq hfeed hi,
    ← source, asked]
  split
  · refine ⟨s, rfl, .stay hi (subset_of_none ?_)⟩
    rintro other ⟨h, -⟩
    cases h
  · split
    · obtain ⟨s', hs', hran⟩ := installSrc_spec hfeed fuel force name s hi hleft
      have hroots : {other | some name = some other ∧ Installs t feed other force} =
          {other | other = name ∧ Installs t feed other force} := by
        ext other
        exact and_congr_left' (Option.some_inj.trans eq_comm)
      exact ⟨s', hs', hroots ▸ hran⟩
    · exact installPackage_spec hfeed (installSrc_spec hfeed fuel force) hi hleft

omit hfeed in
/-- `get_feed` leaves the tables of the feed in use, or those that were, if it has no index. -/
theorem getFeed_spec (hi : Inv t feed s) {f : Feed} (hf : f ∈ t.feeds) :
    ∃ g : Option Feed, getFeed t f.name s = { s with selected := g.map Feed.name } ∧
      (∀ h, g = some h → h ∈ t.feeds) ∧
      (g = some f ∧ hasIndex t f = true ∨ g.map Feed.name = s.selected ∧ t.index f.name = none) :=
        by
  cases hindex : t.index f.name with
  | some i =>
    refine ⟨some f, getFeed_eq hi hf hindex, fun h hh => Option.some.inj hh ▸ hf, .inl ⟨rfl, ?_⟩⟩
    rw [hasIndex, hindex]
    rfl
  | none =>
    have hskip : getFeed t f.name s = s := by
      rw [getFeed, hi.cache f hf, hindex]
    cases hselected : s.selected with
    | none =>
      refine ⟨none, ?_, fun h hh => absurd hh.symm (Option.some_ne_none h), .inr ⟨rfl, rfl⟩⟩
      rw [hskip]
      exact congrArg (fun x => { s with selected := x }) hselected
    | some name =>
      obtain ⟨h, hh, rfl⟩ := hi.selected name hselected
      refine ⟨some h, ?_, fun g hg => Option.some.inj hg ▸ hh, .inr ⟨rfl, rfl⟩⟩
      rw [hskip]
      exact congrArg (fun x => { s with selected := x }) hselected

omit hfeed in
theorem Ran.getFeed (hi : Inv t feed s) {f : Feed} (hf : f ∈ t.feeds) :
    Ran t feed ∅ s (getFeed t f.name s) := by
  obtain ⟨g, hg, hmem, -⟩ := getFeed_spec hi hf
  rw [hg]
  refine ⟨⟨hi.cache, hi.object, hi.installed, hi.links, hi.nodup, fun name hname => ?_⟩,
    .nothing (Set.empty_subset _), fun _ _ _ => rfl⟩
  obtain ⟨h, hh, hname⟩ := Option.map_eq_some_iff.mp hname
  exact ⟨h, hmem h hh, hname⟩

omit hfeed in
theorem mem_feedSrcKeys (hi : Inv t feed s) {g : Option Feed}
    (hg : ∀ h, g = some h → h ∈ t.feeds) {name : String} :
    name ∈ feedSrcKeys { s with selected := g.map Feed.name } ↔
      ∃ h i, g = some h ∧ t.index h.name = some i ∧ name ∈ i.src.map Src.name := by
  rw [feedSrcKeys, List.mem_insertionSort]
  cases g with
  | none => exact ⟨fun h => absurd h List.not_mem_nil, fun ⟨_, _, h, _⟩ => nomatch h⟩
  | some h =>
    show name ∈ (s.cache h.name).elim [] _ ↔ _
    rw [hi.cache h (hg h rfl)]
    cases hindex : t.index h.name with
    | none =>
      refine ⟨fun hmem => absurd hmem List.not_mem_nil, ?_⟩
      rintro ⟨h', i, heq, hi', -⟩
      rw [← Option.some.inj heq, hindex] at hi'
      cases hi'
    | some i =>
      refine ⟨fun hmem => ⟨h, i, rfl, hindex, hmem⟩, ?_⟩
      rintro ⟨h', j, heq, hj, hmem⟩
      rw [← Option.some.inj heq, hindex] at hj
      exact Option.some.inj hj ▸ hmem

/-- The sources that `-a` installs for a feed: its own ones, or those of the tables in use. -/
theorem installAll_spec (hi : Inv t feed s) (hleft : left t s < fuel) {f : Feed}
    (hf : f ∈ t.feeds) :
    ∃ s' g, installAll t fuel feed force s f = some s' ∧ (∀ h, g = some h → h ∈ t.feeds) ∧
      (g = some f ∧ hasIndex t f = true ∨
        g.map Feed.name = s.selected ∧ t.index f.name = none) ∧
      Ran t feed {name | (∃ h i, g = some h ∧ t.index h.name = some i ∧
        name ∈ i.src.map Src.name) ∧ Installs t feed name force} s s' := by
  obtain ⟨g, hg, hmem, hcases⟩ := getFeed_spec hi hf
  have htables := Ran.getFeed hi hf
  have hcall : ∀ name ∈ feedSrcKeys (getFeed t f.name s), ∀ u, Inv t feed u → left t u < fuel →
      ∃ u' roots, (installSrc t fuel feed force name u).map (getFeed t f.name) = some u' ∧
        Ran t feed roots u u' ∧
        {other | other = name ∧ Installs t feed other force} ⊆ roots ∧
        roots ⊆ {name | name ∈ feedSrcKeys (getFeed t f.name s) ∧
          Installs t feed name force} := by
    intro name hname u hu hleft
    obtain ⟨u', hu', hran⟩ := installSrc_spec hfeed fuel force name u hu hleft
    refine ⟨getFeed t f.name u', _, ?_, hran.append (.getFeed hran.inv hf), ?_, ?_⟩
    · rw [hu']
      rfl
    · exact Set.subset_union_left
    · rintro other (⟨rfl, hinstalls⟩ | hother)
      · exact ⟨hname, hinstalls⟩
      · exact absurd hother (Set.notMem_empty other)
  have hleft' : left t (getFeed t f.name s) < fuel :=
    Nat.lt_of_le_of_lt (left_le htables.explores.kept) hleft
  obtain ⟨s', roots, hs', hran, hlower, hupper⟩ := foldlM_ran hcall htables.inv hleft'
  refine ⟨s', g, hs', hmem, hcases, ?_⟩
  have hroots : ∅ ∪ roots = {name | (∃ h i, g = some h ∧ t.index h.name = some i ∧
      name ∈ i.src.map Src.name) ∧ Installs t feed name force} := by
    ext name
    rw [Set.empty_union]
    refine ⟨fun hname => ?_, fun ⟨hname, hinstalls⟩ => ?_⟩
    · obtain ⟨hkey, hinstalls⟩ := hupper hname
      rw [hg] at hkey
      exact ⟨(mem_feedSrcKeys hi hmem).mp hkey, hinstalls⟩
    · refine hlower name ?_ ⟨rfl, hinstalls⟩
      rw [hg]
      exact (mem_feedSrcKeys hi hmem).mpr hname
  exact hroots ▸ htables.append hran

end

/-! ## The whole run -/

section
variable {t : Tree} {o : Opts} {fuel : Nat} {s : State}

theorem preferred_mem (f : Feed) (h : preferred t o = some f) : f ∈ t.feeds :=
  (List.mem_filter.mp (List.mem_of_getLast? h)).1

/-- `-a` without `-p`. -/
theorem installFeeds_spec (hi : Inv t (preferred t o) s) (hleft : left t s < fuel)
    (hall : o.all = true) (hprefer : o.prefer = none) :
    ∃ s', (t.feeds.filter fun f => decide (o.prefer = none ∨ o.prefer = some f.name)).foldlM
        (installAll t fuel (preferred t o) o.force) s = some s' ∧
      Ran t (preferred t o)
        {name | name ∈ begun t o ∧ Installs t (preferred t o) name o.force} s s' := by
  have hbegun (name : String) :
      name ∈ begun t o ↔ ∃ f ∈ t.feeds, ∃ i, t.index f.name = some i ∧ name ∈ i.src.map Src.name :=
        by
    rw [begun, if_pos hall, requested, if_pos hall]
    constructor
    · rintro (⟨f, hf, -, hmem⟩ | ⟨f, -, hp, -⟩)
      · exact ⟨f, hf, hmem⟩
      · rw [hprefer] at hp
        cases hp
    · rintro ⟨f, hf, hmem⟩
      exact .inl ⟨f, hf, .inl hprefer, hmem⟩
  have hcall : ∀ f ∈ t.feeds.filter fun f => decide (o.prefer = none ∨ o.prefer = some f.name),
      ∀ u, Inv t (preferred t o) u → left t u < fuel → ∃ u' roots,
        installAll t fuel (preferred t o) o.force u f = some u' ∧
        Ran t (preferred t o) roots u u' ∧
        {name | (∃ i, t.index f.name = some i ∧ name ∈ i.src.map Src.name) ∧
          Installs t (preferred t o) name o.force} ⊆ roots ∧
        roots ⊆ {name | name ∈ begun t o ∧ Installs t (preferred t o) name o.force} := by
    intro f hf u hu hleft
    obtain ⟨u', g, hu', hg, hcases, hran⟩ :=
      installAll_spec preferred_mem hu hleft (List.mem_filter.mp hf).1
    refine ⟨u', _, hu', hran, ?_, ?_⟩
    · rintro name ⟨⟨i, hindex, hmem⟩, hinstalls⟩
      obtain ⟨rfl, -⟩ | ⟨-, hnone⟩ := hcases
      · exact ⟨⟨f, i, rfl, hindex, hmem⟩, hinstalls⟩
      · rw [hindex] at hnone
        cases hnone
    · rintro name ⟨⟨h, i, hh, hindex, hmem⟩, hinstalls⟩
      exact ⟨(hbegun name).mpr ⟨h, hg h hh, i, hindex, hmem⟩, hinstalls⟩
  obtain ⟨s', roots, hs', hran, hlower, hupper⟩ := foldlM_ran hcall hi hleft
  refine ⟨s', hs', ?_⟩
  have hroots : roots = {name | name ∈ begun t o ∧ Installs t (preferred t o) name o.force} := by
    refine Set.Subset.antisymm hupper ?_
    rintro name ⟨hname, hinstalls⟩
    obtain ⟨f, hf, hmem⟩ := (hbegun name).mp hname
    exact hlower f (List.mem_filter.mpr ⟨hf, decide_eq_true (.inl hprefer)⟩) ⟨hmem, hinstalls⟩
  exact hroots ▸ hran

/-- The feed of `-p`, if there is one. -/
theorem filter_prefer {p : String} (hprefer : o.prefer = some p) :
    (t.feeds.filter fun f => decide (o.prefer = none ∨ o.prefer = some f.name)) = [] ∧
        (∀ f ∈ t.feeds, f.name ≠ p) ∨
      ∃ f ∈ t.feeds, f.name = p ∧
        (t.feeds.filter fun f => decide (o.prefer = none ∨ o.prefer = some f.name)) = [f] := by
  have hnodup := t.feeds_nodup
  have hmem (f : Feed) : f ∈ (t.feeds.filter fun f =>
      decide (o.prefer = none ∨ o.prefer = some f.name)) ↔ f ∈ t.feeds ∧ f.name = p := by
    rw [List.mem_filter, decide_eq_true_eq, hprefer]
    refine and_congr_right fun _ => ⟨fun h => ?_, fun h => .inr (h ▸ rfl)⟩
    exact (Option.some.inj (h.resolve_left nofun)).symm
  have hsub : (t.feeds.filter fun f =>
      decide (o.prefer = none ∨ o.prefer = some f.name)).Sublist t.feeds := List.filter_sublist
  generalize (t.feeds.filter fun f => decide (o.prefer = none ∨ o.prefer = some f.name)) = fs at *
  match fs with
  | [] => exact .inl ⟨rfl, fun f hf hname => absurd ((hmem f).mpr ⟨hf, hname⟩) List.not_mem_nil⟩
  | [f] =>
    obtain ⟨hf, hname⟩ := (hmem f).mp (List.mem_singleton.mpr rfl)
    exact .inr ⟨f, hf, hname, rfl⟩
  | f :: g :: fs =>
    have hf := ((hmem f).mp List.mem_cons_self).2
    have hg := ((hmem g).mp (List.mem_cons_of_mem f List.mem_cons_self)).2
    have hne := (List.nodup_cons.mp ((hsub.map Feed.name).nodup hnodup)).1
    rw [List.map_cons, hf, hg] at hne
    exact absurd List.mem_cons_self hne

/-- `-a` with `-p`. -/
theorem installFeed_spec (h : Fetched t t.feeds s) (hleft : left t s < fuel)
    (hall : o.all = true) {p : String} (hprefer : o.prefer = some p) :
    ∃ s', (t.feeds.filter fun f => decide (o.prefer = none ∨ o.prefer = some f.name)).foldlM
        (installAll t fuel (preferred t o) o.force) s = some s' ∧
      Ran t (preferred t o)
        {name | name ∈ begun t o ∧ Installs t (preferred t o) name o.force} s s' := by
  have hbegun (name : String) : name ∈ begun t o ↔
      (∃ f ∈ t.feeds, f.name = p ∧ ∃ i, t.index f.name = some i ∧ name ∈ i.src.map Src.name) ∨
        ∃ f ∈ t.feeds, f.name = p ∧ t.index f.name = none ∧ ∃ g, lastFeed t = some g ∧
          ∃ i, t.index g.name = some i ∧ name ∈ i.src.map Src.name := by
    rw [begun, if_pos hall, requested, if_pos hall]
    refine or_congr (exists_congr fun f => and_congr_right fun _ => and_congr_left' ?_)
      (exists_congr fun f => and_congr_right fun _ => and_congr_left' ?_)
    · rw [hprefer]
      exact ⟨fun h => (Option.some.inj (h.resolve_left nofun)).symm, fun h => .inr (h ▸ rfl)⟩
    · rw [hprefer]
      exact ⟨fun h => (Option.some.inj h).symm, fun h => h ▸ rfl⟩
  obtain ⟨hnil, hno⟩ | ⟨f, hf, hname, hone⟩ := filter_prefer (t := t) hprefer
  · refine ⟨s, ?_, .stay (h.inv _) (subset_of_none ?_)⟩
    · rw [hnil]
      rfl
    · rintro name ⟨hname, -⟩
      obtain ⟨f, hf, hp, -⟩ | ⟨f, hf, hp, -⟩ := (hbegun name).mp hname
      · exact hno f hf hp
      · exact hno f hf hp
  · have hspec := @installAll_spec t (preferred t o) o.force fuel s preferred_mem (h.inv _) hleft
      f hf
    obtain ⟨s', g, hs', hg, hcases, hran⟩ := hspec
    refine ⟨s', ?_, ?_⟩
    · rw [hone]
      show (installAll t fuel (preferred t o) o.force s f >>= pure) = some s'
      rw [hs']
      rfl
    have hroots : {name | (∃ h i, g = some h ∧ t.index h.name = some i ∧
        name ∈ i.src.map Src.name) ∧ Installs t (preferred t o) name o.force} =
        {name | name ∈ begun t o ∧ Installs t (preferred t o) name o.force} := by
      ext name
      refine and_congr_left' ?_
      rw [hbegun]
      obtain ⟨rfl, hgood⟩ | ⟨hselected, hnone⟩ := hcases
      · constructor
        · rintro ⟨h, i, heq, hindex, hmem⟩
          obtain rfl := Option.some.inj heq
          exact .inl ⟨f, hf, hname, i, hindex, hmem⟩
        · rintro (⟨f', -, hname', i, hindex, hmem⟩ | ⟨f', -, hname', hnone, -⟩)
          · exact ⟨f, i, rfl, hname.trans hname'.symm ▸ hindex, hmem⟩
          · rw [hasIndex, hname, ← hname', hnone] at hgood
            cases hgood
      · rw [h.selected] at hselected
        constructor
        · rintro ⟨g', i, rfl, hindex, hmem⟩
          obtain ⟨l, hl, hlname⟩ := Option.map_eq_some_iff.mp hselected.symm
          exact .inr ⟨f, hf, hname, hnone, l, hl, i, hlname ▸ hindex, hmem⟩
        · rintro (⟨f', -, hname', i, hindex, -⟩ | ⟨-, -, -, -, l, hl, i, hindex, hmem⟩)
          · rw [hname', ← hname, hnone] at hindex
            cases hindex
          · rw [show (t.feeds.filter (hasIndex t)).getLast? = some l from hl] at hselected
            obtain ⟨g', rfl, hg'⟩ := Option.map_eq_some_iff.mp hselected
            exact ⟨g', i, rfl, hg' ▸ hindex, hmem⟩
    exact hroots ▸ hran

theorem install_spec (t : Tree) (o : Opts) (hfuel : (sources t).length < fuel) :
    ∃ s, install t fuel o = some s ∧ Inv t (preferred t o) s ∧
      marks s = reach (Follows t (preferred t o))
        {name | name ∈ begun t o ∧ Installs t (preferred t o) name o.force} := by
  have hfetched : Fetched t t.feeds
      (t.feeds.foldl (fun s f => getFeed t f.name s) (getInstalled t)) :=
    fetched_start.all t.feeds
  have hinv := hfetched.inv (preferred t o)
  have hleft := Nat.lt_of_le_of_lt (List.countP_le_length (p := fun name => decide
    ((t.feeds.foldl (fun s f => getFeed t f.name s) (getInstalled t)).installed name ≠
      some Mark.one))) hfuel
  suffices h : ∃ s, install t fuel o = some s ∧ Ran t (preferred t o)
      {name | name ∈ begun t o ∧ Installs t (preferred t o) name o.force}
      (t.feeds.foldl (fun s f => getFeed t f.name s) (getInstalled t)) s by
    obtain ⟨s, hs, hran⟩ := h
    have hexplores := hran.explores
    rw [hfetched.marks_eq] at hexplores
    exact ⟨s, hs, hran.inv, hexplores.eq_reach⟩
  rw [install]
  by_cases hall : o.all = true
  · rw [if_pos hall]
    obtain hprefer | ⟨p, hprefer⟩ := Option.eq_none_or_eq_some o.prefer
    · exact installFeeds_spec hinv hleft hall hprefer
    · exact installFeed_spec hfetched hleft hall hprefer
  · rw [if_neg hall]
    have hbegun (other : String) : other ∈ begun t o ↔ ∃ name ∈ o.names.takeWhile truthy,
        asked t (preferred t o) name = some other := by
      rw [begun, if_neg hall]
      exact Iff.rfl
    have hcall : ∀ name ∈ o.names.takeWhile truthy, ∀ u, Inv t (preferred t o) u →
        left t u < fuel → ∃ u' roots,
          installTargetOrPackage t fuel (preferred t o) o.force name u = some u' ∧
          Ran t (preferred t o) roots u u' ∧
          {other | asked t (preferred t o) name = some other ∧
            Installs t (preferred t o) other o.force} ⊆ roots ∧
          roots ⊆ {other | other ∈ begun t o ∧ Installs t (preferred t o) other o.force} := by
      intro name hname u hu hleft
      obtain ⟨u', hu', hran⟩ := installTargetOrPackage_spec preferred_mem hu hleft name
      refine ⟨u', _, hu', hran, Set.Subset.rfl, ?_⟩
      rintro other ⟨hasked, hinstalls⟩
      exact ⟨(hbegun other).mpr ⟨name, hname, hasked⟩, hinstalls⟩
    obtain ⟨s', roots, hs', hran, hlower, hupper⟩ := foldlM_ran hcall hinv hleft
    refine ⟨s', hs', ?_⟩
    have hroots : roots =
        {other | other ∈ begun t o ∧ Installs t (preferred t o) other o.force} := by
      refine Set.Subset.antisymm hupper ?_
      rintro other ⟨hother, hinstalls⟩
      obtain ⟨name, hname, hasked⟩ := (hbegun other).mp hother
      exact hlower name hname ⟨hasked, hinstalls⟩
    exact hroots ▸ hran

/-- What is linked, by where the run starts. -/
theorem install_links (t : Tree) (o : Opts) (hfuel : (sources t).length < fuel) :
    ∃ s, install t fuel o = some s ∧ (s.links.map Prod.snd).Nodup ∧ ∀ f name,
      (f, name) ∈ s.links ↔ name ∈ reach (Follows t (preferred t o))
          {name | name ∈ begun t o ∧ Installs t (preferred t o) name o.force} ∧
        (source t (preferred t o) name).map Feed.name = some f := by
  obtain ⟨s, hs, hinv, hmarks⟩ := install_spec t o hfuel
  refine ⟨s, hs, hinv.nodup, fun f name => ?_⟩
  rw [hinv.links, hmarks]

/-- A source that is installed gets a link. -/
theorem exists_link {name : String} (h : Installs t (preferred t o) name o.force) :
    ∃ f, (source t (preferred t o) name).map Feed.name = some f := by
  obtain ⟨f, hf, -⟩ := h
  exact ⟨f.name, congrArg (Option.map Feed.name) hf⟩

theorem reach_of_none {edge : String → String → Prop} {p : String → Prop}
    (h : ∀ name, ¬ p name) : reach edge {name | p name} = ∅ := by
  have hempty : {name | p name} = ∅ := Set.eq_empty_of_forall_notMem h
  rw [hempty, reach_empty]

/-- The run starts from what is requested. -/
theorem begun_eq (h : Holds t o) :
    {name | name ∈ begun t o ∧ Installs t (preferred t o) name o.force} =
      {name | name ∈ requested t o ∧ Installs t (preferred t o) name o.force} := by
  ext name
  refine and_congr_left fun hinstalls => ?_
  rw [Holds] at h
  rw [begun]
  by_cases hall : o.all = true
  · rw [if_pos hall] at h ⊢
    exact ⟨fun hname => hname.resolve_right fun hleft => h name hleft hinstalls, .inl⟩
  · rw [if_neg hall] at h ⊢
    rw [requested, if_neg hall]
    obtain htrue | hnone := h
    · rw [List.takeWhile_eq_self_iff.mpr htrue]
    · refine ⟨fun ⟨other, hmem, hasked⟩ => ?_, fun ⟨other, hmem, hasked⟩ => ?_⟩
      · exact absurd hinstalls (hnone other (List.takeWhile_subset _ hmem) name hasked)
      · exact absurd hinstalls (hnone other hmem name hasked)

theorem closure_perm {names : List String} (h : names.Perm o.names) :
    closure t { o with names := names } = closure t o := by
  have hrequested : requested t { o with names := names } = requested t o := by
    ext other
    rw [requested, requested]
    show other ∈ (if o.all = true then _ else _) ↔ _
    by_cases hall : o.all = true
    · rw [if_pos hall, if_pos hall]
    · rw [if_neg hall, if_neg hall]
      exact exists_congr fun name => and_congr_left' h.mem_iff
  rw [closure, hrequested]
  rfl

theorem Holds.perm {names : List String} (hholds : Holds t o) (h : names.Perm o.names) :
    Holds t { o with names := names } := by
  rw [Holds] at hholds ⊢
  show if o.all = true then _ else _
  by_cases hall : o.all = true
  · rw [if_pos hall] at hholds ⊢
    exact hholds
  · rw [if_neg hall] at hholds ⊢
    exact hholds.imp (fun htrue name hname => htrue name (h.mem_iff.mp hname))
      fun hnone name hname => hnone name (h.mem_iff.mp hname)

theorem correct_of_holds (h : Holds t o) : Correct t o := by
  have hclosed {o : Opts} (h : Holds t o) {fuel : Nat} (hfuel : (sources t).length < fuel) :
      ∃ s, install t fuel o = some s ∧ (∀ f name, (f, name) ∈ s.links ↔
        name ∈ closure t o ∧ (source t (preferred t o) name).map Feed.name = some f) ∧
        (s.links.map Prod.snd).Nodup := by
    obtain ⟨s, hs, hnodup, hlinks⟩ := install_links t o hfuel
    rw [begun_eq h] at hlinks
    exact ⟨s, hs, hlinks, hnodup⟩
  refine ⟨fun fuel hfuel => hclosed h hfuel, fun fuel hfuel names hperm s s' hs hs' link => ?_⟩
  obtain ⟨u, hu, hlinks, -⟩ := hclosed h hfuel
  obtain ⟨u', hu', hlinks', -⟩ := hclosed (h.perm hperm) hfuel
  obtain rfl := Option.some.inj (hs.symm.trans hu)
  obtain rfl := Option.some.inj (hs'.symm.trans hu')
  rw [hlinks', hlinks, closure_perm hperm]
  exact Iff.rfl

/-- A false name in front of the others ends them. -/
theorem not_mem_links_of_false {name : String} {names : List String} (hall : o.all = false)
    (hfalse : truthy name = false) (hfuel : (sources t).length < fuel) :
    ∃ s, install t fuel { o with names := name :: names } = some s ∧ ∀ link, link ∉ s.links := by
  obtain ⟨s, hs, -, hlinks⟩ := install_links t { o with names := name :: names } hfuel
  refine ⟨s, hs, fun ⟨f, other⟩ hmem => ?_⟩
  have hreach := ((hlinks f other).mp hmem).1
  rw [reach_of_none] at hreach
  · exact hreach
  · rintro other ⟨hbegun, -⟩
    rw [begun, if_neg (Bool.not_eq_true _ ▸ hall)] at hbegun
    obtain ⟨n, hn, -⟩ := hbegun
    rw [List.takeWhile_cons_of_neg (by rw [hfalse]; decide)] at hn
    cases hn

theorem holds_of_correct (h : Correct t o) : Holds t o := by
  obtain ⟨s, hs, hlinks, -⟩ := h.closed _ (Nat.lt_succ_self _)
  have hlink {name : String} (hname : name ∈ closure t o)
      (hinstalls : Installs t (preferred t o) name o.force) : ∃ f, (f, name) ∈ s.links := by
    obtain ⟨f, hf⟩ := exists_link hinstalls
    exact ⟨f, (hlinks f name).mpr ⟨hname, hf⟩⟩
  rw [Holds]
  by_cases hall : o.all = true
  · rw [if_pos hall]
    intro name hleft hinstalls
    obtain ⟨s', hs', -, hlinks'⟩ := install_links t o (Nat.lt_succ_self _)
    obtain rfl := Option.some.inj (hs.symm.trans hs')
    have hbegun : name ∈ begun t o := by
      rw [begun, if_pos hall]
      exact .inr hleft
    obtain ⟨f, hf⟩ := exists_link hinstalls
    have hmem := (hlinks' f name).mpr ⟨subset_reach ⟨hbegun, hinstalls⟩, hf⟩
    have hclosure := ((hlinks f name).mp hmem).1
    rw [closure, reach_of_none] at hclosure
    · exact hclosure
    · rintro other ⟨hrequested, -⟩
      rw [requested, if_pos hall] at hrequested
      obtain ⟨g, -, hg, i, hi, -⟩ := hrequested
      obtain ⟨f, -, hprefer, hnone, -⟩ := hleft
      rw [hprefer] at hg
      have hname : f.name = g.name := Option.some.inj (hg.resolve_left nofun)
      rw [← hname, hnone] at hi
      cases hi
  · rw [if_neg hall]
    by_contra hnot
    obtain ⟨hfalse, hsome⟩ := not_or.mp hnot
    push Not at hfalse hsome
    obtain ⟨name, hname, hfalse⟩ := hfalse
    obtain ⟨other, hother, src, hasked, hinstalls⟩ := hsome
    obtain ⟨s', hs', hempty⟩ := @not_mem_links_of_false t o _ name (o.names.erase name)
      (Bool.eq_false_of_not_eq_true hall) (Bool.eq_false_of_not_eq_true hfalse) (Nat.lt_succ_self _)
    have hrequested : src ∈ requested t o := by
      rw [requested, if_neg hall]
      exact ⟨other, hother, hasked⟩
    obtain ⟨f, hmem⟩ := hlink (subset_reach ⟨hrequested, hinstalls⟩) hinstalls
    exact hempty _ ((h.order _ (Nat.lt_succ_self _) _ (List.perm_cons_erase hname).symm s s' hs hs'
      (f, src)).mpr hmem)

/-- **Installation from feeds.** `install` ends, and links what the request leads to, in any order of
the names, unless the tables of another feed are left in use or the names end early. -/
theorem correct_iff (t : Tree) (o : Opts) : Correct t o ↔ Holds t o :=
  ⟨holds_of_correct, correct_of_holds⟩

end

/-- A feed with one source, and one without an index. -/
def twoFeeds : Tree where
  feeds := [⟨"base", false⟩, ⟨"extra", false⟩]
  index := fun name => if name = "base" then some ⟨[⟨"zlib", []⟩], [], []⟩ else none
  info := []
  parsed := []
  feeds_true := by decide
  feeds_nodup := by decide

/-- `-a -p extra` -/
def allOfExtra : Opts := ⟨true, some "extra", false, []⟩

/-- The source of the other feed is installed. -/
theorem not_correct : (install twoFeeds 2 allOfExtra).map State.links = some [("base", "zlib")] ∧
    ¬ Correct twoFeeds allOfExtra := by
  refine ⟨by decide, fun h => ?_⟩
  have hholds := holds_of_correct h
  rw [Holds, if_pos (by decide)] at hholds
  refine hholds "zlib" ?_ ⟨⟨"base", false⟩, by decide, fun h => ?_, fun h => ?_⟩
  · exact ⟨⟨"extra", false⟩, by decide, rfl, by decide, ⟨"base", false⟩,
      by decide, _, rfl, List.mem_singleton.mpr rfl⟩
  · exact absurd h (by decide)
  · exact absurd h List.not_mem_nil

end UolaOs.Feeds
