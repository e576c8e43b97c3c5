import UolaOs.Lib.Bytes

/-!
# Runs of clusters

The tree of runs of run.c: the array, with clusters of 32 bits. `alloc` says for how many runs there
is memory.
-/

namespace UolaOs.Ntfs3

/-- A sum of two numbers of the type `CLST`. -/
def clstAdd (a b : Nat) : Nat := (a + b) % 2 ^ 32

/-- A difference of two numbers of the type `CLST`. -/
def clstSub (a b : Nat) : Nat := (a + (2 ^ 32 - b)) % 2 ^ 32

/-- `SPARSE_LCN` -/
def sparseLcn : Nat := 2 ^ 32 - 1

structure NtfsRun where
  vcn : Nat
  len : Nat
  lcn : Nat
  deriving DecidableEq

namespace NtfsRun

/-- `r->vcn + r->len` -/
def next (r : NtfsRun) : Nat := clstAdd r.vcn r.len

/-- The cluster `gap` behind the start of a run. -/
def lcnAt (r : NtfsRun) (gap : Nat) : Nat :=
  if r.lcn = sparseLcn then sparseLcn else clstAdd r.lcn gap

/-- The run without its first `dl` clusters. -/
def cut (r : NtfsRun) (dl : Nat) : NtfsRun := ⟨clstAdd r.vcn dl, clstSub r.len dl, r.lcnAt dl⟩

end NtfsRun

/-! ## `run_lookup` -/

/-- The loop of `run_lookup`. It ends before `fuel` does when that is at least the length. -/
def lookupRounds (run : List NtfsRun) (vcn : Nat) : Nat → Nat → Nat → Bool × Nat
  | 0, _, maxIdx => (false, maxIdx + 1)
  | fuel + 1, minIdx, maxIdx =>
    let midIdx := minIdx + (maxIdx - minIdx) / 2
    let r := run.getD midIdx ⟨0, 0, 0⟩
    if vcn < r.vcn then
      -- `max_idx` is behind the last number then, and the next index 0
      if midIdx = 0 then (false, 0)
      else if minIdx ≤ midIdx - 1 then lookupRounds run vcn fuel minIdx (midIdx - 1)
      else (false, midIdx)
    else if r.next ≤ vcn then
      if midIdx + 1 ≤ maxIdx then lookupRounds run vcn fuel (midIdx + 1) maxIdx
      else (false, maxIdx + 1)
    else (true, midIdx)

/-- `run_lookup`: whether there is an entry, and its index or where to insert it. -/
def runLookup (run : List NtfsRun) (vcn : Nat) : Bool × Nat :=
  if run = [] then (false, 0)
  else
    let first := run.getD 0 ⟨0, 0, 0⟩
    let maxIdx := run.length - 1
    let last := run.getD maxIdx ⟨0, 0, 0⟩
    if vcn < first.vcn then (false, 0)
    else if vcn < first.next then (true, 0)
    else if last.next ≤ vcn then (false, run.length)
    else if last.vcn ≤ vcn then (true, maxIdx)
    else lookupRounds run vcn run.length 0 maxIdx

/-- `run_lookup_entry`: the cluster, the clusters from there on, and the index. -/
def runLookupEntry (run : List NtfsRun) (vcn : Nat) : Option (Nat × Nat × Nat) :=
  let found := runLookup run vcn
  if found.1 then
    let r := run.getD found.2 ⟨0, 0, 0⟩
    if r.next ≤ vcn then none
    else
      let gap := clstSub vcn r.vcn
      if r.len ≤ gap then none else some (r.lcnAt gap, clstSub r.len gap, found.2)
  else none

/-- The loop of `run_is_mapped_full` from `r` on. -/
def mappedRounds (evcn : Nat) : NtfsRun → List NtfsRun → Bool
  | r, [] => evcn < r.next
  | r, n :: rest => evcn < r.next || (n.vcn = r.next && mappedRounds evcn n rest)

/-- `run_is_mapped_full` -/
def runIsMappedFull (run : List NtfsRun) (svcn evcn : Nat) : Bool :=
  let found := runLookup run svcn
  if found.1 then
    match run.drop found.2 with
    | [] => false
    | r :: rest => mappedRounds evcn r rest
  else false

/-! ## Changing the runs -/

/-- `run_consolidate` from `r` on, which `rest` follows. -/
def consolidate (r : NtfsRun) : List NtfsRun → List NtfsRun
  | [] => [r]
  | n :: rest =>
    if r.next < n.vcn then r :: n :: rest
    else
      let dl := clstSub r.next n.vcn
      if 0 < dl ∧ n.len ≤ dl then consolidate r rest
      else
        let n := if 0 < dl then n.cut dl else n
        if ¬ (n.lcn = sparseLcn ↔ r.lcn = sparseLcn) then r :: consolidate n rest
        else if n.lcn ≠ sparseLcn ∧ n.lcn ≠ clstAdd r.lcn r.len then r :: n :: rest
        else consolidate { r with len := clstAdd r.len n.len } rest

/-- `run_consolidate` -/
def runConsolidate (run : List NtfsRun) (index : Nat) : List NtfsRun :=
  match run.drop index with
  | [] => run
  | r :: rest => run.take index ++ consolidate r rest

/-- `run_truncate_head` -/
def runTruncateHead (run : List NtfsRun) (vcn : Nat) : List NtfsRun :=
  let found := runLookup run vcn
  match run.drop found.2 with
  | [] => []
  | r :: rest =>
    if found.1 = true ∧ r.vcn < vcn then r.cut (clstSub vcn r.vcn) :: rest else r :: rest

/-- `run_truncate` -/
def runTruncate (run : List NtfsRun) (vcn : Nat) : List NtfsRun :=
  let found := runLookup run vcn
  match run.drop found.2 with
  | [] => run.take found.2
  | r :: _ =>
    if found.1 = true ∧ 0 < clstSub vcn r.vcn then
      run.take found.2 ++ [{ r with len := clstSub vcn r.vcn }]
    else run.take found.2

/-- `NTFS3_RUN_MAX_BYTES / sizeof(struct ntfs_run) / 2` -/
def runMaxHalf : Nat := 0x10000 / 12 / 2

/-- `run_truncate_around` -/
def runTruncateAround (run : List NtfsRun) (vcn : Nat) : List NtfsRun :=
  let run := runTruncateHead run vcn
  if runMaxHalf ≤ run.length then runTruncate run (run.getD (run.length / 2) ⟨0, 0, 0⟩).vcn else run

/-- The runs `r` goes on in when `vcn` is not in one. -/
def NtfsRun.continues (r : NtfsRun) (vcn lcn : Nat) : Prop :=
  r.next = vcn ∧ (r.lcn = sparseLcn ↔ lcn = sparseLcn) ∧
    (lcn = sparseLcn ∨ lcn = clstAdd r.lcn r.len)

instance (r : NtfsRun) (vcn lcn : Nat) : Decidable (r.continues vcn lcn) :=
  inferInstanceAs (Decidable (_ ∧ _ ∧ _))

/-- A run of another place. -/
def NtfsRun.differs (r : NtfsRun) (vcn lcn : Nat) : Prop :=
  ¬ (lcn = sparseLcn ↔ r.lcn = sparseLcn) ∨
    (lcn ≠ sparseLcn ∧ lcn ≠ clstAdd r.lcn (clstSub vcn r.vcn))

instance (r : NtfsRun) (vcn lcn : Nat) : Decidable (r.differs vcn lcn) :=
  inferInstanceAs (Decidable (_ ∨ _))

/-- Make the run reach the end of what is added. -/
def NtfsRun.extend (r : NtfsRun) (vcn len : Nat) : NtfsRun :=
  if r.next < clstAdd vcn len then
    { r with len := clstAdd r.len (clstSub len (clstSub r.next vcn)) }
  else r

/-- Where `run_add_entry` starts: whether in a run, and the index. -/
def startPoint (run : List NtfsRun) (vcn lcn : Nat) : Bool × Nat :=
  let found := runLookup run vcn
  if found.1 = false ∧ 0 < found.2 ∧
      (run.getD (found.2 - 1) ⟨0, 0, 0⟩).continues vcn lcn then (true, found.2 - 1)
  else found

/-- The two calls that normalize the tree. -/
def normalize (run : List NtfsRun) (index : Nat) : List NtfsRun :=
  runConsolidate (runConsolidate run index) (index + 1)

/-- `requires_new_range`: one more run at `index`, or the runs when there is no memory. -/
def insertRun (alloc : Nat → Bool) (run : List NtfsRun) (index : Nat) (r : NtfsRun) :
    Except (List NtfsRun) (List NtfsRun) :=
  if alloc (run.length + 1) then .ok (run.take index ++ r :: run.drop index) else .error run

/-- `run_add_entry` before the tail: the runs, and the tail. It fails with the runs it leaves
behind. -/
def addEntry (alloc : Nat → Bool) (run : List NtfsRun) (vcn lcn len : Nat) :
    Except (List NtfsRun) (List NtfsRun × Option NtfsRun) :=
  let start := startPoint run vcn lcn
  let index := start.2
  if start.1 then
    let r := run.getD index ⟨0, 0, 0⟩
    if r.differs vcn lcn then
      let toEat := clstSub vcn r.vcn
      let tovcn := clstAdd toEat len
      let tail := if tovcn < r.len then some (r.cut tovcn) else none
      if 0 < toEat then
        (insertRun alloc (run.set index { r with len := toEat }) (index + 1) ⟨vcn, len, lcn⟩).map
          fun run => (normalize run (index + 1), tail)
      else
        .ok (normalize (run.set index (NtfsRun.extend { r with lcn := lcn } vcn len)) (index - 1),
          tail)
    else .ok (normalize (run.set index (r.extend vcn len)) (index - 1), none)
  else (insertRun alloc run index ⟨vcn, len, lcn⟩).map fun run => (normalize run index, none)

/-- `run_add_entry`. It calls itself no more than twice. -/
def runAddEntry (alloc : Nat → Bool) :
    Nat → List NtfsRun → Nat → Nat → Nat → Except (List NtfsRun) (List NtfsRun)
  | 0, run, _, _, _ => .error run
  | fuel + 1, run, vcn, lcn, len =>
    match addEntry alloc run vcn lcn len with
    | .error run => .error run
    | .ok (run, none) => .ok run
    | .ok (run, some tail) => runAddEntry alloc fuel run tail.vcn tail.lcn tail.len

/-- The loop of `run_collapse_range`: the runs behind the last one that was eaten. -/
def collapseRounds (stop len : Nat) : List NtfsRun → List NtfsRun → List NtfsRun
  | kept, [] => kept
  | kept, r :: rest =>
    if stop ≤ r.vcn then collapseRounds stop len (kept ++ [{ r with vcn := clstSub r.vcn len }]) rest
    else if r.next ≤ stop then collapseRounds stop len [] rest
    else
      let d := clstSub stop r.vcn
      collapseRounds stop len
        (kept ++ [⟨clstSub r.vcn (clstSub len d), clstSub r.len d, r.lcnAt d⟩]) rest

/-- `run_collapse_range`. It calls itself no more than once. -/
def runCollapseRange (alloc : Nat → Bool) :
    Nat → List NtfsRun → Nat → Nat → Except (List NtfsRun) (List NtfsRun)
  | 0, run, _, _ => .error run
  | fuel + 1, run, vcn, len =>
    let found := runLookup run vcn
    let stop := clstAdd vcn len
    if found.1 = false then .ok run
    else
      match run.drop found.2 with
      | [] => .ok run
      | r :: rest =>
        let before := run.take found.2
        if r.vcn < vcn then
          if r.next ≤ stop then
            .ok (before ++ { r with len := clstSub vcn r.vcn } :: collapseRounds stop len [] rest)
          else if r.lcn = sparseLcn then
            .ok (before ++ { r with len := clstSub r.len len } :: collapseRounds stop len [] rest)
          else
            match runAddEntry alloc 3 run vcn sparseLcn len with
            | .error run => .error run
            | .ok run => runCollapseRange alloc fuel run vcn len
        else .ok (before ++ collapseRounds stop len [] (r :: rest))

end UolaOs.Ntfs3
