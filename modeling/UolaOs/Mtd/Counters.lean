import UolaOs.Mtd.AppendFile

/-!
# When an append is sound

* `Appended`: the blocks split into nodes, the file's data nodes carry its contents in order,
  and the new inode numbers lie above those of the scan;
* `scan_eq`: the scan takes the entries of the file system in order, `seenDirents`;
* `CountersFit`: inode numbers, versions and offsets stay below `2 ^ 32`;
* `mtdWriteJffs2_iff`: an append is sound exactly when the counters fit.
-/

namespace UolaOs.Mtd

section
variable (e : Endian) (c : Chip)

/-! ## What an append is to leave -/

def isFileEntry (n : Bytes) : Bool := isDirent e n && word8 e n 29 == dtReg

/-- The data nodes of an inode. -/
def dataOf (inode : UInt32) (nodes : List Bytes) : List Bytes :=
  nodes.filter fun n => isInode e n && inoOf e n == inode

/-- Each node starts where the one before it ends. -/
def Consecutive : Nat → List Bytes → Prop
  | _, [] => True
  | k, n :: ns => (word32 e n 44).toNat = k ∧ Consecutive (k + (n.length - 68)) ns

/-- Data nodes that are the file, in order. -/
structure FileData (file : Bytes) (ns : List Bytes) : Prop where
  offsets : Consecutive e 0 ns
  versions : (ns.map fun n => word32 e n 16).Pairwise (· < ·)
  content : ns.flatMap (·.drop 68) = file

/-- The nodes hold one new file; all new inode numbers lie above those `seen`. -/
structure FileAppended (seen : List Dirent) (name file : Bytes) (nodes : List Bytes) : Prop where
  fresh : ∀ n ∈ nodes, isDirent e n ∨ isInode e n → ∀ de ∈ seen, de.ino < inoOf e n
  entry : ∃ n, nodes.filter (isFileEntry e) = [n] ∧ n.drop 40 = name ∧
    FileData e file (dataOf e (inoOf e n) nodes)

/-- What is written is a sequence of blocks of complete nodes that add the file. -/
def Appended (seen : List Dirent) (name file : Bytes) (w : Writer) : Prop :=
  ∃ blocks, Layout e c w blocks ∧ FileAppended e seen name file blocks.flatten

/-! ## What the scan sees -/

/-- The entries of a block, as far as it holds nodes. -/
def blockDirents (buf : Bytes) : Nat → Nat → List Dirent
  | 0, _ => []
  | fuel + 1, ofs =>
    if c.erasesize ≤ ofs ∨ word16 e buf ofs ≠ jffs2MagicBitmask then []
    else
      let next := (ofs + padWord (word32 e buf (ofs + 4))) % 2 ^ 32
      if word16 e buf (ofs + 2) = jffs2NodetypeDirent then
        (readDirent e buf ofs).toList ++ blockDirents buf fuel next
      else blockDirents buf fuel next

/-- The entries of the file system, up to the first block that does not start with a node. -/
def seenDirents : List Bytes → List Dirent
  | [] => []
  | buf :: rest =>
    if word16 e buf 0 ≠ jffs2MagicBitmask then []
    else blockDirents e c buf (c.erasesize + 1) 0 ++ seenDirents rest

end

/-- The largest of some words, 0 when there is none. -/
def largest (xs : List UInt32) : Nat := xs.foldr (fun x m => max x.toNat m) 0

/-- The inode number of the target directory: of the last entry that carries its name, 0 when
there is none. -/
def targetIno (dir : CStr) (seen : List Dirent) : UInt32 :=
  seen.foldl (fun t de =>
    if dir.bytes ≠ [] ∧ de.pino = 1 ∧ strncmpEq de.name dir.stored de.name.length then de.ino
    else t) (if dir.bytes = [] then 1 else 0)

/-- The sizes of the data nodes. -/
def fileLens (c : Chip) (filename : CStr) (file : Bytes) (dir : CStr) (seen : List Dirent) :
    List Nat :=
  let pos := if targetIno dir seen = 0 then 12 + roundUp (40 + dir.length) 4 + 68 else 12
  dataLens c.erasesize (file.length + 1) (pos + roundUp (40 + (fname filename.bytes).length) 4)
    file.length

/-- Nothing that is counted passes `2 ^ 32`. -/
structure CountersFit (c : Chip) (filename : CStr) (file : Bytes) (dir : CStr)
    (seen : List Dirent) : Prop where
  inos : max 1 (largest (seen.map (·.ino))) + (if targetIno dir seen = 0 then 3 else 1) < 2 ^ 32
  versions : (largest (seen.map (·.version)) + (if targetIno dir seen = 0 then 3 else 2)) % 2 ^ 32 +
    ((fileLens c filename file dir seen).length - 1) < 2 ^ 32
  offsets : (fileLens c filename file dir seen).dropLast.sum < 2 ^ 32

section
variable {e : Endian} {c : Chip}

theorem parse_eq {dir : CStr} {buf : Bytes} {fuel ofs : Nat} {s s' : Scan}
    (h : mtdParseJffs2data e c dir buf fuel ofs s = some s') :
    s' = (blockDirents e c buf fuel ofs).foldl (noteDirent dir) s := by
  induction fuel generalizing ofs s with
  | zero => cases h
  | succ fuel ih =>
    unfold mtdParseJffs2data at h
    unfold blockDirents
    split at h
    · rename_i hstop
      rw [if_pos hstop]
      exact (Option.some.inj h).symm
    · rename_i hgo
      rw [if_neg hgo]
      split at h
      · cases h
      · dsimp only at h ⊢
        split at h
        · rename_i hde
          rw [if_pos hde]
          cases hread : readDirent e buf ofs with
          | none =>
            rw [hread] at h
            cases h
          | some de =>
            rw [hread] at h
            rw [ih h]
            rfl
        · rename_i hde
          rw [if_neg hde]
          exact ih h

/-- **Scan.** The scan notes the entries of the file system one after the other. -/
theorem scan_eq {dir : CStr} {flash : List Bytes} {m mtdofs : Nat} {s s' : Scan}
    (h : scan e c dir flash m s = .ok (mtdofs, s')) :
    s' = (seenDirents e c flash).foldl (noteDirent dir) s := by
  induction flash generalizing m s with
  | nil => cases h
  | cons buf rest ih =>
    unfold scan at h
    unfold seenDirents
    split at h
    · cases h
    · split at h
      · cases h
      · split at h
        · rename_i hend
          rw [if_pos hend]
          cases h
          rfl
        · rename_i hmagic
          rw [if_neg hmagic, List.foldl_append]
          cases hparse : mtdParseJffs2data e c dir buf (c.erasesize + 1) 0 s with
          | none =>
            rw [hparse] at h
            cases h
          | some s1 =>
            rw [hparse] at h
            rw [ih h, parse_eq hparse]

theorem largest_note {dir : CStr} {seen : List Dirent} {s : Scan} :
    ((seen.foldl (noteDirent dir) s).last_ino.toNat =
        max s.last_ino.toNat (largest (seen.map (·.ino)))) ∧
      (seen.foldl (noteDirent dir) s).last_version.toNat =
        max s.last_version.toNat (largest (seen.map (·.version))) := by
  have larger (x y : UInt32) : (if x < y then y else x).toNat = max x.toNat y.toNat := by
    split
    · rename_i h
      have := UInt32.lt_iff_toNat_lt.mp h
      omega
    · rename_i h
      have := mt UInt32.lt_iff_toNat_lt.mpr h
      omega
  induction seen generalizing s with
  | nil => simp [largest]
  | cons de seen ih =>
    obtain ⟨hino, hver⟩ := ih (s := noteDirent dir s de)
    rw [List.foldl_cons, hino, hver]
    simp only [noteDirent, larger, List.map_cons, largest, List.foldr_cons]
    omega

theorem target_note {dir : CStr} {seen : List Dirent} {s : Scan} :
    (seen.foldl (noteDirent dir) s).target_ino =
      seen.foldl (fun t de =>
        if dir.bytes ≠ [] ∧ de.pino = 1 ∧ strncmpEq de.name dir.stored de.name.length then de.ino
        else t) s.target_ino := by
  induction seen generalizing s with
  | nil => rfl
  | cons de seen ih => exact ih

theorem le_largest {xs : List UInt32} {x : UInt32} (h : x ∈ xs) : x.toNat ≤ largest xs := by
  induction xs with
  | nil => cases h
  | cons y xs ih =>
    rw [largest, List.foldr_cons, ← largest]
    rcases List.mem_cons.mp h with rfl | h
    · exact Nat.le_max_left ..
    · exact Nat.le_trans (ih h) (Nat.le_max_right ..)

theorem exists_largest {xs : List UInt32} (h : 0 < largest xs) : ∃ x ∈ xs, x.toNat = largest xs := by
  induction xs with
  | nil => cases h
  | cons y xs ih =>
    rw [largest, List.foldr_cons, ← largest] at h ⊢
    rcases Nat.le_total (largest xs) y.toNat with hle | hle
    · exact ⟨y, by simp, (Nat.max_eq_left hle).symm⟩
    · rw [Nat.max_eq_right hle] at h ⊢
      obtain ⟨x, hx, hxeq⟩ := ih h
      exact ⟨x, by simp [hx], hxeq⟩

end

/-! ## Counting in 32 bits -/

/-- `k` words counting up from `v`. -/
def countFrom : UInt32 → Nat → List UInt32
  | _, 0 => []
  | v, k + 1 => v :: countFrom (v + 1) k

theorem toNat_succ {v : UInt32} (h : v.toNat + 1 < 2 ^ 32) : (v + 1).toNat = v.toNat + 1 := by
  rw [UInt32.toNat_add]
  exact Nat.mod_eq_of_lt h

theorem lt_of_mem_countFrom {v x : UInt32} {k : Nat} (h : v.toNat + k ≤ 2 ^ 32)
    (hx : x ∈ countFrom v k) : v.toNat ≤ x.toNat := by
  induction k generalizing v with
  | zero => cases hx
  | succ k ih =>
    rcases List.mem_cons.mp hx with rfl | hx
    · exact Nat.le_refl _
    · cases k with
      | zero => cases hx
      | succ k =>
        have hs := toNat_succ (v := v) (by omega)
        have := ih (by omega) hx
        omega

/-- Counting is strictly increasing as long as it does not wrap. -/
theorem countFrom_increasing (v : UInt32) (k : Nat) :
    (countFrom v k).Pairwise (· < ·) ↔ v.toNat + (k - 1) < 2 ^ 32 := by
  induction k generalizing v with
  | zero => simpa [countFrom] using v.toNat_lt
  | succ k ih =>
    rw [countFrom, List.pairwise_cons, ih]
    cases k with
    | zero => exact ⟨fun _ => v.toNat_lt, fun _ => ⟨by simp [countFrom], (v + 1).toNat_lt⟩⟩
    | succ k =>
      constructor
      · rintro ⟨hfirst, hrest⟩
        have hlt := UInt32.lt_iff_toNat_lt.mp (hfirst (v + 1) (by simp [countFrom]))
        have hs : v.toNat + 1 < 2 ^ 32 := by
          by_contra hwrap
          have hv : (v + 1).toNat = 0 := by
            have := v.toNat_lt
            rw [UInt32.toNat_add]
            change (v.toNat + 1) % 2 ^ 32 = 0
            rw [show v.toNat + 1 = 2 ^ 32 by omega, Nat.mod_self]
          omega
        rw [toNat_succ hs] at hrest
        omega
      · intro h
        have hs := toNat_succ (v := v) (by omega)
        refine ⟨fun x hx => ?_, by omega⟩
        have := lt_of_mem_countFrom (by omega) hx
        exact UInt32.lt_iff_toNat_lt.mpr (by omega)

/-! ## The data nodes -/

section
variable {e : Endian} {c : Chip} {st : Stat} {inode isize : UInt32} {bs : List Bytes}

theorem mem_dataNodes (hbs : ∀ b ∈ bs, b.length ≤ 4096) {v o : UInt32} {n : Bytes}
    (hn : n ∈ dataNodes e st inode isize v o bs) :
    ¬ isDirent e n ∧ isInode e n ∧ inoOf e n = inode := by
  induction bs generalizing v o with
  | nil => cases hn
  | cons b bs ih =>
    rcases List.mem_cons.mp hn with rfl | hn
    · have hview := dataNode_view e st inode isize (v + 1) o (hbs b (by simp))
      exact ⟨hview.dirent, hview.inode, hview.ino⟩
    · exact ih (fun x hx => hbs x (by simp [hx])) hn

theorem dataNodes_content (hbs : ∀ b ∈ bs, b.length ≤ 4096) (v o : UInt32) :
    (dataNodes e st inode isize v o bs).flatMap (·.drop 68) = bs.flatten := by
  induction bs generalizing v o with
  | nil => rfl
  | cons b bs ih =>
    have hview := dataNode_view e st inode isize (v + 1) o (hbs b (by simp))
    rw [dataNodes, List.flatMap_cons, List.flatten_cons, hview.data,
      ih fun x hx => hbs x (by simp [hx])]

theorem dataNodes_versions (hbs : ∀ b ∈ bs, b.length ≤ 4096) (v o : UInt32) :
    (dataNodes e st inode isize v o bs).map (fun n => word32 e n 16) =
      countFrom (v + 1) bs.length := by
  induction bs generalizing v o with
  | nil => rfl
  | cons b bs ih =>
    have hview := dataNode_view e st inode isize (v + 1) o (hbs b (by simp))
    rw [dataNodes, List.map_cons, List.length_cons, countFrom, hview.version,
      ih fun x hx => hbs x (by simp [hx])]
    rfl

/-- The offsets follow one another exactly when the last one is below `2 ^ 32`. -/
theorem dataNodes_offsets (hbs : ∀ b ∈ bs, b.length ≤ 4096) (v : UInt32) (k : Nat) :
    Consecutive e k (dataNodes e st inode isize v (UInt32.ofNat k) bs) ↔
      (bs ≠ [] → k + (bs.map List.length).dropLast.sum < 2 ^ 32) := by
  induction bs generalizing v k with
  | nil => simp [dataNodes, Consecutive]
  | cons b bs ih =>
    have hview := dataNode_view e st inode isize (v + 1) (UInt32.ofNat k) (hbs b (by simp))
    have hoff : word32 e (dataNode e st inode isize (v + 1) (UInt32.ofNat k) b) 44 =
        UInt32.ofNat k := hview.offset
    have hlen : (dataNode e st inode isize (v + 1) (UInt32.ofNat k) b).length - 68 = b.length := by
      rw [hview.length]
      omega
    have hk : (UInt32.ofNat k).toNat = k ↔ k < 2 ^ 32 := by
      rw [UInt32.toNat_ofNat']
      constructor
      · intro h
        omega
      · exact Nat.mod_eq_of_lt
    rw [dataNodes, Consecutive, hoff, hlen, hk, ← UInt32.ofNat_add,
      ih fun x hx => hbs x (by simp [hx])]
    cases bs with
    | nil => simp
    | cons b' bs =>
      simp only [List.map_cons, List.dropLast_cons_cons, List.sum_cons, ne_eq, reduceCtorEq,
        not_false_eq_true, forall_const]
      omega

end

/-! ## The property of the nodes -/

section
variable {e : Endian} {c : Chip}

theorem filter_cleanmarker {p : Bytes → Bool} (hp : p (cleanmarker e) = false)
    (nodes : List Bytes) : (nodes.filter (· ≠ cleanmarker e)).filter p = nodes.filter p := by
  rw [List.filter_filter]
  apply List.filter_congr
  intro n _
  by_cases hn : n = cleanmarker e
  · simp [hn, hp]
  · simp [hn]

/-- Clean markers do not matter. -/
theorem fileAppended_markers (seen : List Dirent) (name file : Bytes) (nodes : List Bytes) :
    FileAppended e seen name file (nodes.filter (· ≠ cleanmarker e)) ↔
      FileAppended e seen name file nodes := by
  have hentry : isFileEntry e (cleanmarker e) = false := by
    rw [isFileEntry, Bool.eq_false_iff.mpr (cleanmarker_dirent e), Bool.false_and]
  have hdata (i : UInt32) : dataOf e i (nodes.filter (· ≠ cleanmarker e)) = dataOf e i nodes := by
    apply filter_cleanmarker
    rw [Bool.eq_false_iff.mpr (cleanmarker_inode e), Bool.false_and]
  constructor
  · rintro ⟨hfresh, n, hn, hname, hfile⟩
    rw [filter_cleanmarker hentry] at hn
    rw [hdata] at hfile
    refine ⟨fun m hm hkind => hfresh m (List.mem_filter.mpr ⟨hm, ?_⟩) hkind, n, hn, hname, hfile⟩
    rcases hkind with hk | hk
    · exact decide_eq_true (ne_cleanmarker_of_dirent hk)
    · exact decide_eq_true (ne_cleanmarker_of_inode hk)
  · rintro ⟨hfresh, n, hn, hname, hfile⟩
    refine ⟨fun m hm hkind => hfresh m (List.mem_filter.mp hm).1 hkind, n, ?_, hname, ?_⟩
    · rwa [filter_cleanmarker hentry]
    · rwa [hdata]

/-- The data nodes are the file exactly when versions and offsets do not wrap. -/
theorem fileData_iff {st : Stat} {inode isize version : UInt32} {file : Bytes} {lens : List Nat}
    (hsum : lens.sum = file.length) (hle : ∀ k ∈ lens, k ≤ 4096) :
    FileData e file (dataNodes e st inode isize version 0 (cut lens file)) ↔
      (version + 1).toNat + (lens.length - 1) < 2 ^ 32 ∧ lens.dropLast.sum < 2 ^ 32 := by
  have hmap : (cut lens file).map List.length = lens := map_length_cut (Nat.le_of_eq hsum)
  have hcount : (cut lens file).length = lens.length := by
    conv_rhs => rw [← hmap, List.length_map]
  have hbs : ∀ b ∈ cut lens file, b.length ≤ 4096 := by
    intro b hb
    exact hle _ (hmap ▸ List.mem_map_of_mem hb)
  have hoffs : Consecutive e 0 (dataNodes e st inode isize version 0 (cut lens file)) ↔
      (cut lens file ≠ [] → 0 + ((cut lens file).map List.length).dropLast.sum < 2 ^ 32) :=
    dataNodes_offsets hbs version 0
  rw [hmap] at hoffs
  have hvers : ((dataNodes e st inode isize version 0 (cut lens file)).map
      fun n => word32 e n 16).Pairwise (· < ·) ↔
        (version + 1).toNat + (lens.length - 1) < 2 ^ 32 := by
    rw [dataNodes_versions hbs, countFrom_increasing, hcount]
  have hcont : (dataNodes e st inode isize version 0 (cut lens file)).flatMap (·.drop 68) = file := by
    rw [dataNodes_content hbs, flatten_cut hsum]
  have hempty : (cut lens file ≠ [] → 0 + lens.dropLast.sum < 2 ^ 32) ↔
      lens.dropLast.sum < 2 ^ 32 := by
    cases lens with
    | nil => simp [cut]
    | cons k ks => simp [cut]
  constructor
  · rintro ⟨ho, hv, -⟩
    exact ⟨hvers.mp hv, hempty.mp (hoffs.mp ho)⟩
  · rintro ⟨hv, ho⟩
    exact ⟨hoffs.mpr (hempty.mpr ho), hvers.mpr hv, hcont⟩

/-- A file's entry and data nodes `ds` behind nodes `pre` that are about other inodes. -/
theorem fileAppended_append {name file entry : Bytes} {parent inode version : UInt32}
    {pre ds : List Bytes} (hentry : DirentView e name dtReg parent version inode entry)
    (hpre : ∀ n ∈ pre, isFileEntry e n = false ∧ (isInode e n && inoOf e n == inode) = false ∧
      (isDirent e n ∨ isInode e n))
    (hds : ∀ n ∈ ds, ¬ isDirent e n ∧ isInode e n ∧ inoOf e n = inode) (seen : List Dirent) :
    FileAppended e seen name file (pre ++ entry :: ds) ↔
      (∀ de ∈ seen, de.ino < inode ∧ ∀ n ∈ pre, de.ino < inoOf e n) ∧ FileData e file ds := by
  have hfile : (pre ++ entry :: ds).filter (isFileEntry e) = [entry] := by
    have hp : pre.filter (isFileEntry e) = [] := by
      simpa [List.filter_eq_nil_iff] using fun n hn => (hpre n hn).1
    have hd : ds.filter (isFileEntry e) = [] := by
      rw [List.filter_eq_nil_iff]
      intro n hn h
      exact (hds n hn).1 (Bool.and_eq_true_iff.mp h).1
    have he : isFileEntry e entry := by
      rw [isFileEntry, hentry.dirent, hentry.type]
      rfl
    rw [List.filter_append, hp, List.filter_cons_of_pos he, hd]
    rfl
  have hdata : dataOf e inode (pre ++ entry :: ds) = ds := by
    have hp : dataOf e inode pre = [] := by
      rw [dataOf, List.filter_eq_nil_iff]
      intro n hn
      rw [(hpre n hn).2.1]
      exact Bool.false_ne_true
    have hd : dataOf e inode ds = ds := by
      rw [dataOf, List.filter_eq_self]
      intro n hn
      rw [(hds n hn).2.1, (hds n hn).2.2, beq_self_eq_true]
      rfl
    have he : (isInode e entry && inoOf e entry == inode) ≠ true := by
      rw [Bool.eq_false_iff.mpr hentry.inode]
      exact Bool.false_ne_true
    rw [dataOf, List.filter_append, List.filter_cons, if_neg he]
    change dataOf e inode pre ++ dataOf e inode ds = ds
    rw [hp, hd, List.nil_append]
  constructor
  · rintro ⟨hfresh, n, hn, -, hd⟩
    rw [hfile] at hn
    obtain rfl := (List.cons.inj hn).1
    rw [hentry.ino, hdata] at hd
    refine ⟨fun de hde => ⟨?_, fun n hn => ?_⟩, hd⟩
    · have := hfresh entry (by simp) (Or.inl hentry.dirent) de hde
      rwa [hentry.ino] at this
    · exact hfresh n (by simp [hn]) (hpre n hn).2.2 de hde
  · rintro ⟨hfresh, hd⟩
    refine ⟨fun n hn _ de hde => ?_, entry, hfile, hentry.name, ?_⟩
    · rcases List.mem_append.mp hn with hn | hn
      · exact (hfresh de hde).2 n hn
      · rcases List.mem_cons.mp hn with rfl | hn
        · rw [hentry.ino]
          exact (hfresh de hde).1
        · rw [(hds n hn).2.2]
          exact (hfresh de hde).1
    · rwa [hentry.ino, hdata]

theorem fileNodes_iff {st : Stat} {name file : Bytes} {parent inode version : UInt32} {pos : Nat}
    (h4096 : 4096 ≤ c.erasesize) (hname : name.length < 256) {pre : List Bytes}
    (hpre : ∀ n ∈ pre, isFileEntry e n = false ∧ (isInode e n && inoOf e n == inode) = false ∧
      (isDirent e n ∨ isInode e n))
    (seen : List Dirent) {lens : List Nat}
    (hlens : dataLens c.erasesize (file.length + 1)
      (pos + roundUp (40 + name.length) 4) file.length = lens) :
    FileAppended e seen name file (pre ++ fileNodes e c st name file parent inode version pos) ↔
      (∀ de ∈ seen, de.ino < inode ∧ ∀ n ∈ pre, de.ino < inoOf e n) ∧
      (version + 1 + 1).toNat + (lens.length - 1) < 2 ^ 32 ∧ lens.dropLast.sum < 2 ^ 32 := by
  have hsum : lens.sum = file.length := by rw [← hlens, sum_dataLens h4096 (by omega)]
  have hle : ∀ k ∈ lens, k ≤ 4096 := fun k hk => (dataLens_bounds k (hlens ▸ hk)).2
  have hbs : ∀ b ∈ cut lens file, b.length ≤ 4096 := by
    have hmap : (cut lens file).map List.length = lens := map_length_cut (Nat.le_of_eq hsum)
    intro b hb
    exact hle _ (hmap ▸ List.mem_map_of_mem hb)
  have hentry := rawDirent_view e hname (by decide : dtReg < 256) parent version inode
  rw [fileNodes, hlens, fileAppended_append hentry hpre (fun n hn => mem_dataNodes hbs hn),
    fileData_iff hsum hle]

/-! ## The new inode numbers -/

/-- An inode number counted up from the largest one lies above all that were seen, or has
wrapped. -/
theorem fresh_iff {seen : List Dirent} {m i : UInt32} {k : Nat}
    (hm : m.toNat = max 1 (largest (seen.map (·.ino)))) (hk : 0 < k) (hk3 : k ≤ 3)
    (hi : i.toNat = (m.toNat + k) % 2 ^ 32) :
    (∀ de ∈ seen, de.ino < i) ↔ m.toNat + k < 2 ^ 32 := by
  have hm32 := m.toNat_lt
  constructor
  · intro h
    by_contra hwrap
    obtain ⟨x, hx, hxeq⟩ := exists_largest (show 0 < largest (seen.map (·.ino)) by omega)
    obtain ⟨de, hde, rfl⟩ := List.mem_map.mp hx
    have := UInt32.lt_iff_toNat_lt.mp (h de hde)
    omega
  · intro h de hde
    have := le_largest (List.mem_map_of_mem (f := (·.ino)) hde)
    rw [Nat.mod_eq_of_lt h] at hi
    exact UInt32.lt_iff_toNat_lt.mpr (by omega)

theorem toNat_add_one (x : UInt32) : (x + 1).toNat = (x.toNat + 1) % 2 ^ 32 := UInt32.toNat_add x 1

/-- The nodes of a new directory are about its own inode. -/
theorem dirNodes_view {name : Bytes} (hname : name.length < 256) (version inode : UInt32) :
    ∀ n ∈ [rawDirent e name dtDir 1 version inode, dirInode e inode],
      isFileEntry e n = false ∧ (isDirent e n ∨ isInode e n) ∧ inoOf e n = inode := by
  have hentry := rawDirent_view e hname (by decide : dtDir < 256) 1 version inode
  have hinode := dirInode_view (e := e) inode
  intro n hn
  rcases List.mem_cons.mp hn with rfl | hn
  · refine ⟨?_, Or.inl hentry.dirent, hentry.ino⟩
    rw [isFileEntry, hentry.type]
    exact Bool.and_false _
  · rw [List.mem_singleton.mp hn]
    refine ⟨?_, Or.inr hinode.inode, hinode.ino⟩
    rw [isFileEntry, Bool.eq_false_iff.mpr hinode.dirent, Bool.false_and]

section
variable {filename : CStr} {st : Stat} {file : Bytes} {dir : CStr} {seen : List Dirent}
  {m version : UInt32}

theorem countersFit_iff :
    CountersFit c filename file dir seen ↔
      max 1 (largest (seen.map (·.ino))) + (if targetIno dir seen = 0 then 3 else 1) < 2 ^ 32 ∧
      (largest (seen.map (·.version)) + (if targetIno dir seen = 0 then 3 else 2)) % 2 ^ 32 +
        ((fileLens c filename file dir seen).length - 1) < 2 ^ 32 ∧
      (fileLens c filename file dir seen).dropLast.sum < 2 ^ 32 :=
  ⟨fun h => ⟨h.inos, h.versions, h.offsets⟩, fun h => ⟨h.1, h.2.1, h.2.2⟩⟩

/-- A file put into a directory that exists. -/
theorem fileOnly_iff (h4096 : 4096 ≤ c.erasesize) (hname : (fname filename.bytes).length ≤ 255)
    (hm : m.toNat = max 1 (largest (seen.map (·.ino))))
    (hv : version.toNat = largest (seen.map (·.version))) (ht : targetIno dir seen ≠ 0)
    (parent : UInt32) :
    FileAppended e seen (fname filename.bytes) file
        (fileNodes e c st (fname filename.bytes) file parent (m + 1) version 12) ↔
      CountersFit c filename file dir seen := by
  have hlens : dataLens c.erasesize (file.length + 1)
      (12 + roundUp (40 + (fname filename.bytes).length) 4) file.length =
        fileLens c filename file dir seen := by
    simp only [fileLens, if_neg ht]
  have hfile : FileAppended e seen (fname filename.bytes) file
      ([] ++ fileNodes e c st (fname filename.bytes) file parent (m + 1) version 12) ↔ _ :=
    fileNodes_iff h4096 (Nat.lt_succ_of_le hname) (by simp) seen hlens
  have hver : (version + 1 + 1).toNat = (largest (seen.map (·.version)) + 2) % 2 ^ 32 := by
    rw [toNat_add_one, toNat_add_one, hv]
    omega
  rw [List.nil_append] at hfile
  rw [hfile, countersFit_iff, if_neg ht, if_neg ht, hver, ← hm,
    ← fresh_iff hm (by decide) (by decide) (toNat_add_one m)]
  simp

/-- A file put into a directory that is added with it. -/
theorem dirAndFile_iff (h4096 : 4096 ≤ c.erasesize) (hname : (fname filename.bytes).length ≤ 255)
    (hdir : dir.length ≤ 255) (hm : m.toNat = max 1 (largest (seen.map (·.ino))))
    (hv : version.toNat = largest (seen.map (·.version))) (ht : targetIno dir seen = 0) :
    FileAppended e seen (fname filename.bytes) file
        ([rawDirent e dir.bytes dtDir 1 version (m + 1), dirInode e (m + 1)] ++
          fileNodes e c st (fname filename.bytes) file (m + 1) (m + 1 + 1 + 1) (version + 1)
            (12 + roundUp (40 + dir.length) 4 + 68)) ↔
      CountersFit c filename file dir seen := by
  have hpre := dirNodes_view (e := e) (Nat.lt_succ_of_le hdir : dir.bytes.length < 256) version
    (m + 1)
  generalize [rawDirent e dir.bytes dtDir 1 version (m + 1), dirInode e (m + 1)] = pre at *
  have hm1 := toNat_add_one m
  have hm3 : (m + 1 + 1 + 1).toNat = (m.toNat + 3) % 2 ^ 32 := by
    rw [toNat_add_one, toNat_add_one, hm1]
    omega
  have hne : m + 1 ≠ m + 1 + 1 + 1 := by
    intro h
    rw [← UInt32.toNat_inj, hm3, hm1] at h
    omega
  have hver : (version + 1 + 1 + 1).toNat = (largest (seen.map (·.version)) + 3) % 2 ^ 32 := by
    rw [toNat_add_one, toNat_add_one, toNat_add_one, hv]
    omega
  have hfresh : (∀ de ∈ seen, de.ino < m + 1 + 1 + 1 ∧ ∀ n ∈ pre, de.ino < inoOf e n) ↔
      m.toNat + 3 < 2 ^ 32 := by
    rw [← fresh_iff hm (by decide) (by decide) hm3]
    constructor
    · intro h de hde
      exact (h de hde).1
    · intro h de hde
      have hlt := (fresh_iff hm (by decide) (by decide) hm3).mp h
      have hdir1 := (fresh_iff hm (by decide) (by decide) hm1).mpr (by omega) de hde
      refine ⟨h de hde, fun n hn => ?_⟩
      rwa [(hpre n hn).2.2]
  have hother : ∀ n ∈ pre, isFileEntry e n = false ∧
      (isInode e n && inoOf e n == m + 1 + 1 + 1) = false ∧ (isDirent e n ∨ isInode e n) := by
    intro n hn
    obtain ⟨h1, h2, h3⟩ := hpre n hn
    exact ⟨h1, by rw [h3, beq_eq_false_iff_ne.mpr hne, Bool.and_false], h2⟩
  have hlens : dataLens c.erasesize (file.length + 1)
      (12 + roundUp (40 + dir.length) 4 + 68 + roundUp (40 + (fname filename.bytes).length) 4)
      file.length = fileLens c filename file dir seen := by
    simp only [fileLens, if_pos ht]
  rw [fileNodes_iff h4096 (Nat.lt_succ_of_le hname) hother seen hlens, hfresh, hver,
    countersFit_iff, if_pos ht, if_pos ht, hm]

/-- The nodes of an append are sound exactly when the counters of the scan leave room. -/
theorem newNodes_iff (h4096 : 4096 ≤ c.erasesize) (hname : (fname filename.bytes).length ≤ 255)
    (hdir : dir.length ≤ 255) (seen : List Dirent) :
    FileAppended e seen (fname filename.bytes) file
        (newNodes e c filename st file dir (seen.foldl (noteDirent dir) (startScan dir))) ↔
      CountersFit c filename file dir seen := by
  obtain ⟨hino, hver⟩ := @largest_note dir seen (startScan dir)
  have htarget : (seen.foldl (noteDirent dir) (startScan dir)).target_ino = targetIno dir seen :=
    target_note
  generalize seen.foldl (noteDirent dir) (startScan dir) = s at *
  replace hino : s.last_ino.toNat = largest (seen.map (·.ino)) :=
    hino.trans (Nat.max_eq_right (Nat.zero_le _))
  replace hver : s.last_version.toNat = largest (seen.map (·.version)) :=
    hver.trans (Nat.max_eq_right (Nat.zero_le _))
  have hm : (if s.last_ino = 0 then 1 else s.last_ino).toNat =
      max 1 (largest (seen.map (·.ino))) := by
    rw [← hino]
    split
    · rename_i h0
      rw [h0]
      rfl
    · rename_i h0
      have : s.last_ino.toNat ≠ 0 := fun h => h0 (UInt32.toNat_inj.mp h)
      omega
  unfold newNodes
  dsimp only
  rw [htarget]
  by_cases ht : targetIno dir seen = 0
  · rw [if_pos ht]
    exact dirAndFile_iff h4096 hname hdir hm hver ht
  · rw [if_neg ht]
    exact fileOnly_iff h4096 hname hm hver ht _

end

/-! ## Appending -/

/-- A stream of blocks splits in one way. -/
theorem Layout.unique {w : Writer} {b1 b2 : List (List Bytes)} (h1 : Layout e c w b1)
    (h2 : Layout e c w b2) : b1 = b2 := by
  obtain ⟨bs1, heq1, hsplit1⟩ := h1.split
  obtain ⟨bs2, heq2, hsplit2⟩ := h2.split
  obtain rfl : bs1 = bs2 := (List.append_inj' (heq1.symm.trans heq2) rfl).1
  clear heq1 heq2 h1 h2
  induction hsplit1 generalizing b2 with
  | nil =>
    cases hsplit2
    rfl
  | cons hb _ ih =>
    cases hsplit2 with
    | cons hb' hrest => rw [Option.some.inj (hb.2.symm.trans hb'.2), ih hrest]

/-- A run after the scan: it ends, and is sound exactly when the new nodes are. -/
theorem appended_iff {flash : List Bytes} {filename : CStr} {st : Stat} {file : Bytes} {dir : CStr}
    (hes : 4 ∣ c.erasesize) (h4096 : 4096 ≤ c.erasesize)
    (hname : (fname filename.bytes).length ≤ 255) (hdir : dir.length ≤ 255) {mtdofs : Nat} {s : Scan}
    (hscan : scan e c dir flash 0 (startScan dir) = .ok (mtdofs, s)) (seen : List Dirent) :
    (∃ w, mtdWriteJffs2 e c flash filename st file dir = .ok w ∧
      Appended e c seen (fname filename.bytes) file w) ↔
        FileAppended e seen (fname filename.bytes) file (newNodes e c filename st file dir s) := by
  obtain ⟨w, blocks, hrun, hlayout, hnodes⟩ :=
    appendFile_log (e := e) hes h4096 filename st file dir mtdofs s hname hdir
  have hwrite : mtdWriteJffs2 e c flash filename st file dir = .ok w := by
    rw [mtdWriteJffs2, hscan]
    dsimp only
    rw [hrun]
  rw [← hnodes, fileAppended_markers]
  constructor
  · rintro ⟨w', hw', blocks', hlayout', hfile⟩
    obtain rfl := Except.ok.inj (hwrite.symm.trans hw')
    rwa [hlayout.unique hlayout']
  · intro hfile
    exact ⟨w, hwrite, blocks, hlayout, hfile⟩

end

/-- **Appending.** Where the scan finds the end of the file system, appending a file writes
blocks of complete nodes that hold the file under new inode numbers exactly when inode numbers,
versions and offsets do not pass `2 ^ 32`. -/
theorem mtdWriteJffs2_iff (e : Endian) (c : Chip) (flash : List Bytes) (filename : CStr) (st : Stat)
    (file : Bytes) (dir : CStr) (hes : 4 ∣ c.erasesize) (h4096 : 4096 ≤ c.erasesize)
    (hname : (fname filename.bytes).length ≤ 255) (hdir : dir.length ≤ 255)
    (hscan : ∃ mtdofs s, scan e c dir flash 0 (startScan dir) = .ok (mtdofs, s)) :
    (∃ w, mtdWriteJffs2 e c flash filename st file dir = .ok w ∧
      Appended e c (seenDirents e c flash) (fname filename.bytes) file w) ↔
        CountersFit c filename file dir (seenDirents e c flash) := by
  obtain ⟨mtdofs, s, hscan⟩ := hscan
  rw [appended_iff hes h4096 hname hdir hscan, scan_eq hscan, newNodes_iff h4096 hname hdir]

/-! ## Two runs -/

section
variable {e : Endian} {c : Chip} {dir : CStr} {buf : Bytes} {s : Scan}

theorem scan_end (hlen : buf.length = c.erasesize) (hw : word16 e buf 0 ≠ ksamtibCigam2sffj)
    (hm : word16 e buf 0 ≠ jffs2MagicBitmask) (rest : List Bytes) (mtdofs : Nat) :
    scan e c dir (buf :: rest) mtdofs s = .ok (mtdofs, s) := by
  rw [scan, if_neg fun h => h hlen, if_neg hw, if_pos hm]

theorem scan_block (hlen : buf.length = c.erasesize) (hm : word16 e buf 0 = jffs2MagicBitmask)
    {s' : Scan} (h : mtdParseJffs2data e c dir buf (c.erasesize + 1) 0 s = some s')
    (rest : List Bytes) (mtdofs : Nat) :
    scan e c dir (buf :: rest) mtdofs s = scan e c dir rest (mtdofs + c.erasesize) s' := by
  rw [scan, if_neg fun h => h hlen, if_neg (by rw [hm]; decide), if_neg fun h => h hm, h]

theorem parse_dirent {fuel ofs : Nat} (hofs : ofs + 8 ≤ c.erasesize) (hlen : buf.length = c.erasesize)
    (hm : word16 e buf ofs = jffs2MagicBitmask)
    (ht : word16 e buf (ofs + 2) = jffs2NodetypeDirent) {de : Dirent}
    (hde : readDirent e buf ofs = some de) :
    mtdParseJffs2data e c dir buf (fuel + 1) ofs s =
      mtdParseJffs2data e c dir buf fuel ((ofs + padWord (word32 e buf (ofs + 4))) % 2 ^ 32)
        (noteDirent dir s de) := by
  rw [mtdParseJffs2data, if_neg (by rw [hm]; simp; omega), if_neg (by omega)]
  dsimp only
  rw [if_pos ht, hde]

theorem parse_end {fuel ofs : Nat} (hm : word16 e buf ofs ≠ jffs2MagicBitmask) :
    mtdParseJffs2data e c dir buf (fuel + 1) ofs s = some s := by
  rw [mtdParseJffs2data, if_pos (Or.inr hm)]

end

def smallChip : Chip := { erasesize := 4096, mtdsize := 0x4000, bad := fun o => o == 0x1000 }

def fileA : CStr := ⟨[0x61], by decide⟩

def fileStat : Stat := { st_mode := 0o100644, st_atime := 0, st_mtime := 0, st_ctime := 0 }

def erasedBlock : Bytes := List.replicate 4096 0xff

theorem scan_erased (dir : CStr) (mtdofs : Nat) (s : Scan) :
    scan .little smallChip dir [erasedBlock] mtdofs s = .ok (mtdofs, s) := by
  have hlen : erasedBlock.length = smallChip.erasesize := List.length_replicate
  have hend : word16 .little erasedBlock 0 = 0xffff := rfl
  exact scan_end hlen (by rw [hend]; decide) (by rw [hend]; decide) [] mtdofs

/-- On an empty file system nothing is counted far. -/
theorem mtdWriteJffs2_iff_empty :
    ∃ w, mtdWriteJffs2 .little smallChip [erasedBlock] fileA fileStat [1, 2, 3] CStr.empty = .ok w ∧
      Appended .little smallChip (seenDirents .little smallChip [erasedBlock]) [0x61] [1, 2, 3] w := by
  have hseen : seenDirents .little smallChip [erasedBlock] = [] := rfl
  refine (mtdWriteJffs2_iff .little smallChip _ fileA fileStat [1, 2, 3] CStr.empty (by decide)
    (by decide) (by decide) (by decide) ⟨_, _, scan_erased _ _ _⟩).mpr ?_
  rw [hseen]
  exact ⟨by decide, by decide, by decide⟩

/-- A block with one entry, under the largest inode number. -/
def topInoBlock : Bytes := rawDirent .little [0x61] dtReg 1 1 0xffffffff ++ List.replicate 4055 0xff

theorem length_topInoBlock : topInoBlock.length = 4096 := by
  have := (rawDirent_view .little (by decide : ([0x61] : Bytes).length < 256)
    (by decide : dtReg < 256) 1 1 0xffffffff).length
  rw [topInoBlock, List.length_append, this, List.length_replicate]
  rfl

theorem read_topInoBlock : readDirent .little topInoBlock 0 =
    some { pino := 1, version := 1, ino := 0xffffffff, name := [0x61] } := by
  unfold readDirent
  dsimp only
  rw [if_pos (by rw [length_topInoBlock]; decide)]
  rfl

theorem scan_topInoBlock : scan .little smallChip CStr.empty [topInoBlock, erasedBlock] 0
    (startScan CStr.empty) = .ok (4096, ⟨0xffffffff, 1, 1⟩) := by
  have hparse : mtdParseJffs2data .little smallChip CStr.empty topInoBlock
      (smallChip.erasesize + 1) 0 (startScan CStr.empty) = some ⟨0xffffffff, 1, 1⟩ := by
    have hnext : (0 + padWord (word32 .little topInoBlock (0 + 4))) % 2 ^ 32 = 44 := rfl
    have hstop : word16 .little topInoBlock 44 = 0xffff := rfl
    rw [parse_dirent (by decide) length_topInoBlock rfl rfl read_topInoBlock, hnext]
    exact parse_end (by rw [hstop]; decide)
  rw [scan_block length_topInoBlock rfl hparse]
  exact scan_erased _ _ _

/-- After inode number `0xffffffff` the new file gets inode number 0. -/
theorem mtdWriteJffs2_ino_wraps :
    (∃ mtdofs s, scan .little smallChip CStr.empty [topInoBlock, erasedBlock] 0
      (startScan CStr.empty) = .ok (mtdofs, s)) ∧
    ¬ ∃ w, mtdWriteJffs2 .little smallChip [topInoBlock, erasedBlock] fileA fileStat [1, 2, 3]
        CStr.empty = .ok w ∧
      Appended .little smallChip (seenDirents .little smallChip [topInoBlock, erasedBlock])
        [0x61] [1, 2, 3] w := by
  refine ⟨⟨_, _, scan_topInoBlock⟩, ?_⟩
  have hseen : ∃ rest, seenDirents .little smallChip [topInoBlock, erasedBlock] =
      { pino := 1, version := 1, ino := 0xffffffff, name := [0x61] } :: rest := by
    unfold seenDirents blockDirents
    rw [read_topInoBlock]
    exact ⟨_, rfl⟩
  intro h
  have hsound := (appended_iff (c := smallChip) (by decide) (by decide) (by decide) (by decide)
    scan_topInoBlock _).mp h
  rw [scan_eq scan_topInoBlock, newNodes_iff (by decide) (by decide) (by decide)] at hsound
  obtain ⟨rest, hrest⟩ := hseen
  have := hsound.inos
  rw [hrest] at this
  simp only [List.map_cons, largest, List.foldr_cons] at this
  change max 1 (max 4294967295 _) + _ < _ at this
  split at this <;> omega

end UolaOs.Mtd
