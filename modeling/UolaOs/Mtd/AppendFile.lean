import Mathlib.Data.List.Forall2
import UolaOs.Mtd.Append

/-!
# The nodes of an appended file

* `dataLens`: the sizes the file is cut into, from the erase block size and the offset alone;
* `newNodes`: the nodes of one append, in order;
* `addDirent_log`, `addDir_log`, `addFileLoop_log`: one step lemma for each part;
* `appendFile_log`: a whole append writes the new nodes and closes the file system.
-/

namespace UolaOs.Mtd

/-! ## Cutting the file -/

/-- Where a data node starts: here when header and more than 128 bytes fit, otherwise behind
the clean marker of the next block. -/
def dataStart (es pos : Nat) : Nat := if 128 + 68 < es - pos then pos else 12

/-- The offset after a node and the clean marker it may be followed by. -/
def afterNode (es pos len : Nat) : Nat :=
  if pos + roundUp len 4 = es then 12 else pos + roundUp len 4

/-- The data sizes of the nodes for `n` bytes, starting at offset `pos` of a block. -/
def dataLens (es : Nat) : Nat → Nat → Nat → List Nat
  | 0, _, _ => []
  | fuel + 1, pos, n =>
    let start := dataStart es pos
    let len := min (min (es - start - 68) 4096) n
    if len = 0 then [] else len :: dataLens es fuel (afterNode es start (68 + len)) (n - len)

/-- `m` cut into pieces of the given sizes. -/
def cut : List Nat → Bytes → List Bytes
  | [], _ => []
  | k :: ks, m => m.take k :: cut ks (m.drop k)

theorem dataLens_bounds {es fuel pos n : Nat} : ∀ k ∈ dataLens es fuel pos n, 0 < k ∧ k ≤ 4096 := by
  induction fuel generalizing pos n with
  | zero => simp [dataLens]
  | succ fuel ih =>
    unfold dataLens
    dsimp only
    split
    · simp
    · intro k hk
      rcases List.mem_cons.mp hk with rfl | hk
      · omega
      · exact ih k hk

theorem sum_dataLens {es fuel pos n : Nat} (hes : 4096 ≤ es) (hf : n < fuel) :
    (dataLens es fuel pos n).sum = n := by
  induction fuel generalizing pos n with
  | zero => omega
  | succ fuel ih =>
    have hstart : 128 + 68 < es - dataStart es pos := by
      unfold dataStart
      split <;> omega
    unfold dataLens
    dsimp only
    split
    · rw [List.sum_nil]
      omega
    · rw [List.sum_cons, ih (by omega)]
      omega

theorem flatten_cut {ks : List Nat} {m : Bytes} (h : ks.sum = m.length) : (cut ks m).flatten = m := by
  induction ks generalizing m with
  | nil =>
    rw [List.sum_nil] at h
    rw [List.length_eq_zero_iff.mp h.symm]
    rfl
  | cons k ks ih =>
    rw [List.sum_cons] at h
    rw [cut, List.flatten_cons, ih (by rw [List.length_drop]; omega), List.take_append_drop]

theorem map_length_cut {ks : List Nat} {m : Bytes} (h : ks.sum ≤ m.length) :
    (cut ks m).map List.length = ks := by
  induction ks generalizing m with
  | nil => rfl
  | cons k ks ih =>
    rw [List.sum_cons] at h
    rw [cut, List.map_cons, ih (by rw [List.length_drop]; omega), List.length_take,
      Nat.min_eq_left (by omega)]

/-! ## Data nodes -/

section
variable (e : Endian) (st : Stat) (inode isize : UInt32)

def dataNode (version f_offset : UInt32) (bs : Bytes) : Bytes :=
  rawInode e (dataInode st inode isize version f_offset bs.length) (crc32 0 bs) ++ bs

/-- The data nodes for the pieces of a file after `last_version`. -/
def dataNodes : UInt32 → UInt32 → List Bytes → List Bytes
  | _, _, [] => []
  | last_version, f_offset, bs :: rest =>
    dataNode e st inode isize (last_version + 1) f_offset bs ::
      dataNodes (last_version + 1) (f_offset + UInt32.ofNat bs.length) rest

theorem dataNode_view (version f_offset : UInt32) {bs : Bytes} (h : bs.length ≤ 4096) :
    InodeView e (dataInode st inode isize version f_offset bs.length) bs
      (dataNode e st inode isize version f_offset bs) :=
  rawInode_view e (by omega) rfl rfl rfl

end

/-! ## The steps -/

section
variable {e : Endian} {c : Chip} {w : Writer} {ns : List Bytes}

theorem addDirent_log (hes : 4 ∣ c.erasesize) (h12 : 12 < c.erasesize) (h : Log e c w ns)
    {name : Bytes} (hname : name.length < 256) {type : Nat} (htype : type < 256)
    (parent : UInt32)
    (hfit : (if w.ofs = 0 then 12 else w.ofs) + roundUp (40 + name.length) 4 < c.erasesize) :
    ∃ w', addDirent e c name type parent w = (w', w.last_ino + 1) ∧
      Log e c w' (ns ++ [rawDirent e name type parent w.last_version (w.last_ino + 1)]) ∧
      w'.ofs = (if w.ofs = 0 then 12 else w.ofs) + roundUp (40 + name.length) 4 ∧
      w'.last_ino = w.last_ino + 1 + 1 ∧ w'.last_version = w.last_version + 1 := by
  have hsmall := h.small
  have hview := rawDirent_view e hname htype parent w.last_version (w.last_ino + 1)
  have hprep := prep_ofs (e := e) (c := c) w
  -- the entry goes behind the marker of a fresh block, with the counters already moved on
  have hlog := log_set (log_prep h12 h) (w.last_ino + 1 + 1) (w.last_version + 1)
  have hofs : Writer.ofs { prepEraseblock e c w with
      last_ino := w.last_ino + 1 + 1, last_version := w.last_version + 1 } =
        if w.ofs = 0 then 12 else w.ofs := hprep
  refine ⟨_, ?_, log_node hes hlog hview.good (ne_cleanmarker_of_dirent hview.dirent) ?_, ?_, ?_, ?_⟩
  · unfold addDirent
    rw [if_neg fun hle => absurd hle.1 (by omega)]
    simp only [prep_last_ino, prep_last_version, store_last_version]
    rfl
  · rw [hofs, hview.length]
    omega
  · rw [node_ofs hes hlog hview.good (by rw [hofs, hview.length]; omega), hofs, hview.length,
      if_neg (by omega)]
  · simp
  · simp

/-- The inode node of a new directory. -/
def dirInode (e : Endian) (ino : UInt32) : Bytes :=
  rawInode e
    { totlen := 68, ino := ino, version := 1, mode := 0o40755, isize := 0, atime := 0,
      mtime := 0, ctime := 0, offset := 0, csize := 0, dsize := 0 } 0

theorem dirInode_view (ino : UInt32) :
    InodeView e
      { totlen := 68, ino := ino, version := 1, mode := 0o40755, isize := 0, atime := 0,
        mtime := 0, ctime := 0, offset := 0, csize := 0, dsize := 0 } [] (dirInode e ino) := by
  have : InodeView e
      { totlen := 68, ino := ino, version := 1, mode := 0o40755, isize := 0, atime := 0,
        mtime := 0, ctime := 0, offset := 0, csize := 0, dsize := 0 } []
      (dirInode e ino ++ []) :=
    rawInode_view e (by decide) rfl rfl rfl
  rwa [List.append_nil] at this

theorem addDir_log (hes : 4 ∣ c.erasesize) (h4096 : 4096 ≤ c.erasesize) (h : Log e c w ns)
    (h0 : w.ofs = 0) {name : Bytes} (hname : name.length < 256) (parent : UInt32) :
    ∃ w', addDir e c name parent w = (w', w.last_ino + 1) ∧
      Log e c w' (ns ++ [rawDirent e name dtDir parent w.last_version (w.last_ino + 1),
        dirInode e (w.last_ino + 1)]) ∧
      w'.ofs = 12 + roundUp (40 + name.length) 4 + 68 ∧
      w'.last_ino = w.last_ino + 1 + 1 ∧ w'.last_version = w.last_version + 1 := by
  have hround := roundUp_lt (40 + name.length) (y := 4) (by decide)
  obtain ⟨w1, hrun, hlog, hofs, hino, hver⟩ :=
    addDirent_log hes (by omega) h hname (by decide : dtDir < 256) parent
      (by rw [if_pos h0]; omega)
  rw [if_pos h0] at hofs
  have hview := dirInode_view (e := e) (w.last_ino + 1)
  have hlen : (dirInode e (w.last_ino + 1)).length = 68 := hview.length
  have hroom : ¬ rbytes c w1 < 68 := by
    rw [rbytes, Nat.mod_eq_of_lt hlog.small]
    omega
  have hprep : prepEraseblock e c w1 = w1 := by
    rw [prepEraseblock, if_pos (by omega)]
  have h68 : roundUp 68 4 = 68 := rfl
  have hfit : w1.ofs + roundUp (dirInode e (w.last_ino + 1)).length 4 ≤ c.erasesize := by
    rw [hlen, h68]
    omega
  have hrun' : addDir e c name parent w =
      (pad c 4 (store c (dirInode e (w.last_ino + 1)) w1), w.last_ino + 1) := by
    unfold addDir
    rw [hrun]
    dsimp only
    rw [if_neg hroom, hprep, ← dirInode, addData_of_fits (by rw [hlen]; omega)]
  refine ⟨_, hrun', ?_, ?_, ?_, ?_⟩
  · have := log_node hes hlog hview.good (ne_cleanmarker_of_inode hview.inode) hfit
    rwa [List.append_assoc] at this
  · rw [node_ofs hes hlog hview.good hfit, hlen, h68, if_neg (by omega), hofs]
  · rw [pad_last_ino, store_last_ino, hino]
  · rw [pad_last_version, store_last_version, hver]

/-- The inner loop of `add_file`. -/
theorem makeRoom_log (hes : 4 ∣ c.erasesize) (h4096 : 4096 ≤ c.erasesize) (h : Log e c w ns) :
    ∃ w', makeRoom e c 2 w = some (c.erasesize - dataStart c.erasesize w.ofs - 68, w') ∧
      Log e c w' ns ∧ w'.ofs = dataStart c.erasesize w.ofs ∧
      w'.last_ino = w.last_ino ∧ w'.last_version = w.last_version := by
  have hr (v : Writer) (hv : v.ofs < c.erasesize) : rbytes c v = c.erasesize - v.ofs := by
    rw [rbytes, Nat.mod_eq_of_lt hv]
  unfold makeRoom
  by_cases hroom : 128 + 68 < c.erasesize - w.ofs
  · have hstart : dataStart c.erasesize w.ofs = w.ofs := by rw [dataStart, if_pos hroom]
    rw [hr w h.small, if_pos hroom, hstart]
    exact ⟨w, rfl, h, rfl, rfl, rfl⟩
  · have hstart : dataStart c.erasesize w.ofs = 12 := by rw [dataStart, if_neg hroom]
    obtain ⟨hpad, hpad0⟩ := log_pad h
    have hlog := log_prep (by omega) hpad
    have hofs : (prepEraseblock e c (pad c c.erasesize w)).ofs = 12 := by
      rw [prep_ofs, if_pos hpad0]
    rw [hr w h.small, if_neg hroom, hstart]
    refine ⟨_, ?_, hlog, hofs, by simp, by simp⟩
    rw [makeRoom, hr _ hlog.small, hofs, if_pos (by omega)]

/-- A data node and the clean marker that may follow it. -/
theorem addFile_step (hes : 4 ∣ c.erasesize) (h4096 : 4096 ≤ c.erasesize) (st : Stat)
    (inode isize version f_offset : UInt32) {bs : Bytes} (h : Log e c w ns)
    (hroom : w.ofs + 68 + bs.length ≤ c.erasesize) (hbs : bs.length ≤ 4096) :
    let ri := dataInode st inode isize version f_offset bs.length
    let w' := prepEraseblock e c
      (pad c 4 (addData e c bs (addData e c (rawInode e ri (crc32 0 bs)) w)))
    Log e c w' (ns ++ [dataNode e st inode isize version f_offset bs]) ∧
      w'.ofs = afterNode c.erasesize w.ofs (68 + bs.length) ∧
      w'.last_version = w.last_version := by
  have hview := dataNode_view e st inode isize version f_offset hbs
  have hhdr : (rawInode e (dataInode st inode isize version f_offset bs.length)
      (crc32 0 bs)).length = 68 := by
    have := hview.length
    rw [dataNode, List.length_append] at this
    omega
  have hround : w.ofs + roundUp (68 + bs.length) 4 ≤ c.erasesize := by
    obtain ⟨p, hp⟩ := h.dvd_ofs
    obtain ⟨q, hq⟩ := hes
    have : roundUp (68 + bs.length) 4 ≤ 4 * (q - p) :=
      (roundUp_le_iff (by decide) (Nat.dvd_mul_right 4 _)).mpr (by omega)
    omega
  have hfit : w.ofs + roundUp (dataNode e st inode isize version f_offset bs).length 4 ≤
      c.erasesize := by rwa [hview.length]
  have hstore : addData e c bs (addData e c
      (rawInode e (dataInode st inode isize version f_offset bs.length) (crc32 0 bs)) w) =
        store c (dataNode e st inode isize version f_offset bs) w := by
    have hfirst : addData e c (rawInode e (dataInode st inode isize version f_offset bs.length)
        (crc32 0 bs)) w = store c _ w := addData_of_fits (by omega)
    rw [hfirst, addData_of_fits (by rw [store_ofs]; omega), store_store]
    rfl
  have hpos := le_roundUp (68 + bs.length) (y := 4) (by decide)
  dsimp only
  rw [hstore]
  refine ⟨log_prep (by omega) (log_node hes h hview.good
    (ne_cleanmarker_of_inode hview.inode) hfit), ?_, by simp⟩
  rw [prep_ofs, node_ofs hes h hview.good hfit, hview.length, afterNode]
  by_cases hfull : w.ofs + roundUp (68 + bs.length) 4 = c.erasesize
  · rw [if_pos hfull, if_pos rfl, if_pos hfull]
  · rw [if_neg hfull, if_neg (by omega), if_neg hfull]

theorem addFileLoop_log (hes : 4 ∣ c.erasesize) (h4096 : 4096 ≤ c.erasesize) (st : Stat)
    (inode isize : UInt32) {fuel : Nat} {file : Bytes} (hf : file.length < fuel)
    (f_offset : UInt32) (h : Log e c w ns) (h0 : 0 < w.ofs) :
    ∃ w', addFileLoop e c st inode isize fuel f_offset file w = some w' ∧
      Log e c w' (ns ++ dataNodes e st inode isize w.last_version f_offset
        (cut (dataLens c.erasesize fuel w.ofs file.length) file)) ∧ 0 < w'.ofs := by
  induction fuel generalizing file w ns f_offset with
  | zero => omega
  | succ fuel ih =>
    obtain ⟨w1, hrun, hlog, hofs, -, hver⟩ := makeRoom_log hes h4096 h
    have hstart : 128 + 68 < c.erasesize - dataStart c.erasesize w.ofs := by
      unfold dataStart
      split <;> omega
    have hstart0 : 0 < dataStart c.erasesize w.ofs := by
      unfold dataStart
      split <;> omega
    generalize hroom : min (c.erasesize - dataStart c.erasesize w.ofs - 68) 4096 = room at *
    have hlen : (file.take room).length = min room file.length := List.length_take
    unfold addFileLoop dataLens
    rw [hrun]
    dsimp only
    rw [hroom]
    by_cases hend : file.take room = []
    · have : min room file.length = 0 := by rw [← hlen, hend, List.length_nil]
      rw [if_pos hend, if_pos this]
      refine ⟨w1, rfl, ?_, by omega⟩
      rw [cut, dataNodes, List.append_nil]
      exact hlog
    · have hpos : min room file.length ≠ 0 := by
        rw [← hlen]
        exact fun h => hend (List.length_eq_zero_iff.mp h)
      have hlog1 := log_set hlog w1.last_ino (w1.last_version + 1)
      have hofs1 : Writer.ofs { w1 with last_version := w1.last_version + 1 } =
          dataStart c.erasesize w.ofs := hofs
      obtain ⟨hlog2, hofs2, hver2⟩ := addFile_step hes h4096 st inode isize
        (w1.last_version + 1) f_offset hlog1
        (show _ + (file.take room).length ≤ _ by rw [hlen]; omega) (by rw [hlen]; omega)
      rw [if_neg hend, if_neg hpos]
      obtain ⟨w', hrun', hlog', hw'⟩ := ih
        (show (file.drop room).length < fuel by rw [List.length_drop]; omega)
        (f_offset + UInt32.ofNat (file.take room).length) hlog2
        (by rw [hofs2]; unfold afterNode; split <;> omega)
      refine ⟨w', hrun', ?_, hw'⟩
      have hdrop : (file.drop room).length = file.length - min room file.length := by
        rw [List.length_drop]
        omega
      rw [hofs2, hofs1, hver2, hlen, hdrop, hver, List.append_assoc] at hlog'
      rw [cut, dataNodes, ← List.take_eq_take_min, ← List.drop_eq_drop_min, hlen]
      exact hlog'

end

/-! ## The whole append -/

section
variable (e : Endian) (c : Chip)

/-- An erase block that holds the nodes `ns` and erased bytes. -/
def Splits (b : Bytes) (ns : List Bytes) : Prop :=
  b.length = c.erasesize ∧ splitRecords 4 (nodeSize e) c.erasesize b = some ns

/-- The stream of blocks splits into complete nodes, up to the block with the end marker. -/
structure Layout (w : Writer) (blocks : List (List Bytes)) : Prop where
  split : ∃ bs, w.written.map Prod.snd =
      bs ++ [jffs2Eof ++ List.replicate (c.erasesize - 4) 0xff] ∧
    List.Forall₂ (Splits e c) bs blocks
  nodes : ∀ n ∈ blocks.flatten, NodeOk e n
  placed : ∀ p ∈ w.written, c.bad p.1 = false ∨ c.mtdsize ≤ p.1
  inside : w.overrun = false

/-- The nodes for the file itself, the entry starting at offset `pos`. -/
def fileNodes (st : Stat) (name file : Bytes) (parent inode version : UInt32) (pos : Nat) :
    List Bytes :=
  rawDirent e name dtReg parent version inode ::
    dataNodes e st inode (UInt32.ofNat file.length) (version + 1) 0
      (cut (dataLens c.erasesize (file.length + 1) (pos + roundUp (40 + name.length) 4)
        file.length) file)

/-- The nodes of one append. -/
def newNodes (filename : CStr) (st : Stat) (file : Bytes) (dir : CStr) (s : Scan) : List Bytes :=
  let last_ino := if s.last_ino = 0 then 1 else s.last_ino
  if s.target_ino = 0 then
    rawDirent e dir.bytes dtDir 1 s.last_version (last_ino + 1) :: dirInode e (last_ino + 1) ::
      fileNodes e c st (fname filename.bytes) file (last_ino + 1) (last_ino + 1 + 1 + 1)
        (s.last_version + 1) (12 + roundUp (40 + dir.length) 4 + 68)
  else
    fileNodes e c st (fname filename.bytes) file s.target_ino (last_ino + 1) s.last_version 12

end

section
variable {e : Endian} {c : Chip} {w : Writer} {ns : List Bytes}

theorem length_le_packed {ns : List Bytes} (h : ∀ n ∈ ns, GoodNode e n) :
    ns.length ≤ (packed ns).length := by
  induction ns with
  | nil => exact Nat.le_refl 0
  | cons n ns ih =>
    have hn := (h n (by simp)).length_pos
    have hle := le_roundUp n.length (y := 4) (by decide)
    have := ih fun m hm => h m (by simp [hm])
    rw [packed, List.flatMap_cons, List.length_append, length_padTo (by decide), ← packed,
      List.length_cons]
    omega

theorem splits_fillBlock {ns : List Bytes} (h : ∀ n ∈ ns, GoodNode e n)
    (hsize : (packed ns).length ≤ c.erasesize) : Splits e c (fillBlock c.erasesize ns) ns :=
  ⟨length_fillBlock hsize, splitRecords_packed (by decide) (fun n hn => (h n hn).record) _
    (Nat.le_trans (length_le_packed h) hsize)⟩

/-- The end of the append: the last block of nodes and the block with the end marker. -/
theorem close_log (h4096 : 4096 ≤ c.erasesize) (h : Log e c w ns) (h0 : 0 < w.ofs) :
    ∃ blocks, Layout e c
        (pad c c.erasesize (addData e c jffs2Eof (pad c c.erasesize w))) blocks ∧
      blocks.flatten.filter (· ≠ cleanmarker e) = ns := by
  obtain ⟨done, cur, hrep, hns⟩ := h
  have hpad := rep_pad hrep h0
  generalize pad c c.erasesize w = w1 at *
  have hbuf : w1.buf = [] := hpad.buf
  have hofs : w1.ofs = 0 := by rw [Writer.ofs, hbuf, List.length_nil]
  have hstore : addData e c jffs2Eof w1 = { w1 with buf := jffs2Eof } := by
    have h4 : w1.ofs + jffs2Eof.length ≤ c.erasesize := by
      change w1.ofs + 4 ≤ _
      omega
    rw [addData_of_fits h4, store_of_fits h4, hbuf, List.nil_append]
  have hofs1 : Writer.ofs { w1 with buf := jffs2Eof } = 4 := rfl
  refine ⟨done ++ [cur], ?_, by simpa using hns⟩
  rw [hstore, pad_erasesize (by omega) (by omega), hofs1]
  have hgood : ∀ n ∈ (done ++ [cur]).flatten, GoodNode e n := by
    intro n hn
    exact hpad.nodes n (List.mem_append_left _ hn)
  have hlen : (jffs2Eof ++ List.replicate (c.erasesize - 4) 0xff).length ≤ c.erasesize := by
    rw [List.length_append, List.length_replicate]
    change 4 + _ ≤ _
    omega
  exact
    { split := by
        refine ⟨(done ++ [cur]).map (fillBlock c.erasesize), ?_, ?_⟩
        · simp only [flushBlock, List.map_append, hpad.blocks, List.map_cons, List.map_nil]
          rw [List.take_of_length_le hlen]
        · apply List.forall₂_map_left_iff.mpr
          apply List.forall₂_same.mpr
          intro ns hns
          apply splits_fillBlock _ (hpad.sizes ns hns)
          intro n hn
          exact hgood n (List.mem_flatten.mpr ⟨ns, hns, hn⟩)
      nodes := fun n hn => (hgood n hn).ok
      placed := by
        intro p hp
        rcases List.mem_append.mp hp with hp | hp
        · exact hpad.placed p hp
        · rw [List.mem_singleton.mp hp]
          exact skipBad_spec (by omega) _ _ (by omega)
      inside := hpad.inside }

theorem addFile_log (hes : 4 ∣ c.erasesize) (h4096 : 4096 ≤ c.erasesize) (h : Log e c w ns)
    (filename : Bytes) (st : Stat) (file : Bytes) (parent : UInt32)
    (hname : (fname filename).length < 256) {pos : Nat}
    (hpos : (if w.ofs = 0 then 12 else w.ofs) = pos)
    (hfit : pos + roundUp (40 + (fname filename).length) 4 < c.erasesize) :
    ∃ w', addFile e c filename st file parent w = some w' ∧
      Log e c w' (ns ++ fileNodes e c st (fname filename) file parent (w.last_ino + 1)
        w.last_version pos) ∧ 0 < w'.ofs := by
  obtain ⟨w1, hrun, hlog, hofs, -, hver⟩ :=
    addDirent_log hes (by omega) h hname (by decide : dtReg < 256) parent (by rwa [hpos])
  have hle := le_roundUp (40 + (fname filename).length) (y := 4) (by decide)
  obtain ⟨w', hrun', hlog', hw'⟩ := addFileLoop_log hes h4096 st (w.last_ino + 1)
    (UInt32.ofNat file.length) (Nat.lt_succ_self file.length) 0 hlog (by omega)
  refine ⟨w', ?_, ?_, hw'⟩
  · rw [addFile, hrun]
    exact hrun'
  · rwa [hofs, hpos, hver, List.append_assoc] at hlog'

theorem startLog (h : 0 < c.erasesize) (mtdofs : Nat) (last_ino last_version : UInt32) :
    Log e c { written := [], mtdofs := mtdofs, buf := [], last_ino := last_ino,
              last_version := last_version, overrun := false } [] :=
  ⟨[], [], ⟨rfl, rfl, by simp, h, by simp, by simp, rfl⟩, rfl⟩

/-- **Append.** A whole append ends, and its blocks hold the new nodes. -/
theorem appendFile_log (hes : 4 ∣ c.erasesize) (h4096 : 4096 ≤ c.erasesize) (filename : CStr)
    (st : Stat) (file : Bytes) (dir : CStr) (mtdofs : Nat) (s : Scan)
    (hname : (fname filename.bytes).length ≤ 255) (hdir : dir.length ≤ 255) :
    ∃ w blocks, appendFile e c filename st file dir mtdofs s = some w ∧ Layout e c w blocks ∧
      blocks.flatten.filter (· ≠ cleanmarker e) = newNodes e c filename st file dir s := by
  have hup := roundUp_lt (40 + (fname filename.bytes).length) (y := 4) (by decide)
  have hstart := startLog (e := e) (by omega : 0 < c.erasesize) mtdofs
    (if s.last_ino = 0 then 1 else s.last_ino) s.last_version
  unfold appendFile newNodes
  dsimp only
  by_cases htarget : s.target_ino = 0
  · have hdir' : dir.bytes.length < 256 := Nat.lt_succ_of_le hdir
    obtain ⟨w1, hrun1, hlog1, hofs1, hino1, hver1⟩ := addDir_log hes h4096 hstart rfl hdir' 1
    obtain ⟨w2, hrun2, hlog2, hw2⟩ := addFile_log hes h4096 hlog1 filename.bytes st file
      ((if s.last_ino = 0 then 1 else s.last_ino) + 1) (by omega) (if_neg (by omega))
      (by rw [hofs1]; have := roundUp_lt (40 + dir.bytes.length) (y := 4) (by decide); omega)
    obtain ⟨blocks, hlayout, hns⟩ := close_log h4096 hlog2 hw2
    refine ⟨_, blocks, ?_, hlayout, ?_⟩
    · rw [if_pos htarget, hrun1]
      dsimp only
      rw [hrun2]
      rfl
    · rw [hns, if_pos htarget, hofs1, hino1, hver1]
      rfl
  · obtain ⟨w2, hrun2, hlog2, hw2⟩ := addFile_log hes h4096 hstart filename.bytes st file
      s.target_ino (by omega) (if_pos rfl) (by omega)
    obtain ⟨blocks, hlayout, hns⟩ := close_log h4096 hlog2 hw2
    refine ⟨_, blocks, ?_, hlayout, ?_⟩
    · rw [if_neg htarget]
      dsimp only
      rw [hrun2]
      rfl
    · rw [hns, if_neg htarget]
      rfl

end

end UolaOs.Mtd
