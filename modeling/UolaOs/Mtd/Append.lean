import UolaOs.Mtd.Nodes

/-!
# The buffer of the jffs2 writer

* `Rep`: the blocks written and the buffer hold padded nodes and nothing else;
* `Log`: the same without the block boundaries and the clean markers;
* `log_prep`, `log_pad` and `log_node`: what each buffer operation does to the log;
* `addFileLoop_log`: the data nodes the loop of `add_file` appends.
-/

namespace UolaOs.Mtd

/-- Nodes one after another, each filled up to a multiple of four. -/
def packed (ns : List Bytes) : Bytes := ns.flatMap (padTo 4)

/-- A block with nodes and erased bytes behind them. -/
def fillBlock (es : Nat) (ns : List Bytes) : Bytes :=
  packed ns ++ List.replicate (es - (packed ns).length) 0xff

theorem dvd_packed (ns : List Bytes) : 4 ∣ (packed ns).length := by
  induction ns with
  | nil => exact Nat.dvd_zero 4
  | cons n ns ih =>
    rw [packed, List.flatMap_cons, List.length_append, length_padTo (by decide)]
    exact Nat.dvd_add (dvd_roundUp _ _) ih

theorem packed_snoc (ns : List Bytes) (n : Bytes) : packed (ns ++ [n]) = packed ns ++ padTo 4 n := by
  simp [packed]

theorem length_fillBlock {es : Nat} {ns : List Bytes} (h : (packed ns).length ≤ es) :
    (fillBlock es ns).length = es := by
  simp only [fillBlock, List.length_append, List.length_replicate]
  omega

section
variable (e : Endian) (c : Chip)

/-- The blocks hold the nodes `done`, the buffer holds the nodes `cur`. -/
structure Rep (w : Writer) (done : List (List Bytes)) (cur : List Bytes) : Prop where
  blocks : w.written.map Prod.snd = done.map (fillBlock c.erasesize)
  buf : w.buf = packed cur
  sizes : ∀ ns ∈ done, (packed ns).length ≤ c.erasesize
  small : w.ofs < c.erasesize
  nodes : ∀ n ∈ done.flatten ++ cur, GoodNode e n
  placed : ∀ p ∈ w.written, c.bad p.1 = false ∨ c.mtdsize ≤ p.1
  inside : w.overrun = false

/-- The nodes written so far, in order, without the clean markers. -/
def Log (w : Writer) (ns : List Bytes) : Prop :=
  ∃ done cur, Rep e c w done cur ∧ (done.flatten ++ cur).filter (· ≠ cleanmarker e) = ns

end

/-! ## What the operations leave alone -/

section
variable {e : Endian} {c : Chip}

@[simp] theorem store_last_ino (bs : Bytes) (w : Writer) : (store c bs w).last_ino = w.last_ino :=
  rfl

@[simp] theorem store_last_version (bs : Bytes) (w : Writer) :
    (store c bs w).last_version = w.last_version := rfl

@[simp] theorem store_ofs (bs : Bytes) (w : Writer) : (store c bs w).ofs = w.ofs + bs.length :=
  List.length_append

@[simp] theorem pad_last_ino (size : Nat) (w : Writer) : (pad c size w).last_ino = w.last_ino := by
  unfold pad flushBlock
  split
  · rfl
  · dsimp only
    split <;> split <;> rfl

@[simp] theorem pad_last_version (size : Nat) (w : Writer) :
    (pad c size w).last_version = w.last_version := by
  unfold pad flushBlock
  split
  · rfl
  · dsimp only
    split <;> split <;> rfl

@[simp] theorem prep_last_ino (w : Writer) : (prepEraseblock e c w).last_ino = w.last_ino := by
  unfold prepEraseblock
  split <;> rfl

@[simp] theorem prep_last_version (w : Writer) :
    (prepEraseblock e c w).last_version = w.last_version := by
  unfold prepEraseblock
  split <;> rfl

theorem prep_ofs (w : Writer) :
    (prepEraseblock e c w).ofs = if w.ofs = 0 then 12 else w.ofs := by
  unfold prepEraseblock
  by_cases h : w.ofs = 0
  · simp [h]
  · rw [if_pos (by omega), if_neg h]

theorem store_store (a b : Bytes) (w : Writer) :
    store c b (store c a w) = store c (a ++ b) w := by
  simp only [store, Writer.ofs, List.append_assoc, List.length_append, Writer.mk.injEq, true_and,
    Bool.or_assoc]
  congr 1
  by_cases h : c.erasesize < w.buf.length + a.length
  · simp [h, show c.erasesize < w.buf.length + (a.length + b.length) by omega]
  · simp [h, Nat.add_assoc]

theorem addData_of_fits {bs : Bytes} {w : Writer} (h : w.ofs + bs.length ≤ c.erasesize) :
    addData e c bs w = store c bs w := by
  rw [addData, if_neg (by omega)]

/-! ## Flushing -/

theorem skipBad_spec (hes : 0 < c.erasesize) (fuel m : Nat) (hf : c.mtdsize ≤ m + fuel) :
    c.bad (skipBad c fuel m) = false ∨ c.mtdsize ≤ skipBad c fuel m := by
  induction fuel generalizing m with
  | zero => exact Or.inr hf
  | succ fuel ih =>
    unfold skipBad
    split
    · exact ih _ (by omega)
    · rename_i h
      rcases Bool.eq_false_or_eq_true (c.bad m) with hb | hb
      · right
        by_contra hlt
        exact h ⟨hb, by omega⟩
      · exact Or.inl hb

/-- A full buffer becomes a block. -/
theorem rep_flush {w : Writer} {done : List (List Bytes)} {cur cur' : List Bytes} {bs : Bytes}
    (h : Rep e c w done cur) (hfull : w.buf ++ bs = fillBlock c.erasesize cur')
    (hsize : (packed cur').length ≤ c.erasesize) (hgood : ∀ n ∈ cur', GoodNode e n) :
    Rep e c (flushBlock c { w with buf := w.buf ++ bs }) (done ++ [cur']) [] := by
  have hpos : 0 < c.erasesize := Nat.lt_of_le_of_lt (Nat.zero_le _) h.small
  have hlen : (w.buf ++ bs).length = c.erasesize := by rw [hfull, length_fillBlock hsize]
  exact
    { blocks := by
        simp only [flushBlock, List.map_append, List.map_cons, List.map_nil, h.blocks]
        rw [List.take_of_length_le (Nat.le_of_eq hlen), hfull]
      buf := rfl
      sizes := by
        intro ns hns
        rcases List.mem_append.mp hns with hns | hns
        · exact h.sizes ns hns
        · rwa [List.mem_singleton.mp hns]
      small := hpos
      nodes := by
        intro n hn
        simp only [List.flatten_append, List.flatten_cons, List.flatten_nil, List.append_nil,
          List.mem_append] at hn
        rcases hn with hn | hn
        · exact h.nodes n (List.mem_append_left _ hn)
        · exact hgood n hn
      placed := by
        intro p hp
        rcases List.mem_append.mp hp with hp | hp
        · exact h.placed p hp
        · rw [List.mem_singleton.mp hp]
          exact skipBad_spec hpos _ _ (by omega)
      inside := h.inside }

/-- The last part of `pad`: the offset wraps and a full buffer is written. -/
def settle (c : Chip) (w : Writer) : Writer :=
  if w.ofs % c.erasesize = 0 then flushBlock c w
  else { w with buf := w.buf.take (w.ofs % c.erasesize) }

theorem pad_fill {size : Nat} {w : Writer} (h : w.ofs % size ≠ 0) (hlt : w.ofs < c.erasesize) :
    pad c size w = settle c (store c (List.replicate (size - w.ofs % size) 0xff) w) := by
  unfold pad
  rw [if_neg fun hw => h hw.1, if_pos hlt]
  rfl

theorem pad_full {size : Nat} {w : Writer} (h : w.ofs = c.erasesize) :
    pad c size w = flushBlock c w := by
  unfold pad
  have hlt : ¬ w.ofs < c.erasesize := by omega
  rw [if_neg fun hw => hlt hw.2, if_neg hlt]
  exact if_pos (by rw [h, Nat.mod_self])

theorem settle_of_le {w : Writer} (h0 : 0 < w.ofs) (h : w.ofs ≤ c.erasesize) :
    settle c w = if w.ofs = c.erasesize then flushBlock c w else w := by
  unfold settle
  by_cases hfull : w.ofs = c.erasesize
  · rw [if_pos (by rw [hfull, Nat.mod_self]), if_pos hfull]
  · have hmod : w.ofs % c.erasesize = w.ofs := Nat.mod_eq_of_lt (by omega)
    have htake : w.buf.take w.ofs = w.buf := List.take_length
    rw [if_neg hfull, hmod, if_neg (by omega), htake]

theorem store_of_fits {bs : Bytes} {w : Writer} (h : w.ofs + bs.length ≤ c.erasesize) :
    store c bs w = { w with buf := w.buf ++ bs } := by
  have : ¬ c.erasesize < w.ofs + bs.length := by omega
  simp [store, this]

theorem pad_erasesize {w : Writer} (h0 : 0 < w.ofs) (h : w.ofs < c.erasesize) :
    pad c c.erasesize w =
      flushBlock c { w with buf := w.buf ++ List.replicate (c.erasesize - w.ofs) 0xff } := by
  have hmod : w.ofs % c.erasesize = w.ofs := Nat.mod_eq_of_lt h
  have hofs : (store c (List.replicate (c.erasesize - w.ofs) 0xff) w).ofs = c.erasesize := by
    rw [store_ofs, List.length_replicate]
    omega
  rw [pad_fill (by omega) h, hmod, settle_of_le (by omega) (Nat.le_of_eq hofs), if_pos hofs,
    store_of_fits (by rw [List.length_replicate]; omega)]

/-- `pad(erasesize)` with something in the buffer writes it out. -/
theorem rep_pad {w : Writer} {done : List (List Bytes)} {cur : List Bytes} (h : Rep e c w done cur)
    (h0 : 0 < w.ofs) : Rep e c (pad c c.erasesize w) (done ++ [cur]) [] := by
  have hfill : w.buf ++ List.replicate (c.erasesize - w.ofs) 0xff = fillBlock c.erasesize cur := by
    rw [fillBlock, ← h.buf]
    rfl
  have hcur : (packed cur).length ≤ c.erasesize := by
    rw [← h.buf]
    exact Nat.le_of_lt h.small
  rw [pad_erasesize h0 h.small]
  exact rep_flush h hfill hcur fun n hn => h.nodes n (List.mem_append_right _ hn)

theorem pad_ofs_zero {w : Writer} (hes : 0 < c.erasesize) (h0 : w.ofs = 0) :
    pad c c.erasesize w = w := by
  rw [pad, if_pos ⟨by rw [h0, Nat.zero_mod], by omega⟩]

/-- Storing a node and padding it to four bytes: it is complete in the buffer, and the buffer is
written out when this fills it. -/
theorem pad_four {w : Writer} {n : Bytes} (hes : 4 ∣ c.erasesize) (hw : 4 ∣ w.ofs)
    (h0 : 0 < n.length) (hfit : w.ofs + roundUp n.length 4 ≤ c.erasesize) :
    pad c 4 (store c n w) =
      if w.ofs + roundUp n.length 4 = c.erasesize then
        flushBlock c { w with buf := w.buf ++ padTo 4 n }
      else { w with buf := w.buf ++ padTo 4 n } := by
  have hle := le_roundUp n.length (y := 4) (by decide)
  have hup := roundUp_lt n.length (y := 4) (by decide)
  obtain ⟨k, hk⟩ := dvd_roundUp n.length 4
  obtain ⟨p, hp⟩ := hw
  obtain ⟨q, hq⟩ := hes
  have hofs : (store c n w).ofs = w.ofs + n.length := store_ofs n w
  by_cases hal : n.length % 4 = 0
  · have hround : roundUp n.length 4 = n.length := by omega
    have hpad : padTo 4 n = n := by simp [padTo, hround]
    rw [hround, hpad, ← store_of_fits (c := c) (by omega)]
    by_cases hfull : w.ofs + n.length = c.erasesize
    · rw [if_pos hfull, pad_full (hofs.trans hfull)]
    · rw [if_neg hfull, pad, if_pos ⟨by omega, by omega⟩]
  · have hfill : 4 - (store c n w).ofs % 4 = roundUp n.length 4 - n.length := by omega
    have hofs' : (store c (padTo 4 n) w).ofs = w.ofs + roundUp n.length 4 := by
      rw [store_ofs, length_padTo (by decide)]
    rw [pad_fill (by omega) (by omega), hfill, store_store]
    change settle c (store c (padTo 4 n) w) = _
    rw [settle_of_le (by omega) (by omega), hofs',
      store_of_fits (by rw [length_padTo (by decide)]; exact hfit)]

theorem GoodNode.length_pos {n : Bytes} (hn : GoodNode e n) : 0 < n.length := by
  obtain ⟨b, t, rfl, -⟩ := hn.record.written
  exact Nat.succ_pos _

theorem Rep.dvd_ofs {w : Writer} {done : List (List Bytes)} {cur : List Bytes}
    (h : Rep e c w done cur) : 4 ∣ w.ofs := by
  rw [Writer.ofs, h.buf]
  exact dvd_packed cur

/-- A node put into the buffer becomes the last one of the log. -/
theorem rep_node {w : Writer} {done : List (List Bytes)} {cur : List Bytes} {n : Bytes}
    (hes : 4 ∣ c.erasesize) (h : Rep e c w done cur) (hn : GoodNode e n)
    (hfit : w.ofs + roundUp n.length 4 ≤ c.erasesize) :
    ∃ done' cur', Rep e c (pad c 4 (store c n w)) done' cur' ∧
      done'.flatten ++ cur' = done.flatten ++ cur ++ [n] := by
  have hbuf : w.buf ++ padTo 4 n = packed (cur ++ [n]) := by rw [packed_snoc, h.buf]
  have hlen : (w.buf ++ padTo 4 n).length = w.ofs + roundUp n.length 4 := by
    rw [List.length_append, length_padTo (by decide)]
    rfl
  have hgood : ∀ m ∈ cur ++ [n], GoodNode e m := by
    intro m hm
    rcases List.mem_append.mp hm with hm | hm
    · exact h.nodes m (List.mem_append_right _ hm)
    · rwa [List.mem_singleton.mp hm]
  rw [pad_four hes h.dvd_ofs hn.length_pos hfit]
  by_cases hfull : w.ofs + roundUp n.length 4 = c.erasesize
  · rw [if_pos hfull]
    have hblock : w.buf ++ padTo 4 n = fillBlock c.erasesize (cur ++ [n]) := by
      rw [fillBlock, ← hbuf, hlen, hfull, Nat.sub_self, List.replicate_zero, List.append_nil]
    exact ⟨_, _, rep_flush h hblock (by rw [← hbuf, hlen, hfull]) hgood, by simp⟩
  · rw [if_neg hfull]
    refine ⟨done, cur ++ [n], ?_, by simp⟩
    exact
      { blocks := h.blocks
        buf := hbuf
        sizes := h.sizes
        small := by
          rw [Writer.ofs, hlen]
          omega
        nodes := by
          intro m hm
          rw [← List.append_assoc] at hm
          rcases List.mem_append.mp hm with hm | hm
          · exact h.nodes m hm
          · rwa [List.mem_singleton.mp hm]
        placed := h.placed
        inside := h.inside }

/-! ## The log -/

theorem Log.dvd_ofs {w : Writer} {ns : List Bytes} (h : Log e c w ns) : 4 ∣ w.ofs := by
  obtain ⟨_, _, hrep, -⟩ := h
  exact hrep.dvd_ofs

theorem Log.small {w : Writer} {ns : List Bytes} (h : Log e c w ns) : w.ofs < c.erasesize := by
  obtain ⟨_, _, hrep, -⟩ := h
  exact hrep.small

/-- The counters are no part of the log. -/
theorem log_set {w : Writer} {ns : List Bytes} (h : Log e c w ns) (i v : UInt32) :
    Log e c { w with last_ino := i, last_version := v } ns := by
  obtain ⟨done, cur, hrep, hns⟩ := h
  exact ⟨done, cur, ⟨hrep.blocks, hrep.buf, hrep.sizes, hrep.small, hrep.nodes, hrep.placed,
    hrep.inside⟩, hns⟩

theorem log_pad {w : Writer} {ns : List Bytes} (h : Log e c w ns) :
    Log e c (pad c c.erasesize w) ns ∧ (pad c c.erasesize w).ofs = 0 := by
  have hsmall := h.small
  rcases Nat.eq_zero_or_pos w.ofs with h0 | h0
  · rw [pad_ofs_zero (by omega) h0]
    exact ⟨h, h0⟩
  · obtain ⟨done, cur, hrep, hns⟩ := h
    have hpad := rep_pad hrep h0
    refine ⟨⟨_, _, hpad, ?_⟩, ?_⟩
    · simpa using hns
    · rw [Writer.ofs, hpad.buf]
      rfl

theorem log_node {w : Writer} {ns : List Bytes} {n : Bytes} (hes : 4 ∣ c.erasesize)
    (h : Log e c w ns) (hn : GoodNode e n) (hm : n ≠ cleanmarker e)
    (hfit : w.ofs + roundUp n.length 4 ≤ c.erasesize) :
    Log e c (pad c 4 (store c n w)) (ns ++ [n]) := by
  obtain ⟨done, cur, hrep, hns⟩ := h
  obtain ⟨done', cur', hrep', heq⟩ := rep_node hes hrep hn hfit
  refine ⟨done', cur', hrep', ?_⟩
  rw [heq, List.filter_append, hns]
  simp [hm]

theorem node_ofs {w : Writer} {ns : List Bytes} {n : Bytes} (hes : 4 ∣ c.erasesize)
    (h : Log e c w ns) (hn : GoodNode e n) (hfit : w.ofs + roundUp n.length 4 ≤ c.erasesize) :
    (pad c 4 (store c n w)).ofs =
      if w.ofs + roundUp n.length 4 = c.erasesize then 0 else w.ofs + roundUp n.length 4 := by
  rw [pad_four hes h.dvd_ofs hn.length_pos hfit]
  split
  · rfl
  · rw [Writer.ofs, List.length_append, length_padTo (by decide)]
    rfl

theorem log_prep {w : Writer} {ns : List Bytes} (hes : 12 < c.erasesize) (h : Log e c w ns) :
    Log e c (prepEraseblock e c w) ns := by
  unfold prepEraseblock
  split
  · exact h
  · rename_i h0
    obtain ⟨done, cur, hrep, hns⟩ := h
    have hofs : w.ofs = 0 := by omega
    have hmark : padTo 4 (cleanmarker e) = cleanmarker e := by cases e <;> rfl
    have hstore : store c (cleanmarker e) w = { w with buf := w.buf ++ cleanmarker e } :=
      store_of_fits (by rw [length_cleanmarker]; omega)
    refine ⟨done, cur ++ [cleanmarker e], ?_, by simp [← hns]⟩
    exact
      { blocks := hrep.blocks
        buf := by rw [hstore, packed_snoc, hmark, hrep.buf]
        sizes := hrep.sizes
        small := by
          rw [store_ofs, length_cleanmarker]
          omega
        nodes := by
          intro n hn
          rw [← List.append_assoc] at hn
          rcases List.mem_append.mp hn with hn | hn
          · exact hrep.nodes n hn
          · rw [List.mem_singleton.mp hn]
            exact cleanmarker_good e
        placed := hrep.placed
        inside := by
          rw [hstore]
          exact hrep.inside }

theorem ne_cleanmarker_of_dirent {n : Bytes} (h : isDirent e n) : n ≠ cleanmarker e := by
  rintro rfl
  exact cleanmarker_dirent e h

theorem ne_cleanmarker_of_inode {n : Bytes} (h : isInode e n) : n ≠ cleanmarker e := by
  rintro rfl
  exact cleanmarker_inode e h

end

end UolaOs.Mtd
