import Mathlib.Data.List.Induction
import UolaOs.Mtd.Counters

/-!
# Looking up the directory of an append

Blocks that are made of complete nodes, and what the scan of them takes for the inode of the
directory.

* `parse_block`: the scan notes the directory entries of a block, one after the other;
* `strncmpEq_iff`: the names that are taken for the wanted one;
* `lookup_iff`: when the inode is that of the last entry with exactly this name.
-/

namespace UolaOs.Mtd

/-! ## Blocks of nodes -/

section
variable (e : Endian)

/-- A complete node with its padding. -/
structure IsNode (n : Bytes) : Prop where
  magic : word16 e n 0 = jffs2MagicBitmask
  header : 12 ≤ (word32 e n 4).toNat
  padded : n.length = roundUp (word32 e n 4).toNat 4
  entry : isDirent e n = true → (word32 e n 4).toNat = 40 + word8 e n 28

/-- A well-formed erase block: nodes, and then something else, such as erased bytes. -/
structure Block (c : Chip) where
  nodes : List Bytes
  rest : Bytes
  complete : ∀ n ∈ nodes, IsNode e n
  other : word16 e rest 0 ≠ jffs2MagicBitmask
  length_eq : (nodes.flatten ++ rest).length = c.erasesize
  aligned : 4 ∣ c.erasesize
  int : c.erasesize < 2 ^ 31

variable {e} in
def Block.bytes {c : Chip} (b : Block e c) : Bytes := b.nodes.flatten ++ b.rest

def entryOf (n : Bytes) : Dirent :=
  { pino := word32 e n 12, version := word32 e n 16, ino := word32 e n 20
    name := load n 40 (word8 e n 28) }

/-- The directory entries among some nodes. -/
def entries (nodes : List Bytes) : List Dirent := (nodes.filter (isDirent e)).map (entryOf e)

end

section
variable {e : Endian}

theorem load_middle {a b : Bytes} (n : Bytes) {off k : Nat} (h : off + k ≤ n.length) :
    load (a ++ (n ++ b)) (a.length + off) k = load n off k := by
  have hmid : load (a ++ (n ++ b)) (a.length + off) k = load (n ++ b) off k := by
    rw [load, load, ← List.drop_drop, List.drop_left]
  rw [hmid, load, load, List.drop_append_of_le_length (by omega),
    List.take_append_of_le_length (by rw [List.length_drop]; omega)]

section
variable {a b n : Bytes} {off : Nat}

theorem word16_middle (h : off + 2 ≤ n.length) :
    word16 e (a ++ (n ++ b)) (a.length + off) = word16 e n off := by
  rw [word16, load_middle n h, word16]

theorem word32_middle (h : off + 4 ≤ n.length) :
    word32 e (a ++ (n ++ b)) (a.length + off) = word32 e n off := by
  rw [word32, load_middle n h, word32]

end

theorem get_single (x : UInt8) : e.get [x] = x.toNat := by
  cases e <;> simp [Endian.get, leNat]

theorem IsNode.length_ge {n : Bytes} (h : IsNode e n) : 12 ≤ n.length := by
  rw [h.padded]
  exact Nat.le_trans h.header (le_roundUp _ (by decide))

theorem IsNode.entry_fits {n : Bytes} (h : IsNode e n) (hentry : isDirent e n = true) :
    40 + word8 e n 28 ≤ n.length := by
  rw [h.padded, ← h.entry hentry]
  exact le_roundUp _ (by decide)

/-- An entry is read as it is. -/
theorem IsNode.read {a b n : Bytes} (h : IsNode e n) (hentry : isDirent e n = true) :
    readDirent e (a ++ (n ++ b)) a.length = some (entryOf e n) := by
  have hfits := h.entry_fits hentry
  have hsize : (((a ++ (n ++ b)).drop (a.length + 28)).headD 0).toNat = word8 e n 28 := by
    rw [← List.drop_drop, List.drop_left, List.drop_append_of_le_length (by omega), word8, load,
      List.drop_eq_getElem_cons (by omega : 28 < n.length)]
    exact (get_single n[28]).symm
  have hroom : a.length + 40 + word8 e n 28 ≤ (a ++ (n ++ b)).length := by
    rw [List.length_append, List.length_append]
    omega
  rw [readDirent, hsize, if_pos hroom, word32_middle (by omega), word32_middle (by omega),
    word32_middle (by omega), load_middle n (by omega)]
  rfl

variable {c : Chip} {dir : CStr}

/-- A round of the scan over a node. -/
theorem parse_node {a b n : Bytes} (h : IsNode e n) (hlen : (a ++ (n ++ b)).length = c.erasesize)
    (hint : c.erasesize < 2 ^ 31) (fuel : Nat) (s : Scan) :
    mtdParseJffs2data e c dir (a ++ (n ++ b)) (fuel + 1) a.length s =
      mtdParseJffs2data e c dir (a ++ (n ++ b)) fuel (a ++ n).length
        ((entries e [n]).foldl (noteDirent dir) s) := by
  have hge := h.length_ge
  have hsum : (a ++ (n ++ b)).length = a.length + (n.length + b.length) := by
    rw [List.length_append, List.length_append]
  have hmagic : word16 e (a ++ (n ++ b)) a.length = jffs2MagicBitmask :=
    (@word16_middle e a b n 0 (by omega)).trans h.magic
  have hgo : ¬ (c.erasesize ≤ a.length ∨
      word16 e (a ++ (n ++ b)) a.length ≠ jffs2MagicBitmask) := by
    rintro (hend | hno)
    · omega
    · exact hno hmagic
  have hpad : padWord (word32 e n 4) = n.length := by
    have hsmall : (word32 e n 4).toNat + 3 < 2 ^ 32 := by
      have := le_roundUp (word32 e n 4).toNat (y := 4) (by decide)
      rw [← h.padded] at this
      omega
    rw [padWord, UInt32.toNat_add]
    change ((word32 e n 4).toNat + 3) % 2 ^ 32 / 4 * 4 = n.length
    rw [Nat.mod_eq_of_lt hsmall, h.padded]
    rfl
  have hnext : (a.length + padWord (word32 e (a ++ (n ++ b)) (a.length + 4))) % 2 ^ 32 =
      (a ++ n).length := by
    rw [word32_middle (by omega), hpad, List.length_append, Nat.mod_eq_of_lt (by omega)]
  rw [mtdParseJffs2data, if_neg hgo, if_neg (by omega), hnext, word16_middle (by omega)]
  dsimp only
  by_cases hentry : word16 e n 2 = jffs2NodetypeDirent
  · have hdir : isDirent e n = true := beq_iff_eq.mpr hentry
    rw [if_pos hentry, h.read hdir, entries, List.filter_cons_of_pos hdir]
    rfl
  · have hdir : ¬ isDirent e n = true := fun hdir => hentry (beq_iff_eq.mp hdir)
    rw [if_neg hentry, entries, List.filter_cons_of_neg hdir]
    rfl

theorem parse_nodes {a rest : Bytes} {ns : List Bytes} (hns : ∀ n ∈ ns, IsNode e n)
    (hrest : word16 e rest 0 ≠ jffs2MagicBitmask)
    (hlen : (a ++ (ns.flatten ++ rest)).length = c.erasesize) (hint : c.erasesize < 2 ^ 31)
    {fuel : Nat} (hfuel : ns.length < fuel) (s : Scan) :
    mtdParseJffs2data e c dir (a ++ (ns.flatten ++ rest)) fuel a.length s =
      some ((entries e ns).foldl (noteDirent dir) s) := by
  obtain ⟨fuel, rfl⟩ : ∃ f, fuel = f + 1 := ⟨fuel - 1, by omega⟩
  induction ns generalizing a fuel s with
  | nil =>
    have hend : word16 e (a ++ (([] : List Bytes).flatten ++ rest)) a.length ≠
        jffs2MagicBitmask := by
      rw [List.flatten_nil, List.nil_append, word16, load, List.drop_left]
      exact hrest
    rw [mtdParseJffs2data, if_pos (.inr hend)]
    rfl
  | cons n ns ih =>
    obtain ⟨hn, hns⟩ := List.forall_mem_cons.mp hns
    have hassoc : a ++ ((n :: ns).flatten ++ rest) = (a ++ n) ++ (ns.flatten ++ rest) := by
      rw [List.flatten_cons, List.append_assoc, List.append_assoc]
    have hfirst : a ++ ((n :: ns).flatten ++ rest) = a ++ (n ++ (ns.flatten ++ rest)) := by
      rw [List.flatten_cons, List.append_assoc]
    have hentries : entries e (n :: ns) = entries e [n] ++ entries e ns := by
      rw [entries, ← List.singleton_append, List.filter_append, List.map_append]
      rfl
    rw [List.length_cons] at hfuel
    obtain ⟨fuel, rfl⟩ : ∃ f, fuel = f + 1 := ⟨fuel - 1, by omega⟩
    rw [hfirst, parse_node hn (hfirst ▸ hlen) hint, ← hfirst, hassoc, hentries, List.foldl_append]
    exact ih hns (hassoc ▸ hlen) _ fuel (by omega)

/-- There are fewer nodes than bytes. -/
theorem length_nodes_le {ns : List Bytes} (h : ∀ n ∈ ns, IsNode e n) :
    ns.length ≤ ns.flatten.length := by
  induction ns with
  | nil => exact Nat.le_refl 0
  | cons n ns ih =>
    obtain ⟨hn, hns⟩ := List.forall_mem_cons.mp h
    have := ih hns
    have := hn.length_ge
    rw [List.length_cons, List.flatten_cons, List.length_append]
    omega

/-- The scan of a block notes its directory entries. -/
theorem parse_block (b : Block e c) (s : Scan) :
    mtdParseJffs2data e c dir b.bytes (c.erasesize + 1) 0 s =
      some ((entries e b.nodes).foldl (noteDirent dir) s) := by
  have hlen := b.length_eq
  have hle := length_nodes_le b.complete
  rw [List.length_append] at hlen
  exact parse_nodes (a := []) b.complete b.other b.length_eq b.int (by omega) s

end

/-! ## Entries that the append writes -/

section
variable {e : Endian}

theorem load_padded {n : Bytes} {off k : Nat} (h : off + k ≤ n.length) :
    load (padTo 4 n) off k = load n off k := by
  rw [padTo, load, List.drop_append_of_le_length (by omega),
    List.take_append_of_le_length (by rw [List.length_drop]; omega)]
  rfl

/-- A node that is written is one that is read. -/
theorem GoodNode.isNode {n : Bytes} (h : GoodNode e n) : IsNode e (padTo 4 n) := by
  have hsize := h.record.size_eq []
  rw [List.append_nil, nodeSize] at hsize
  by_cases hnode : word16 e n 0 = jffs2MagicBitmask ∧ 12 ≤ n.length
  swap
  · rw [if_neg hnode] at hsize
    cases hsize
  obtain ⟨hmagic, hheader⟩ := hnode
  have htotlen : (word32 e (padTo 4 n) 4).toNat = n.length := by
    rw [word32, load_padded (by omega), ← word32, h.ok.totlen]
  refine ⟨?_, htotlen ▸ hheader, ?_, fun hentry => ?_⟩
  · rw [word16, load_padded (by omega)]
    exact hmagic
  · rw [htotlen, length_padTo (by decide)]
  · have hdir : isDirent e n = true := by
      rwa [isDirent, word16, load_padded (by omega), ← word16, ← isDirent] at hentry
    have hlen := (h.ok.dirent hdir).1
    rw [htotlen, word8, load_padded (by omega), ← word8]
    exact hlen

/-- An entry that is written is read back. -/
theorem entries_written {name : Bytes} (hname : name.length < 256) {type : Nat} (ht : type < 256)
    (pino version ino : UInt32) :
    entries e [padTo 4 (rawDirent e name type pino version ino)] =
      [{ pino := pino, version := version, ino := ino, name := name }] := by
  have hview := rawDirent_view e hname ht pino version ino
  generalize rawDirent e name type pino version ino = n at hview ⊢
  have hlen := hview.length
  have hsize : word8 e n 28 = name.length := by
    have := (hview.good.ok.dirent hview.dirent).1
    omega
  have hdir : isDirent e (padTo 4 n) = true := by
    rw [isDirent, word16, load_padded (by omega)]
    exact hview.dirent
  have hino : word32 e n 20 = ino := by
    have := hview.ino
    rwa [inoOf, if_pos hview.dirent] at this
  have hsize' : word8 e (padTo 4 n) 28 = name.length := by
    rw [word8, load_padded (by omega)]
    exact hsize
  have hbytes : load n 40 name.length = name := by
    rw [load, hview.name, List.take_length]
  rw [entries, List.filter_cons_of_pos hdir, List.filter_nil, List.map_singleton, entryOf, hsize',
    word32, word32, word32, load_padded (by omega), load_padded (by omega), load_padded (by omega),
    load_padded (by omega), hbytes, ← word32, ← word32, ← word32, hview.pino, hview.version, hino]

end

/-! ## The inode of the directory -/

section
variable (dir : CStr)

/-- A directory entry in the root with exactly the wanted name. -/
def Names (de : Dirent) : Prop := de.pino = 1 ∧ de.name = dir.bytes

/-- An entry in the root whose name is only the beginning of the wanted one, or has it in front of
a zero byte. -/
def Resembles (de : Dirent) : Prop :=
  de.pino = 1 ∧ (de.name <+: dir.bytes ∧ de.name ≠ dir.bytes ∨ dir.stored <+: de.name)

instance decidableNames : DecidablePred (Names dir) := fun _ => inferInstanceAs (Decidable (_ ∧ _))

/-- The inode of the last entry with exactly the wanted name, 0 when there is none. -/
def lookupIno (seen : List Dirent) : UInt32 :=
  ((seen.filter (Names dir)).getLast?.map (·.ino)).getD 0

/-- Behind the last entry with the wanted name, none that resembles it comes last with another
inode. -/
def Unmistaken (seen : List Dirent) : Prop :=
  ∀ before de after, seen = before ++ de :: after → Resembles dir de →
    (∀ x ∈ after, ¬ Names dir x ∧ ¬ Resembles dir x) → de.ino = lookupIno dir before

end

section
variable {dir : CStr}

/-- The names that are taken for the wanted one. -/
theorem strncmpEq_iff {name bs : Bytes} (hbs : (0 : UInt8) ∉ bs) :
    strncmpEq name (bs ++ [0]) name.length = true ↔ name <+: bs ∨ bs ++ [0] <+: name := by
  induction name generalizing bs with
  | nil => exact iff_of_true rfl (.inl List.nil_prefix)
  | cons a l ih =>
    cases bs with
    | nil =>
      rw [List.nil_append, List.length_cons, strncmpEq_cons, List.cons_prefix_cons, List.prefix_nil]
      by_cases ha : a = 0
      · rw [if_neg (not_not.mpr ha), if_pos ha]
        exact iff_of_true rfl (.inr ⟨ha.symm, List.nil_prefix⟩)
      · rw [if_pos ha]
        refine iff_of_false Bool.false_ne_true ?_
        rintro (hnil | ⟨h0, -⟩)
        · cases hnil
        · exact ha h0.symm
    | cons b bs =>
      obtain ⟨hb, hbs⟩ := List.ne_and_not_mem_of_not_mem_cons hbs
      rw [List.cons_append, List.length_cons, strncmpEq_cons, List.cons_prefix_cons,
        List.cons_prefix_cons]
      by_cases hab : a = b
      · rw [if_neg (not_not.mpr hab), if_neg (hab ▸ Ne.symm hb), ih hbs]
        constructor
        · exact Or.imp (⟨hab, ·⟩) (⟨hab.symm, ·⟩)
        · exact Or.imp And.right And.right
      · rw [if_pos hab]
        refine iff_of_false Bool.false_ne_true ?_
        rintro (⟨heq, -⟩ | ⟨heq, -⟩)
        · exact hab heq
        · exact hab heq.symm

theorem taken_iff (hdir : dir.bytes ≠ []) (de : Dirent) :
    (dir.bytes ≠ [] ∧ de.pino = 1 ∧ strncmpEq de.name dir.stored de.name.length = true) ↔
      Names dir de ∨ Resembles dir de := by
  rw [and_iff_right hdir, CStr.stored, strncmpEq_iff dir.nulFree, Names, Resembles, ← and_or_left]
  refine and_congr_right fun _ => ?_
  rw [← or_assoc, CStr.stored]
  refine or_congr_left ?_
  constructor
  · intro h
    by_cases heq : de.name = dir.bytes
    · exact .inl heq
    · exact .inr ⟨h, heq⟩
  · rintro (heq | ⟨h, -⟩)
    · exact heq ▸ List.prefix_refl _
    · exact h

theorem Names.not_resembles {de : Dirent} (h : Names dir de) : ¬ Resembles dir de := by
  rintro ⟨-, ⟨-, hne⟩ | hprefix⟩
  · exact hne h.2
  · have := hprefix.length_le
    rw [h.2, CStr.stored, List.length_append, List.length_singleton] at this
    omega

theorem lookupIno_snoc (seen : List Dirent) (de : Dirent) :
    lookupIno dir (seen ++ [de]) = if Names dir de then de.ino else lookupIno dir seen := by
  rw [lookupIno, List.filter_append]
  split
  · next h =>
    have hkept : [de].filter (fun x => decide (Names dir x)) = [de] :=
      List.filter_cons_of_pos (decide_eq_true h)
    rw [hkept, List.getLast?_concat]
    rfl
  · next h =>
    have hnone : [de].filter (fun x => decide (Names dir x)) = [] :=
      List.filter_cons_of_neg fun ht => h (of_decide_eq_true ht)
    rw [hnone, List.append_nil]
    rfl

/-- What one more entry does to the condition. -/
theorem unmistaken_snoc (seen : List Dirent) (de : Dirent) :
    Unmistaken dir (seen ++ [de]) ↔
      (Resembles dir de → de.ino = lookupIno dir seen) ∧
        (¬ Names dir de → ¬ Resembles dir de → Unmistaken dir seen) := by
  constructor
  · intro h
    refine ⟨fun hde => h seen de [] rfl hde fun x hx => absurd hx List.not_mem_nil, ?_⟩
    intro hno hnot before x after hseen hx hafter
    refine h before x (after ++ [de]) (by rw [hseen, List.append_assoc, List.cons_append]) hx ?_
    intro y hy
    obtain hy | hy := List.mem_append.mp hy
    · exact hafter y hy
    · obtain rfl := List.mem_singleton.mp hy
      exact ⟨hno, hnot⟩
  · rintro ⟨hlast, hbefore⟩ before x after hseen hx hafter
    obtain rfl | ⟨after, y, rfl⟩ := List.eq_nil_or_concat after
    · obtain ⟨rfl, hxs⟩ := List.append_inj' hseen rfl
      obtain rfl := List.singleton_inj.mp hxs
      exact hlast hx
    · rw [List.concat_eq_append, ← List.cons_append, ← List.append_assoc] at hseen
      obtain ⟨hfront, hys⟩ := List.append_inj' hseen rfl
      obtain rfl := List.singleton_inj.mp hys
      rw [List.concat_eq_append] at hafter
      obtain ⟨hno, hnot⟩ := hafter de (List.mem_append_right _ List.mem_cons_self)
      exact hbefore hno hnot before x after hfront hx fun z hz =>
        hafter z (List.mem_append_left _ hz)

theorem targetIno_snoc (hdir : dir.bytes ≠ []) (seen : List Dirent) (de : Dirent)
    [Decidable (Names dir de ∨ Resembles dir de)] :
    targetIno dir (seen ++ [de]) =
      if Names dir de ∨ Resembles dir de then de.ino else targetIno dir seen := by
  rw [targetIno, List.foldl_append]
  exact if_congr (taken_iff hdir de) rfl rfl

/-- The inode that the scan keeps, entry by entry. -/
theorem targetIno_iff (hdir : dir.bytes ≠ []) (seen : List Dirent) :
    targetIno dir seen = lookupIno dir seen ↔ Unmistaken dir seen := by
  classical
  induction seen using List.reverseRecOn with
  | nil =>
    refine iff_of_true (if_neg hdir) fun before de after h => ?_
    cases before <;> cases h
  | append_singleton seen de ih =>
    rw [targetIno_snoc hdir, lookupIno_snoc, unmistaken_snoc]
    by_cases hnames : Names dir de
    · rw [if_pos (.inl hnames), if_pos hnames]
      exact iff_of_true rfl
        ⟨fun h => absurd h hnames.not_resembles, fun h => absurd hnames h⟩
    rw [if_neg hnames]
    by_cases hlike : Resembles dir de
    · rw [if_pos (.inr hlike)]
      exact ⟨fun h => ⟨fun _ => h, fun _ h => absurd hlike h⟩, fun h => h.1 hlike⟩
    · rw [if_neg (not_or.mpr ⟨hnames, hlike⟩), ih]
      exact ⟨fun h => ⟨fun h => absurd h hlike, fun _ _ => h⟩, fun h => h.2 hnames hlike⟩

end

/-! ## The scan of many blocks -/

section
variable (e : Endian) (c : Chip) (dir : CStr)

/-- `mtd_parse_jffs2data` for block after block. -/
def scanBlocks (bufs : List Bytes) (s : Scan) : Option Scan :=
  bufs.foldlM (fun s buf => mtdParseJffs2data e c dir buf (c.erasesize + 1) 0 s) s

end

section
variable {e : Endian} {c : Chip}

/-- The directory entries of blocks, in order. -/
def seenIn (blocks : List (Block e c)) : List Dirent := blocks.flatMap fun b => entries e b.nodes

theorem scanBlocks_eq (dir : CStr) (blocks : List (Block e c)) (s : Scan) :
    scanBlocks e c dir (blocks.map Block.bytes) s =
      some ((seenIn blocks).foldl (noteDirent dir) s) := by
  induction blocks generalizing s with
  | nil => rfl
  | cons b blocks ih =>
    rw [scanBlocks, List.map_cons, List.foldlM_cons, parse_block b, seenIn, List.flatMap_cons,
      List.foldl_append]
    exact ih _

end

/-- **When the directory is found.** -/
theorem lookup_iff {e : Endian} {c : Chip} (blocks : List (Block e c)) (dir : CStr)
    (hdir : dir.bytes ≠ []) :
    ∃ s, scanBlocks e c dir (blocks.map Block.bytes) (startScan dir) = some s ∧
      (s.target_ino = lookupIno dir (seenIn blocks) ↔ Unmistaken dir (seenIn blocks)) := by
  refine ⟨_, scanBlocks_eq dir blocks (startScan dir), ?_⟩
  rw [target_note]
  exact targetIno_iff hdir (seenIn blocks)

/-! ## A directory `root` -/

/-- An entry for the directory `root` with the inode 2. -/
def rootNode : Bytes := rawDirent .little (ascii "root") dtDir 1 1 2

theorem rootNode_view : DirentView .little (ascii "root") dtDir 1 1 2 rootNode :=
  rawDirent_view .little (by decide) (by decide) 1 1 2

theorem rootNode_complete : ∀ n ∈ [padTo 4 rootNode], IsNode .little n := by
  intro n hn
  obtain rfl := List.mem_singleton.mp hn
  exact rootNode_view.good.isNode

theorem erased_other : word16 .little (List.replicate 4052 0xff) 0 ≠ jffs2MagicBitmask := by
  decide

theorem rootBlock_length :
    ([padTo 4 rootNode].flatten ++ List.replicate 4052 (0xff : UInt8)).length =
      smallChip.erasesize := by
  rw [List.flatten_singleton, List.length_append, length_padTo (by decide), rootNode_view.length,
    List.length_replicate]
  decide

theorem smallChip_aligned : 4 ∣ smallChip.erasesize := by decide

theorem smallChip_int : smallChip.erasesize < 2 ^ 31 := by decide

def rootBlock : Block .little smallChip where
  nodes := [padTo 4 rootNode]
  rest := List.replicate 4052 0xff
  complete := rootNode_complete
  other := erased_other
  length_eq := rootBlock_length
  aligned := smallChip_aligned
  int := smallChip_int

theorem seenIn_rootBlock : seenIn [rootBlock] =
    [{ pino := 1, version := 1, ino := 2, name := ascii "root" }] := by
  rw [seenIn, List.flatMap_singleton]
  exact entries_written (by decide : (ascii "root").length < 256) (by decide : dtDir < 256) 1 1 2

theorem root_nulFree : 0 ∉ ascii "root" := by decide

theorem rootfs_nulFree : 0 ∉ ascii "rootfs" := by decide

/-- The directory itself is found. -/
theorem lookup_iff_root :
    ∃ s, scanBlocks .little smallChip ⟨ascii "root", root_nulFree⟩
        ([rootBlock].map Block.bytes) (startScan ⟨ascii "root", root_nulFree⟩) = some s ∧
      (s.target_ino = lookupIno ⟨ascii "root", root_nulFree⟩ (seenIn [rootBlock]) ↔
        Unmistaken ⟨ascii "root", root_nulFree⟩ (seenIn [rootBlock])) :=
  lookup_iff [rootBlock] ⟨ascii "root", root_nulFree⟩ (by decide)

/-- It is also taken for `rootfs`. -/
theorem not_lookup : ¬ ∀ (e : Endian) (c : Chip) (blocks : List (Block e c)) (dir : CStr),
    dir.bytes ≠ [] →
      ∃ s, scanBlocks e c dir (blocks.map Block.bytes) (startScan dir) = some s ∧
        s.target_ino = lookupIno dir (seenIn blocks) := by
  intro h
  obtain ⟨s, hscan, htarget⟩ :=
    h .little smallChip [rootBlock] ⟨ascii "rootfs", rootfs_nulFree⟩ (by decide)
  rw [scanBlocks_eq] at hscan
  obtain rfl := Option.some.inj hscan
  rw [seenIn_rootBlock] at htarget
  revert htarget
  decide

end UolaOs.Mtd
