import UolaOs.Mtd.Jffs2

/-!
# jffs2 nodes

* `nodeSize` and `NodeOk`: what a node is, read from its bytes;
* `dirent_view` and `inode_view`: the members of the nodes that are written;
* `GoodNode`: a node that is found again in a block and whose checksums are right.
-/

namespace UolaOs.Mtd

section
variable (e : Endian)

/-- `totlen` of the node an area starts with. -/
def nodeSize (m : Bytes) : Option Nat :=
  if word16 e m 0 = jffs2MagicBitmask ∧ 12 ≤ m.length then some (word32 e m 4).toNat else none

def word8 (buf : Bytes) (off : Nat) : Nat := e.get (load buf off 1)

/-- The checksum of `bs` computed bit by bit. -/
def checksum (bs : Bytes) : UInt32 := UInt32.ofBitVec (remainder 0 bs)

def isDirent (n : Bytes) : Bool := word16 e n 2 == jffs2NodetypeDirent

def isInode (n : Bytes) : Bool := word16 e n 2 == jffs2NodetypeInode

/-- The inode number a node is about. -/
def inoOf (n : Bytes) : UInt32 := if isDirent e n then word32 e n 20 else word32 e n 12

/-- A complete node with right checksums. -/
structure NodeOk (n : Bytes) : Prop where
  totlen : (word32 e n 4).toNat = n.length
  hdr_crc : word32 e n 8 = checksum (n.take 8)
  nodetype : isDirent e n ∨ isInode e n ∨ n = cleanmarker e
  dirent : isDirent e n → n.length = 40 + word8 e n 28 ∧
    word32 e n 32 = checksum (n.take 32) ∧ word32 e n 36 = checksum (n.drop 40)
  inode : isInode e n → n.length = 68 + (word32 e n 48).toNat ∧
    word32 e n 52 = word32 e n 48 ∧
    word32 e n 60 = checksum (n.drop 68) ∧ word32 e n 64 = checksum (n.take 60)

structure GoodNode (n : Bytes) : Prop where
  ok : NodeOk e n
  record : IsRecord (nodeSize e) n

end

theorem crc32_eq_checksum (bs : Bytes) : crc32 0 bs = checksum bs := by
  apply UInt32.toBitVec_inj.mp
  rw [crc32_eq_remainder]
  rfl

section
variable (e : Endian)

section
variable {fields : List (Nat × Nat)} {widths : List Nat}

theorem word8_field (hw : fields.map Prod.fst = widths) (rest : Bytes) (i : Nat) {v : Nat}
    (h : fields[i]? = some (1, v)) (hv : v < 256) :
    word8 e (e.putAll fields ++ rest) (widths.take i).sum = v :=
  (e.get_field fields hw h rest).trans (Nat.mod_eq_of_lt hv)

theorem word16_field (hw : fields.map Prod.fst = widths) (rest : Bytes) (i : Nat) {v : Nat}
    (h : fields[i]? = some (2, v)) (hv : v < 2 ^ 16) :
    word16 e (e.putAll fields ++ rest) (widths.take i).sum = v :=
  (e.get_field fields hw h rest).trans (Nat.mod_eq_of_lt hv)

theorem word32_field (hw : fields.map Prod.fst = widths) (rest : Bytes) (i : Nat) {v : UInt32}
    (h : fields[i]? = some (4, v.toNat)) :
    word32 e (e.putAll fields ++ rest) (widths.take i).sum = v := by
  rw [word32, e.get_field fields hw h rest, Nat.mod_eq_of_lt (show _ < 256 ^ 4 from v.toNat_lt),
    UInt32.ofNat_toNat]

end

/-- The fields every node starts with. -/
def startFields (nodetype totlen : Nat) : List (Nat × Nat) :=
  headerFields nodetype totlen ++ [(4, (hdrCrc e nodetype totlen).toNat)]

section
variable {nodetype totlen : Nat} {more : List (Nat × Nat)} {data : Bytes}

theorem widths_start : (startFields e nodetype totlen ++ more).map Prod.fst =
    2 :: 2 :: 4 :: 4 :: more.map Prod.fst := rfl

theorem magic_start : word16 e (e.putAll (startFields e nodetype totlen ++ more) ++ data) 0 =
    jffs2MagicBitmask :=
  word16_field e (widths_start e) data 0 rfl (by decide)

theorem nodetype_start (ht : nodetype < 2 ^ 16) :
    word16 e (e.putAll (startFields e nodetype totlen ++ more) ++ data) 2 = nodetype :=
  word16_field e (widths_start e) data 1 rfl ht

theorem totlen_start (ht : totlen < 2 ^ 32) :
    word32 e (e.putAll (startFields e nodetype totlen ++ more) ++ data) 4 = UInt32.ofNat totlen := by
  refine word32_field e (widths_start e) data 2 ?_
  rw [UInt32.toNat_ofNat_of_lt' ht]
  rfl

theorem hdr_crc_start :
    word32 e (e.putAll (startFields e nodetype totlen ++ more) ++ data) 8 =
      checksum ((e.putAll (startFields e nodetype totlen ++ more) ++ data).take 8) := by
  have htake : (e.putAll (startFields e nodetype totlen ++ more) ++ data).take 8 =
      e.putAll (headerFields nodetype totlen) :=
    e.take_putAll (headerFields nodetype totlen) ((4, (hdrCrc e nodetype totlen).toNat) :: more) data
  rw [htake, ← crc32_eq_checksum]
  exact word32_field e (widths_start e) data 3 rfl

theorem record_start (hlen : (e.putAll (startFields e nodetype totlen ++ more) ++ data).length =
    totlen) (hlt : totlen < 2 ^ 32) :
    IsRecord (nodeSize e) (e.putAll (startFields e nodetype totlen ++ more) ++ data) := by
  constructor
  · cases e
    · exact ⟨0x85, _, rfl, by decide⟩
    · exact ⟨0x19, _, rfl, by decide⟩
  · intro rest
    have hle : 12 ≤ totlen := by
      rw [← hlen]
      simp [startFields, headerFields]
      omega
    rw [List.append_assoc, nodeSize, magic_start, totlen_start e hlt,
      UInt32.toNat_ofNat_of_lt' hlt, ← List.append_assoc, List.length_append, hlen,
      if_pos ⟨rfl, by omega⟩]

end

/-! ## Directory entries -/

/-- The fields of a directory entry. -/
def direntAll (name : Bytes) (type : Nat) (pino version ino : UInt32) : List (Nat × Nat) :=
  let fields := direntFields e name.length type pino version ino
  fields ++ [(4, (crc32 0 (e.putAll fields)).toNat), (4, (crc32 0 name).toNat)]

theorem rawDirent_eq {name : Bytes} (hn : name.length < 256) (type : Nat)
    (pino version ino : UInt32) :
    rawDirent e name type pino version ino =
      e.putAll (direntAll e name type pino version ino) ++ name := by
  rw [rawDirent, Nat.mod_eq_of_lt hn, List.take_length]
  rfl

theorem widths_direntAll (name : Bytes) (type : Nat) (pino version ino : UInt32) :
    (direntAll e name type pino version ino).map Prod.fst =
      [2, 2, 4, 4, 4, 4, 4, 4, 1, 1, 2, 4, 4] := rfl

theorem width_direntAll (name : Bytes) (type : Nat) (pino version ino : UInt32) :
    width (direntAll e name type pino version ino) = 40 := by
  rw [width, widths_direntAll]
  rfl

/-- What a directory entry says. -/
structure DirentView (name : Bytes) (type : Nat) (pino version ino : UInt32) (n : Bytes) :
    Prop where
  length : n.length = 40 + name.length
  good : GoodNode e n
  dirent : isDirent e n
  inode : ¬ isInode e n
  pino : word32 e n 12 = pino
  version : word32 e n 16 = version
  ino : inoOf e n = ino
  type : word8 e n 29 = type
  name : n.drop 40 = name

theorem rawDirent_view {name : Bytes} (hn : name.length < 256) {type : Nat} (ht : type < 256)
    (pino version ino : UInt32) :
    DirentView e name type pino version ino (rawDirent e name type pino version ino) := by
  rw [rawDirent_eq e hn]
  generalize hn' : e.putAll (direntAll e name type pino version ino) ++ name = n
  have field32 (i : Nat) {v : UInt32}
      (h : (direntAll e name type pino version ino)[i]? = some (4, v.toNat)) :
      word32 e n ([2, 2, 4, 4, 4, 4, 4, 4, 1, 1, 2, 4, 4].take i).sum = v :=
    hn' ▸ word32_field e (widths_direntAll ..) name i h
  have hlen : n.length = 40 + name.length := by
    rw [← hn', List.length_append, e.length_putAll, width_direntAll]
  have htype : word16 e n 2 = jffs2NodetypeDirent :=
    hn' ▸ nodetype_start e (by decide : jffs2NodetypeDirent < 2 ^ 16)
  have hdir : isDirent e n := by
    rw [isDirent, htype]
    rfl
  have hino : ¬ isInode e n := by
    rw [isInode, htype]
    decide
  have htot : (word32 e n 4).toNat = n.length := by
    have ht32 : 40 + name.length < 2 ^ 32 := by omega
    have : word32 e n 4 = UInt32.ofNat (40 + name.length) := hn' ▸ totlen_start e ht32
    rw [this, hlen, UInt32.toNat_ofNat_of_lt' ht32]
  have hdrop : n.drop 40 = name := by
    rw [← hn']
    exact List.drop_left' (by rw [e.length_putAll, width_direntAll])
  have hcrc : word32 e n 32 = checksum (n.take 32) := by
    have htake : n.take 32 = e.putAll (direntFields e name.length type pino version ino) := by
      rw [← hn']
      exact e.take_putAll (direntFields e name.length type pino version ino) _ name
    rw [htake, ← crc32_eq_checksum]
    exact field32 11 rfl
  have hname : word32 e n 36 = checksum (n.drop 40) := by
    rw [hdrop, ← crc32_eq_checksum]
    exact field32 12 rfl
  have hsize : n.length = 40 + word8 e n 28 := by
    have : word8 e n 28 = name.length := hn' ▸ word8_field e (widths_direntAll ..) name 8 rfl hn
    rw [hlen, this]
  exact
    { length := hlen
      good :=
        { ok :=
            { totlen := htot
              hdr_crc := hn' ▸ hdr_crc_start e
              nodetype := Or.inl hdir
              dirent := fun _ => ⟨hsize, hcrc, hname⟩
              inode := fun h => absurd h hino }
          record := hn' ▸ record_start e (hn' ▸ hlen) (by omega) }
      dirent := hdir
      inode := hino
      pino := field32 4 rfl
      version := field32 5 rfl
      ino := by
        rw [inoOf, if_pos hdir]
        exact field32 6 rfl
      type := hn' ▸ word8_field e (widths_direntAll ..) name 9 rfl ht
      name := hdrop }

/-! ## Inodes -/

/-- The fields of an inode. -/
def inodeAll (ri : RawInode) (dataCrc : UInt32) : List (Nat × Nat) :=
  inodeFields e ri ++ [(4, dataCrc.toNat), (4, (crc32 0 (e.putAll (inodeFields e ri))).toNat)]

theorem widths_inodeAll (ri : RawInode) (dataCrc : UInt32) :
    (inodeAll e ri dataCrc).map Prod.fst =
      [2, 2, 4, 4, 4, 4, 4, 2, 2, 4, 4, 4, 4, 4, 4, 4, 1, 1, 2, 4, 4] := rfl

theorem width_inodeAll (ri : RawInode) (dataCrc : UInt32) :
    width (inodeAll e ri dataCrc) = 68 := by
  rw [width, widths_inodeAll]
  rfl

theorem width_inodeFields (ri : RawInode) : width (inodeFields e ri) = 60 := by
  have := width_inodeAll e ri 0
  rw [inodeAll, width, List.map_append, List.sum_append, ← width] at this
  exact Nat.add_right_cancel (m := 8) this

/-- What an inode says. -/
structure InodeView (ri : RawInode) (data n : Bytes) : Prop where
  length : n.length = 68 + data.length
  good : GoodNode e n
  dirent : ¬ isDirent e n
  inode : isInode e n
  ino : inoOf e n = ri.ino
  version : word32 e n 16 = ri.version
  offset : word32 e n 44 = ri.offset
  data : n.drop 68 = data

theorem rawInode_view {ri : RawInode} {data : Bytes} (hd : 68 + data.length < 2 ^ 32)
    (htot : ri.totlen = UInt32.ofNat (68 + data.length))
    (hc : ri.csize = UInt32.ofNat data.length) (hds : ri.dsize = UInt32.ofNat data.length) :
    InodeView e ri data (rawInode e ri (crc32 0 data) ++ data) := by
  have htoNat : ri.totlen.toNat = 68 + data.length := by
    rw [htot, UInt32.toNat_ofNat_of_lt' hd]
  generalize hn' : rawInode e ri (crc32 0 data) ++ data = n
  replace hn' : e.putAll (inodeAll e ri (crc32 0 data)) ++ data = n := hn'
  have field32 (i : Nat) {v : UInt32}
      (h : (inodeAll e ri (crc32 0 data))[i]? = some (4, v.toNat)) :
      word32 e n ([2, 2, 4, 4, 4, 4, 4, 2, 2, 4, 4, 4, 4, 4, 4, 4, 1, 1, 2, 4, 4].take i).sum = v :=
    hn' ▸ word32_field e (widths_inodeAll ..) data i h
  have hlen : n.length = 68 + data.length := by
    rw [← hn', List.length_append, e.length_putAll, width_inodeAll]
  have htype : word16 e n 2 = jffs2NodetypeInode :=
    hn' ▸ nodetype_start e (by decide : jffs2NodetypeInode < 2 ^ 16)
  have hdir : ¬ isDirent e n := by
    rw [isDirent, htype]
    decide
  have hino : isInode e n := by
    rw [isInode, htype]
    rfl
  have hdrop : n.drop 68 = data := by
    rw [← hn']
    exact List.drop_left' (by rw [e.length_putAll, width_inodeAll])
  have hdata : word32 e n 60 = checksum (n.drop 68) := by
    rw [hdrop, ← crc32_eq_checksum]
    exact field32 19 rfl
  have hnode : word32 e n 64 = checksum (n.take 60) := by
    have htake : n.take 60 = e.putAll (inodeFields e ri) := by
      rw [← hn', ← width_inodeFields e ri]
      exact e.take_putAll (inodeFields e ri) _ data
    rw [htake, ← crc32_eq_checksum]
    exact field32 20 rfl
  have hcsize : word32 e n 48 = ri.csize := field32 14 rfl
  have hdsize : word32 e n 52 = ri.csize := (field32 15 rfl).trans (hds.trans hc.symm)
  have hsize : n.length = 68 + (word32 e n 48).toNat := by
    have : data.length < 2 ^ 32 := by omega
    rw [hcsize, hc, hlen, UInt32.toNat_ofNat_of_lt' this]
  have htotlen : word32 e n 4 = ri.totlen := field32 2 rfl
  exact
    { length := hlen
      good :=
        { ok :=
            { totlen := by rw [htotlen, htoNat, hlen]
              hdr_crc := hn' ▸ hdr_crc_start e
              nodetype := Or.inr (Or.inl hino)
              dirent := fun h => absurd h hdir
              inode := fun _ => ⟨hsize, hdsize.trans hcsize.symm, hdata, hnode⟩ }
          record := hn' ▸ record_start e (hn' ▸ hlen.trans htoNat.symm) (by omega) }
      dirent := hdir
      inode := hino
      ino := by
        rw [inoOf, if_neg hdir]
        exact field32 4 rfl
      version := field32 5 rfl
      offset := field32 13 rfl
      data := hdrop }

/-! ## The clean marker -/

@[simp] theorem length_cleanmarker : (cleanmarker e).length = 12 := by
  cases e <;> rfl

theorem cleanmarker_dirent : ¬ isDirent e (cleanmarker e) := by
  cases e <;> decide

theorem cleanmarker_inode : ¬ isInode e (cleanmarker e) := by
  cases e <;> decide

/-- The constant bytes of the marker carry the checksum of its header. -/
theorem cleanmarker_good : GoodNode e (cleanmarker e) := by
  have hcrc : word32 e (cleanmarker e) 8 = crc32 0 ((cleanmarker e).take 8) := by
    cases e <;> decide
  constructor
  · exact
      { totlen := by cases e <;> rfl
        hdr_crc := hcrc.trans (crc32_eq_checksum _)
        nodetype := Or.inr (Or.inr rfl)
        dirent := fun h => absurd h (cleanmarker_dirent e)
        inode := fun h => absurd h (cleanmarker_inode e) }
  · constructor
    · cases e
      · exact ⟨0x85, _, rfl, by decide⟩
      · exact ⟨0x19, _, rfl, by decide⟩
    · intro rest
      have hm : word16 e (cleanmarker e ++ rest) 0 = jffs2MagicBitmask := by cases e <;> rfl
      have ht : word32 e (cleanmarker e ++ rest) 4 = 12 := by cases e <;> rfl
      rw [nodeSize, hm, ht, length_cleanmarker, List.length_append, length_cleanmarker,
        if_pos ⟨rfl, by omega⟩]
      rfl

end

end UolaOs.Mtd
