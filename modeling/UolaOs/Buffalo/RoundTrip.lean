import UolaOs.Buffalo.Enc

/-!
# What decryption gives back

* `encLayout_eq`: the buffer has the data behind the space for the header, with and without a
  tail;
* `encryptFile_eq`: the file that is written;
* `roundTrips`: decryption takes it apart again.
-/

namespace UolaOs.Buffalo

/-! ## The cipher in place -/

section
variable {seed : UInt8} {key : CStr} {longstate : Bool}

/-- The text of a part under its seed. -/
def bcrypt (seed : UInt8) (key : CStr) (longstate : Bool) (bs : Bytes) : Bytes :=
  crypt BcryptCtx.next (bcryptStart seed key bs.length longstate) bs

@[simp] theorem length_bcrypt (bs : Bytes) : (bcrypt seed key longstate bs).length = bs.length :=
  length_crypt _ _ _

theorem bcrypt_bcrypt (bs : Bytes) :
    bcrypt seed key longstate (bcrypt seed key longstate bs) = bs := by
  rw [bcrypt, length_bcrypt]
  exact crypt_crypt _ _ bs

theorem bcryptBuf_front {a : Bytes} {n : Nat} (hn : a.length = n) (b : Bytes) :
    bcryptBuf seed key (a ++ b) 0 0 n longstate = bcrypt seed key longstate a ++ b := by
  subst hn
  rw [bcryptBuf, cryptAt_eq _ _ (Nat.le_refl _) (by rw [List.length_append]; omega), load_zero]
  exact poke_zero (length_bcrypt a)

theorem bcryptBuf_all {a : Bytes} {n : Nat} (hn : a.length = n) :
    bcryptBuf seed key a 0 0 n longstate = bcrypt seed key longstate a := by
  have h : bcryptBuf seed key (a ++ []) 0 0 n longstate = bcrypt seed key longstate a ++ [] :=
    bcryptBuf_front hn []
  rwa [List.append_nil, List.append_nil] at h

/-- A copy at the front of a field is decrypted there. -/
theorem bcryptBuf_field {bs : Bytes} {n size : Nat} (hn : bs.length = n) (hsize : n ≤ size) :
    bcryptBuf seed key (poke (List.replicate size 0) 0 (bcrypt seed key longstate bs)) 0 0 n
        longstate = bs ++ List.replicate (size - n) 0 := by
  have hsplit : List.replicate size (0 : UInt8) =
      List.replicate n 0 ++ List.replicate (size - n) 0 := by
    rw [List.replicate_append_replicate, Nat.add_sub_cancel' hsize]
  rw [hsplit, poke_zero (by rw [length_bcrypt, List.length_replicate, hn]),
    bcryptBuf_front (by rw [length_bcrypt, hn]), bcrypt_bcrypt]

end

/-! ## Encryption -/

section
variable {o : Params} {heap : Nat → UInt8} {data tail : Bytes}

theorem encProduct_eq : encProduct o = bcrypt o.seed o.key o.longstate o.product.stored :=
  bcryptBuf_all (CStr.length_stored _)

theorem encVersion_eq :
    encVersion o = bcrypt ((encProduct o).getD 0 0) o.key o.longstate o.version.stored :=
  bcryptBuf_all (CStr.length_stored _)

theorem length_encProduct : (encProduct o).length = o.product.length + 1 := by
  rw [encProduct_eq, length_bcrypt, CStr.length_stored]

theorem length_encVersion : (encVersion o).length = o.version.length + 1 := by
  rw [encVersion_eq, length_bcrypt, CStr.length_stored]

theorem length_be32 (n : Nat) : (be32 n).length = 4 := Endian.length_put _ _ _

theorem length_encHeader (datalen : UInt32) :
    (encHeader o datalen).length = encComputeHeaderLen o.product o.version := by
  simp only [encHeader, List.length_append, CStr.length_stored, o.magic_length, length_be32,
    length_encProduct, length_encVersion, List.length_singleton, encComputeHeaderLen, encMagicLen]
  omega

theorem encComputeBufLen_le (product version : CStr) (n : Nat) :
    encComputeHeaderLen product version + n + 4 ≤ encComputeBufLen product version n :=
  Nat.le_add_right _ _

/-- The data stands behind the space for the header, before space for the checksum. -/
theorem encLayout_eq (heap : Nat → UInt8)
    (hs : o.size = 0 ∧ tail = [] ∨ o.size ≠ 0 ∧ o.size = data.length) :
    ∃ pre rest, encLayout o heap (data ++ tail) = (pre ++ (data ++ rest), data.length) ∧
      pre.length = encComputeHeaderLen o.product o.version ∧ 4 ≤ rest.length := by
  have hroom := encComputeBufLen_le o.product o.version data.length
  have hsplit {buf : Bytes} (hlen : encComputeBufLen o.product o.version data.length ≤ buf.length)
      (hdata : load buf (encComputeHeaderLen o.product o.version) data.length = data) :
      ∃ pre rest, (buf, data.length) = (pre ++ (data ++ rest), data.length) ∧
        pre.length = encComputeHeaderLen o.product o.version ∧ 4 ≤ rest.length := by
    have hbuf := split_load buf (encComputeHeaderLen o.product o.version) data.length
    rw [hdata] at hbuf
    refine ⟨_, _, Prod.ext hbuf rfl, List.length_take_of_le (by omega), ?_⟩
    rw [List.length_drop]
    omega
  rw [encLayout]
  rcases hs with ⟨h0, rfl⟩ | ⟨h0, hsize⟩
  · rw [List.append_nil, if_neg (not_not.mpr h0)]
    refine hsplit ?_ ?_
    · simp
    · rw [load_poke (by simp; omega) (Nat.le_refl _), List.take_length]
  · rw [if_pos h0, hsize]
    refine hsplit ?_ ?_
    · simp
    · rw [load_eq_of_take ((take_poke_of_le (Nat.le_refl _) ?_).trans
        (take_poke_of_le (by omega) ?_)), load_poke ?_ (by simp), List.take_left]
      all_goals simp [load]
      all_goals omega

/-- The file that is written. -/
theorem encryptFile_eq (heap : Nat → UInt8) (hd : data ≠ []) (hlt : data.length < 2 ^ 32)
    (hs : o.size = 0 ∧ tail = [] ∨ o.size ≠ 0 ∧ o.size = data.length) :
    ∃ rest, encryptFile o heap (data ++ tail) =
      some (encHeader o (UInt32.ofNat data.length) ++
        (bcrypt ((encVersion o).getD 0 0) o.key o.longstate data ++
          (be32 (buffaloCsum (UInt32.ofNat data.length) data).toNat ++ rest))) := by
  obtain ⟨pre, rest, hlayout, hpre, hrest⟩ := encLayout_eq heap hs
  have hfile : ¬ (data ++ tail = [] ∨ (data ++ tail).length < o.size) := by
    rintro (h | h)
    · exact hd (List.append_eq_nil_iff.mp h).1
    · rw [List.length_append] at h
      omega
  have hlen : (UInt32.ofNat data.length).toNat = data.length := UInt32.toNat_ofNat_of_lt' hlt
  have hcsum (csum : UInt32) : encData o (UInt32.ofNat data.length) csum (data ++ rest) =
      bcrypt ((encVersion o).getD 0 0) o.key o.longstate data ++
        (be32 csum.toNat ++ rest.drop 4) := by
    rw [encData, hlen, bcryptBuf_front rfl,
      poke_append (length_bcrypt _) (by rw [length_be32]; exact hrest), length_be32]
  have hlong {hdr new old : Bytes} (hhdr : hdr.length = pre.length)
      (hnew : new.length = old.length) :
      poke (poke (pre ++ old) pre.length new) 0 hdr = hdr ++ new := by
    rw [poke_append rfl (Nat.le_of_eq hnew), hnew, List.drop_length, List.append_nil,
      poke_zero hhdr]
  refine ⟨rest.drop 4, ?_⟩
  rw [encryptFile, if_neg hfile, hlayout]
  dsimp only
  rw [load_append_right hpre, List.take_left, ← hpre, List.drop_left, hcsum,
    hlong (by rw [length_encHeader, hpre])]
  simp only [List.length_append, length_bcrypt, length_be32, List.length_drop]
  omega

/-! ## Decryption -/

/-- A part that stands next, and what stands behind it. -/
theorem field_next {m x b : Bytes} {p q len : Nat} (h : m.drop p = x ++ b) (hx : x.length = len)
    (hq : p + len = q) : field m p len = some x ∧ m.drop q = b := by
  subst hx hq
  have hlen := congrArg List.length h
  rw [List.length_drop, List.length_append] at hlen
  refine ⟨?_, ?_⟩
  · rw [field, if_neg (by omega), load, h, List.take_left]
  · rw [← List.drop_drop, h, List.drop_left]

theorem getBe32_be32 {n : Nat} (h : n < 2 ^ 32) : getBe32 (be32 n) = n :=
  Endian.get_put_of_lt .big h

theorem getD_poke_zero {bs : Bytes} {size : Nat} (h : bs ≠ []) (hsize : bs.length ≤ size) :
    (poke (List.replicate size 0) 0 bs).getD 0 0 = bs.getD 0 0 := by
  cases bs with
  | nil => exact absurd rfl h
  | cons b bs =>
    rw [poke_eq_append (by rw [List.length_replicate]; omega)]
    rfl

/-- What lies behind the decrypted data is as it was. -/
theorem field_poke_zero {m bs : Bytes} {p len : Nat} (hp : bs.length ≤ p)
    (hm : bs.length ≤ m.length) : field (poke m 0 bs) p len = field m p len := by
  have hload : load (poke m 0 bs) p len = load m p len := by
    obtain ⟨k, rfl⟩ := Nat.exists_eq_add_of_le hp
    rw [poke_eq_append (by omega), List.take_zero, List.nil_append, Nat.zero_add, load, load,
      ← List.drop_drop, List.drop_left, List.drop_drop]
  rw [field, field, hload, length_poke]

section
variable {key : CStr} {longstate : Bool} {magic product version data : Bytes}
  {seed s t : UInt8} {csum : UInt32}

/-- What `decrypt_buf` gives for the parts of a file. -/
theorem decryptBuf_eq (rest : Bytes) (hmagic : magic = magicStart ∨ magic = magicAsar1)
    (hp : product.length ≤ encProductLen) (hv : version.length ≤ encVersionLen)
    (hlt : data.length < 2 ^ 32) (hp0 : product ≠ []) (hv0 : version ≠ [])
    (hs : (bcrypt seed key longstate product).getD 0 0 = s)
    (ht : (bcrypt s key longstate version).getD 0 0 = t)
    (hcsum : buffaloCsum (UInt32.ofNat data.length) data = csum) :
    ∃ m, decryptBuf key longstate
      (magic ++ ([seed] ++ (be32 product.length ++ (bcrypt seed key longstate product ++
        (be32 version.length ++ (bcrypt s key longstate version ++ (be32 data.length ++
          (bcrypt t key longstate data ++ (be32 csum.toNat ++ rest))))))))) =
      some
        ({ magic := magic
           product := product ++ List.replicate (encProductLen - product.length) 0
           version := version ++ List.replicate (encVersionLen - version.length) 0
           seed := seed
           datalen := UInt32.ofNat data.length
           csum := csum }, m) ∧ load m 0 data.length = data := by
  have hlm : magic.length = 6 := by rcases hmagic with rfl | rfl <;> rfl
  have hp32 : product.length < 2 ^ 32 := Nat.lt_of_le_of_lt hp (by decide)
  have hv32 : version.length < 2 ^ 32 := Nat.lt_of_le_of_lt hv (by decide)
  generalize hP : bcrypt seed key longstate product = P at hs
  generalize hV : bcrypt s key longstate version = V at ht
  generalize hD : bcrypt t key longstate data = D
  have hlP : P.length = product.length := by rw [← hP, length_bcrypt]
  have hlV : V.length = version.length := by rw [← hV, length_bcrypt]
  have hlD : D.length = data.length := by rw [← hD, length_bcrypt]
  generalize hm : magic ++ ([seed] ++ (be32 product.length ++ (P ++ (be32 version.length ++
    (V ++ (be32 data.length ++ (D ++ (be32 csum.toNat ++ rest)))))))) = m
  obtain ⟨h0, hm⟩ := field_next (p := 0) (q := 6) hm.symm hlm rfl
  obtain ⟨h6, hm⟩ := field_next (q := 7) hm (List.length_singleton (a := seed)) rfl
  obtain ⟨h7, hm⟩ := field_next (q := 11) hm (length_be32 _) rfl
  obtain ⟨h11, hm⟩ := field_next hm hlP rfl
  obtain ⟨hver, hm⟩ := field_next (q := 15 + product.length) hm (length_be32 _) (by omega)
  obtain ⟨h15, hm⟩ := field_next hm hlV rfl
  obtain ⟨hdl, hm⟩ :=
    field_next (q := 19 + product.length + version.length) hm (length_be32 _) (by omega)
  obtain ⟨h19, hm⟩ := field_next hm hlD rfl
  obtain ⟨hcs, -⟩ := field_next hm (length_be32 _) rfl
  have hload := Option.ite_none_left_eq_some.mp h19
  have hin : 19 + product.length + version.length + data.length ≤ m.length := by
    have hlen := congrArg List.length hm
    rw [List.length_drop, List.length_append, length_be32] at hlen
    omega
  -- the data is decrypted to the front of the buffer, over the header
  have hplain : bcryptBuf t key m (19 + product.length + version.length) 0 data.length longstate =
      poke m 0 data := by
    have hcrypt : bcrypt t key longstate (bcrypt t key longstate data) = data :=
      bcrypt_bcrypt data
    rw [hD, bcrypt, hlD] at hcrypt
    rw [bcryptBuf, cryptAt_eq _ _ (Nat.zero_le _) hin, Option.some.inj hload.2, hcrypt]
  have hdata : load (poke m 0 data) 0 data.length = data := by
    rw [load_poke (by omega) (Nat.le_refl _), List.take_length]
  have hprod : (poke (List.replicate encProductLen 0) 0 P).getD 0 0 = s := by
    rw [getD_poke_zero _ (by omega), hs]
    rintro rfl
    exact hp0 (List.length_eq_zero_iff.mp hlP.symm)
  have hvers : (poke (List.replicate encVersionLen 0) 0 V).getD 0 0 = t := by
    rw [getD_poke_zero _ (by omega), ht]
    rintro rfl
    exact hv0 (List.length_eq_zero_iff.mp hlV.symm)
  refine ⟨poke m 0 data, ?_, hdata⟩
  have hcs' : field (poke m 0 data) (19 + product.length + version.length + data.length) 4 =
      some (be32 csum.toNat) := by
    rw [field_poke_zero (by omega) (by omega), hcs]
  have hseed : [seed].getD 0 0 = seed := rfl
  simp only [decryptBuf, Option.bind_eq_bind, h0, h6, h7, h11, hver, h15, hdl, h19, encMagicLen,
    Option.bind_some, getBe32_be32 hp32, getBe32_be32 hv32, getBe32_be32 hlt, guard, if_pos hmagic,
    if_pos hp, if_pos hv, hprod, hvers, hplain, hcs', getBe32_be32 csum.toNat_lt,
    UInt32.ofNat_toNat, hdata, if_pos hcsum, Option.pure_def, hseed]
  rw [← hP, ← hV, bcryptBuf_field rfl hp, bcryptBuf_field rfl hv]

end

/-! ## The round trip -/

/-- The file of `data` and what follows it is encrypted, and decryption gives back the data and
the options. -/
def RoundTrips (o : Params) (heap : Nat → UInt8) (data tail : Bytes) : Prop :=
  ∃ buf, encryptFile o heap (data ++ tail) = some buf ∧
    ∃ ep m, decryptBuf o.key o.longstate buf = some (ep, m) ∧
      load m 0 ep.datalen.toNat = data ∧
      (readCStr ep.product).map Prod.fst = some o.product ∧
      (readCStr ep.version).map Prod.fst = some o.version ∧
      ep.magic = o.magic.stored ∧ ep.seed = o.seed

/-- **Round trip.** Data of 1 to `2 ^ 32 - 1` bytes comes back, with both ways to mix the state and
with or without a tail. -/
theorem roundTrips (hmagic : o.magic.stored = magicStart ∨ o.magic.stored = magicAsar1)
    (hd : data ≠ []) (hlt : data.length < 2 ^ 32)
    (hs : o.size = 0 ∧ tail = [] ∨ o.size ≠ 0 ∧ o.size = data.length) :
    RoundTrips o heap data tail := by
  obtain ⟨rest, hbuf⟩ := encryptFile_eq heap hd hlt hs
  have hlen : (UInt32.ofNat data.length).toNat = data.length := UInt32.toNat_ofNat_of_lt' hlt
  have hp : o.product.stored.length ≤ encProductLen := by
    have hle := o.product_le
    rw [CStr.length_stored]
    simp only [encProductLen] at hle ⊢
    omega
  have hv : o.version.stored.length ≤ encVersionLen := by
    have hle := o.version_le
    rw [CStr.length_stored]
    simp only [encVersionLen] at hle ⊢
    omega
  have hstored (s : CStr) : s.stored ≠ [] := List.append_ne_nil_of_right_ne_nil _ (by decide)
  obtain ⟨m, hdec, hdata⟩ := decryptBuf_eq rest hmagic hp hv hlt (hstored _) (hstored _)
    (congrArg (·.getD 0 0) (encProduct_eq (o := o)).symm)
    (congrArg (·.getD 0 0) (encVersion_eq (o := o)).symm) rfl
  refine ⟨_, hbuf, _, m, (congrArg (decryptBuf o.key o.longstate) ?_).trans hdec, ?_, ?_, ?_, rfl,
    rfl⟩
  · simp only [encHeader, ← encProduct_eq, ← encVersion_eq, hlen, CStr.length_stored,
      List.append_assoc]
  · exact (congrArg (load m 0) hlen).trans hdata
  · rw [readCStr_stored]
    rfl
  · rw [readCStr_stored]
    rfl

end

section
variable {o : Params} {heap : Nat → UInt8}

theorem toy_nulFree : (0 : UInt8) ∉ ([0x74, 0x6f, 0x79] : Bytes) := by decide

theorem start_nulFree : (0 : UInt8) ∉ ([0x73, 0x74, 0x61, 0x72, 0x74] : Bytes) := by decide

def toy : CStr := ⟨[0x74, 0x6f, 0x79], toy_nulFree⟩

theorem toy_bounds : toy.length ≤ bcryptMaxKeylen ∧ toy.length ≤ encProductLen - 1 ∧
    toy.length ≤ encVersionLen - 1 := by decide

theorem small_size (size : Fin 8) : size.val < 2 ^ 31 := Nat.lt_trans size.isLt (by decide)

/-- `-k toy -m start -p toy -v toy -l`, and a size. -/
def toyParams (size : Fin 8) : Params where
  key := toy
  magic := ⟨[0x73, 0x74, 0x61, 0x72, 0x74], start_nulFree⟩
  product := toy
  version := toy
  seed := 0x4f
  longstate := true
  size := size
  key_le := toy_bounds.1
  magic_length := rfl
  product_le := toy_bounds.2.1
  version_le := toy_bounds.2.2
  size_lt := small_size size

theorem roundTrips_toy :
    RoundTrips (toyParams 3) (fun _ => 0xa5) [1, 2, 3] [4, 5] :=
  roundTrips (.inl rfl) (by decide) (by decide) (.inr (by decide))

/-- The length of the data is kept in 32 bits. -/
theorem not_roundTrips_of_long {data tail : Bytes} (h : 2 ^ 32 ≤ data.length) :
    ¬ RoundTrips o heap data tail := by
  rintro ⟨buf, -, ep, m, -, hdata, -⟩
  have hle : data.length ≤ ep.datalen.toNat := by
    rw [← hdata, load]
    exact List.length_take_le _ _
  have hlt := ep.datalen.toNat_lt
  omega

/-- No buffer is laid out for an empty file. -/
theorem not_roundTrips_empty : ¬ RoundTrips o heap [] [] := by
  rintro ⟨buf, hbuf, -⟩
  rw [encryptFile, if_pos (.inl rfl)] at hbuf
  cases hbuf

theorem not_roundTrips_huge :
    ¬ RoundTrips (toyParams 0) (fun _ => 0) (List.replicate (2 ^ 32) 0) [] ∧
      ¬ RoundTrips (toyParams 0) (fun _ => 0) [] [] :=
  ⟨not_roundTrips_of_long (Nat.le_of_eq List.length_replicate.symm), not_roundTrips_empty⟩

end

end UolaOs.Buffalo
