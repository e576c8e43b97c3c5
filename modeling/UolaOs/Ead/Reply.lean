import UolaOs.Lib.OnesComplement

/-!
# Replies of the emergency access daemon

`ead_send_packet_clone` of ead.c, on the bytes of the packet it answers and of `pktbuf`.

* `chksum_eq`: the sum of 16 bits with its carry is the ones' complement sum;
* `sendPacketClone_sound`: lengths and checksums of a reply.
-/

namespace UolaOs.Ead.Reply

/-- One round of `chksum`. -/
def addCarry (sum t : UInt16) : UInt16 :=
  let sum := sum + t
  if sum < t then sum + 1 else sum

/-- `chksum`, on the bytes up to `len` -/
def chksum (sum : UInt16) : Bytes → UInt16
  | a :: b :: data => chksum (addCarry sum ((a.toUInt16 <<< 8) + b.toUInt16)) data
  | [a] => addCarry sum ((a.toUInt16 <<< 8) + 0)
  | [] => sum

/-- `htons`, as the bytes of the field -/
def htons (n : UInt16) : Bytes := [(n >>> 8).toUInt8, n.toUInt8]

/-- The field for a sum. -/
def checksumField (sum : UInt16) : Bytes := htons (~~~ (if sum = 0 then 0xffff else sum))

/-- `ntohl(pktbuf->msg.len)` -/
def msgLen (m : Bytes) : Nat := Endian.big.get (load m 46 4)

/-- `sizeof(struct ead_packet)` -/
def packetSize : Nat := 62

/-- `PCAP_MRU`, the size of `pktbuf_b` -/
def pcapMru : Nat := 1600

/-- `UIP_PROTO_UDP` -/
def uipProtoUdp : UInt16 := 17

/-- `len` for the IP header -/
def ipLen (m : Bytes) : UInt16 := UInt16.ofNat (packetSize - 14 + msgLen m)

/-- `ead_send_packet_clone`, up to the addresses -/
def ipFields (ethmac : Vector UInt8 6) (pkt pktbuf : Bytes) : Bytes :=
  let m := poke pktbuf 0 (load pkt 0 42)
  let m := poke m 6 ethmac.toList
  let m := poke m 0 (load pkt 6 6)
  let m := poke m 16 (htons (ipLen m))
  let m := poke m 26 (load pkt 58 4)
  poke m 30 (load pkt 26 4)

/-- The IP checksum. -/
def ipHeader (m : Bytes) : Bytes :=
  let m := poke m 24 [0, 0]
  poke m 24 (checksumField (chksum 0 (load m 14 20)))

/-- The ports and the length of the UDP header. -/
def udpFields (pkt m : Bytes) : Bytes :=
  let m := poke m 34 (load pkt 36 2)
  let m := poke m 36 (load pkt 34 2)
  poke m 38 (htons (ipLen m - 20))

/-- The UDP checksum. -/
def udpHeader (m : Bytes) : Bytes :=
  let len := ipLen m - 20
  let m := poke m 40 [0, 0]
  let sum := chksum (len + uipProtoUdp) (load m 26 8)
  poke m 40 (checksumField (chksum sum (load m 34 len.toNat)))

/-- `ead_send_packet_clone`: the bytes for `pcap_sendpacket`. -/
def sendPacketClone (ethmac : Vector UInt8 6) (pkt pktbuf : Bytes) : Bytes :=
  let m := udpHeader (udpFields pkt (ipHeader (ipFields ethmac pkt pktbuf)))
  m.take (packetSize + msgLen m)

/-! ## What a receiver checks -/

/-- The pseudo header of UDP. -/
def pseudoHeader (p : Bytes) : Bytes := load p 26 8 ++ [0, 17] ++ load p 38 2

/-- The lengths and the checksums of a packet. -/
structure Sound (p : Bytes) : Prop where
  ip_len : Endian.big.get (load p 16 2) + 14 = p.length
  udp_len : Endian.big.get (load p 38 2) + 34 = p.length
  ip_sum : onesSum (load p 14 20) = 0xffff
  udp_sum : onesSum (pseudoHeader p ++ p.drop 34) = 0xffff

section
variable {sum t : UInt16} {m pkt pktbuf : Bytes} {a b : UInt8}

theorem toNat_word (a b : UInt8) :
    ((a.toUInt16 <<< 8) + b.toUInt16).toNat = 256 * a.toNat + b.toNat := by
  have ha := a.toNat_lt
  have hb := b.toNat_lt
  rw [UInt16.toNat_add, UInt16.toNat_shiftLeft, UInt8.toNat_toUInt16, UInt8.toNat_toUInt16,
    Nat.shiftLeft_eq]
  show (a.toNat * 256 % 65536 + b.toNat) % 65536 = _
  omega

theorem addCarry_eq (sum t : UInt16) :
    (addCarry sum t).toNat = onesAdd 0xffff sum.toNat t.toNat := by
  have hs := sum.toNat_lt
  have ht := t.toNat_lt
  have hadd : (sum + t).toNat = (sum.toNat + t.toNat) % 65536 := UInt16.toNat_add sum t
  rw [addCarry, onesAdd]
  split_ifs with hlt hgt hgt
  · rw [UInt16.lt_iff_toNat_lt, hadd] at hlt
    rw [UInt16.toNat_add, hadd]
    show ((sum.toNat + t.toNat) % 65536 + 1) % 65536 = _
    omega
  · rw [UInt16.lt_iff_toNat_lt, hadd] at hlt
    omega
  · rw [UInt16.lt_iff_toNat_lt, hadd] at hlt
    omega
  · rw [hadd]
    omega

/-- The sum with its carry. -/
theorem chksum_eq (sum : UInt16) (data : Bytes) :
    (chksum sum data).toNat = onesFrom sum.toNat data := by
  fun_induction chksum sum data with
  | case1 sum a b data ih => rw [ih, addCarry_eq, toNat_word, onesFrom_word]
  | case2 sum a =>
    rw [addCarry_eq]
    have hword := toNat_word a 0
    exact congrArg _ hword
  | case3 sum => rfl

theorem chksum_toNat (sum : UInt16) (data : Bytes) :
    (chksum sum data).toNat = onesAdd 0xffff sum.toNat (onesSum data) := by
  have hle := sum.toNat_lt
  rw [chksum_eq, onesFrom_eq (by omega)]

/-- The bytes of a word. -/
theorem htons_eq (n : UInt16) : ∃ a b, htons n = [a, b] ∧ 256 * a.toNat + b.toNat = n.toNat := by
  have hn := n.toNat_lt
  refine ⟨_, _, rfl, ?_⟩
  rw [UInt16.toNat_toUInt8, UInt16.toNat_toUInt8, UInt16.toNat_shiftRight, Nat.shiftRight_eq_div_pow]
  show 256 * (n.toNat / 256 % 256) + n.toNat % 256 = n.toNat
  omega

theorem checksumField_eq (h : sum ≠ 0) :
    ∃ a b, checksumField sum = [a, b] ∧ 256 * a.toNat + b.toNat = 0xffff - sum.toNat := by
  obtain ⟨a, b, hbytes, hvalue⟩ := htons_eq (~~~ sum)
  refine ⟨a, b, ?_, ?_⟩
  · rw [checksumField, if_neg h, hbytes]
  · rw [hvalue, UInt16.toNat_not]
    rfl

/-- A field of two bytes in an area of bytes. -/
theorem load_poke_word {off n k : Nat} (hm : off + n ≤ m.length) (hk : k + 2 ≤ n) :
    load (poke m (off + k) [a, b]) off n =
      load m off k ++ [a, b] ++ load m (off + (k + 2)) (n - (k + 2)) := by
  have hn : n = k + (2 + (n - (k + 2))) := by omega
  have hfit : off + k + [a, b].length ≤ m.length := by
    rw [List.length_cons, List.length_singleton]
    omega
  have hfield : load (poke m (off + k) [a, b]) (off + k) 2 = [a, b] := load_poke_self hfit
  have hfront : load (poke m (off + k) [a, b]) off k = load m off k :=
    load_poke_of_disjoint hfit (.inl (Nat.le_refl _))
  have hback : load (poke m (off + k) [a, b]) (off + k + 2) (n - (k + 2)) =
      load m (off + (k + 2)) (n - (k + 2)) := by
    rw [Nat.add_assoc]
    exact load_poke_of_disjoint hfit (.inr (Nat.le_refl _))
  conv_lhs => rw [hn]
  rw [load_add, load_add, hfield, hfront, hback, List.append_assoc]

/-- A checksum in its field. -/
theorem onesSum_sealed {off n k : Nat} (hm : off + n ≤ m.length) (hk : k + 2 ≤ n)
    (heven : k % 2 = 0) (hsum : chksum sum (load (poke m (off + k) [0, 0]) off n) ≠ 0) :
    onesAdd 0xffff sum.toNat (onesSum (load (poke (poke m (off + k) [0, 0]) (off + k)
      (checksumField (chksum sum (load (poke m (off + k) [0, 0]) off n)))) off n)) = 0xffff := by
  obtain ⟨a, b, hbytes, hvalue⟩ := checksumField_eq hsum
  have hlen : (poke m (off + k) [0, 0]).length = m.length := length_poke _ _ _
  have hzero : load (poke m (off + k) [0, 0]) off n =
      load m off k ++ [0, 0] ++ load m (off + (k + 2)) (n - (k + 2)) := load_poke_word hm hk
  have hfit : off + k + ([0, 0] : Bytes).length ≤ m.length := by
    rw [List.length_cons, List.length_singleton]
    omega
  have hback : load (poke m (off + k) [0, 0]) (off + (k + 2)) (n - (k + 2)) =
      load m (off + (k + 2)) (n - (k + 2)) := by
    rw [← Nat.add_assoc]
    exact load_poke_of_disjoint hfit (.inr (Nat.le_refl _))
  have hfront : load (poke m (off + k) [0, 0]) off k = load m off k :=
    load_poke_of_disjoint hfit (.inl (Nat.le_refl _))
  rw [hbytes, load_poke_word (by omega) hk, hfront, hback]
  rw [chksum_toNat, hzero] at hvalue
  have hle := sum.toNat_lt
  refine onesSum_complement (by omega) ?_ hvalue
  rw [length_load (by omega)]
  exact heven

/-! ## The reply -/

theorem length_htons (n : UInt16) : (htons n).length = 2 := rfl

theorem length_checksumField (sum : UInt16) : (checksumField sum).length = 2 := rfl

theorem get_htons (n : UInt16) : Endian.big.get (htons n) = n.toNat := by
  obtain ⟨a, b, hbytes, hvalue⟩ := htons_eq n
  rw [hbytes, ← hvalue, Endian.get]
  simp [leNat]
  omega

theorem msgLen_poke {off : Nat} {bs : Bytes} (hm : pcapMru ≤ m.length) (h : off + bs.length ≤ 46) :
    msgLen (poke m off bs) = msgLen m := by
  have hmru : pcapMru = 1600 := rfl
  rw [msgLen, msgLen, load_poke_of_disjoint (by omega) (.inr h)]

theorem ipLen_congr {m' : Bytes} (h : msgLen m' = msgLen m) : ipLen m' = ipLen m := by
  rw [ipLen, ipLen, h]

/-- The lengths of a packet that fits. -/
theorem toNat_ipLen (h : packetSize + msgLen m ≤ pcapMru) : (ipLen m).toNat = 48 + msgLen m := by
  have hsize : packetSize = 62 := rfl
  have hmru : pcapMru = 1600 := rfl
  rw [ipLen, UInt16.toNat_ofNat', hsize]
  exact Nat.mod_eq_of_lt (by omega)

theorem toNat_udpLen (h : packetSize + msgLen m ≤ pcapMru) :
    (ipLen m - 20).toNat = 28 + msgLen m := by
  have hlen := toNat_ipLen h
  have hle : (20 : UInt16) ≤ ipLen m := by
    rw [UInt16.le_iff_toNat_le, hlen]
    show 20 ≤ _
    omega
  rw [UInt16.toNat_sub_of_le _ _ hle, hlen]
  show 48 + msgLen m - 20 = _
  omega

variable {ethmac : Vector UInt8 6}

/-- The header fields in front of the IP checksum. -/
theorem ipFields_spec (hpkt : packetSize ≤ pkt.length) (hbuf : pktbuf.length = pcapMru) :
    (ipFields ethmac pkt pktbuf).length = pcapMru ∧
      msgLen (ipFields ethmac pkt pktbuf) = msgLen pktbuf ∧
        load (ipFields ethmac pkt pktbuf) 16 2 = htons (ipLen pktbuf) := by
  have hsize : packetSize = 62 := rfl
  have hmru : pcapMru = 1600 := rfl
  have h42 : (load pkt 0 42).length = 42 := length_load (by omega)
  have h6 : (load pkt 6 6).length = 6 := length_load (by omega)
  have hip : (load pkt 58 4).length = 4 := length_load (by omega)
  have hsrc : (load pkt 26 4).length = 4 := length_load (by omega)
  have hmac : ethmac.toList.length = 6 := ethmac.length_toList
  have hnet (n : UInt16) := length_htons n
  have hlen : msgLen (poke (poke (poke pktbuf 0 (load pkt 0 42)) 6 ethmac.toList) 0
      (load pkt 6 6)) = msgLen pktbuf := by
    rw [msgLen_poke (by simp only [length_poke]; omega) (by omega),
      msgLen_poke (by simp only [length_poke]; omega) (by omega), msgLen_poke (by omega) (by omega)]
  refine ⟨?_, ?_, ?_⟩
  · rw [ipFields]
    simp only [length_poke, hbuf]
  · rw [ipFields, msgLen_poke (by simp only [length_poke]; omega) (by omega),
      msgLen_poke (by simp only [length_poke]; omega) (by omega),
      msgLen_poke (by simp only [length_poke]; omega) (by rw [hnet]; omega), hlen]
  · rw [ipFields, load_poke_of_disjoint (by simp only [length_poke]; omega) (by omega),
      load_poke_of_disjoint (by simp only [length_poke]; omega) (by omega), ipLen_congr hlen]
    exact load_poke_self (by simp only [length_poke]; rw [hnet]; omega)

theorem not_all_zero {bs : Bytes} {n : UInt16} (h : htons n = bs) (hn : n ≠ 0) :
    ∃ b ∈ bs, b ≠ 0 := by
  obtain ⟨a, b, hbytes, hvalue⟩ := htons_eq n
  rw [← h, hbytes]
  by_contra hall
  push Not at hall
  obtain rfl := hall a (by simp)
  obtain rfl := hall b (by simp)
  refine hn (UInt16.toNat_inj.mp ?_)
  rw [← hvalue]
  rfl

/-- The IP header. -/
theorem ipHeader_spec (hm : m.length = pcapMru) {n : UInt16} (hlen : load m 16 2 = htons n)
    (hn : n ≠ 0) :
    (ipHeader m).length = pcapMru ∧ msgLen (ipHeader m) = msgLen m ∧
      load (ipHeader m) 16 2 = htons n ∧ onesSum (load (ipHeader m) 14 20) = 0xffff := by
  have hmru : pcapMru = 1600 := rfl
  have hfield (sum : UInt16) := length_checksumField sum
  have hzero : ([0, 0] : Bytes).length = 2 := rfl
  have hlen0 : load (poke m 24 [0, 0]) 16 2 = htons n := by
    rw [load_poke_of_disjoint (by omega) (by omega), hlen]
  -- a byte of the length is not zero
  have hsum : chksum 0 (load (poke m 24 [0, 0]) 14 20) ≠ 0 := by
    intro h
    have hnat := chksum_toNat 0 (load (poke m 24 [0, 0]) 14 20)
    rw [h] at hnat
    have hall := onesSum_eq_zero.mp (onesAdd_eq_zero.mp hnat.symm).2
    obtain ⟨b, hb, hne⟩ := not_all_zero hlen0.symm hn
    have hinner : load (load (poke m 24 [0, 0]) 14 20) 2 2 = load (poke m 24 [0, 0]) 16 2 :=
      load_load (by omega)
    rw [← hinner] at hb
    exact hne (hall b (List.mem_of_mem_drop (List.mem_of_mem_take hb)))
  refine ⟨?_, ?_, ?_, ?_⟩
  · rw [ipHeader, length_poke, length_poke, hm]
  · rw [ipHeader, msgLen_poke (by rw [length_poke]; omega) (by rw [hfield]; omega),
      msgLen_poke (by omega) (by omega)]
  · rw [ipHeader, load_poke_of_disjoint (by rw [length_poke, hfield]; omega) (by omega), hlen0]
  · have hsealed := @onesSum_sealed 0 m 14 20 10 (by omega) (by omega) (by decide) hsum
    rw [ipHeader]
    rw [show (0 : UInt16).toNat = 0 from rfl, zero_onesAdd (onesSum_le _)] at hsealed
    exact hsealed

/-- The fields of the UDP header. -/
theorem udpFields_spec (hpkt : packetSize ≤ pkt.length) (hm : m.length = pcapMru) :
    (udpFields pkt m).length = pcapMru ∧ msgLen (udpFields pkt m) = msgLen m ∧
      load (udpFields pkt m) 16 2 = load m 16 2 ∧ load (udpFields pkt m) 14 20 = load m 14 20 ∧
        load (udpFields pkt m) 38 2 = htons (ipLen m - 20) := by
  have hsize : packetSize = 62 := rfl
  have hmru : pcapMru = 1600 := rfl
  have hdst : (load pkt 36 2).length = 2 := length_load (by omega)
  have hsrc : (load pkt 34 2).length = 2 := length_load (by omega)
  have hnet (n : UInt16) := length_htons n
  have hports : msgLen (poke (poke m 34 (load pkt 36 2)) 36 (load pkt 34 2)) = msgLen m := by
    rw [msgLen_poke (by rw [length_poke]; omega) (by omega), msgLen_poke (by omega) (by omega)]
  have hframe (off n : Nat) (h : off + n ≤ 34) : load (udpFields pkt m) off n = load m off n := by
    rw [udpFields, load_poke_of_disjoint (by simp only [length_poke, hnet]; omega) (by omega),
      load_poke_of_disjoint (by rw [length_poke]; omega) (by omega),
      load_poke_of_disjoint (by omega) (by omega)]
  refine ⟨?_, ?_, hframe 16 2 (by decide), hframe 14 20 (by decide), ?_⟩
  · rw [udpFields]
    simp only [length_poke, hm]
  · rw [udpFields, msgLen_poke (by simp only [length_poke]; omega) (by rw [hnet]; omega), hports]
  · rw [udpFields, ipLen_congr hports]
    exact load_poke_self (by simp only [length_poke]; rw [hnet]; omega)

/-- The UDP header. -/
theorem udpHeader_spec (hm : m.length = pcapMru) (hfits : packetSize + msgLen m ≤ pcapMru)
    (hlen : load m 38 2 = htons (ipLen m - 20)) :
    (udpHeader m).length = pcapMru ∧ msgLen (udpHeader m) = msgLen m ∧
      load (udpHeader m) 16 2 = load m 16 2 ∧ load (udpHeader m) 14 20 = load m 14 20 ∧
        load (udpHeader m) 38 2 = htons (ipLen m - 20) ∧
          onesSum (pseudoHeader (udpHeader m) ++ load (udpHeader m) 34 (28 + msgLen m)) = 0xffff := by
  have hsize : packetSize = 62 := rfl
  have hmru : pcapMru = 1600 := rfl
  have hfield (sum : UInt16) := length_checksumField sum
  have hzero : ([0, 0] : Bytes).length = 2 := rfl
  have hudp := toNat_udpLen hfits
  have hstart : (ipLen m - 20 + uipProtoUdp).toNat = 45 + msgLen m := by
    rw [UInt16.toNat_add, hudp]
    show (28 + msgLen m + 17) % 65536 = _
    omega
  have hframe (off n : Nat) (h : off + n ≤ 40) : load (udpHeader m) off n = load m off n := by
    rw [udpHeader, load_poke_of_disjoint (by rw [length_poke, hfield]; omega) (by omega),
      load_poke_of_disjoint (by omega) (by omega)]
  have hips : load (poke m 40 [0, 0]) 26 8 = load m 26 8 :=
    load_poke_of_disjoint (by omega) (by omega)
  refine ⟨?_, ?_, hframe 16 2 (by decide), hframe 14 20 (by decide),
    (hframe 38 2 (by decide)).trans hlen, ?_⟩
  · rw [udpHeader, length_poke, length_poke, hm]
  · rw [udpHeader, msgLen_poke (by rw [length_poke]; omega) (by rw [hfield]; omega),
      msgLen_poke (by omega) (by omega)]
  -- the length and the protocol are in front of the addresses
  have hsums : (chksum (ipLen m - 20 + uipProtoUdp) (load m 26 8)).toNat =
      onesSum (pseudoHeader (udpHeader m)) := by
    have h8 : (load m 26 8).length = 8 := length_load (by omega)
    have hle := onesSum_le (load m 26 8)
    have hproto : onesSum [0, 17] = 17 := by decide
    have hudpWord : onesSum (htons (ipLen m - 20)) = 28 + msgLen m := by
      obtain ⟨a, b, hbytes, hvalue⟩ := htons_eq (ipLen m - 20)
      rw [hbytes, onesSum_pair, hvalue, hudp]
    have hadd : onesAdd 0xffff 17 (28 + msgLen m) = 45 + msgLen m := by
      rw [onesAdd, if_neg (by omega)]
      omega
    rw [chksum_toNat, hstart, pseudoHeader, hframe 26 8 (by decide), hframe 38 2 (by decide), hlen,
      onesSum_append (by rw [List.length_append, h8]; decide), onesSum_append (by rw [h8]), hproto,
      hudpWord, onesAdd_assoc hle (by decide) (by omega), hadd, onesAdd_comm]
  have hne : chksum (chksum (ipLen m - 20 + uipProtoUdp) (load m 26 8))
      (load (poke m 40 [0, 0]) 34 (28 + msgLen m)) ≠ 0 := by
    intro h
    have hnat := chksum_toNat (chksum (ipLen m - 20 + uipProtoUdp) (load m 26 8))
      (load (poke m 40 [0, 0]) 34 (28 + msgLen m))
    rw [h, chksum_toNat, hstart] at hnat
    have hsum := (onesAdd_eq_zero.mp (onesAdd_eq_zero.mp hnat.symm).1).1
    omega
  have hsealed := @onesSum_sealed _ m 34 (28 + msgLen m) 6 (by omega) (by omega) (by decide) hne
  have heven : (pseudoHeader (udpHeader m)).length % 2 = 0 := by
    rw [pseudoHeader, hframe 26 8 (by decide), hframe 38 2 (by decide), List.length_append,
      List.length_append, length_load (by omega), length_load (by omega)]
    rfl
  rw [onesSum_append heven, ← hsums, udpHeader, hips, hudp]
  exact hsealed

/-- **Replies.** The lengths and the checksums of a reply are right, whatever it answers and
whatever it says. -/
theorem sendPacketClone_sound (ethmac : Vector UInt8 6) {pkt pktbuf : Bytes}
    (hpkt : packetSize ≤ pkt.length) (hbuf : pktbuf.length = pcapMru)
    (hfits : packetSize + msgLen pktbuf ≤ pcapMru) :
    Sound (sendPacketClone ethmac pkt pktbuf) := by
  have hsize : packetSize = 62 := rfl
  have hmru : pcapMru = 1600 := rfl
  obtain ⟨hflen, hfmsg, hfield⟩ := @ipFields_spec pkt pktbuf ethmac hpkt hbuf
  rw [sendPacketClone]
  generalize ipFields ethmac pkt pktbuf = f at hflen hfmsg hfield ⊢
  have hnat := toNat_ipLen hfits
  have hne : ipLen pktbuf ≠ 0 := fun h => by
    rw [h] at hnat
    have h0 : (0 : UInt16).toNat = 0 := rfl
    omega
  obtain ⟨hhlen, hhmsg, hhfield, hhsum⟩ := ipHeader_spec hflen hfield hne
  generalize ipHeader f = h at hhlen hhmsg hhfield hhsum ⊢
  obtain ⟨hulen, humsg, hu16, hu14, hu38⟩ := @udpFields_spec h pkt hpkt hhlen
  rw [← ipLen_congr humsg] at hu38
  generalize udpFields pkt h = u at hulen humsg hu16 hu14 hu38 ⊢
  have hmsg : msgLen u = msgLen pktbuf := humsg.trans (hhmsg.trans hfmsg)
  obtain ⟨hrlen, hrmsg, hr16, hr14, hr38, hrsum⟩ := udpHeader_spec hulen (hmsg ▸ hfits) hu38
  generalize udpHeader u = r at hrlen hrmsg hr16 hr14 hr38 hrsum ⊢
  rw [hrmsg, hmsg]
  have hlength : (r.take (packetSize + msgLen pktbuf)).length = packetSize + msgLen pktbuf :=
    List.length_take_of_le (by omega)
  have hload {off n : Nat} (hle : off + n ≤ packetSize + msgLen pktbuf) :
      load (r.take (packetSize + msgLen pktbuf)) off n = load r off n :=
    load_eq_of_take (by rw [List.take_take, Nat.min_eq_left hle])
  refine ⟨?_, ?_, ?_, ?_⟩
  · rw [hload (by omega), hr16, hu16, hhfield, get_htons, hnat, hlength]
    omega
  · rw [hload (by omega), hr38, get_htons, toNat_udpLen (hmsg ▸ hfits), hmsg, hlength]
    omega
  · rw [hload (by omega), hr14, hu14, hhsum]
  · have hdrop : (r.take (packetSize + msgLen pktbuf)).drop 34 = load r 34 (28 + msgLen u) := by
      rw [load, List.drop_take, hmsg, hsize]
      congr 1
      omega
    rw [pseudoHeader, hload (by omega), hload (by omega), hdrop]
    exact hrsum

end

/-- A message of three bytes. -/
def oddBuf : Bytes := List.replicate 46 0 ++ ([0, 0, 0, 3] ++ List.replicate 1550 0)

def request : Bytes := List.replicate 62 0

theorem sendPacketClone_odd :
    msgLen oddBuf = 3 ∧ Sound (sendPacketClone (Vector.replicate 6 0) request oddBuf) := by
  have hlen : msgLen oddBuf = 3 := by
    rw [msgLen, oddBuf, load_append_right List.length_replicate]
    rfl
  refine ⟨hlen, sendPacketClone_sound _ ?_ ?_ (by rw [hlen]; decide)⟩
  · rw [request, List.length_replicate, packetSize]
  · rw [oddBuf, List.length_append, List.length_append, List.length_replicate, List.length_replicate]
    rfl

end UolaOs.Ead.Reply
