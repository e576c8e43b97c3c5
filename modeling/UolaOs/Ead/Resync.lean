import Mathlib.Logic.Equiv.Basic
import UolaOs.Ead.Crypt

/-!
# Losing messages

Two parties with the same key, over a network that keeps the order of the messages of a party and
loses at most 31 of them in a row.

* `Chain`: the numbers of the messages on the way;
* `Direction`: the invariant of the messages from one party to the other;
* `deliveries_right`: every message that is delivered is decrypted.
-/

namespace UolaOs.Ead.Crypt

/-- A message on the way, with the payload and the number that it was made from. -/
structure Packet where
  len : UInt32
  bytes : Bytes
  payload : Bytes
  iv : UInt32

/-- What a receiver made of a message: what `ead_decrypt_message` returned and left in the message,
and the receive counter after that. -/
structure Delivery where
  payload : Bytes
  iv : UInt32
  returned : Int
  left : Enc
  rxIv : UInt32

/-- The length and the payload are those of the message, and its number was accepted. -/
structure Delivery.Right (d : Delivery) : Prop where
  returned : d.returned = d.payload.length
  payload : d.left.data.take d.payload.length = d.payload
  rxIv : d.rxIv = d.iv

def other : Side → Side
  | .client => .server
  | .server => .client

/-- The parties, what is on the way from each, how many of its messages were lost since one was
delivered, how many it made, and all that was delivered. -/
structure Net where
  party : Side → Party
  flight : Side → List Packet
  lost : Side → Nat
  made : Side → Nat
  delivered : List Delivery

/-- So many messages of a party can be lost in a row. -/
def maxLost : Nat := 31

/-- A party makes no more messages. -/
def maxSent : Nat := 2 ^ 28

inductive Act where
  /-- The payload is in a buffer with `behind` behind it. -/
  | send (side : Side) (payload behind : Bytes)
  | lose (side : Side)
  /-- The other party receives the message in a buffer with `rest` behind it. -/
  | deliver (side : Side) (rest : Bytes)

namespace Net

variable (aes : Rijndael) (w : Net)

def send (side : Side) (payload behind : Bytes) : Net :=
  let r := encryptMessage aes (w.party side) (payload ++ behind) (UInt32.ofNat payload.length)
  { w with
    party := Function.update w.party side r.2
    flight := Function.update w.flight side (w.flight side ++
      [⟨r.1.1, r.1.2.take r.1.1.toNat, payload, (w.party side).ivs.getTxIv.1⟩])
    made := Function.update w.made side (w.made side + 1) }

def lose (side : Side) (flight : List Packet) : Net :=
  { w with
    flight := Function.update w.flight side flight
    lost := Function.update w.lost side (w.lost side + 1) }

def deliver (side : Side) (p : Packet) (flight : List Packet) (rest : Bytes) : Net :=
  let r := decryptMessage aes (w.party (other side)) p.len (p.bytes ++ rest)
  { w with
    party := Function.update w.party (other side) r.2
    flight := Function.update w.flight side flight
    lost := Function.update w.lost side 0
    delivered := w.delivered ++ [⟨p.payload, p.iv, r.1.1, r.1.2, r.2.ivs.rxIv⟩] }

end Net

/-- The buffer has room for the padding, and the length of the payload is an `int`. -/
def Fits (payload behind : Bytes) : Prop :=
  payload.length < 2 ^ 31 ∧ (padOf (UInt32.ofNat payload.length)).toNat ≤ behind.length

instance instDecidableFits (payload behind : Bytes) : Decidable (Fits payload behind) :=
  inferInstanceAs (Decidable (_ ∧ _))

def step (aes : Rijndael) (w : Net) : Act → Option Net
  | .send side payload behind =>
    if Fits payload behind ∧ w.made side < maxSent then some (w.send aes side payload behind)
    else none
  | .lose side =>
    match w.flight side with
    | [] => none
    | _ :: flight => if w.lost side < maxLost then some (w.lose side flight) else none
  | .deliver side rest =>
    match w.flight side with
    | [] => none
    | p :: flight => some (w.deliver aes side p flight rest)

/-- Both have just called `ead_set_key` with the same key. -/
structure Net.Init (w : Net) : Prop where
  keyed : ∃ ec es skey c s, w.party .client = setKey ec skey c ∧ w.party .server = setKey es skey s
  flight : ∀ side, w.flight side = []
  lost : ∀ side, w.lost side = 0
  made : ∀ side, w.made side = 0
  delivered : w.delivered = []

/-- The runs of the network. -/
def Exchange (aes : Rijndael) : Net → Prop :=
  Reaches Net.Init fun w a w' => step aes w a = some w'

/-! ## Numbers -/

/-- Numbers from behind `a` up to `t`, each up to 4 above the one before. -/
def Chain : Nat → List Nat → Nat → Prop
  | a, [], t => a = t
  | a, x :: xs, t => a < x ∧ x ≤ a + 4 ∧ Chain x xs t

section
variable {a t u : Nat} {xs : List Nat}

theorem Chain.le (h : Chain a xs t) : a ≤ t := by
  induction xs generalizing a with
  | nil => exact Nat.le_of_eq h
  | cons x xs ih => exact Nat.le_trans (Nat.le_of_lt h.1) (ih h.2.2)

theorem Chain.snoc (h : Chain a xs t) (hlt : t < u) (hle : u ≤ t + 4) : Chain a (xs ++ [u]) u := by
  induction xs generalizing a with
  | nil =>
    obtain rfl : a = t := h
    exact ⟨hlt, hle, rfl⟩
  | cons x xs ih => exact ⟨h.1, h.2.1, ih h.2.2⟩

end

/-- A number in front of the receive counter, and not too far. -/
theorem checkRxIv_accepts {s : Ivs} {iv : UInt32} (hlt : s.rxIv.toNat < iv.toNat)
    (hle : iv.toNat ≤ s.rxIv.toNat + 128) (hmax : s.rxIv.toNat + 128 < 2 ^ 32) :
    s.checkRxIv iv = (true, { s with rxIv := iv }) := by
  have h128 : Ivs.maxIvIncr.toNat = 128 := rfl
  have hnot : ¬ iv ≤ s.rxIv := by
    rw [UInt32.le_iff_toNat_le]
    omega
  have hnear : ¬ s.rxIv + Ivs.maxIvIncr < iv := by
    rw [UInt32.lt_iff_toNat_lt, UInt32.toNat_add, h128, Nat.mod_eq_of_lt hmax]
    omega
  rw [Ivs.checkRxIv, if_neg hnot, if_neg hnear]

/-! ## One direction -/

/-- A message of a party with this key. -/
def Packet.MadeBy (aes : Rijndael) (key : Bytes) (p : Packet) : Prop :=
  ∃ s behind, s.key = key ∧ Fits p.payload behind ∧ p.iv = s.ivs.getTxIv.1 ∧
    (p.len, p.bytes) =
      let m := (encryptMessage aes s (p.payload ++ behind) (UInt32.ofNat p.payload.length)).1
      (m.1, m.2.take m.1.toNat)

/-- The messages on the way from `s` to `r`. -/
structure Direction (aes : Rijndael) (s r : Party) (flight : List Packet) (lost made : Nat) :
    Prop where
  key : r.key = s.key
  packets : ∀ p ∈ flight, p.MadeBy aes s.key
  /-- `last` is the number of the last message that was delivered or lost. -/
  chain : ∃ last, r.ivs.rxIv.toNat ≤ last ∧ last ≤ r.ivs.rxIv.toNat + 4 * lost ∧
    Chain last (flight.map fun p => p.iv.toNat) s.ivs.txIv.toNat
  lostLe : lost ≤ maxLost
  madeLe : made ≤ maxSent
  bound : s.ivs.txIv.toNat < 2 ^ 24 + 4 * made

namespace Direction

section
variable {aes : Rijndael} {s r s' r' : Party} {flight : List Packet} {lost made : Nat} {p : Packet}
  {payload behind : Bytes}

/-- Only the key and one counter of each party matter. -/
theorem congr (h : Direction aes s r flight lost made) (hs : s'.key = s.key)
    (htx : s'.ivs.txIv = s.ivs.txIv) (hr : r'.key = r.key) (hrx : r'.ivs.rxIv = r.ivs.rxIv) :
    Direction aes s' r' flight lost made where
  key := hr.trans (h.key.trans hs.symm)
  packets := hs ▸ h.packets
  chain := hrx ▸ htx ▸ h.chain
  lostLe := h.lostLe
  madeLe := h.madeLe
  bound := htx ▸ h.bound

theorem start {ec es : Endian} {skey : Bytes} {c d : Party} :
    Direction aes (setKey ec skey c) (setKey es skey d) [] 0 0 where
  key := rfl
  packets _ hp := absurd hp List.not_mem_nil
  chain := ⟨_, Nat.le_refl _, Nat.le_refl _, rfl⟩
  lostLe := Nat.zero_le _
  madeLe := Nat.zero_le _
  bound := setKey_txIv_lt ec skey c.ivs

theorem lose (h : Direction aes s r (p :: flight) lost made) (hlost : lost < maxLost) :
    Direction aes s r flight (lost + 1) made where
  key := h.key
  packets q hq := h.packets q (List.mem_cons_of_mem p hq)
  chain := by
    obtain ⟨last, hlo, hhi, hchain⟩ := h.chain
    obtain ⟨hlt, hle, hrest⟩ := hchain
    exact ⟨_, by omega, by omega, hrest⟩
  lostLe := hlost
  madeLe := h.madeLe
  bound := h.bound

/-- A new message. -/
theorem send (h : Direction aes s r flight lost made) (hfits : Fits payload behind)
    (hmade : made < maxSent) :
    let e := encryptMessage aes s (payload ++ behind) (UInt32.ofNat payload.length)
    Direction aes e.2 r (flight ++ [⟨e.1.1, e.1.2.take e.1.1.toNat, payload, s.ivs.getTxIv.1⟩]) lost
      (made + 1) := by
  intro e
  have hmax : maxSent = 2 ^ 28 := rfl
  have hbound := h.bound
  obtain ⟨hpos, hofs⟩ := ofs_pos s.ivs
  have hiv := getTxIv_toNat (s := s.ivs) (by omega)
  have htx : e.2.ivs.txIv = s.ivs.getTxIv.1 := rfl
  refine ⟨h.key, fun p hp => ?_, ?_, h.lostLe, hmade, ?_⟩
  · rcases List.mem_append.mp hp with hp | hp
    · exact h.packets p hp
    · rw [List.mem_singleton.mp hp]
      exact ⟨s, behind, rfl, hfits, rfl, rfl⟩
  · obtain ⟨last, hlo, hhi, hchain⟩ := h.chain
    refine ⟨last, hlo, hhi, ?_⟩
    rw [List.map_append, List.map_singleton, htx]
    have htop := hchain.le
    exact hchain.snoc (u := s.ivs.getTxIv.1.toNat) (by omega) (by omega)
  · rw [htx, hiv]
    omega

/-- **A delivery.** The message in front is decrypted, and its number is accepted. -/
theorem deliver (h : Direction aes s r (p :: flight) lost made) (rest : Bytes) :
    let d := decryptMessage aes r p.len (p.bytes ++ rest)
    Direction aes s d.2 flight 0 made ∧
      Delivery.Right ⟨p.payload, p.iv, d.1.1, d.1.2, d.2.ivs.rxIv⟩ ∧
      d.2.key = r.key ∧ d.2.ivs.txIv = r.ivs.txIv := by
  intro d
  obtain ⟨last, hlo, hhi, hlt, hle, hchain⟩ := h.chain
  dsimp only at hlt hle hchain
  have hlost := h.lostLe
  have hmade := h.madeLe
  have hbound := h.bound
  have hmaxLost : maxLost = 31 := rfl
  have hmaxSent : maxSent = 2 ^ 28 := rfl
  have htop := hchain.le
  obtain ⟨t, behind, hkey, ⟨hlen, hroom⟩, hiv, hmessage⟩ := h.packets p List.mem_cons_self
  obtain ⟨hl, hb⟩ := Prod.mk.inj hmessage
  have hn : (UInt32.ofNat p.payload.length).toNat = p.payload.length :=
    UInt32.toNat_ofNat_of_lt' (Nat.lt_trans hlen (by decide))
  have haccept : r.ivs.checkRxIv t.ivs.getTxIv.1 = (true, { r.ivs with rxIv := p.iv }) := by
    rw [← hiv]
    exact checkRxIv_accepts (by omega) (by omega) (by omega)
  obtain ⟨m, hdata, hdecrypt⟩ := decryptMessage_encryptMessage aes (by rw [hn]; exact hlen) hn hroom
    (h.key.trans hkey.symm) rest
  rw [← hb, ← hl, haccept, if_pos rfl] at hdecrypt
  have hd : d = (((p.payload.length : Int), m), { r with ivs := { r.ivs with rxIv := p.iv } }) :=
    hdecrypt
  rw [hd]
  refine ⟨⟨h.key, fun q hq => h.packets q (List.mem_cons_of_mem p hq), ?_, Nat.zero_le _, hmade,
    hbound⟩, ⟨rfl, hdata, rfl⟩, rfl, rfl⟩
  exact ⟨_, Nat.le_refl _, Nat.le_refl _, hchain⟩

end

end Direction

/-! ## The network -/

/-- Both directions are in order, and so is all that was delivered. -/
structure Net.Inv (aes : Rijndael) (w : Net) : Prop where
  direction : ∀ side, Direction aes (w.party side) (w.party (other side)) (w.flight side)
    (w.lost side) (w.made side)
  right : ∀ d ∈ w.delivered, d.Right

section
variable {aes : Rijndael} {w w' : Net} {side : Side} {a : Act}

theorem other_ne (side : Side) : other side ≠ side := by
  cases side <;> exact Side.noConfusion

theorem other_other (side : Side) : other (other side) = side := by
  cases side <;> rfl

/-- A side, or the other one. -/
theorem eq_or_other (side s : Side) : s = side ∨ s = other side := by
  cases side <;> cases s <;> decide

theorem Net.Init.inv (h : w.Init) : w.Inv aes := by
  obtain ⟨ec, es, skey, c, s, hc, hs⟩ := h.keyed
  refine ⟨fun side => ?_, by simp [h.delivered]⟩
  rw [h.flight, h.lost, h.made]
  cases side with
  | client => rw [other, hc, hs]; exact Direction.start
  | server => rw [other, hc, hs]; exact Direction.start

theorem Net.Inv.send (h : w.Inv aes) {payload behind : Bytes} (hfits : Fits payload behind)
    (hmade : w.made side < maxSent) : (w.send aes side payload behind).Inv aes := by
  refine ⟨fun s => ?_, h.right⟩
  have hdir := h.direction s
  rcases eq_or_other side s with rfl | rfl
  · simp only [Net.send, Function.update_self, Function.update_of_ne (other_ne s)]
    exact hdir.send hfits hmade
  · rw [other_other] at hdir
    simp only [Net.send, Function.update_self, Function.update_of_ne (other_ne side), other_other]
    exact hdir.congr rfl rfl rfl rfl

theorem Net.Inv.lose (h : w.Inv aes) {p : Packet} {flight : List Packet}
    (hflight : w.flight side = p :: flight) (hlost : w.lost side < maxLost) :
    (w.lose side flight).Inv aes := by
  refine ⟨fun s => ?_, h.right⟩
  have hdir := h.direction s
  rcases eq_or_other side s with rfl | rfl
  · rw [hflight] at hdir
    simp only [Net.lose, Function.update_self]
    exact hdir.lose hlost
  · simp only [Net.lose, Function.update_of_ne (other_ne side)]
    exact hdir

theorem Net.Inv.deliver (h : w.Inv aes) {p : Packet} {flight : List Packet}
    (hflight : w.flight side = p :: flight) (rest : Bytes) :
    (w.deliver aes side p flight rest).Inv aes := by
  have hdir := h.direction side
  rw [hflight] at hdir
  obtain ⟨hnext, hright, hkey, htx⟩ := hdir.deliver rest
  refine ⟨fun s => ?_, fun d hd => ?_⟩
  · rcases eq_or_other side s with rfl | rfl
    · simp only [Net.deliver, Function.update_self, Function.update_of_ne (other_ne s).symm]
      exact hnext
    · have hback := h.direction (other side)
      rw [other_other] at hback
      simp only [Net.deliver, Function.update_self, Function.update_of_ne (other_ne side),
        other_other, Function.update_of_ne (other_ne side).symm]
      exact hback.congr hkey htx rfl rfl
  · rcases List.mem_append.mp hd with hd | hd
    · exact h.right d hd
    · rw [List.mem_singleton.mp hd]
      exact hright

theorem Net.Inv.step (h : w.Inv aes) (hs : step aes w a = some w') : w'.Inv aes := by
  cases a with
  | send side payload behind =>
    obtain ⟨⟨hfits, hmade⟩, heq⟩ := Option.ite_none_right_eq_some.mp hs
    exact Option.some.inj heq ▸ h.send hfits hmade
  | lose side =>
    rw [Crypt.step] at hs
    cases hflight : w.flight side with
    | nil =>
      rw [hflight] at hs
      cases hs
    | cons p flight =>
      rw [hflight] at hs
      obtain ⟨hlost, heq⟩ := Option.ite_none_right_eq_some.mp hs
      exact Option.some.inj heq ▸ h.lose hflight hlost
  | deliver side rest =>
    rw [Crypt.step] at hs
    cases hflight : w.flight side with
    | nil =>
      rw [hflight] at hs
      cases hs
    | cons p flight =>
      rw [hflight] at hs
      exact Option.some.inj hs ▸ h.deliver hflight rest

/-- **Losing messages.** In every run in which at most 31 messages of a party in a row are lost,
each message that is delivered gives its length and its payload, and its number is accepted. -/
theorem deliveries_right (h : Exchange aes w) : ∀ d ∈ w.delivered, d.Right :=
  (Reaches.invariant (I := Net.Inv aes) (fun _ => Net.Init.inv) (fun _ _ _ => Net.Inv.step) h).right

end

/-! ## A message under the zero key -/

section

/-- What AES-128 with the zero key makes of the three different blocks of the message below, and
of its own three results the blocks again. -/
def zeroKeyBlocks : Equiv.Perm Bytes :=
  (Equiv.swap ([0, 0, 0, 0, 0, 0, 0, 0, 0, 0, 0, 0, 0, 0, 0, 0] : Bytes)
    [102, 233, 75, 212, 239, 138, 44, 59, 136, 76, 250, 89, 202, 52, 43, 46]).trans
  ((Equiv.swap ([245, 80, 181, 3, 0, 0, 0, 1, 36, 1, 2, 3, 0, 0, 0, 0] : Bytes)
    [15, 184, 91, 93, 109, 84, 193, 164, 29, 40, 113, 57, 192, 235, 104, 70]).trans
  (Equiv.swap ([128, 3, 254, 188, 185, 212, 103, 38, 84, 220, 166, 170, 21, 247, 35, 243] : Bytes)
    [181, 133, 196, 13, 242, 187, 213, 84, 5, 20, 31, 81, 235, 251, 178, 47]))

theorem length_swap {n : Nat} {p c b : Bytes} (hp : p.length = n) (hc : c.length = n)
    (hb : b.length = n) : (Equiv.swap p c b).length = n := by
  rw [Equiv.swap_apply_def]
  split
  · exact hc
  · split
    · exact hp
    · exact hb

def zeroKeyAes : Rijndael where
  encrypt _ := zeroKeyBlocks
  decrypt _ := zeroKeyBlocks.symm
  length_encrypt _ _ hb := length_swap rfl rfl (length_swap rfl rfl (length_swap rfl rfl hb))
  decrypt_encrypt _ _ _ := Equiv.symm_apply_apply _ _

def zeroParty : Party := setKey .little (List.replicate 40 0) ⟨[], ⟨0, 0, 0, 0⟩⟩

def zeroNet : Net := ⟨fun _ => zeroParty, fun _ => [], fun _ => 0, fun _ => 0, []⟩

theorem zeroNet_init : zeroNet.Init :=
  ⟨⟨_, _, _, _, _, rfl, rfl⟩, fun _ => rfl, fun _ => rfl, fun _ => rfl, rfl⟩

theorem deliveries_right_one :
    ∃ w, Exchange zeroKeyAes w ∧ w.delivered.length = 1 ∧ ∀ d ∈ w.delivered, d.Right := by
  have hrun : (([.send .client [1, 2, 3] (List.replicate 36 0), .deliver .client []] :
      List Act).foldlM (step zeroKeyAes) zeroNet).any (fun w =>
      decide (w.delivered.length = 1)) = true := by
    decide
  obtain ⟨w, hw, hp⟩ := Reaches.exists_run zeroNet_init hrun
  exact ⟨w, hw, of_decide_eq_true hp, deliveries_right hw⟩

end

end UolaOs.Ead.Crypt
