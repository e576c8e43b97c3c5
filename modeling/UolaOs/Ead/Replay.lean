import Mathlib.Data.List.Sort
import UolaOs.Lib.CString
import UolaOs.Lib.Reaches
import UolaOs.Ead.Server

/-!
# Encrypted messages between client and daemon

One session of ead-crypt.c under an ideal cipher: what passes the hash check was made by one of
the two sides under the key of the session.

* `Ivs` are the counters of a side, both started from the key;
* a `World` has both sides and every message that was made, `step` any turn of theirs;
* `messages_reachable`: what the sides accept, and in which order.
-/

namespace UolaOs.Ead

/-! ## Counters -/

/-- The variables of ead-crypt.c beside the cipher. -/
structure Ivs where
  rxIv : UInt32
  txIv : UInt32
  ivofsVec : UInt32
  ivofsIdx : Nat
  deriving DecidableEq

namespace Ivs

/-- `ead_set_key`. The index is not reset. -/
def setKey (e : Endian) (skey : Bytes) (s : Ivs) : Ivs :=
  let iv := UInt32.ofNat (Endian.big.get (load skey 32 4)) &&& 0x00ffffff
  { rxIv := iv
    txIv := iv
    ivofsVec := UInt32.ofNat (e.get (load skey 36 4))
    ivofsIdx := s.ivofsIdx }

/-- `EAD_MAX_IV_INCR` -/
def maxIvIncr : UInt32 := 128

/-- `ead_check_rx_iv` -/
def checkRxIv (s : Ivs) (iv : UInt32) : Bool × Ivs :=
  if iv ≤ s.rxIv then (false, s)
  else if s.rxIv + maxIvIncr < iv then (false, s)
  else (true, { s with rxIv := iv })

def ofs (s : Ivs) : UInt32 := 1 + ((s.ivofsVec >>> UInt32.ofNat (2 * s.ivofsIdx)) &&& 0x3)

/-- `ead_get_tx_iv` -/
def getTxIv (s : Ivs) : UInt32 × Ivs :=
  (s.txIv + s.ofs, { s with txIv := s.txIv + s.ofs, ivofsIdx := (s.ivofsIdx + 1) % 16 })

end Ivs

/-! ## Messages -/

inductive Side where
  | client
  | server
  deriving DecidableEq

/-- A message as `ead_encrypt_message` made it. -/
structure Sealed where
  sender : Side
  iv : UInt32
  payload : Bytes
  deriving DecidableEq

/-- What stands behind a message header on the network. -/
inductive Body where
  /-- Not a positive multiple of the padding. -/
  | malformed
  /-- What the cipher makes of bytes that neither side sent. -/
  | forged (pad : UInt8) (iv : UInt32)
  | made (m : Sealed)
  deriving DecidableEq

/-- `EAD_ENC_PAD` -/
def encPad : UInt8 := 64

/-- `ead_decrypt_message`: the message if its length is returned. The counter moves before the
hash is checked. -/
def decryptMessage (s : Ivs) : Body → Option Sealed × Ivs
  | .malformed => (none, s)
  | .forged pad iv => if encPad ≤ pad then (none, s) else (none, (s.checkRxIv iv).2)
  | .made m =>
    let r := s.checkRxIv m.iv
    (if r.1 then some m else none, r.2)

/-- The command that `handle_send_cmd` finds in a message. -/
def Sealed.cmd (e : Endian) (m : Sealed) : Option Cmd := readCmd e m.payload.length m.payload

/-- The text that the shell gets. -/
def Sealed.text (e : Endian) (m : Sealed) : Bytes := ((m.cmd e).map Cmd.text).getD []

/-- The message of `send_command`. Past 1024 bytes it has what the buffer held before. -/
def commandPayload (command : CStr) (stale : Bytes) : Bytes :=
  [0, 0, 10] ++
    ((command.bytes ++ List.replicate 1024 0).take 1024 ++ stale).take (command.length + 1)

/-! ## Turns -/

/-- Both sides, the messages made so far, and those that were accepted in their order. -/
structure World where
  client : Ivs
  server : Ivs
  wire : List Sealed
  /-- The server sends the output of a command. -/
  streaming : Bool
  executed : List Sealed
  accepted : List Sealed

namespace World

def made (w : World) (side : Side) : List Sealed := w.wire.filter (·.sender = side)

/-- Anything can be sent that the network has seen or that the hash check refuses. -/
def Available (w : World) : Body → Prop
  | .made m => m ∈ w.wire
  | _ => True

instance (w : World) : (b : Body) → Decidable (w.Available b)
  | .made m => inferInstanceAs (Decidable (m ∈ w.wire))
  | .malformed => inferInstanceAs (Decidable True)
  | .forged _ _ => inferInstanceAs (Decidable True)

def clientSeal (w : World) (payload : Bytes) : World :=
  let r := w.client.getTxIv
  { w with client := r.2, wire := w.wire ++ [⟨.client, r.1, payload⟩] }

def serverSeal (w : World) (payload : Bytes) : World :=
  let r := w.server.getTxIv
  { w with server := r.2, wire := w.wire ++ [⟨.server, r.1, payload⟩] }

/-- `handle_cmd_data` -/
def clientReceive (w : World) (b : Body) : World :=
  let r := decryptMessage w.client b
  { w with
    client := r.2
    accepted := w.accepted ++ r.1.toList.filter fun m => 1 ≤ m.payload.length }

def execute (w : World) (m : Sealed) : World := { w with executed := w.executed ++ [m] }

/-- `handle_send_cmd` up to the streaming loop. -/
def serverReceive (e : Endian) (w : World) (b : Body) (forks : Bool) : World :=
  let r := decryptMessage w.server b
  let w := { w with server := r.2 }
  match r.1 with
  | none => w
  | some m =>
    match (m.cmd e).filter fun _ => forks with
    | none => w
    | some cmd =>
      match cmd.type with
      | .normal => { w.execute m with streaming := true }
      | .background => (w.execute m).serverSeal [1]

end World

/-- A turn of one side. -/
inductive Turn where
  | sendCommand (command : CStr) (stale : Bytes)
  | toClient (type : Int) (b : Body)
  | toServer (type : Int) (b : Body) (forks : Bool)
  /-- A round of the streaming loop. -/
  | output (data : Bytes)
  /-- The end of the streaming loop. -/
  | finish (killed : Bool)

/-- The type of a message decides whether it is looked at. -/
def step (e : Endian) (w : World) : Turn → Option World
  | .sendCommand command stale =>
    if stale.length = command.length + 1 - 1024 then
      some (w.clientSeal (commandPayload command stale))
    else none
  | .toClient type b =>
    if w.Available b then
      some (if type = EadType.resultCmd.code then w.clientReceive b else w)
    else none
  | .toServer type b forks =>
    if w.Available b ∧ w.streaming = false then
      some (if type = EadType.sendCmd.code then w.serverReceive e b forks else w)
    else none
  | .output data => if w.streaming then some (w.serverSeal (0 :: data)) else none
  | .finish killed =>
    if w.streaming then
      let w := { w with streaming := false }
      some (if killed then w else w.serverSeal [1])
    else none

/-- Both sides have just set the key of the session. -/
structure World.Init (w : World) : Prop where
  keyed : ∃ ec es skey c s, w.client = Ivs.setKey ec skey c ∧ w.server = Ivs.setKey es skey s
  wire : w.wire = []
  streaming : w.streaming = false
  executed : w.executed = []
  accepted : w.accepted = []

def Session (e : Endian) : World → Prop := Reaches World.Init fun w t w' => step e w t = some w'

/-! ## What the counters promise -/

section
variable {s : Ivs} {m : Sealed} {b : Body}

theorem checkRxIv_true {iv : UInt32} (h : (s.checkRxIv iv).1 = true) :
    s.rxIv < iv ∧ (s.checkRxIv iv).2 = { s with rxIv := iv } := by
  unfold Ivs.checkRxIv at h ⊢
  split
  · rename_i hle
    rw [if_pos hle] at h
    cases h
  · rename_i hle
    split
    · rename_i hfar
      rw [if_neg hle, if_pos hfar] at h
      cases h
    · exact ⟨UInt32.not_le.mp hle, rfl⟩

theorem checkRxIv_false {iv : UInt32} (h : (s.checkRxIv iv).1 ≠ true) :
    (s.checkRxIv iv).2 = s := by
  unfold Ivs.checkRxIv at h ⊢
  split
  · rfl
  · rename_i hle
    split
    · rfl
    · rename_i hfar
      rw [if_neg hle, if_neg hfar] at h
      exact absurd rfl h

/-- The receive counter never goes back and the other variables stay. -/
theorem checkRxIv_mono (s : Ivs) (iv : UInt32) :
    s.rxIv ≤ (s.checkRxIv iv).2.rxIv ∧ (s.checkRxIv iv).2.txIv = s.txIv := by
  by_cases h : (s.checkRxIv iv).1 = true
  · obtain ⟨hlt, heq⟩ := checkRxIv_true h
    rw [heq]
    exact ⟨UInt32.le_of_lt hlt, rfl⟩
  · rw [checkRxIv_false h]
    exact ⟨UInt32.le_refl _, rfl⟩

theorem decryptMessage_mono (s : Ivs) (b : Body) :
    s.rxIv ≤ (decryptMessage s b).2.rxIv ∧ (decryptMessage s b).2.txIv = s.txIv := by
  cases b with
  | malformed => exact ⟨UInt32.le_refl _, rfl⟩
  | forged pad iv =>
    rw [decryptMessage]
    split
    · exact ⟨UInt32.le_refl _, rfl⟩
    · exact checkRxIv_mono s iv
  | made m => exact checkRxIv_mono s m.iv

/-- What is accepted was made by a side and is newer than all that was accepted before. -/
theorem decryptMessage_some (h : (decryptMessage s b).1 = some m) :
    b = .made m ∧ s.rxIv < m.iv ∧ (decryptMessage s b).2.rxIv = m.iv := by
  cases b with
  | malformed => cases h
  | forged pad iv =>
    rw [decryptMessage] at h
    split at h <;> cases h
  | made m' =>
    obtain ⟨hok, heq⟩ := Option.ite_none_right_eq_some.mp h
    obtain rfl := Option.some.inj heq
    obtain ⟨hlt, hrx⟩ := checkRxIv_true hok
    exact ⟨rfl, hlt, by rw [decryptMessage, hrx]⟩

theorem ofs_pos (s : Ivs) : 1 ≤ s.ofs.toNat ∧ s.ofs.toNat ≤ 4 := by
  have h3 : ((s.ivofsVec >>> UInt32.ofNat (2 * s.ivofsIdx)) &&& 0x3).toNat ≤ 3 := by
    rw [UInt32.toNat_and]
    exact Nat.and_le_right
  rw [Ivs.ofs, UInt32.toNat_add, show (1 : UInt32).toNat = 1 from rfl]
  omega

theorem getTxIv_toNat (h : s.txIv.toNat + 4 < 2 ^ 32) :
    s.getTxIv.1.toNat = s.txIv.toNat + s.ofs.toNat := by
  obtain ⟨-, hofs⟩ := ofs_pos s
  rw [Ivs.getTxIv, UInt32.toNat_add, Nat.mod_eq_of_lt (by omega)]

theorem setKey_txIv_lt (e : Endian) (skey : Bytes) (s : Ivs) :
    (s.setKey e skey).txIv.toNat < 2 ^ 24 := by
  rw [Ivs.setKey, UInt32.toNat_and]
  exact Nat.lt_of_le_of_lt Nat.and_le_right (by decide)

end

/-! ## The invariant -/

/-- So many messages a side can make before its counter may wrap. -/
def maxMade : Nat := (2 ^ 32 - 2 ^ 24) / 4

/-- Accepted in the order of the counter. -/
structure Received (s : Ivs) (l : List Sealed) : Prop where
  ordered : l.Pairwise (·.iv < ·.iv)
  le : ∀ m ∈ l, m.iv ≤ s.rxIv

/-- Made in the order of the counter. -/
structure Numbered (s : Ivs) (l : List Sealed) : Prop where
  ordered : l.Pairwise (·.iv < ·.iv)
  le : ∀ m ∈ l, m.iv ≤ s.txIv
  lt : s.txIv.toNat < 2 ^ 24 + 4 * l.length

section
variable {s t : Ivs} {l : List Sealed} {m : Sealed}

theorem pairwise_snoc (h : l.Pairwise (·.iv < ·.iv)) (hm : ∀ a ∈ l, a.iv < m.iv) :
    (l ++ [m]).Pairwise (·.iv < ·.iv) := by
  refine List.pairwise_append.mpr ⟨h, List.pairwise_singleton _ _, fun a ha b hb => ?_⟩
  obtain rfl := List.mem_singleton.mp hb
  exact hm a ha

theorem Received.mono (h : Received s l) (hle : s.rxIv ≤ t.rxIv) : Received t l :=
  ⟨h.ordered, fun m hm => UInt32.le_trans (h.le m hm) hle⟩

theorem Received.snoc (h : Received s l) (hlt : s.rxIv < m.iv) (ht : t.rxIv = m.iv) :
    Received t (l ++ [m]) := by
  have hall : ∀ a ∈ l, a.iv < m.iv := fun a ha => UInt32.lt_of_le_of_lt (h.le a ha) hlt
  refine ⟨pairwise_snoc h.ordered hall, fun a ha => ?_⟩
  rw [ht]
  rcases List.mem_append.mp ha with ha | ha
  · exact UInt32.le_of_lt (hall a ha)
  · rw [List.mem_singleton.mp ha]
    exact UInt32.le_refl _

theorem Numbered.snoc (h : Numbered s l) {sender : Side} {payload : Bytes}
    (hl : l.length + 1 ≤ maxMade) :
    Numbered s.getTxIv.2 (l ++ [⟨sender, s.getTxIv.1, payload⟩]) := by
  have hlt := h.lt
  have hmax : maxMade = 1069547520 := rfl
  have hiv := getTxIv_toNat (s := s) (by omega)
  obtain ⟨hpos, hofs⟩ := ofs_pos s
  have hall : ∀ a ∈ l, a.iv < s.getTxIv.1 := fun a ha => by
    have hle := UInt32.le_iff_toNat_le.mp (h.le a ha)
    exact UInt32.lt_iff_toNat_lt.mpr (by omega)
  refine ⟨pairwise_snoc h.ordered hall, fun a ha => ?_, ?_⟩
  · rcases List.mem_append.mp ha with ha | ha
    · exact UInt32.le_of_lt (hall a ha)
    · rw [List.mem_singleton.mp ha]
      exact UInt32.le_refl _
  · rw [List.length_append, List.length_singleton]
    show s.getTxIv.1.toNat < _
    omega

/-- Only the receive counter of a side moves. -/
theorem Numbered.of_txIv (h : Numbered s l) (ht : t.txIv = s.txIv) : Numbered t l := ⟨h.ordered, ht ▸ h.le, ht ▸ h.lt⟩

/-- The messages of a sender that were accepted are some of those it made, in their order. -/
theorem Numbered.sublist {k : List Sealed} (h : Numbered s l) (hk : k.Pairwise (·.iv < ·.iv))
    (hsub : ∀ m ∈ k, m ∈ l) : k.Sublist l := by
  have hnodup : k.Nodup := by
    refine hk.imp ?_
    rintro a b hlt rfl
    exact UInt32.lt_irrefl _ hlt
  have : Std.Antisymm fun a b : Sealed => a.iv < b.iv :=
    ⟨fun a b hab hba => absurd (UInt32.lt_trans hab hba) (UInt32.lt_irrefl _)⟩
  exact List.sublist_of_subperm_of_pairwise (List.subperm_of_subset hnodup hsub) hk
    h.ordered

end

structure World.Inv (w : World) : Prop where
  executed : ∀ m ∈ w.executed, m ∈ w.wire
  accepted : ∀ m ∈ w.accepted, m ∈ w.wire
  serverReceived : Received w.server w.executed
  clientReceived : Received w.client w.accepted
  clientMade : (w.made .client).length ≤ maxMade → Numbered w.client (w.made .client)
  serverMade : (w.made .server).length ≤ maxMade → Numbered w.server (w.made .server)

namespace World

section
variable {w w' : World} {m : Sealed} {b : Body}

theorem filter_snoc (w : World) (side : Side) (m : Sealed) :
    (w.wire ++ [m]).filter (·.sender = side) =
      w.made side ++ if m.sender = side then [m] else [] := by
  rw [List.filter_append, made]
  congr 1
  by_cases h : m.sender = side
  · rw [if_pos h, List.filter_cons_of_pos (by simpa using h), List.filter_nil]
  · rw [if_neg h, List.filter_cons_of_neg (by simpa using h), List.filter_nil]

theorem Init.inv (h : w.Init) : w.Inv := by
  obtain ⟨ec, es, skey, c, s, hc, hs⟩ := h.keyed
  have hnone (side : Side) : w.made side = [] := by rw [made, h.wire, List.filter_nil]
  have hnumbered {s : Ivs} (hlt : s.txIv.toNat < 2 ^ 24) : Numbered s [] :=
    ⟨List.Pairwise.nil, by simp, by simpa using hlt⟩
  refine ⟨?_, ?_, ?_, ?_, ?_, ?_⟩
  · simp [h.executed]
  · simp [h.accepted]
  · rw [h.executed]
    exact ⟨List.Pairwise.nil, by simp⟩
  · rw [h.accepted]
    exact ⟨List.Pairwise.nil, by simp⟩
  · rw [hnone, hc]
    exact fun _ => hnumbered (setKey_txIv_lt _ _ _)
  · rw [hnone, hs]
    exact fun _ => hnumbered (setKey_txIv_lt _ _ _)

theorem Inv.clientSeal (h : w.Inv) (payload : Bytes) : (w.clientSeal payload).Inv where
  executed m hm := List.mem_append_left _ (h.executed m hm)
  accepted m hm := List.mem_append_left _ (h.accepted m hm)
  serverReceived := h.serverReceived
  clientReceived := h.clientReceived.mono (UInt32.le_refl _)
  clientMade hl := by
    rw [made, World.clientSeal, filter_snoc, if_pos rfl] at hl ⊢
    rw [List.length_append, List.length_singleton] at hl
    exact (h.clientMade (by omega)).snoc hl
  serverMade hl := by
    rw [made, World.clientSeal, filter_snoc, if_neg Side.noConfusion, List.append_nil] at hl ⊢
    exact h.serverMade hl

theorem Inv.serverSeal (h : w.Inv) (payload : Bytes) : (w.serverSeal payload).Inv where
  executed m hm := List.mem_append_left _ (h.executed m hm)
  accepted m hm := List.mem_append_left _ (h.accepted m hm)
  serverReceived := h.serverReceived.mono (UInt32.le_refl _)
  clientReceived := h.clientReceived
  clientMade hl := by
    rw [made, World.serverSeal, filter_snoc, if_neg Side.noConfusion, List.append_nil] at hl ⊢
    exact h.clientMade hl
  serverMade hl := by
    rw [made, World.serverSeal, filter_snoc, if_pos rfl] at hl ⊢
    rw [List.length_append, List.length_singleton] at hl
    exact (h.serverMade (by omega)).snoc hl

theorem Inv.clientReceive (h : w.Inv) (hb : w.Available b) : (w.clientReceive b).Inv where
  executed := h.executed
  accepted m hm := by
    rcases List.mem_append.mp hm with hm | hm
    · exact h.accepted m hm
    · have hsome := Option.mem_toList.mp (List.mem_filter.mp hm).1
      obtain ⟨rfl, -⟩ := decryptMessage_some hsome
      exact hb
  serverReceived := h.serverReceived
  clientReceived := by
    obtain ⟨hle, -⟩ := decryptMessage_mono w.client b
    show Received (decryptMessage w.client b).2 (w.accepted ++ _)
    cases hm : (decryptMessage w.client b).1 with
    | none => simpa using h.clientReceived.mono hle
    | some m =>
      obtain ⟨-, hlt, heq⟩ := decryptMessage_some hm
      by_cases hlen : 1 ≤ m.payload.length
      · simpa [hlen] using h.clientReceived.snoc hlt heq
      · simpa [hlen] using h.clientReceived.mono hle
  clientMade hl := Numbered.of_txIv (h.clientMade hl) (decryptMessage_mono w.client b).2
  serverMade := h.serverMade

/-- The server has moved its receive counter. -/
theorem Inv.server (h : w.Inv) (b : Body) :
    Inv { w with server := (decryptMessage w.server b).2 } where
  executed := h.executed
  accepted := h.accepted
  serverReceived := h.serverReceived.mono (decryptMessage_mono w.server b).1
  clientReceived := h.clientReceived
  clientMade := h.clientMade
  serverMade hl := Numbered.of_txIv (h.serverMade hl) (decryptMessage_mono w.server b).2

theorem Inv.execute (h : w.Inv) (hb : w.Available b)
    (hm : (decryptMessage w.server b).1 = some m) :
    ({ w with server := (decryptMessage w.server b).2 }.execute m).Inv := by
  obtain ⟨rfl, hlt, heq⟩ := decryptMessage_some hm
  have hs := h.server (.made m)
  refine ⟨fun a ha => ?_, hs.accepted, h.serverReceived.snoc hlt heq, hs.clientReceived,
    hs.clientMade, hs.serverMade⟩
  rcases List.mem_append.mp ha with ha | ha
  · exact h.executed a ha
  · rw [List.mem_singleton.mp ha]
    exact hb

theorem Inv.streaming (h : w.Inv) (on : Bool) : Inv { w with streaming := on } :=
  ⟨h.executed, h.accepted, h.serverReceived, h.clientReceived, h.clientMade, h.serverMade⟩

theorem Inv.serverReceive {e : Endian} {forks : Bool} (h : w.Inv) (hb : w.Available b) :
    (w.serverReceive e b forks).Inv := by
  unfold World.serverReceive
  dsimp only
  split
  · exact h.server b
  · rename_i m hm
    split
    · exact h.server b
    · split
      · exact (h.execute hb hm).streaming true
      · exact (h.execute hb hm).serverSeal [1]

theorem Inv.step {e : Endian} {t : Turn} (h : w.Inv) (hs : step e w t = some w') : w'.Inv := by
  cases t with
  | sendCommand command stale =>
    obtain ⟨-, heq⟩ := Option.ite_none_right_eq_some.mp hs
    obtain rfl := Option.some.inj heq
    exact h.clientSeal _
  | toClient type b =>
    obtain ⟨hb, heq⟩ := Option.ite_none_right_eq_some.mp hs
    obtain rfl := Option.some.inj heq
    split
    · exact h.clientReceive hb
    · exact h
  | toServer type b forks =>
    obtain ⟨hb, heq⟩ := Option.ite_none_right_eq_some.mp hs
    obtain rfl := Option.some.inj heq
    split
    · exact h.serverReceive hb.1
    · exact h
  | output data =>
    obtain ⟨-, heq⟩ := Option.ite_none_right_eq_some.mp hs
    obtain rfl := Option.some.inj heq
    exact h.serverSeal _
  | finish killed =>
    obtain ⟨-, heq⟩ := Option.ite_none_right_eq_some.mp hs
    obtain rfl := Option.some.inj heq
    split
    · exact h.streaming false
    · exact (h.streaming false).serverSeal [1]

end

end World

/-! ## Sessions -/

section
variable {e : Endian} {w : World}

/-- **What the sides accept.** Whatever the network does, a side accepts only messages that one
of the two made in this session, and with increasing numbers. Of the messages of the client the
server executes some, each once and in the order of the client; so for the results. -/
theorem messages_reachable (h : Session e w) :
    (∀ m ∈ w.executed ++ w.accepted, m ∈ w.wire) ∧
    w.executed.Pairwise (·.iv < ·.iv) ∧ w.accepted.Pairwise (·.iv < ·.iv) ∧
    ((w.made .client).length ≤ maxMade →
      (w.executed.filter (·.sender = .client)).Sublist (w.made .client)) ∧
    ((w.made .server).length ≤ maxMade →
      (w.accepted.filter (·.sender = .server)).Sublist (w.made .server)) := by
  have hi : w.Inv := h.invariant (fun _ => World.Init.inv) fun _ _ _ => World.Inv.step
  refine ⟨fun m hm => ?_, hi.serverReceived.ordered, hi.clientReceived.ordered, fun hl => ?_,
    fun hl => ?_⟩
  · exact (List.mem_append.mp hm).elim (hi.executed m) (hi.accepted m)
  · refine (hi.clientMade hl).sublist (hi.serverReceived.ordered.filter _) fun m hm => ?_
    obtain ⟨hmem, hsender⟩ := List.mem_filter.mp hm
    exact List.mem_filter.mpr ⟨hi.executed m hmem, hsender⟩
  · refine (hi.serverMade hl).sublist (hi.clientReceived.ordered.filter _) fun m hm => ?_
    obtain ⟨hmem, hsender⟩ := List.mem_filter.mp hm
    exact List.mem_filter.mpr ⟨hi.accepted m hmem, hsender⟩

end

section

theorem ls_nulFree : (0 : UInt8) ∉ ([0x6c, 0x73] : Bytes) := by decide

def ls : CStr := ⟨[0x6c, 0x73], ls_nulFree⟩

def zeroIvs : Ivs := Ivs.setKey .little (List.replicate 40 0) ⟨0, 0, 0, 0⟩

def zeroWorld : World := ⟨zeroIvs, zeroIvs, [], false, [], []⟩

theorem zeroWorld_init : zeroWorld.Init :=
  ⟨⟨.little, .little, _, _, _, rfl, rfl⟩, rfl, rfl, rfl, rfl⟩

/-- The client gets its own command back, and the server the second line that `ls` printed. -/
def reflection : List Turn :=
  [.sendCommand ls [],
    .toClient 11 (.made ⟨.client, 1, [0, 0, 10, 0x6c, 0x73, 0]⟩),
    .toServer 10 (.made ⟨.client, 1, [0, 0, 10, 0x6c, 0x73, 0]⟩) true,
    .output [0x61, 0x0a],
    .output [0x20, 0x20, 0x69, 0x64, 0x0a],
    .finish false,
    .toServer 10 (.made ⟨.server, 2, [0, 0x20, 0x20, 0x69, 0x64, 0x0a]⟩) true]

/-- The command that was run beside `ls` is no command of the client, and the result that the
client took is none of the server. -/
theorem messages_reflected :
    ∃ w, Session .little w ∧
      ¬ (w.executed.map (·.text .little)).Sublist ((w.made .client).map (·.text .little)) ∧
      ∃ m ∈ w.accepted, m.sender ≠ .server := by
  have hrun : (reflection.foldlM (step .little) zeroWorld).any (fun w =>
      !((w.executed.map (·.text .little)).isSublist ((w.made .client).map (·.text .little))) &&
        w.accepted.any (·.sender ≠ .server)) = true := by
    decide
  obtain ⟨w, hw, hp⟩ := Reaches.exists_run zeroWorld_init hrun
  obtain ⟨hsub, hany⟩ := Bool.and_eq_true_iff.mp hp
  refine ⟨w, hw, fun h => ?_, ?_⟩
  · rw [List.isSublist_iff_sublist.mpr h] at hsub
    cases hsub
  · obtain ⟨m, hm, hsender⟩ := List.any_eq_true.mp hany
    exact ⟨m, hm, of_decide_eq_true hsender⟩

theorem messages_reachable_reflection :
    ∃ w, Session .little w ∧ w.executed.length = 2 ∧
      w.executed.Pairwise (·.iv < ·.iv) ∧
      (w.executed.filter (·.sender = .client)).Sublist (w.made .client) := by
  have hrun : (reflection.foldlM (step .little) zeroWorld).any (fun w =>
      decide (w.executed.length = 2 ∧ (w.made .client).length ≤ maxMade)) = true := by
    decide
  obtain ⟨w, hw, hp⟩ := Reaches.exists_run zeroWorld_init hrun
  obtain ⟨htwo, hmax⟩ := of_decide_eq_true hp
  obtain ⟨-, hexec, -, hsub, -⟩ := messages_reachable hw
  exact ⟨w, hw, htwo, hexec, hsub hmax⟩

end

end UolaOs.Ead
