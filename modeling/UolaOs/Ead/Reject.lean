import UolaOs.Ead.Resync

/-!
# Rejected messages

What `ead_decrypt_message` leaves behind when it returns 0: the receive counter moves before the
hash of the message is compared.

* `decryptMessage_refused`, `decryptMessage_admitted`: what the checks in front of the hash decide;
* `decryptMessage_rejected_iff`: when a message that is refused changes nothing.
-/

namespace UolaOs.Ead.Crypt

section
variable (aes : Rijndael) (s : Party) (len : UInt32) (bs : Bytes)

/-- The message behind the cipher. -/
def opened : Enc := Enc.ofBytes (mapBlocks (aes.decrypt s.key) 16 (whileRounds 16 len) bs)

/-- Its number. -/
def openedIv : UInt32 := UInt32.ofNat (Endian.big.get (opened aes s len bs).iv)

/-- The checks in front of the hash: the length, the padding, and the receive window. -/
structure Admitted : Prop where
  length : ¬ (len = 0 ∨ 0 < len.toInt32.toInt.tmod 64)
  padding : ¬ encPad.toUInt8 ≤ (opened aes s len bs).pad
  window : (s.ivs.checkRxIv (openedIv aes s len bs)).1 = true

/-- The hash in the message is the one that is computed. -/
def HashMatches : Prop :=
  Digest.ofBytes (opened aes s len bs).hash = (hashMessage (opened aes s len bs) len).1

/-- No payload is left beside the padding. -/
def EmptyPayload : Prop := len = (opened aes s len bs).pad.toUInt32 + encSize

/-- The receiver is as it was, and takes every later message as it would have taken it. -/
structure Untouched : Prop where
  state : (decryptMessage aes s len bs).2 = s
  later : ∀ (len' : UInt32) (bs' : Bytes),
    (decryptMessage aes (decryptMessage aes s len bs).2 len' bs').1 =
      (decryptMessage aes s len' bs').1

variable {aes s len bs}

/-- The state does not depend on the hash. -/
theorem decryptMessage_admitted (h : Admitted aes s len bs) :
    (decryptMessage aes s len bs).2 =
      { s with ivs := { s.ivs with rxIv := openedIv aes s len bs } } := by
  rw [decryptMessage, if_neg h.length]
  dsimp only
  rw [← opened, if_neg h.padding, ← openedIv, if_pos h.window, ← (checkRxIv_true h.window).2]
  split <;> rfl

theorem decryptMessage_refused (h : ¬ Admitted aes s len bs) :
    (decryptMessage aes s len bs).1.1 = 0 ∧ (decryptMessage aes s len bs).2 = s := by
  rw [decryptMessage]
  split
  · exact ⟨rfl, rfl⟩
  next hlength =>
    dsimp only
    rw [← opened]
    split
    · exact ⟨rfl, rfl⟩
    next hpadding =>
      rw [← openedIv, if_neg fun hwindow => h ⟨hlength, hpadding, hwindow⟩]
      exact ⟨rfl, rfl⟩

theorem toInt_eq_zero (x : UInt32) : x.toInt32.toInt = 0 ↔ x = 0 := by
  rw [toInt_eq, ← UInt32.toNat_inj, UInt32.toNat_zero]
  have hlt := x.toNat_lt
  split <;> omega

theorem sub_eq_zero_iff (x y : UInt32) : x - y = 0 ↔ x = y := by
  constructor
  · intro h
    have hadd := congrArg (· + y) h
    rwa [UInt32.sub_add_cancel, UInt32.zero_add] at hadd
  · rintro rfl
    exact UInt32.sub_self x

theorem decryptMessage_eq_zero_iff (h : Admitted aes s len bs) :
    (decryptMessage aes s len bs).1.1 = 0 ↔
      ¬ HashMatches aes s len bs ∨ EmptyPayload aes s len bs := by
  rw [decryptMessage, if_neg h.length]
  dsimp only
  rw [← opened, if_neg h.padding, ← openedIv, if_pos h.window]
  by_cases hhash : HashMatches aes s len bs
  · have heq : Digest.ofBytes (opened aes s len bs).hash =
        (hashMessage (opened aes s len bs) len).1 := hhash
    rw [if_neg (not_not.mpr heq), toInt_eq_zero, sub_eq_zero_iff]
    exact (or_iff_right (not_not.mpr hhash)).symm
  · have hne : Digest.ofBytes (opened aes s len bs).hash ≠
        (hashMessage (opened aes s len bs) len).1 := hhash
    rw [if_pos hne]
    exact iff_of_true rfl (.inl hhash)

/-- An admitted message moves the receive counter. -/
theorem decryptMessage_moves (h : Admitted aes s len bs) : (decryptMessage aes s len bs).2 ≠ s := by
  intro hsame
  have hiv := (checkRxIv_true h.window).1
  rw [decryptMessage_admitted h] at hsame
  have hrx := congrArg (fun p : Party => p.ivs.rxIv) hsame
  dsimp only at hrx
  rw [hrx] at hiv
  exact absurd hiv (UInt32.lt_irrefl _)

theorem untouched_of_state (h : (decryptMessage aes s len bs).2 = s) : Untouched aes s len bs :=
  ⟨h, fun len' bs' => by rw [h]⟩

/-- **A rejected message.** It changes nothing exactly if it fails one of the checks in front of the
hash. -/
theorem decryptMessage_rejected_iff (aes : Rijndael) (s : Party) (len : UInt32) (bs : Bytes) :
    ((decryptMessage aes s len bs).1.1 = 0 → Untouched aes s len bs) ↔
      ¬ (Admitted aes s len bs ∧ (¬ HashMatches aes s len bs ∨ EmptyPayload aes s len bs)) := by
  by_cases h : Admitted aes s len bs
  · rw [decryptMessage_eq_zero_iff h]
    constructor
    · intro hkeep hzero
      exact decryptMessage_moves h (hkeep hzero.2).state
    · intro hno hzero
      exact absurd ⟨h, hzero⟩ hno
  · refine iff_of_true (fun _ => untouched_of_state (decryptMessage_refused h).2) fun hno => ?_
    exact h hno.1

/-- The message of three bytes, and a copy of it with the first block in place of the last one. -/
def genuine : UInt32 × Bytes :=
  (encryptMessage zeroKeyAes zeroParty ([1, 2, 3] ++ List.replicate 36 0) 3).1

def altered : Bytes := genuine.2.take 48 ++ genuine.2.take 16

/-- The altered copy is rejected, and with it the message itself when it comes after it. -/
theorem decryptMessage_altered :
    (decryptMessage zeroKeyAes zeroParty genuine.1 genuine.2).1.1 = 3 ∧
      (decryptMessage zeroKeyAes zeroParty genuine.1 altered).1.1 = 0 ∧
      (decryptMessage zeroKeyAes (decryptMessage zeroKeyAes zeroParty genuine.1 altered).2
        genuine.1 genuine.2).1.1 = 0 ∧
      ¬ ((decryptMessage zeroKeyAes zeroParty genuine.1 altered).1.1 = 0 →
        Untouched zeroKeyAes zeroParty genuine.1 altered) := by
  have hruns : (decryptMessage zeroKeyAes zeroParty genuine.1 genuine.2).1.1 = 3 ∧
      (decryptMessage zeroKeyAes zeroParty genuine.1 altered).1.1 = 0 ∧
      (decryptMessage zeroKeyAes (decryptMessage zeroKeyAes zeroParty genuine.1 altered).2
        genuine.1 genuine.2).1.1 = 0 := by
    decide +kernel
  obtain ⟨hgenuine, haltered, hafter⟩ := hruns
  refine ⟨hgenuine, haltered, hafter, fun hkeep => ?_⟩
  rw [(hkeep haltered).state, hgenuine] at hafter
  exact absurd hafter (by decide)

end

end UolaOs.Ead.Crypt
