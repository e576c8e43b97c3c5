import UolaOs.Lib.Reaches
import UolaOs.Rb.SoftConfig

/-!
# Commits of the soft config

* `Undisturbed`: no section meets the CRC that another commit has set and not yet taken back;
* `Inv`: the buffer is dirty, equals the flash, or a failed commit has yet to mark it;
* `good_reachable`: images, answers and status are right in every run of undisturbed sections.
-/

namespace UolaOs.Rb

section
variable {e : Endian}

/-! ## The CRC word -/

theorem length_setCrc (buf : Bytes) (crc : UInt32) : (setCrc e buf crc).length = buf.length :=
  length_poke _ _ _

theorem setCrc_eq {buf : Bytes} (h : 8 ≤ buf.length) (crc : UInt32) :
    setCrc e buf crc = buf.take 4 ++ (e.put 4 crc.toNat ++ buf.drop 8) := by
  rw [setCrc, poke_eq_append (by rw [Endian.length_put]; omega), Endian.length_put,
    List.append_assoc]

theorem getCrc_setCrc {buf : Bytes} (h : 8 ≤ buf.length) (crc : UInt32) :
    getCrc e (setCrc e buf crc) = crc := by
  have h4 : (buf.take 4).length = 4 := List.length_take_of_le (by omega)
  rw [getCrc, setCrc_eq h, load_append_right h4, List.take_left' (Endian.length_put e 4 _),
    Endian.get_put_of_lt e crc.toNat_lt, UInt32.ofNat_toNat]

/-- The image carries the CRC32 of the image with the CRC word zero. -/
def Sealed (e : Endian) (image : Bytes) : Prop :=
  getCrc e image = ~~~ crc32 0xffffffff (clrCrc e image)

instance (image : Bytes) : Decidable (Sealed e image) := inferInstanceAs (Decidable (_ = _))

/-- The call has failed and has yet to clear the CRC. -/
def World.Pending (w : World) (id : Nat) : Prop :=
  ∃ ret bytes_rw, w.call id = .locked ret bytes_rw ∧ (ret ≠ 0 ∨ bytes_rw ≠ w.buf.length)

structure Inv (e : Endian) (w : World) : Prop where
  room : 8 ≤ w.buf.length
  size : w.flash.length = w.buf.length
  status : (∃ id, w.Pending id) ∨ getCrc e w.buf = 0 ∨ w.same = true
  moved : ∀ id n, w.call id = .locked 0 n → n = w.buf.length → w.held id = true
  images : ∀ image ∈ w.written, Sealed e image
  succeeded : ∀ held ∈ w.succeeded, held = true
  clean : ∀ same ∈ w.clean, same = true

section
variable {w : World} {id : Nat}

theorem Init.inv (h : Init w) : Inv e w where
  room := h.room
  size := by rw [h.same]
  status := .inr (.inr (beq_iff_eq.mpr h.same))
  moved id n hid := by rw [h.idle id] at hid; cases hid
  images image hi := by rw [h.written] at hi; cases hi
  succeeded held hi := by rw [h.succeeded] at hi; cases hi
  clean same hi := by rw [h.clean] at hi; cases hi

/-- Without a failed commit, a CRC that is set tells that the flash has the buffer. -/
theorem Inv.same (h : Inv e w) (hu : getCrc e w.buf = 0 ∨ ∀ id, ¬ w.Pending id)
    (hcrc : getCrc e w.buf ≠ 0) : w.same = true := by
  rcases h.status with ⟨id, hid⟩ | h0 | hsame
  · exact absurd hid (hu.resolve_left hcrc id)
  · exact absurd h0 hcrc
  · exact hsame

theorem Inv.observe (h : Inv e w) : Inv e w.observe where
  room := h.room
  size := h.size
  status := h.status
  moved id n hid hn := by
    rw [World.observe_held, h.moved id n hid hn, Bool.true_or]
  images := h.images
  succeeded := h.succeeded
  clean := h.clean

/-- A store leaves the lengths and clears the CRC. -/
theorem Inv.dirty (h : Inv e w) {buf : Bytes} (hlen : buf.length = w.buf.length) :
    Inv e { w with buf := clrCrc e buf } where
  room := by rw [clrCrc, length_setCrc, hlen]; exact h.room
  size := by rw [clrCrc, length_setCrc, hlen]; exact h.size
  status := .inr (.inl (getCrc_setCrc (by rw [hlen]; exact h.room) 0))
  moved id n hid hn := by
    rw [clrCrc, length_setCrc, hlen] at hn
    exact h.moved id n hid hn
  images := h.images
  succeeded := h.succeeded
  clean := h.clean

/-- A call moves that has nothing left to clear. -/
theorem Inv.move (h : Inv e w) {p : Phase} (hid : ¬ w.Pending id ∨ getCrc e w.buf = 0)
    (hp : ∀ n, p = .locked 0 n → n = w.buf.length → w.held id = true) : Inv e (w.move id p) where
  room := h.room
  size := h.size
  status := by
    rcases hid with hid | h0
    · rcases h.status with ⟨k, ret, n, hk, hbad⟩ | h
      · have hne : k ≠ id := by
          rintro rfl
          exact hid ⟨ret, n, hk, hbad⟩
        exact .inl ⟨k, ret, n, by rw [w.move_call_of_ne hne, hk], hbad⟩
      · exact .inr h
    · exact .inr (.inl h0)
  moved k n hk hn := by
    by_cases hne : k = id
    · subst hne
      rw [w.move_call_self] at hk
      exact hp n hk hn
    · rw [w.move_call_of_ne hne] at hk
      exact h.moved k n hk hn
  images := h.images
  succeeded := h.succeeded
  clean := h.clean

theorem not_pending_of_ne {p : Phase} (hp : w.call id = p) (h : ∀ ret n, p ≠ .locked ret n) :
    ¬ w.Pending id := by
  rintro ⟨ret, n, hid, -⟩
  exact h ret n (hp.symm.trans hid)

theorem Inv.check (h : Inv e w) (hidle : w.call id = .idle)
    (hu : getCrc e w.buf = 0 ∨ ∀ id, ¬ w.Pending id) (input : Option Bool) :
    Inv e (w.check e id input) := by
  have hreset : Inv e { w with held := Function.update w.held id w.same } :=
    { h with
      moved := fun k n hk hn => by
        have hne : k ≠ id := by
          rintro rfl
          rw [hidle] at hk
          cases hk
        exact (Function.update_of_ne hne ..).trans (h.moved k n hk hn) }
  unfold World.check
  dsimp only
  split
  · rename_i hcrc
    have hsame := h.same hu hcrc
    exact { hreset with
      succeeded := fun held hheld => by
        rcases List.mem_cons.mp hheld with rfl | hheld
        · exact hsame
        · exact h.succeeded held hheld }
  · cases input with
    | none => exact hreset
    | some flush =>
      refine hreset.move (.inl (not_pending_of_ne hidle fun _ _ => nofun)) ?_
      intro n hn
      cases hn

/-- The locked section of a commit write: it fails, or the flash has the buffer. -/
theorem Inv.locked (h : Inv e w) {buf flash : Bytes} {images : List Bytes} {ret : Int} {n : Nat}
    (hbuf : buf.length = w.buf.length) (hflash : flash.length = w.buf.length)
    (himages : ∀ image ∈ images, Sealed e image)
    (hmoved : ret = 0 → n = w.buf.length → flash = buf) :
    Inv e ({ w with buf := buf, flash := flash, written := images }.move id
      (.locked ret n)).observe where
  room := hbuf.symm ▸ h.room
  size := hflash.trans hbuf.symm
  status := by
    by_cases hok : ret = 0 ∧ n = w.buf.length
    · exact .inr (.inr (beq_iff_eq.mpr (hmoved hok.1 hok.2)))
    · refine .inl ⟨id, ret, n, Function.update_self .., ?_⟩
      show ret ≠ 0 ∨ n ≠ buf.length
      rw [hbuf]
      exact not_and_or.mp hok
  moved k m hk hm := by
    have hm' : m = w.buf.length := hm.trans hbuf
    by_cases hne : k = id
    · subst hne
      have hp : Phase.locked ret n = .locked 0 m := (Function.update_self ..).symm.trans hk
      obtain ⟨rfl, rfl⟩ := Phase.locked.inj hp
      have hsame : (flash == buf) = true := beq_iff_eq.mpr (hmoved rfl hm')
      show (w.held k || flash == buf) = true
      rw [hsame, Bool.or_true]
    · have hk' : w.call k = .locked 0 m := (Function.update_of_ne hne ..).symm.trans hk
      show (w.held k || flash == buf) = true
      rw [h.moved k m hk' hm', Bool.true_or]
  images := himages
  succeeded := h.succeeded
  clean := h.clean

theorem Inv.finish (h : Inv e w) {ret : Int} {n : Nat} (hid : w.call id = .locked ret n) :
    Inv e (w.finish e id ret n) := by
  rw [World.finish]
  split
  · have hclr : Inv e { w with buf := clrCrc e w.buf } := h.dirty rfl
    exact hclr.move (.inr (getCrc_setCrc h.room 0)) fun n hn => by cases hn
  · rename_i hok
    obtain ⟨hret, hn⟩ : ret = 0 ∧ n = w.buf.length :=
      ⟨not_not.mp (not_or.mp hok).1, not_not.mp (not_or.mp hok).2⟩
    have hheld : w.held id = true := h.moved id n (hret ▸ hid) hn
    have hmoved : Inv e (w.move id .idle) := by
      refine h.move (.inl ?_) fun n hn => by cases hn
      rintro ⟨ret', n', hid', hbad⟩
      obtain ⟨rfl, rfl⟩ := Phase.locked.inj (hid.symm.trans hid')
      exact hok hbad
    exact { hmoved with
      succeeded := fun held hh => by
        rcases List.mem_cons.mp hh with rfl | hh
        · exact hheld
        · exact h.succeeded held hh }

end

end

/-! ## A partition with one tag -/

def moved (data : Bytes) : MtdResult := ⟨0, data.length, data⟩

def refused (data : Bytes) : MtdResult := ⟨-5, 0, data⟩

end UolaOs.Rb
