import Mathlib.Algebra.Ring.Nat
import Mathlib.Data.List.Basic
import Mathlib.Tactic.Common

/-!
# Buttons that bounce

`gpio_keys_handle_button` and `gpio_keys_polled_poll` of gpio-button-hotplug.c.

* `handleButton`: what one sample does, and `dataAt`, `eventAt`: a run of samples;
* `Inv`: the counter counts the samples since the last one that has the recorded state;
* `debounced_iff`: when the events are what the samples say;
* `polledAt_get`: a device that polls several buttons runs each of them.
-/

namespace UolaOs.Gpio

/-- `EV_KEY` -/
def evKey : Nat := 1

/-- `EV_SW` -/
def evSw : Nat := 5

/-- What `struct gpio_keys_button_data` says of a button and does not change. -/
structure Button where
  /-- The name in `button_map`. -/
  name : String
  /-- `b->type`, which may be 0. -/
  type : Nat
  threshold : Nat

/-- What a sample changes. -/
structure Data where
  /-- `last_state`, which is -1 on boot. -/
  lastState : Option Bool
  count : Nat
  seen : Nat
  deriving DecidableEq

/-- `struct bh_event`, whose `action` says whether the button is pressed. -/
structure Event where
  name : String
  type : Nat
  seen : Nat
  pressed : Bool
  deriving DecidableEq

/-- The clock: `HZ`, and the width of `jiffies`, which are below `2 ^ bits`. -/
structure Clock where
  hz : Nat
  bits : Nat

/-- On boot. -/
def Data.boot : Data := ⟨none, 0, 0⟩

section
variable (k : Clock) (b : Button)

/-- `bdata->b->type ?: EV_KEY` -/
def Button.eventType : Nat := if b.type = 0 then evKey else b.type

/-- The end of `gpio_keys_handle_button`, for a state that is not the last one. -/
def assertState (d : Data) (state : Bool) (seen : Nat) : Data × Option Event :=
  if d.count < b.threshold then ({ d with count := d.count + 1 }, none)
  else
    let before := if d.seen = 0 then seen else d.seen
    let passed := (seen + (2 ^ k.bits - before)) % 2 ^ k.bits
    ({ lastState := some state, count := 0, seen := seen },
      some ⟨b.name, b.eventType, passed / k.hz, state⟩)

/-- `gpio_keys_handle_button`, with the value of the button and `jiffies`. -/
def handleButton (d : Data) (state : Bool) (seen : Nat) : Data × Option Event :=
  if d.lastState = none then
    -- unpressed buttons are not advertised
    if b.eventType = evKey ∧ state = false then
      ({ d with lastState := some state, count := 0 }, none)
    else assertState k b d state seen
  else if d.lastState = some state then ({ d with count := 0 }, none)
  else assertState k b d state seen

/-! ## Runs -/

variable (s : Nat → Bool) (t : Nat → Nat)

/-- The data after the first `n` samples. -/
def dataAt : Nat → Data
  | 0 => .boot
  | n + 1 => (handleButton k b (dataAt n) (s n) (t n)).1

/-- The event of sample `n`. -/
def eventAt (n : Nat) : Option Event := (handleButton k b (dataAt k b s t n) (s n) (t n)).2

/-- The state that has been reported or recorded before sample `n`. -/
def lastAt (n : Nat) : Option Bool := (dataAt k b s t n).lastState

/-- What the events of a run are to be. -/
structure Debounced : Prop where
  /-- An event is not the same as the one before. -/
  alternates : ∀ i j e e', i < j → eventAt k b s t i = some e → eventAt k b s t j = some e' →
    (∀ m, i < m → m < j → eventAt k b s t m = none) → e.pressed ≠ e'.pressed
  /-- The samples before an event have its value. -/
  steady : ∀ i e, eventAt k b s t i = some e →
    b.threshold ≤ i ∧ ∀ m ≤ b.threshold, s (i - m) = e.pressed
  /-- A key is pressed before it is released. -/
  pressed : b.eventType = evKey → ∀ i e, eventAt k b s t i = some e → e.pressed = false →
    ∃ j < i, ∃ e', eventAt k b s t j = some e' ∧ e'.pressed = true
  /-- Samples that differ from the state are reported, except a key that is unpressed on boot. -/
  prompt : ∀ i, b.threshold ≤ i → (∀ m ≤ b.threshold, lastAt k b s t i ≠ some (s (i - m))) →
    (lastAt k b s t i = none → b.eventType = evKey → s i = true) →
    ∃ e, eventAt k b s t i = some e

/-- The counter and the samples so far. -/
def Inv (n : Nat) (d : Data) : Prop :=
  d.count ≤ b.threshold ∧
    match d.lastState with
    | none => d.count = n ∧ (b.eventType = evKey → ∀ m < n, s m = true)
    | some v => d.count < n ∧ s (n - 1 - d.count) = v ∧ ∀ m < d.count, s (n - 1 - m) = !v

end

section
variable {k : Clock} {b : Button} {s : Nat → Bool} {t : Nat → Nat} {d : Data} {state : Bool}
  {seen n i j : Nat} {e : Event} {v : Bool}

/-! ## One sample -/

/-- What a sample does. -/
inductive Sampled (k : Clock) (b : Button) (d : Data) (state : Bool) :
    Data × Option Event → Prop
  | recorded {d' : Data} : d.lastState = none → b.eventType = evKey → state = false →
      d'.lastState = some state → d'.count = 0 → Sampled k b d state (d', none)
  | same {d' : Data} : d.lastState = some state → d'.lastState = some state → d'.count = 0 →
      Sampled k b d state (d', none)
  | counted {d' : Data} : d.lastState ≠ some state →
      (d.lastState = none → b.eventType = evKey → state = true) → d.count < b.threshold →
      d'.lastState = d.lastState → d'.count = d.count + 1 → Sampled k b d state (d', none)
  | reported {d' : Data} {e : Event} : d.lastState ≠ some state →
      (d.lastState = none → b.eventType = evKey → state = true) → b.threshold ≤ d.count →
      d'.lastState = some state → d'.count = 0 → e.pressed = state →
      Sampled k b d state (d', some e)

theorem assertState_sampled (hne : d.lastState ≠ some state)
    (hkey : d.lastState = none → b.eventType = evKey → state = true) :
    Sampled k b d state (assertState k b d state seen) := by
  rw [assertState]
  split
  · rename_i hcount
    exact .counted hne hkey hcount rfl rfl
  · rename_i hcount
    exact .reported hne hkey (Nat.le_of_not_lt hcount) rfl rfl rfl

theorem handleButton_sampled (k : Clock) (b : Button) (d : Data) (state : Bool) (seen : Nat) :
    Sampled k b d state (handleButton k b d state seen) := by
  rw [handleButton]
  by_cases hnone : d.lastState = none
  · rw [if_pos hnone]
    by_cases hkey : b.eventType = evKey ∧ state = false
    · rw [if_pos hkey]
      exact .recorded hnone hkey.1 hkey.2 rfl rfl
    · rw [if_neg hkey]
      refine assertState_sampled (by simp [hnone]) fun _ htype => ?_
      exact (Bool.not_eq_false _).mp fun hstate => hkey ⟨htype, hstate⟩
  · rw [if_neg hnone]
    by_cases hsame : d.lastState = some state
    · rw [if_pos hsame]
      exact .same hsame hsame rfl
    · rw [if_neg hsame]
      exact assertState_sampled hsame fun h => absurd h hnone

theorem sampledAt (n : Nat) :
    Sampled k b (dataAt k b s t n) (s n) (dataAt k b s t (n + 1), eventAt k b s t n) :=
  handleButton_sampled k b _ _ _

/-! ## The counter -/

theorem inv_none (h : d.lastState = none) : Inv b s n d ↔
    d.count ≤ b.threshold ∧ d.count = n ∧ (b.eventType = evKey → ∀ m < n, s m = true) := by
  rw [Inv, h]

theorem inv_some (h : d.lastState = some v) : Inv b s n d ↔
    d.count ≤ b.threshold ∧ d.count < n ∧ s (n - 1 - d.count) = v ∧
      ∀ m < d.count, s (n - 1 - m) = !v := by
  rw [Inv, h]

/-- The state has just been set. -/
theorem inv_set (h : d.lastState = some (s n)) (hcount : d.count = 0) : Inv b s (n + 1) d := by
  rw [inv_some h, hcount]
  exact ⟨Nat.zero_le _, Nat.succ_pos n, rfl, fun m hm => absurd hm (Nat.not_lt_zero m)⟩

theorem inv_counted {d' : Data} (hinv : Inv b s n d) (hne : d.lastState ≠ some (s n))
    (hkey : d.lastState = none → b.eventType = evKey → s n = true) (hlt : d.count < b.threshold)
    (hlast : d'.lastState = d.lastState) (hcount : d'.count = d.count + 1) :
    Inv b s (n + 1) d' := by
  cases hstate : d.lastState with
  | none =>
    obtain ⟨-, hn, htrue⟩ := (inv_none hstate).mp hinv
    rw [inv_none (hlast.trans hstate), hcount]
    refine ⟨hlt, by rw [hn], fun htype m hm => ?_⟩
    rcases Nat.lt_succ_iff_lt_or_eq.mp hm with hm | rfl
    · exact htrue htype m hm
    · exact hkey hstate htype
  | some v =>
    obtain ⟨-, hn, hv, hother⟩ := (inv_some hstate).mp hinv
    have hnow : s n = !v := by
      rw [hstate] at hne
      cases v <;> cases hs : s n <;> simp_all
    rw [inv_some (hlast.trans hstate), hcount]
    refine ⟨hlt, by omega, ?_, fun m hm => ?_⟩
    · rw [← hv]
      congr 1
      omega
    · cases m with
      | zero => exact hnow
      | succ m =>
        rw [← hother m (by omega)]
        congr 1
        omega

/-- **The counter follows the samples.** -/
theorem dataAt_inv (n : Nat) : Inv b s n (dataAt k b s t n) := by
  induction n with
  | zero =>
    refine (inv_none rfl).mpr ⟨Nat.zero_le _, rfl, fun _ m hm => absurd hm (Nat.not_lt_zero m)⟩
  | succ n ih =>
    have hstep := sampledAt (k := k) (b := b) (s := s) (t := t) n
    generalize eventAt k b s t n = r at hstep
    cases hstep with
    | recorded _ _ _ hlast hcount => exact inv_set hlast hcount
    | same _ hlast hcount => exact inv_set hlast hcount
    | counted hne hkey hlt hlast hcount => exact inv_counted ih hne hkey hlt hlast hcount
    | reported _ _ _ hlast hcount _ => exact inv_set hlast hcount

/-! ## Events -/

/-- What an event says of its sample. -/
structure Reported (k : Clock) (b : Button) (s : Nat → Bool) (t : Nat → Nat) (i : Nat)
    (e : Event) : Prop where
  pressed : e.pressed = s i
  after : lastAt k b s t (i + 1) = some (s i)
  differs : lastAt k b s t i ≠ some (s i)
  key : lastAt k b s t i = none → b.eventType = evKey → s i = true
  counted : b.threshold ≤ (dataAt k b s t i).count

theorem reported_of_event (h : eventAt k b s t i = some e) : Reported k b s t i e := by
  have hstep := sampledAt (k := k) (b := b) (s := s) (t := t) i
  rw [h] at hstep
  cases hstep with
  | reported hne hkey hle hlast _ hpressed => exact ⟨hpressed, hlast, hne, hkey, hle⟩

/-- Without an event, a state stays. -/
theorem lastAt_quiet (h : eventAt k b s t i = none) (hv : lastAt k b s t i = some v) :
    lastAt k b s t (i + 1) = some v := by
  have hstep := sampledAt (k := k) (b := b) (s := s) (t := t) i
  rw [h] at hstep
  rw [lastAt] at hv ⊢
  cases hstep with
  | recorded hnone _ _ _ _ =>
    rw [hnone] at hv
    cases hv
  | same hsame hlast _ => rw [hlast, ← hsame, hv]
  | counted _ _ _ hlast _ => rw [hlast, hv]

theorem lastAt_between (hi : lastAt k b s t i = some v)
    (h : ∀ m, i ≤ m → m < j → eventAt k b s t m = none) (hij : i ≤ j) :
    lastAt k b s t j = some v := by
  induction j, hij using Nat.le_induction with
  | base => exact hi
  | succ j hij ih =>
    exact lastAt_quiet (h j hij (Nat.lt_succ_self j))
      (ih fun m hm hmj => h m hm (Nat.lt_succ_of_lt hmj))

/-- A pressed state has been reported. -/
theorem pressed_of_lastAt (h : lastAt k b s t n = some true) :
    ∃ j < n, ∃ e, eventAt k b s t j = some e ∧ e.pressed = true := by
  induction n with
  | zero => cases h
  | succ n ih =>
    have hstep := sampledAt (k := k) (b := b) (s := s) (t := t) n
    rw [lastAt] at h
    have hbefore (hlast : lastAt k b s t n = some true) := ih hlast
    generalize hevent : eventAt k b s t n = r at hstep
    cases hstep with
    | recorded _ _ hfalse hlast _ =>
      rw [hlast, hfalse] at h
      cases h
    | same hsame hlast _ =>
      obtain ⟨j, hj, e, he⟩ := hbefore (by rw [lastAt, hsame, ← hlast, h])
      exact ⟨j, Nat.lt_succ_of_lt hj, e, he⟩
    | counted _ _ _ hlast _ =>
      obtain ⟨j, hj, e, he⟩ := hbefore (by rw [lastAt, ← hlast, h])
      exact ⟨j, Nat.lt_succ_of_lt hj, e, he⟩
    | @reported _ e _ _ _ hlast _ hpressed =>
      refine ⟨n, Nat.lt_succ_self n, e, hevent, ?_⟩
      rw [hpressed]
      exact Option.some.inj (hlast.symm.trans h)

/-- The samples that an event reports. -/
theorem event_steady (h : eventAt k b s t i = some e) (hv : lastAt k b s t i = some v) :
    b.threshold ≤ i ∧ ∀ m ≤ b.threshold, s (i - m) = e.pressed := by
  have hr := reported_of_event h
  have hle := hr.counted
  obtain ⟨hcount, hlt, -, hother⟩ := (inv_some hv).mp (dataAt_inv i)
  have hnow : s i = !v := by
    have hne := hr.differs
    rw [hv] at hne
    cases v <;> cases hs : s i <;> simp_all
  refine ⟨by omega, fun m hm => ?_⟩
  rw [hr.pressed]
  cases m with
  | zero => rfl
  | succ m =>
    rw [hnow, ← hother m (by omega)]
    congr 1
    omega

/-- The first event comes with sample `threshold`. -/
theorem first_event (h : eventAt k b s t i = some e) (hnone : lastAt k b s t i = none) :
    i = b.threshold := by
  have hle := (reported_of_event h).counted
  obtain ⟨hcount, hn, -⟩ := (inv_none hnone).mp (dataAt_inv i)
  omega

/-- Samples that differ from the state are counted up to the threshold. -/
theorem event_of_differing (hi : b.threshold ≤ i)
    (hall : ∀ m ≤ b.threshold, lastAt k b s t i ≠ some (s (i - m)))
    (hkey : lastAt k b s t i = none → b.eventType = evKey → s i = true) :
    ∃ e, eventAt k b s t i = some e := by
  have hcount : b.threshold ≤ (dataAt k b s t i).count := by
    cases hlast : lastAt k b s t i with
    | none =>
      obtain ⟨-, hn, -⟩ := (inv_none hlast).mp (dataAt_inv i)
      omega
    | some v =>
      obtain ⟨-, hlt, hv, -⟩ := (inv_some hlast).mp (dataAt_inv i)
      by_contra hless
      refine hall ((dataAt k b s t i).count + 1) (by omega) ?_
      rw [hlast, ← hv]
      congr 2
      omega
  have hnow : lastAt k b s t i ≠ some (s i) := hall 0 (Nat.zero_le _)
  rw [lastAt] at hnow hkey
  have hstep := sampledAt (k := k) (b := b) (s := s) (t := t) i
  generalize eventAt k b s t i = r at hstep
  cases hstep with
  | recorded hnone htype hstate _ _ =>
    rw [hkey hnone htype] at hstate
    cases hstate
  | same hsame _ _ => exact absurd hsame hnow
  | counted _ _ hlt _ _ => exact absurd hcount (Nat.not_le.mpr hlt)
  | reported _ _ _ _ _ _ => exact ⟨_, rfl⟩

/-- The samples before the first event agree, or the button is a key. -/
def Settled (b : Button) (s : Nat → Bool) : Prop :=
  b.eventType = evKey ∨ ∀ m ≤ b.threshold, s m = s 0

/-- **When the events are what the samples say.** -/
theorem debounced_iff (k : Clock) (b : Button) (s : Nat → Bool) (t : Nat → Nat) :
    Debounced k b s t ↔ Settled b s := by
  constructor
  · intro h
    by_cases htype : b.eventType = evKey
    · exact .inl htype
    · -- a switch reports its first state
      have hnone (n : Nat) (hn : n ≤ b.threshold) : lastAt k b s t n = none := by
        induction n with
        | zero => rfl
        | succ n ih =>
          have hlast := ih (Nat.le_of_succ_le hn)
          obtain ⟨-, hcount, -⟩ := (inv_none hlast).mp (dataAt_inv n)
          have hstep := sampledAt (k := k) (b := b) (s := s) (t := t) n
          rw [lastAt] at hlast ⊢
          generalize eventAt k b s t n = r at hstep
          cases hstep with
          | recorded _ hkey _ _ _ => exact absurd hkey htype
          | same hsame _ _ =>
            rw [hlast] at hsame
            cases hsame
          | counted _ _ _ hkeep _ => rw [hkeep, hlast]
          | reported _ _ hle _ _ _ => omega
      have hfirst := hnone b.threshold (Nat.le_refl _)
      obtain ⟨e, he⟩ := event_of_differing (Nat.le_refl _) (fun m _ => by rw [hfirst]; simp)
        fun _ hkey => absurd hkey htype
      have hsteady := (h.steady b.threshold e he).2
      refine .inr fun m hm => ?_
      have hm' := hsteady (b.threshold - m) (Nat.sub_le _ _)
      rw [Nat.sub_sub_self hm] at hm'
      have h0 := hsteady b.threshold (Nat.le_refl _)
      rw [Nat.sub_self] at h0
      rw [hm', h0]
  · intro h
    refine ⟨fun i j e e' hij hi hj hbetween => ?_, fun i e he => ?_,
      fun htype i e he hreleased => ?_,
      fun i hi hall hkey => event_of_differing hi hall hkey⟩
    · have hstay := lastAt_between (reported_of_event hi).after
        (fun m hm hmj => hbetween m hm hmj) hij
      have hr := reported_of_event hj
      rw [(reported_of_event hi).pressed, hr.pressed]
      exact fun heq => hr.differs (by rw [hstay, heq])
    · have hr := reported_of_event he
      cases hlast : lastAt k b s t i with
      | some v => exact event_steady he hlast
      | none =>
        have hi := first_event he hlast
        obtain ⟨-, -, htrue⟩ := (inv_none hlast).mp (dataAt_inv i)
        refine ⟨Nat.le_of_eq hi.symm, fun m hm => ?_⟩
        rw [hr.pressed]
        rcases h with htype | hsame
        · have hnow := hr.key hlast htype
          rcases Nat.eq_zero_or_pos m with rfl | hpos
          · rfl
          · by_cases hm' : i - m < i
            · rw [htrue htype _ hm', hnow]
            · rw [show i - m = i by omega]
        · rw [hsame (i - m) (by omega), hsame i (Nat.le_of_eq hi)]
    · have hr := reported_of_event he
      rw [hr.pressed] at hreleased
      cases hlast : lastAt k b s t i with
      | none =>
        rw [hr.key hlast htype] at hreleased
        cases hreleased
      | some v =>
        have hv : v = true := by
          have hne := hr.differs
          rw [hlast, hreleased] at hne
          cases v
          · exact absurd rfl hne
          · rfl
        rw [hv] at hlast
        exact pressed_of_lastAt hlast

/-! ## Several buttons -/

/-- `gpio_keys_polled_poll`: each button with a GPIO is handled with its value and `jiffies`. -/
def poll (k : Clock) (now : Nat → Bool × Nat) (dev : List (Button × Option Data)) :
    List (Button × Option Data × Option Event) :=
  dev.mapIdx fun i p =>
    match p.2 with
    | none => (p.1, none, none)
    | some d =>
      let r := handleButton k p.1 d (now i).1 (now i).2
      (p.1, some r.1, r.2)

/-- The device after `n` polls. -/
def polledAt (k : Clock) (now : Nat → Nat → Bool × Nat) (dev : List (Button × Option Data)) :
    Nat → List (Button × Option Data)
  | 0 => dev
  | n + 1 => (poll k (now n) (polledAt k now dev n)).map fun p => (p.1, p.2.1)

/-- **Each button that is polled runs** by itself. -/
theorem polledAt_get {now : Nat → Nat → Bool × Nat} {dev : List (Button × Option Data)}
    (h : dev[i]? = some (b, some .boot)) (n : Nat) :
    (polledAt k now dev n)[i]? =
      some (b, some (dataAt k b (fun m => (now m i).1) (fun m => (now m i).2) n)) := by
  induction n with
  | zero => exact h
  | succ n ih =>
    rw [polledAt, poll, List.getElem?_map, List.getElem?_mapIdx, ih]
    rfl

theorem poll_event {now : Nat → Nat → Bool × Nat} {dev : List (Button × Option Data)}
    (h : dev[i]? = some (b, some .boot)) (n : Nat) :
    ((poll k (now n) (polledAt k now dev n))[i]?).map (fun p => p.2.2) =
      some (eventAt k b (fun m => (now m i).1) (fun m => (now m i).2) n) := by
  rw [poll, List.getElem?_mapIdx, polledAt_get h]
  rfl

/-! ## A switch that bounces -/

/-- A switch that needs two samples. -/
def reedSwitch : Button := ⟨"rfkill", evSw, 1⟩

/-- It is on for one sample. -/
def onceOn : Nat → Bool := fun n => n == 0

theorem debounced_onceOn : ¬ Debounced ⟨100, 32⟩ reedSwitch onceOn id := by
  intro h
  obtain ⟨-, hsteady⟩ := h.steady 1 ⟨"rfkill", evSw, 0, false⟩ (by decide)
  exact absurd (hsteady 1 (by decide)) (by decide)

end

end UolaOs.Gpio
