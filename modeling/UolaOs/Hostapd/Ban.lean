import Mathlib.Data.List.Nodup
import Mathlib.Data.List.Sort
import Mathlib.Algebra.Ring.Int.Defs

/-!
# The list of banned clients

The bans of a BSS of hostapd, in the ubus support of package/network/services/hostapd:

* `hostapdBssDelClient` bans an address for some milliseconds, `hostapdBssDelBan` is the timeout
  that lifts a ban;
* `Run`: any sequence of requests and of passing time, in which the event loop calls each pending
  timeout when it is due;
* `Inv`: a ban has one timeout, which is due when the time of the last request is over;
* `Inv.not_follows`: a ban whose microseconds do not fit 32 bits ends early;
* `run_follows`: all others follow the requests.
-/

namespace UolaOs.Hostapd

abbrev Addr := BitVec 48

/-- An entry of the tree, and where it lies in memory. -/
structure UbusBannedClient where
  ptr : Nat
  addr : Addr

/-- A pending call of `hostapdBssDelBan`; times are in microseconds. -/
structure Timeout where
  due : Nat
  ban : Nat

/-- The tree has the order of the addresses. -/
structure State where
  now : Nat
  banned : List UbusBannedClient
  timeouts : List Timeout

def init : State := { now := 0, banned := [], timeouts := [] }

/-! ## The event loop -/

section
variable (ban : Nat) (s : State)

def eloopRegisterTimeout (secs usecs : Nat) : State :=
  { s with timeouts := ⟨s.now + (secs * 1000000 + usecs), ban⟩ :: s.timeouts }

def eloopCancelTimeout : State := { s with timeouts := s.timeouts.filter (·.ban ≠ ban) }

/-! ## The bans -/

def hostapdBssDelBan : State := { s with banned := s.banned.filter (·.ptr ≠ ban) }

/-- `time * 1000`, an `int` that is passed for an `unsigned int`. -/
def usecs (time : Int) : Nat := (BitVec.ofInt 32 (time * 1000)).toNat

/-- `ptr` is what the allocation returns. -/
def hostapdBssBanClient (ptr : Nat) (addr : Addr) (time : Int) : State :=
  let time := if time < 0 then 0 else time
  match s.banned.find? (·.addr = addr) with
  | none =>
    if time = 0 then s
    else
      let s := { s with banned := s.banned.orderedInsert (·.addr ≤ ·.addr) ⟨ptr, addr⟩ }
      eloopRegisterTimeout ptr s 0 (usecs time)
  | some ban =>
    let s := eloopCancelTimeout ban.ptr s
    if time = 0 then hostapdBssDelBan ban.ptr s
    else eloopRegisterTimeout ban.ptr s 0 (usecs time)

/-- A request: the address, unless it is missing or none, and `ban_time`. -/
structure DelClient where
  addr : Option Addr
  banTime : Option (BitVec 32)

def ubusStatusOk : Nat := 0
def ubusStatusInvalidArgument : Nat := 2

def hostapdBssDelClient (ptr : Nat) (msg : DelClient) : State × Nat :=
  match msg.addr with
  | none => (s, ubusStatusInvalidArgument)
  | some addr =>
    match msg.banTime with
    | none => (s, ubusStatusOk)
    | some time => (hostapdBssBanClient s ptr addr time.toInt, ubusStatusOk)

def hostapdBssListBans : List Addr := s.banned.map (·.addr)

def wlanStatusSuccess : Int := 0
def wlanStatusApUnableToHandleNewSta : Int := 17

/-- Those who listen for events, and what comes back from them. -/
structure Subscribers where
  hasSubscribers : Bool
  notifyResponse : Bool
  delivered : Bool
  resp : Int

/-- The end of `hostapd_ubus_handle_event`, for an address that is not banned. -/
def Subscribers.answer (subs : Subscribers) : Int :=
  if subs.hasSubscribers ∧ subs.notifyResponse ∧ subs.delivered ∧ subs.resp ≠ 0 then subs.resp
  else wlanStatusSuccess

/-- The members of a request that tell whom it is from. -/
structure HostapdUbusRequest where
  mgmtFrame : Option Addr
  addr : Addr

def HostapdUbusRequest.sender (req : HostapdUbusRequest) : Addr := req.mgmtFrame.getD req.addr

def hostapdUbusHandleEvent (subs : Subscribers) (req : HostapdUbusRequest) : Int :=
  if (s.banned.find? (·.addr = req.sender)).isSome then wlanStatusApUnableToHandleNewSta
  else subs.answer

end

/-! ## Runs -/

inductive Event where
  | request (msg : DelClient)
  | pass (usecs : Nat)

/-- Time passes: the timeouts that get due are taken out and called. -/
def State.pass (d : Nat) (s : State) : State :=
  let due := s.timeouts.filter (·.due ≤ s.now + d)
  due.foldl (fun s t => hostapdBssDelBan t.ban s)
    { s with now := s.now + d, timeouts := s.timeouts.filter (s.now + d < ·.due) }

inductive Step : State → Event → State → Prop
  | request {s : State} (msg : DelClient) {ptr : Nat} (fresh : ∀ b ∈ s.banned, b.ptr ≠ ptr) :
      Step s (.request msg) (hostapdBssDelClient s ptr msg).1
  | pass {s : State} (d : Nat) : Step s (.pass d) (s.pass d)

/-- The states that events lead to; the last one stands first. -/
inductive Run : List Event → State → Prop
  | init : Run [] init
  | next {es : List Event} {s t : State} {ev : Event} : Run es s → Step s ev t → Run (ev :: es) t

/-! ## What the requests ask for -/

/-- The ban time a request has for an address. -/
def DelClient.banFor (msg : DelClient) (addr : Addr) : Option Int :=
  if msg.addr = some addr then msg.banTime.map BitVec.toInt else none

/-- The last ban time for an address, and the microseconds since. -/
def lastBan (addr : Addr) : List Event → Option (Int × Nat)
  | [] => none
  | .pass d :: es => (lastBan addr es).map fun last => (last.1, last.2 + d)
  | .request msg :: es => ((msg.banFor addr).map fun time => (time, 0)) <|> lastBan addr es

/-- The address is to be banned: the time of the last request is not over. -/
def Wanted (addr : Addr) (es : List Event) : Prop :=
  ∃ time since, lastBan addr es = some (time, since) ∧ 0 < time ∧ (since : Int) < time * 1000

/-- Pending timeouts for an address. -/
def pending (s : State) (addr : Addr) : List Timeout :=
  s.timeouts.filter fun t => s.banned.any fun b => b.ptr = t.ban ∧ b.addr = addr

/-- The bans follow the requests. -/
structure Follows (es : List Event) (s : State) : Prop where
  listed : ∀ addr, addr ∈ hostapdBssListBans s ↔ Wanted addr es
  rejected : ∀ subs req, Wanted req.sender es →
    hostapdUbusHandleEvent s subs req = wlanStatusApUnableToHandleNewSta
  accepted : ∀ subs req, ¬ Wanted req.sender es →
    hostapdUbusHandleEvent s subs req = subs.answer
  one_entry : ∀ addr, (s.banned.filter (·.addr = addr)).length ≤ 1
  one_timeout : ∀ addr, (pending s addr).length ≤ 1
  /-- No timeout is for an entry that has been freed. -/
  live : ∀ t ∈ s.timeouts, ∃ b ∈ s.banned, b.ptr = t.ban

/-- The ban times whose microseconds fit 32 bits. -/
def Short (es : List Event) : Prop :=
  ∀ addr time, .request ⟨some addr, some time⟩ ∈ es → time.toInt * 1000 < 2 ^ 32

/-! ## The invariant -/

/-- A ban of `addr` that is lifted at `due` is the one that the last request asked for. -/
def Ends (es : List Event) (s : State) (addr : Addr) (due : Nat) : Prop :=
  s.now < due ∧ ∃ time since, lastBan addr es = some (time, since) ∧ 0 < time ∧
    (due : Int) + since = s.now + time * 1000

structure Inv (es : List Event) (s : State) : Prop where
  addrs : (s.banned.map (·.addr)).Nodup
  ptrs : (s.banned.map (·.ptr)).Nodup
  timeouts : (s.timeouts.map (·.ban)).Nodup
  live : ∀ t ∈ s.timeouts, ∃ b ∈ s.banned, b.ptr = t.ban
  ends : ∀ b ∈ s.banned, ∃ t ∈ s.timeouts, t.ban = b.ptr ∧ Ends es s b.addr t.due
  wanted : ∀ addr, Wanted addr es → ∃ b ∈ s.banned, b.addr = addr

section
variable {es : List Event} {s : State} {addr : Addr} {time : BitVec 32} {ptr : Nat}

theorem Inv.same_ban (h : Inv es s) {t u : Timeout} (ht : t ∈ s.timeouts) (hu : u ∈ s.timeouts)
    (heq : t.ban = u.ban) : t = u := List.inj_on_of_nodup_map h.timeouts ht hu heq

theorem Inv.same_ptr (h : Inv es s) {a b : UbusBannedClient} (ha : a ∈ s.banned)
    (hb : b ∈ s.banned) (heq : a.ptr = b.ptr) : a = b := List.inj_on_of_nodup_map h.ptrs ha hb heq

theorem Inv.same_addr (h : Inv es s) {a b : UbusBannedClient} (ha : a ∈ s.banned)
    (hb : b ∈ s.banned) (heq : a.addr = b.addr) : a = b :=
  List.inj_on_of_nodup_map h.addrs ha hb heq

theorem inv_init : Inv [] init where
  addrs := List.nodup_nil
  ptrs := List.nodup_nil
  timeouts := List.nodup_nil
  live := fun _ ht => absurd ht List.not_mem_nil
  ends := fun _ hb => absurd hb List.not_mem_nil
  wanted := by
    rintro addr ⟨time, since, hlast, -⟩
    cases hlast

/-! ## Passing time -/

theorem foldl_delBan (ts : List Timeout) (s : State) :
    ts.foldl (fun s t => hostapdBssDelBan t.ban s) s =
      { s with banned := s.banned.filter fun b => ∀ t ∈ ts, b.ptr ≠ t.ban } := by
  induction ts generalizing s with
  | nil => simp
  | cons t ts ih =>
    rw [List.foldl_cons, ih, hostapdBssDelBan]
    simp [Bool.and_comm]

theorem mem_banned_pass {d : Nat} {b : UbusBannedClient} :
    b ∈ (s.pass d).banned ↔
      b ∈ s.banned ∧ ∀ t ∈ s.timeouts, t.due ≤ s.now + d → b.ptr ≠ t.ban := by
  rw [State.pass, foldl_delBan]
  simp

theorem pass_eq (s : State) (d : Nat) :
    (s.pass d).now = s.now + d ∧
      (s.pass d).timeouts = s.timeouts.filter (s.now + d < ·.due) ∧
        (s.pass d).banned.Sublist s.banned := by
  rw [State.pass, foldl_delBan]
  exact ⟨rfl, rfl, List.filter_sublist⟩

theorem Inv.pass (h : Inv es s) (d : Nat) : Inv (.pass d :: es) (s.pass d) := by
  obtain ⟨hnow, htimeouts, hsub⟩ := pass_eq s d
  have hmem {t : Timeout} : t ∈ (s.pass d).timeouts ↔ t ∈ s.timeouts ∧ s.now + d < t.due := by
    rw [htimeouts, List.mem_filter, decide_eq_true_eq]
  -- a ban is kept as long as its timeout
  have hkept {b : UbusBannedClient} (hb : b ∈ s.banned) {t : Timeout} (ht : t ∈ s.timeouts)
      (heq : t.ban = b.ptr) : b ∈ (s.pass d).banned ↔ s.now + d < t.due := by
    rw [mem_banned_pass, and_iff_right hb]
    constructor
    · intro hall
      by_contra hdue
      exact hall t ht (Nat.le_of_not_lt hdue) heq.symm
    · intro hdue u hu hle hptr
      obtain rfl := h.same_ban hu ht (hptr.symm.trans heq.symm)
      omega
  refine ⟨h.addrs.sublist (hsub.map _), h.ptrs.sublist (hsub.map _), ?_, ?_, ?_, ?_⟩
  · rw [htimeouts]
    exact h.timeouts.sublist (List.filter_sublist.map _)
  · intro t ht
    obtain ⟨ht, hdue⟩ := hmem.mp ht
    obtain ⟨b, hb, heq⟩ := h.live t ht
    exact ⟨b, (hkept hb ht heq.symm).mpr hdue, heq⟩
  · intro b hb
    have hbefore := hsub.subset hb
    obtain ⟨t, ht, heq, -, time, since, hlast, hpos, hsum⟩ := h.ends b hbefore
    have hdue := (hkept hbefore ht heq).mp hb
    refine ⟨t, hmem.mpr ⟨ht, hdue⟩, heq, hnow ▸ hdue, time, since + d, ?_, hpos, ?_⟩
    · rw [lastBan, hlast]
      rfl
    · rw [hnow]
      omega
  · rintro addr ⟨time, since, hlast, hpos, hlt⟩
    rw [lastBan] at hlast
    obtain ⟨⟨asked, before⟩, hbefore, heq⟩ := Option.map_eq_some_iff.mp hlast
    obtain ⟨rfl, rfl⟩ := Prod.mk.inj heq
    dsimp only at hpos hlt
    obtain ⟨b, hb, rfl⟩ := h.wanted addr ⟨asked, before, hbefore, hpos, by omega⟩
    obtain ⟨t, ht, heq, -, time, since, hlast, -, hsum⟩ := h.ends b hb
    obtain ⟨rfl, rfl⟩ := Prod.mk.inj (Option.some.inj (hbefore.symm.trans hlast))
    exact ⟨b, (hkept hb ht heq).mpr (by omega), rfl⟩

/-! ## Requests -/

theorem lastBan_ignored {msg : DelClient} (h : msg.addr = none ∨ msg.banTime = none) (a : Addr) :
    lastBan a (.request msg :: es) = lastBan a es := by
  have hnone : msg.banFor a = none := by
    rw [DelClient.banFor]
    obtain h | h := h
    · rw [h, if_neg nofun]
    · rw [h]
      exact ite_self _
  rw [lastBan, hnone]
  rfl

theorem lastBan_request (a : Addr) :
    lastBan a (.request ⟨some addr, some time⟩ :: es) =
      if addr = a then some (time.toInt, 0) else lastBan a es := by
  rw [lastBan, DelClient.banFor]
  by_cases h : addr = a
  · rw [if_pos (congrArg some h), if_pos h]
    rfl
  · rw [if_neg fun heq => h (Option.some.inj heq), if_neg h]
    rfl

theorem Inv.ignored (h : Inv es s) {ev : Event}
    (hsame : ∀ a, lastBan a (ev :: es) = lastBan a es) : Inv (ev :: es) s := by
  refine ⟨h.addrs, h.ptrs, h.timeouts, h.live, fun b hb => ?_, fun a ha => h.wanted a ?_⟩
  · obtain ⟨t, ht, heq, hends⟩ := h.ends b hb
    exact ⟨t, ht, heq, by rwa [Ends, hsame]⟩
  · rwa [Wanted, hsame] at ha

theorem usecs_of_fits {n : Int} (h0 : 0 ≤ n) (h : n * 1000 < 2 ^ 32) : (usecs n : Int) = n * 1000 :=
    by
  rw [usecs, BitVec.toNat_ofInt]
  omega

section
variable {a : Addr} {due : Nat} {t : State}

theorem ends_other (hne : addr ≠ a) (hnow : t.now = s.now) :
    Ends (.request ⟨some addr, some time⟩ :: es) t a due ↔ Ends es s a due := by
  rw [Ends, lastBan_request, if_neg hne, hnow, Ends]

theorem wanted_other (hne : addr ≠ a) :
    Wanted a (.request ⟨some addr, some time⟩ :: es) ↔ Wanted a es := by
  rw [Wanted, lastBan_request, if_neg hne, Wanted]

theorem wanted_self :
    Wanted addr (.request ⟨some addr, some time⟩ :: es) ↔ 0 < time.toInt := by
  rw [Wanted, lastBan_request, if_pos rfl]
  constructor
  · rintro ⟨_, _, hlast, hpos, -⟩
    obtain ⟨rfl, -⟩ := Prod.mk.inj (Option.some.inj hlast)
    exact hpos
  · exact fun hpos => ⟨time.toInt, 0, rfl, hpos, by omega⟩

/-- A timeout that is registered for the request. -/
theorem ends_self (hpos : 0 < time.toInt) (hfits : time.toInt * 1000 < 2 ^ 32)
    (hnow : t.now = s.now) : Ends (.request ⟨some addr, some time⟩ :: es) t addr
      (s.now + (0 * 1000000 + usecs time.toInt)) := by
  have husecs := usecs_of_fits (Int.le_of_lt hpos) hfits
  rw [Ends, lastBan_request, if_pos rfl, hnow]
  exact ⟨by omega, time.toInt, 0, rfl, hpos, by omega⟩

end

theorem banClient_absent (hno : ∀ b ∈ s.banned, b.addr ≠ addr) (n : Int) :
    hostapdBssBanClient s ptr addr n =
      if n ≤ 0 then s
      else eloopRegisterTimeout ptr
        { s with banned := s.banned.orderedInsert (·.addr ≤ ·.addr) ⟨ptr, addr⟩ } 0 (usecs n) := by
  have hfind : s.banned.find? (·.addr = addr) = none :=
    List.find?_eq_none.mpr fun b hb => by simpa using hno b hb
  rw [hostapdBssBanClient, hfind]
  dsimp only
  by_cases hn : n ≤ 0
  · rw [if_pos hn, if_pos (by split <;> omega)]
  · rw [if_neg hn, if_neg (by split <;> omega), if_neg (by omega)]

theorem banClient_present (h : Inv es s) {b : UbusBannedClient} (hb : b ∈ s.banned) (n : Int) :
    hostapdBssBanClient s ptr b.addr n =
      if n ≤ 0 then hostapdBssDelBan b.ptr (eloopCancelTimeout b.ptr s)
      else eloopRegisterTimeout b.ptr (eloopCancelTimeout b.ptr s) 0 (usecs n) := by
  have hfind : s.banned.find? (·.addr = b.addr) = some b := by
    cases hfound : s.banned.find? (·.addr = b.addr) with
    | none => simpa using List.find?_eq_none.mp hfound b hb
    | some b' =>
      have hb' := List.mem_of_find?_eq_some hfound
      have heq : b'.addr = b.addr := by simpa using List.find?_some hfound
      rw [h.same_addr hb' hb heq]
  rw [hostapdBssBanClient, hfind]
  dsimp only
  by_cases hn : n ≤ 0
  · rw [if_pos hn, if_pos (by split <;> omega)]
  · rw [if_neg hn, if_neg (by split <;> omega), if_neg (by omega)]

/-- An address that is not banned, and a request that does not ask for it. -/
theorem Inv.stay (h : Inv es s) (hno : ∀ b ∈ s.banned, b.addr ≠ addr) (htime : time.toInt ≤ 0) :
    Inv (.request ⟨some addr, some time⟩ :: es) s := by
  refine ⟨h.addrs, h.ptrs, h.timeouts, h.live, fun b hb => ?_, fun a ha => ?_⟩
  · obtain ⟨t, ht, heq, hends⟩ := h.ends b hb
    exact ⟨t, ht, heq, (ends_other (Ne.symm (hno b hb)) rfl).mpr hends⟩
  · by_cases hne : addr = a
    · subst hne
      exact absurd (wanted_self.mp ha) (Int.not_lt.mpr htime)
    · exact h.wanted a ((wanted_other hne).mp ha)

/-- A new ban. -/
theorem Inv.insert (h : Inv es s) (hno : ∀ b ∈ s.banned, b.addr ≠ addr)
    (hfresh : ∀ b ∈ s.banned, b.ptr ≠ ptr) (hpos : 0 < time.toInt)
    (hfits : time.toInt * 1000 < 2 ^ 32) :
    Inv (.request ⟨some addr, some time⟩ :: es)
      (eloopRegisterTimeout ptr
        { s with banned := s.banned.orderedInsert (·.addr ≤ ·.addr) ⟨ptr, addr⟩ } 0
        (usecs time.toInt)) := by
  have hperm := List.perm_orderedInsert (fun b c : UbusBannedClient => b.addr ≤ c.addr) ⟨ptr, addr⟩
    s.banned
  have hmem {b : UbusBannedClient} :
      b ∈ s.banned.orderedInsert (·.addr ≤ ·.addr) ⟨ptr, addr⟩ ↔ b = ⟨ptr, addr⟩ ∨ b ∈ s.banned :=
    hperm.mem_iff.trans List.mem_cons
  refine ⟨?_, ?_, ?_, ?_, ?_, ?_⟩
  · refine (hperm.map _).nodup_iff.mpr (List.nodup_cons.mpr ⟨fun hin => ?_, h.addrs⟩)
    obtain ⟨b, hb, heq⟩ := List.mem_map.mp hin
    exact hno b hb heq
  · refine (hperm.map _).nodup_iff.mpr (List.nodup_cons.mpr ⟨fun hin => ?_, h.ptrs⟩)
    obtain ⟨b, hb, heq⟩ := List.mem_map.mp hin
    exact hfresh b hb heq
  · refine List.nodup_cons.mpr ⟨fun hin => ?_, h.timeouts⟩
    obtain ⟨t, ht, heq⟩ := List.mem_map.mp hin
    obtain ⟨b, hb, hptr⟩ := h.live t ht
    exact hfresh b hb (hptr.trans heq)
  · intro t ht
    obtain rfl | ht := List.mem_cons.mp ht
    · exact ⟨⟨ptr, addr⟩, hmem.mpr (.inl rfl), rfl⟩
    · obtain ⟨b, hb, hptr⟩ := h.live t ht
      exact ⟨b, hmem.mpr (.inr hb), hptr⟩
  · intro b hb
    obtain rfl | hb := hmem.mp hb
    · exact ⟨_, List.mem_cons_self, rfl, ends_self hpos hfits rfl⟩
    · obtain ⟨t, ht, heq, hends⟩ := h.ends b hb
      exact ⟨t, List.mem_cons_of_mem _ ht, heq, (ends_other (Ne.symm (hno b hb)) rfl).mpr hends⟩
  · intro a ha
    by_cases hne : addr = a
    · exact ⟨⟨ptr, addr⟩, hmem.mpr (.inl rfl), hne⟩
    · obtain ⟨b, hb, heq⟩ := h.wanted a ((wanted_other hne).mp ha)
      exact ⟨b, hmem.mpr (.inr hb), heq⟩

section
variable {b : UbusBannedClient} (h : Inv es s) (hb : b ∈ s.banned)
include h hb

/-- The timeouts of the other bans. -/
theorem Inv.others (time : BitVec 32) {b' : UbusBannedClient} (hb' : b' ∈ s.banned) (hne :
    b'.ptr ≠ b.ptr) :
    ∃ t ∈ (eloopCancelTimeout b.ptr s).timeouts, t.ban = b'.ptr ∧ ∀ {u : State}, u.now = s.now →
      Ends (.request ⟨some b.addr, some time⟩ :: es) u b'.addr t.due := by
  obtain ⟨t, ht, heq, hends⟩ := h.ends b' hb'
  refine ⟨t, List.mem_filter.mpr ⟨ht, decide_eq_true (heq ▸ hne)⟩, heq, fun hnow => ?_⟩
  exact (ends_other (fun haddr => hne (h.same_addr hb' hb haddr.symm ▸ rfl)) hnow).mpr hends

/-- A ban that is lifted by a request. -/
theorem Inv.lift (htime : time.toInt ≤ 0) : Inv (.request ⟨some b.addr, some time⟩ :: es)
    (hostapdBssDelBan b.ptr (eloopCancelTimeout b.ptr s)) := by
  have hmem {b' : UbusBannedClient} :
      b' ∈ (hostapdBssDelBan b.ptr (eloopCancelTimeout b.ptr s)).banned ↔
        b' ∈ s.banned ∧ b'.ptr ≠ b.ptr := by
    rw [hostapdBssDelBan, List.mem_filter, decide_eq_true_eq]
    rfl
  have hsub : (hostapdBssDelBan b.ptr (eloopCancelTimeout b.ptr s)).banned.Sublist s.banned :=
    List.filter_sublist
  refine ⟨h.addrs.sublist (hsub.map _), h.ptrs.sublist (hsub.map _),
    h.timeouts.sublist (List.filter_sublist.map _), ?_, ?_, ?_⟩
  · intro t ht
    obtain ⟨ht, hne⟩ := List.mem_filter.mp ht
    obtain ⟨b', hb', heq⟩ := h.live t ht
    exact ⟨b', hmem.mpr ⟨hb', heq ▸ of_decide_eq_true hne⟩, heq⟩
  · intro b' hb'
    obtain ⟨hb', hne⟩ := hmem.mp hb'
    obtain ⟨t, ht, heq, hends⟩ := h.others hb time hb' hne
    exact ⟨t, ht, heq, hends rfl⟩
  · intro a ha
    by_cases hne : b.addr = a
    · subst hne
      exact absurd (wanted_self.mp ha) (Int.not_lt.mpr htime)
    · obtain ⟨b', hb', rfl⟩ := h.wanted a ((wanted_other hne).mp ha)
      exact ⟨b', hmem.mpr ⟨hb', fun hptr => hne (h.same_ptr hb' hb hptr ▸ rfl)⟩, rfl⟩

/-- A ban that gets another end. -/
theorem Inv.renew (hpos : 0 < time.toInt) (hfits : time.toInt * 1000 < 2 ^ 32) :
    Inv (.request ⟨some b.addr, some time⟩ :: es)
      (eloopRegisterTimeout b.ptr (eloopCancelTimeout b.ptr s) 0 (usecs time.toInt)) := by
  refine ⟨h.addrs, h.ptrs, ?_, ?_, ?_, ?_⟩
  · refine List.nodup_cons.mpr ⟨fun hin => ?_, h.timeouts.sublist (List.filter_sublist.map _)⟩
    obtain ⟨t, ht, heq⟩ := List.mem_map.mp hin
    exact of_decide_eq_true (List.mem_filter.mp ht).2 heq
  · intro t ht
    obtain rfl | ht := List.mem_cons.mp ht
    · exact ⟨b, hb, rfl⟩
    · exact h.live t (List.mem_filter.mp ht).1
  · intro b' hb'
    by_cases hptr : b'.ptr = b.ptr
    · obtain rfl := h.same_ptr hb' hb hptr
      exact ⟨_, List.mem_cons_self, rfl, ends_self hpos hfits rfl⟩
    · obtain ⟨t, ht, heq, hends⟩ := h.others hb time hb' hptr
      exact ⟨t, List.mem_cons_of_mem _ ht, heq, hends rfl⟩
  · intro a ha
    by_cases hne : b.addr = a
    · exact ⟨b, hb, hne⟩
    · exact h.wanted a ((wanted_other hne).mp ha)

end

theorem Inv.banClient (h : Inv es s) (hfresh : ∀ b ∈ s.banned, b.ptr ≠ ptr)
    (hfits : time.toInt * 1000 < 2 ^ 32) : Inv (.request ⟨some addr, some time⟩ :: es)
      (hostapdBssBanClient s ptr addr time.toInt) := by
  by_cases hbanned : ∃ b ∈ s.banned, b.addr = addr
  · obtain ⟨b, hb, rfl⟩ := hbanned
    rw [banClient_present h hb]
    split
    · next htime => exact h.lift hb htime
    · next htime => exact h.renew hb (Int.not_le.mp htime) hfits
  · have hno : ∀ b ∈ s.banned, b.addr ≠ addr := fun b hb heq => hbanned ⟨b, hb, heq⟩
    rw [banClient_absent hno]
    split
    · next htime => exact h.stay hno htime
    · next htime => exact h.insert hno hfresh (Int.not_le.mp htime) hfits

theorem Inv.step (h : Inv es s) {ev : Event} {t : State} (hstep : Step s ev t)
    (hfits : ∀ addr time, ev = .request ⟨some addr, some time⟩ → time.toInt * 1000 < 2 ^ 32) :
    Inv (ev :: es) t := by
  cases hstep with
  | pass d => exact h.pass d
  | request msg fresh =>
    obtain ⟨addr, time⟩ := msg
    cases addr with
    | none => exact h.ignored (lastBan_ignored (.inl rfl))
    | some addr =>
      cases time with
      | none => exact h.ignored (lastBan_ignored (.inr rfl))
      | some time => exact h.banClient fresh (hfits addr time rfl)

theorem inv_run (h : Run es s) (hshort : Short es) : Inv es s := by
  induction h with
  | init => exact inv_init
  | next _ hstep ih =>
    refine (ih fun addr time hin => hshort addr time (List.mem_cons_of_mem _ hin)).step hstep ?_
    rintro addr time rfl
    exact hshort addr time List.mem_cons_self

theorem length_le_one {α : Type} {l : List α} (hnodup : l.Nodup) (h : ∀ x ∈ l, ∀ y ∈ l, x = y) :
    l.length ≤ 1 := by
  cases l with
  | nil => exact Nat.zero_le 1
  | cons x l =>
    cases l with
    | nil => exact Nat.le_refl 1
    | cons y l =>
      have hxy := h x List.mem_cons_self y (List.mem_cons_of_mem _ List.mem_cons_self)
      exact absurd (hxy ▸ List.mem_cons_self) (List.nodup_cons.mp hnodup).1

theorem Inv.listed_iff (h : Inv es s) (addr : Addr) :
    addr ∈ hostapdBssListBans s ↔ Wanted addr es := by
  constructor
  · intro hin
    obtain ⟨b, hb, rfl⟩ := List.mem_map.mp hin
    obtain ⟨t, -, -, hdue, time, since, hlast, hpos, hsum⟩ := h.ends b hb
    exact ⟨time, since, hlast, hpos, by omega⟩
  · intro hwanted
    obtain ⟨b, hb, heq⟩ := h.wanted addr hwanted
    exact List.mem_map.mpr ⟨b, hb, heq⟩

theorem found_iff (addr : Addr) :
    (s.banned.find? (·.addr = addr)).isSome = true ↔ addr ∈ hostapdBssListBans s := by
  rw [List.find?_isSome, hostapdBssListBans, List.mem_map]
  simp only [decide_eq_true_eq]

theorem Inv.follows (h : Inv es s) : Follows es s where
  listed := h.listed_iff
  rejected := by
    intro subs req hwanted
    exact if_pos ((found_iff _).mpr ((h.listed_iff _).mpr hwanted))
  accepted := by
    intro subs req hno
    exact if_neg fun hfound => hno ((h.listed_iff _).mp ((found_iff _).mp hfound))
  one_entry := by
    intro addr
    refine length_le_one ((List.Nodup.of_map _ h.addrs).filter _) fun b hb c hc => ?_
    obtain ⟨hb, hbaddr⟩ := List.mem_filter.mp hb
    obtain ⟨hc, hcaddr⟩ := List.mem_filter.mp hc
    exact h.same_addr hb hc ((of_decide_eq_true hbaddr).trans (of_decide_eq_true hcaddr).symm)
  one_timeout := by
    intro addr
    refine length_le_one ((List.Nodup.of_map _ h.timeouts).filter _) fun t ht u hu => ?_
    obtain ⟨ht, htaddr⟩ := List.mem_filter.mp ht
    obtain ⟨hu, huaddr⟩ := List.mem_filter.mp hu
    obtain ⟨b, hb, hbt⟩ := List.any_eq_true.mp htaddr
    obtain ⟨c, hc, hcu⟩ := List.any_eq_true.mp huaddr
    obtain ⟨hbptr, hbaddr⟩ := of_decide_eq_true hbt
    obtain ⟨hcptr, hcaddr⟩ := of_decide_eq_true hcu
    obtain rfl := h.same_addr hb hc (hbaddr.trans hcaddr.symm)
    exact h.same_ban ht hu (hbptr.symm.trans hcptr)
  live := h.live

end

section
variable {es : List Event} {s : State} {addr : Addr} {time : BitVec 32} {ptr : Nat}

/-- A ban is over when the microseconds that are left in 32 bits have passed. -/
theorem Inv.over (h : Inv es s) (hpos : 0 < time.toInt) :
    addr ∉ hostapdBssListBans
      ((hostapdBssBanClient s ptr addr time.toInt).pass (usecs time.toInt)) := by
  intro hin
  obtain ⟨b, hb, haddr⟩ := List.mem_map.mp hin
  obtain ⟨hb, hkept⟩ := mem_banned_pass.mp hb
  by_cases hbanned : ∃ b ∈ s.banned, b.addr = addr
  · obtain ⟨c, hc, rfl⟩ := hbanned
    rw [banClient_present h hc, if_neg (Int.not_le.mpr hpos)] at hb hkept
    obtain rfl := h.same_addr hb hc haddr
    exact hkept _ List.mem_cons_self (by simp [eloopRegisterTimeout, eloopCancelTimeout]) rfl
  · have hno : ∀ b ∈ s.banned, b.addr ≠ addr := fun b hb heq => hbanned ⟨b, hb, heq⟩
    rw [banClient_absent hno, if_neg (Int.not_le.mpr hpos)] at hb hkept
    obtain rfl | hb := (List.mem_orderedInsert _).mp hb
    · exact hkept _ List.mem_cons_self (by simp [eloopRegisterTimeout]) rfl
    · exact hno b hb haddr

/-- **Longer bans end early**: a ban whose microseconds do not fit 32 bits. -/
theorem Inv.not_follows (h : Inv es s) (hlong : 2 ^ 32 ≤ time.toInt * 1000) :
    ¬ Follows (.pass (usecs time.toInt) :: .request ⟨some addr, some time⟩ :: es)
      ((hostapdBssBanClient s ptr addr time.toInt).pass (usecs time.toInt)) := by
  intro hfollows
  refine h.over (by omega) ((hfollows.listed addr).mpr ⟨time.toInt, 0 + usecs time.toInt, ?_⟩)
  refine ⟨?_, by omega, ?_⟩
  · rw [lastBan, lastBan_request, if_pos rfl]
    rfl
  · have hlt : usecs time.toInt < 2 ^ 32 := BitVec.isLt _
    omega

end

/-- **Bans follow the requests**, in every run whose ban times fit 32 bits as microseconds. -/
theorem run_follows {es : List Event} {s : State} (h : Run es s) (hshort : Short es) :
    Follows es s := (inv_run h hshort).follows

/-- A client is banned for five milliseconds, and four pass. -/
theorem run_five : Run [.pass 4000, .request ⟨some 1, some 5⟩]
    ((hostapdBssDelClient init 0 ⟨some 1, some 5⟩).1.pass 4000) :=
  (Run.init.next (.request _ fun _ hb => absurd hb List.not_mem_nil)).next (.pass 4000)

theorem short_five : Short [.pass 4000, .request ⟨some 1, some 5⟩] := by
  intro addr time hin
  obtain hpass | hin := List.mem_cons.mp hin
  · cases hpass
  · cases List.mem_singleton.mp hin
    decide

theorem run_follows_five : Follows [.pass 4000, .request ⟨some 1, some 5⟩]
    ((hostapdBssDelClient init 0 ⟨some 1, some 5⟩).1.pass 4000) :=
  run_follows run_five short_five

/-- A ban of 4294968 milliseconds is over after 704 microseconds. -/
theorem not_run_follows : ¬ ∀ (es : List Event) (s : State), Run es s → Follows es s := by
  intro h
  have hrun : Run [.pass 1000, .request ⟨some 1, some 4294968⟩]
      ((hostapdBssDelClient init 0 ⟨some 1, some 4294968⟩).1.pass 1000) :=
    (Run.init.next (.request _ fun _ hb => absurd hb List.not_mem_nil)).next (.pass 1000)
  have hlisted := ((h _ _ hrun).listed 1).mpr ⟨4294968, 1000, by decide, by decide, by decide⟩
  revert hlisted
  decide

end UolaOs.Hostapd
