import UolaOs.Lib.CString

/-!
# The list of switches

The dump of swconfig.c: `swconfig_dump_switches` puts a record for each switch into a message, and
the next call goes on behind the last switch that was looked at.

* `sendSwitch_cases`: a record is whole, cut short, or not sent;
* `dump_iff`: when the dump has all switches.
-/

namespace UolaOs.Switch

/-! ## Messages -/

/-- `nla_total_size`: an attribute with its header and padding. -/
def nlaTotalSize (payload : Nat) : Nat := roundUp (4 + payload) 4

/-- `nlmsg_total_size` of a generic netlink header. -/
def genlmsgSize : Nat := 20

/-- Attributes that are put one behind the other: what is left of the room, and whether all fit. -/
def nlaPut : Nat → List Nat → Nat × Bool
  | room, [] => (room, true)
  | room, n :: ns =>
    if room < nlaTotalSize n then (room, false) else nlaPut (room - nlaTotalSize n) ns

/-- `struct switch_portmap` -/
structure Portmap where
  virt : UInt32
  s : Option CStr
  deriving DecidableEq

/-- `struct switch_dev`, with a port for each entry of the map. -/
structure SwitchDev where
  id : UInt32
  devname : CStr
  aliasName : CStr
  name : CStr
  vlans : UInt32
  cpuPort : UInt32
  portmap : List Portmap
  deriving DecidableEq

/-- What a message says of a switch. -/
structure Record where
  id : UInt32
  devname : CStr
  aliasName : CStr
  name : CStr
  vlans : UInt32
  ports : UInt32
  cpuPort : UInt32
  portmap : List (Option (CStr × UInt32))
  deriving DecidableEq

/-- `struct sk_buff` -/
structure Skb where
  size : Nat
  room : Nat
  records : List Record
  deriving DecidableEq

/-- `skb->len` -/
def Skb.len (skb : Skb) : Nat := skb.size - skb.room

def Skb.empty (size : Nat) : Skb := ⟨size, size, []⟩

/-! ## `swconfig_send_switch` -/

def SwitchDev.record (dev : SwitchDev) (portmap : List (Option (CStr × UInt32))) : Record :=
  ⟨dev.id, dev.devname, dev.aliasName, dev.name, dev.vlans, UInt32.ofNat dev.portmap.length,
    dev.cpuPort, portmap⟩

/-- The attributes before the ports, and the start of the nest. -/
def SwitchDev.attrs (dev : SwitchDev) : List Nat :=
  [4, dev.devname.length + 1, dev.aliasName.length + 1, dev.name.length + 1, 4, 4, 4, 0]

/-- The loop over the ports. A nest that cannot be started is left out. -/
def sendPortmap : Nat → List Portmap → Option (Nat × List (Option (CStr × UInt32)))
  | room, [] => some (room, [])
  | room, p :: ps =>
    if room < nlaTotalSize 0 then sendPortmap room ps
    else
      match p.s with
      | none => (sendPortmap (room - nlaTotalSize 0) ps).map fun r => (r.1, none :: r.2)
      | some s =>
        let put := nlaPut (room - nlaTotalSize 0) [s.length + 1, 4]
        if put.2 = false then none
        else (sendPortmap put.1 ps).map fun r => (r.1, some (s, p.virt) :: r.2)

/-- `swconfig_send_switch`: whether the record is in the message, and the message. -/
def sendSwitch (skb : Skb) (dev : SwitchDev) : Bool × Skb :=
  -- without room for a header genlmsg_put returns NULL, which is no error pointer
  let hdr := decide (genlmsgSize ≤ skb.room)
  let put := nlaPut (if hdr = true then skb.room - genlmsgSize else skb.room) dev.attrs
  match if put.2 = true then sendPortmap put.1 dev.portmap else none with
  | some (room, portmap) =>
    (true, { skb with room := room, records := skb.records ++ [dev.record portmap] })
  | none =>
    -- genlmsg_cancel trims the message, or keeps it when the header is NULL
    (false, if hdr = true then skb else { skb with room := put.1 })

/-! ## `swconfig_dump_switches` -/

/-- The loop over the switches: `idx` and the message after it. -/
def dumpLoop (start : Nat) : Nat → List SwitchDev → Skb → Nat × Skb
  | idx, [], skb => (idx, skb)
  | idx, dev :: devs, skb =>
    if idx + 1 ≤ start then dumpLoop start (idx + 1) devs skb
    else
      let sent := sendSwitch skb dev
      if sent.1 = false then (idx + 1, sent.2) else dumpLoop start (idx + 1) devs sent.2

/-- `swconfig_dump_switches` on a message of `size` bytes: the next `cb->args[0]`, and the
message. -/
def dumpSwitches (devs : List SwitchDev) (start size : Nat) : Nat × Skb :=
  dumpLoop start 0 devs (Skb.empty size)

/-- The records of the messages from the `k`-th on, until one is empty. -/
def dump (devs : List SwitchDev) (sizes : Nat → Nat) :
    Nat → Nat → Nat → Option (List Record)
  | 0, _, _ => none
  | fuel + 1, k, start =>
    let r := dumpSwitches devs start (sizes k)
    if r.2.len = 0 then some []
    else (dump devs sizes fuel (k + 1) r.1).map fun records => r.2.records ++ records

/-! ## Sizes -/

/-- The port with its nest. -/
def Portmap.total (p : Portmap) : Nat :=
  nlaTotalSize 0 + p.s.elim 0 fun s => nlaTotalSize (s.length + 1) + nlaTotalSize 4

/-- What the message says of the port. -/
def Portmap.entry (p : Portmap) : Option (CStr × UInt32) := p.s.map fun s => (s, p.virt)

/-- The record without its ports. -/
def SwitchDev.head (dev : SwitchDev) : Nat := genlmsgSize + (dev.attrs.map nlaTotalSize).sum

/-- The size of a whole record. -/
def SwitchDev.total (dev : SwitchDev) : Nat := dev.head + (dev.portmap.map Portmap.total).sum

/-- The whole record. -/
def SwitchDev.whole (dev : SwitchDev) : Record := dev.record (dev.portmap.map Portmap.entry)

/-- Each port that is started can be finished. -/
def FitsPorts : Nat → List Portmap → Prop
  | _, [] => True
  | room, p :: ps => room < nlaTotalSize 0 ∨ p.total ≤ room ∧ FitsPorts (room - p.total) ps

/-- A record fits, possibly without the last ports. -/
def SwitchDev.Fits (room : Nat) (dev : SwitchDev) : Prop :=
  dev.head ≤ room ∧ FitsPorts (room - dev.head) dev.portmap

/-- All records fit into one message. -/
def FitsAll : Nat → List SwitchDev → Prop
  | _, [] => True
  | room, dev :: devs => dev.Fits room ∧ FitsAll (room - dev.total) devs

theorem nlaTotalSize_pos (n : Nat) : 4 ≤ nlaTotalSize n :=
  Nat.le_trans (Nat.le_add_right 4 n) (le_roundUp _ (by decide))

/-! ## One record -/

theorem nlaPut_of_le {room : Nat} {ns : List Nat} (h : (ns.map nlaTotalSize).sum ≤ room) :
    nlaPut room ns = (room - (ns.map nlaTotalSize).sum, true) := by
  induction ns generalizing room with
  | nil => rfl
  | cons n ns ih =>
    rw [List.map_cons, List.sum_cons] at h ⊢
    rw [nlaPut, if_neg (by omega), ih (by omega), Nat.sub_sub]

theorem nlaPut_of_lt {room : Nat} {ns : List Nat} (h : room < (ns.map nlaTotalSize).sum) :
    (nlaPut room ns).2 = false := by
  induction ns generalizing room with
  | nil => exact absurd h (Nat.not_lt_zero room)
  | cons n ns ih =>
    rw [List.map_cons, List.sum_cons] at h
    rw [nlaPut]
    split
    · rfl
    · exact ih (by omega)

theorem nlaPut_le (room : Nat) (ns : List Nat) : (nlaPut room ns).1 ≤ room := by
  induction ns generalizing room with
  | nil => exact Nat.le_refl _
  | cons n ns ih =>
    rw [nlaPut]
    split
    · exact Nat.le_refl _
    · exact Nat.le_trans (ih _) (Nat.sub_le _ _)

section
variable {room : Nat} {ps : List Portmap}

/-- A port that is started: it fails, or takes its size. -/
theorem sendPortmap_cons {p : Portmap} (h : nlaTotalSize 0 ≤ room) :
    sendPortmap room (p :: ps) =
      if p.total ≤ room then
        (sendPortmap (room - p.total) ps).map fun r => (r.1, p.entry :: r.2)
      else none := by
  rw [sendPortmap, if_neg (by omega), Portmap.total, Portmap.entry]
  cases p.s with
  | none =>
    rw [Option.elim_none, Nat.add_zero, if_pos h]
    rfl
  | some s =>
    have hsum : ([s.length + 1, 4].map nlaTotalSize).sum =
        nlaTotalSize (s.length + 1) + nlaTotalSize 4 := rfl
    rw [Option.elim_some]
    by_cases hfit : nlaTotalSize 0 + (nlaTotalSize (s.length + 1) + nlaTotalSize 4) ≤ room
    · dsimp only
      rw [if_pos hfit, nlaPut_of_le (by omega), if_neg Bool.noConfusion, hsum, Nat.sub_sub]
      rfl
    · dsimp only
      rw [if_neg hfit, if_pos (nlaPut_of_lt (by omega))]

/-- Without room for a nest nothing is sent. -/
theorem sendPortmap_of_lt (h : room < nlaTotalSize 0) : sendPortmap room ps = some (room, []) := by
  induction ps with
  | nil => rfl
  | cons p ps ih => rw [sendPortmap, if_pos h, ih]

theorem le_total (p : Portmap) : nlaTotalSize 0 ≤ p.total := Nat.le_add_right _ _

theorem sendPortmap_none (h : ¬ FitsPorts room ps) : sendPortmap room ps = none := by
  induction ps generalizing room with
  | nil => exact absurd trivial h
  | cons p ps ih =>
    rw [FitsPorts, not_or] at h
    obtain ⟨hroom, hrest⟩ := h
    rw [sendPortmap_cons (by omega)]
    split
    · rename_i hp
      rw [ih fun hfit => hrest ⟨hp, hfit⟩, Option.map_none]
    · rfl

theorem sendPortmap_whole (h : (ps.map Portmap.total).sum ≤ room) :
    FitsPorts room ps ∧ sendPortmap room ps =
      some (room - (ps.map Portmap.total).sum, ps.map Portmap.entry) := by
  induction ps generalizing room with
  | nil => exact ⟨trivial, rfl⟩
  | cons p ps ih =>
    rw [List.map_cons, List.sum_cons] at h
    have hp := le_total p
    obtain ⟨hfits, hsend⟩ := ih (show _ ≤ room - p.total by omega)
    refine ⟨.inr ⟨by omega, hfits⟩, ?_⟩
    rw [sendPortmap_cons (by omega), if_pos (by omega), hsend, List.map_cons, List.map_cons,
      List.sum_cons, Nat.sub_sub]
    rfl

/-- The last ports are missing, and there is no room for more. -/
theorem sendPortmap_cut (hfits : FitsPorts room ps) (h : room < (ps.map Portmap.total).sum) :
    ∃ r entries, sendPortmap room ps = some (r, entries) ∧ r < nlaTotalSize 0 ∧ r ≤ room ∧
      entries.length < ps.length := by
  induction ps generalizing room with
  | nil => exact absurd h (Nat.not_lt_zero room)
  | cons p ps ih =>
    rw [List.map_cons, List.sum_cons] at h
    rcases hfits with hroom | ⟨hp, hfits⟩
    · exact ⟨room, [], sendPortmap_of_lt hroom, hroom, Nat.le_refl _, Nat.succ_pos _⟩
    · have hle := le_total p
      obtain ⟨r, entries, hsend, hr, hroom, hlen⟩ := ih hfits (by omega)
      refine ⟨r, p.entry :: entries, ?_, hr, by omega, Nat.succ_lt_succ hlen⟩
      rw [sendPortmap_cons (by omega), if_pos hp, hsend]
      rfl

end

section
variable {skb : Skb} {dev : SwitchDev}

/-- What becomes of a record. -/
inductive Sent (skb : Skb) (dev : SwitchDev) : Bool × Skb → Prop
  | whole (h : dev.total ≤ skb.room) (hfits : dev.Fits skb.room) :
      Sent skb dev (true, ⟨skb.size, skb.room - dev.total, skb.records ++ [dev.whole]⟩)
  | cut {room : Nat} {portmap : List (Option (CStr × UInt32))} (h : skb.room < dev.total)
      (hfits : dev.Fits skb.room) (hroom : room < nlaTotalSize 0) (hle : room ≤ skb.room)
      (hlen : portmap.length < dev.portmap.length) :
      Sent skb dev (true, ⟨skb.size, room, skb.records ++ [dev.record portmap]⟩)
  | failed {room : Nat} (hfits : ¬ dev.Fits skb.room) (hle : room ≤ skb.room) :
      Sent skb dev (false, ⟨skb.size, room, skb.records⟩)

theorem genlmsgSize_lt (dev : SwitchDev) : genlmsgSize < (dev.attrs.map nlaTotalSize).sum := by
  have h4 : nlaTotalSize 4 = 8 := rfl
  have h0 : nlaTotalSize 0 = 4 := rfl
  simp only [SwitchDev.attrs, List.map_cons, List.map_nil, List.sum_cons, List.sum_nil, h4, h0,
    genlmsgSize]
  omega

theorem sendSwitch_cases (skb : Skb) (dev : SwitchDev) : Sent skb dev (sendSwitch skb dev) := by
  have hhead : dev.head = genlmsgSize + (dev.attrs.map nlaTotalSize).sum := rfl
  have htotal : dev.total = dev.head + (dev.portmap.map Portmap.total).sum := rfl
  have hattrs := genlmsgSize_lt dev
  rw [sendSwitch]
  by_cases hhdr : genlmsgSize ≤ skb.room
  · simp only [hhdr, decide_true, if_true]
    by_cases hle : dev.head ≤ skb.room
    · have hroom : skb.room - genlmsgSize - (dev.attrs.map nlaTotalSize).sum =
          skb.room - dev.head := by omega
      rw [nlaPut_of_le (by omega), hroom]
      simp only [if_true]
      by_cases hfits : FitsPorts (skb.room - dev.head) dev.portmap
      · by_cases hall : (dev.portmap.map Portmap.total).sum ≤ skb.room - dev.head
        · rw [(sendPortmap_whole hall).2, Nat.sub_sub, ← htotal]
          exact .whole (by omega) ⟨hle, hfits⟩
        · obtain ⟨r, entries, hsend, hr, hroom, hlen⟩ := sendPortmap_cut hfits (by omega)
          rw [hsend]
          exact .cut (by omega) ⟨hle, hfits⟩ hr (by omega) hlen
      · rw [sendPortmap_none hfits]
        exact .failed (fun h => hfits h.2) (Nat.le_refl _)
    · rw [nlaPut_of_lt (by omega)]
      exact .failed (fun h => hle h.1) (Nat.le_refl _)
  · simp only [hhdr, decide_false, Bool.false_eq_true, if_false]
    -- the first attributes are as large as the header
    rw [nlaPut_of_lt (by omega)]
    exact .failed (fun h => by have := h.1; omega) (nlaPut_le _ _)

end

/-! ## One message -/

section
variable {devs : List SwitchDev} {start idx size : Nat} {skb : Skb}

/-- The switches up to `start` are passed over. -/
theorem dumpLoop_skip (h : idx ≤ start) (skb : Skb) :
    dumpLoop start idx devs skb =
      dumpLoop start (idx + min devs.length (start - idx)) (devs.drop (start - idx)) skb := by
  induction devs generalizing idx with
  | nil => rw [List.length_nil, Nat.zero_min, Nat.add_zero, List.drop_nil]
  | cons dev devs ih =>
    rcases Nat.eq_or_lt_of_le h with rfl | hlt
    · rw [Nat.sub_self, Nat.min_zero, Nat.add_zero, List.drop_zero]
    · have hsub : start - idx = start - (idx + 1) + 1 := by omega
      have hmin : idx + min (dev :: devs).length (start - (idx + 1) + 1) =
          idx + 1 + min devs.length (start - (idx + 1)) := by
        rw [List.length_cons]
        omega
      have hskip : idx + 1 ≤ start := hlt
      rw [dumpLoop, if_pos hskip, ih hskip, hsub, List.drop_succ_cons, hmin]

/-- What a call puts into a message: all that is left, or `k` records of more. -/
inductive Dumped (devs : List SwitchDev) (idx : Nat) (skb : Skb) : Nat × Skb → Prop
  | all {room : Nat} {records : List Record} (hfits : FitsAll skb.room devs) (hle : room ≤ skb.room)
      (hid : records.map Record.id = devs.map SwitchDev.id)
      (hwhole : records = devs.map SwitchDev.whole ↔
        (devs.map SwitchDev.total).sum ≤ skb.room) :
      Dumped devs idx skb (idx + devs.length, ⟨skb.size, room, skb.records ++ records⟩)
  | lost {room k : Nat} {records : List Record} (hfits : ¬ FitsAll skb.room devs)
      (hle : room ≤ skb.room) (hk : k < devs.length) (hlen : records.length = k) :
      Dumped devs idx skb (idx + k + 1, ⟨skb.size, room, skb.records ++ records⟩)

theorem record_ne_whole {dev : SwitchDev} {portmap : List (Option (CStr × UInt32))}
    (h : portmap.length < dev.portmap.length) : dev.record portmap ≠ dev.whole := by
  intro heq
  have hmap : portmap = dev.portmap.map Portmap.entry := congrArg Record.portmap heq
  rw [hmap, List.length_map] at h
  exact Nat.lt_irrefl _ h

/-- Behind a record that is cut short nothing fits. -/
theorem not_fits {room : Nat} (h : room < nlaTotalSize 0) (dev : SwitchDev) : ¬ dev.Fits room := by
  intro hfits
  have hhead := hfits.1
  have h4 : nlaTotalSize 0 = 4 := rfl
  rw [SwitchDev.head, genlmsgSize] at hhead
  omega

theorem fitsAll_iff_nil {room : Nat} (h : room < nlaTotalSize 0) :
    FitsAll room devs ↔ devs = [] := by
  cases devs with
  | nil => exact ⟨fun _ => rfl, fun _ => trivial⟩
  | cons dev devs => exact ⟨fun hfits => absurd hfits.1 (not_fits h dev), fun h => by cases h⟩

/-- A record in front of what is sent then. -/
theorem Dumped.cons {dev : SwitchDev} {record : Record} {room : Nat} {r : Nat × Skb}
    (h : Dumped devs (idx + 1) ⟨skb.size, room, skb.records ++ [record]⟩ r)
    (hid : record.id = dev.id) (hle : room ≤ skb.room) (hfits : dev.Fits skb.room)
    (hsame : FitsAll room devs ↔ FitsAll (skb.room - dev.total) devs)
    (hwhole : (record = dev.whole ∧ (devs.map SwitchDev.total).sum ≤ room) ↔
      dev.total + (devs.map SwitchDev.total).sum ≤ skb.room) :
    Dumped (dev :: devs) idx skb r := by
  cases h with
  | @all room' records hall hle' hids hrest =>
    have hdumped : Dumped (dev :: devs) idx skb
        (idx + (devs.length + 1), ⟨skb.size, room', skb.records ++ (record :: records)⟩) := by
      refine .all ⟨hfits, hsame.mp hall⟩ (Nat.le_trans hle' hle) ?_ ?_
      · rw [List.map_cons, List.map_cons, hid, hids]
      · rw [List.map_cons, List.map_cons, List.sum_cons, List.cons_eq_cons, hrest]
        exact hwhole
    rw [List.append_cons, Nat.add_comm devs.length, ← Nat.add_assoc] at hdumped
    exact hdumped
  | @lost room' k records hall hle' hk hlen =>
    have hdumped : Dumped (dev :: devs) idx skb
        (idx + (k + 1) + 1, ⟨skb.size, room', skb.records ++ (record :: records)⟩) :=
      .lost (fun h => hall (hsame.mpr h.2)) (Nat.le_trans hle' hle) (Nat.succ_lt_succ hk)
        (congrArg Nat.succ hlen)
    rw [List.append_cons, Nat.add_comm k, ← Nat.add_assoc] at hdumped
    exact hdumped

theorem Dumped.room_le {r : Nat × Skb} (h : Dumped devs idx skb r) :
    r.2.size = skb.size ∧ r.2.room ≤ skb.room := by
  cases h with
  | all _ hle => exact ⟨rfl, hle⟩
  | lost _ hle => exact ⟨rfl, hle⟩

theorem dumpLoop_dumped (h : start ≤ idx) (skb : Skb) :
    Dumped devs idx skb (dumpLoop start idx devs skb) := by
  induction devs generalizing idx skb with
  | nil =>
    have hall : Dumped [] idx skb (idx + 0, ⟨skb.size, skb.room, skb.records ++ []⟩) :=
      .all trivial (Nat.le_refl _) rfl ⟨fun _ => Nat.zero_le _, fun _ => rfl⟩
    rwa [List.append_nil] at hall
  | cons dev devs ih =>
    rw [dumpLoop, if_neg (by omega)]
    have hsent := sendSwitch_cases skb dev
    generalize sendSwitch skb dev = sent at hsent ⊢
    cases hsent with
    | @failed room hfits hle =>
      have hlost : Dumped (dev :: devs) idx skb
          (idx + 0 + 1, ⟨skb.size, room, skb.records ++ []⟩) :=
        .lost (fun h : FitsAll skb.room (dev :: devs) => hfits h.1) hle (Nat.succ_pos _) rfl
      rwa [List.append_nil] at hlost
    | whole htotal hfits =>
      exact (ih (by omega) _).cons rfl (Nat.sub_le _ _) hfits Iff.rfl
        ⟨fun h => by have := h.2; omega, fun h => ⟨rfl, by omega⟩⟩
    | cut hlt hfits hroom hle hlen =>
      have hzero : skb.room - dev.total < nlaTotalSize 0 := by
        have h4 : nlaTotalSize 0 = 4 := rfl
        omega
      exact (ih (by omega) _).cons rfl hle hfits
        ((fitsAll_iff_nil hroom).trans (fitsAll_iff_nil hzero).symm)
        ⟨fun h => absurd h.1 (record_ne_whole hlen), fun h => by omega⟩

end

/-! ## A whole dump -/

section
variable {devs : List SwitchDev} {sizes : Nat → Nat}

theorem dumpSwitches_eq (devs : List SwitchDev) {start : Nat} (h : start ≤ devs.length)
    (size : Nat) :
    dumpSwitches devs start size = dumpLoop start start (devs.drop start) (Skb.empty size) := by
  rw [dumpSwitches, dumpLoop_skip (Nat.zero_le _), Nat.sub_zero, Nat.min_eq_right h, Nat.zero_add]

theorem dump_succ (fuel k start : Nat) :
    dump devs sizes (fuel + 1) k start =
      if (dumpSwitches devs start (sizes k)).2.len = 0 then some []
      else (dump devs sizes fuel (k + 1) (dumpSwitches devs start (sizes k)).1).map fun records =>
        (dumpSwitches devs start (sizes k)).2.records ++ records := rfl

/-- At the end of the list a message stays empty. -/
theorem dump_end (fuel k : Nat) : dump devs sizes (fuel + 1) k devs.length = some [] := by
  rw [dump_succ, dumpSwitches_eq devs (Nat.le_refl _), List.drop_length, dumpLoop, if_pos]
  exact Nat.sub_self _

theorem fits_of_le {room : Nat} {dev : SwitchDev} (h : dev.total ≤ room) : dev.Fits room := by
  rw [SwitchDev.total] at h
  exact ⟨by omega, (sendPortmap_whole (by omega)).1⟩

theorem total_pos (dev : SwitchDev) : 0 < dev.total := by
  rw [SwitchDev.total, SwitchDev.head, genlmsgSize]
  omega

/-- A message that is not empty. -/
theorem len_ne_zero {start size : Nat} (hsize : ∀ dev ∈ devs, dev.total ≤ size)
    (h : start < devs.length) : (dumpSwitches devs start size).2.len ≠ 0 := by
  have hle := hsize devs[start] (List.getElem_mem h)
  have hpos := total_pos devs[start]
  rw [dumpSwitches_eq devs (Nat.le_of_lt h), List.drop_eq_getElem_cons h, dumpLoop,
    if_neg (Nat.not_succ_le_self start)]
  generalize devs[start] = dev at hle hpos ⊢
  have hsent := sendSwitch_cases (Skb.empty size) dev
  generalize sendSwitch (Skb.empty size) dev = sent at hsent ⊢
  have hroom : (Skb.empty size).room = size := rfl
  cases hsent with
  | failed hfits => exact absurd (fits_of_le hle) hfits
  | cut hlt => omega
  | whole =>
    -- what follows leaves no more room
    rw [if_neg Bool.noConfusion, hroom]
    have hrest : Dumped (devs.drop (start + 1)) (start + 1) _ _ :=
      dumpLoop_dumped (Nat.le_succ start)
        ⟨size, size - dev.total, (Skb.empty size).records ++ [dev.whole]⟩
    obtain ⟨hsize', hleft⟩ := hrest.room_le
    have hless : size - dev.total < size := by omega
    exact Nat.sub_ne_zero_of_lt ((Nat.lt_of_le_of_lt hleft hless).trans_eq hsize'.symm)

/-- What is sent from a switch on. -/
theorem dump_length (hsizes : ∀ k, ∀ dev ∈ devs, dev.total ≤ sizes k) {fuel k start : Nat}
    (hstart : start ≤ devs.length) (hfuel : devs.length - start < fuel) :
    ∃ records, dump devs sizes fuel k start = some records ∧
      records.length ≤ devs.length - start := by
  induction fuel generalizing k start with
  | zero => omega
  | succ fuel ih =>
    rcases Nat.eq_or_lt_of_le hstart with rfl | hlt
    · exact ⟨[], dump_end _ _, Nat.zero_le _⟩
    · have hlen := len_ne_zero (hsizes k) hlt
      have hdumped : Dumped (devs.drop start) start _ _ :=
        dumpLoop_dumped (Nat.le_refl start) (Skb.empty (sizes k))
      rw [← dumpSwitches_eq devs hstart] at hdumped
      rw [dump_succ, if_neg hlen]
      generalize dumpSwitches devs start (sizes k) = r at hdumped
      have hdrop : (devs.drop start).length = devs.length - start := List.length_drop
      cases hdumped with
      | @all room records hfits hle hid hwhole =>
        have hcount := congrArg List.length hid
        rw [List.length_map, List.length_map, hdrop] at hcount
        obtain ⟨rest, hrest, hle⟩ := ih (k := k + 1)
          (show start + (devs.drop start).length ≤ devs.length by omega) (by omega)
        refine ⟨records ++ rest, ?_, ?_⟩
        · dsimp only
          rw [hrest]
          rfl
        · rw [List.length_append]
          omega
      | @lost room j records hfits hle hj hcount =>
        obtain ⟨rest, hrest, hle⟩ := ih (k := k + 1)
          (show start + j + 1 ≤ devs.length by omega) (by omega)
        refine ⟨records ++ rest, ?_, ?_⟩
        · dsimp only
          rw [hrest]
          rfl
        · rw [List.length_append]
          omega

theorem fitsAll_of_le {room : Nat} (h : (devs.map SwitchDev.total).sum ≤ room) :
    FitsAll room devs := by
  induction devs generalizing room with
  | nil => trivial
  | cons dev devs ih =>
    rw [List.map_cons, List.sum_cons] at h
    exact ⟨fits_of_le (by omega), ih (by omega)⟩

/-- **Completeness.** With messages that have room for each record, all switches are dumped if and
only if one message has room for all of them, and whole if it has room for all whole records. -/
theorem dump_iff (hsizes : ∀ k, ∀ dev ∈ devs, dev.total ≤ sizes k) :
    ∃ records, dump devs sizes (devs.length + 1) 0 0 = some records ∧
      (records.map Record.id = devs.map SwitchDev.id ↔ FitsAll (sizes 0) devs) ∧
      (records = devs.map SwitchDev.whole ↔ (devs.map SwitchDev.total).sum ≤ sizes 0) := by
  cases devs with
  | nil =>
    exact ⟨[], dump_end 0 0, ⟨fun _ => trivial, fun _ => rfl⟩,
      ⟨fun _ => Nat.zero_le _, fun _ => rfl⟩⟩
  | cons dev tail =>
    generalize hdevs : dev :: tail = devs at hsizes ⊢
    have hpos : 0 < devs.length := by
      rw [← hdevs]
      exact Nat.succ_pos _
    have hdumped : Dumped devs 0 _ _ := dumpLoop_dumped (Nat.le_refl 0) (Skb.empty (sizes 0))
    rw [← dumpSwitches] at hdumped
    rw [dump_succ, if_neg (len_ne_zero (hsizes 0) hpos)]
    generalize dumpSwitches devs 0 (sizes 0) = r at hdumped
    cases hdumped with
    | @all room records hfits hle hid hwhole =>
      have hend : dump devs sizes devs.length 1 (0 + devs.length) = some [] := by
        obtain ⟨n, hn⟩ := Nat.exists_eq_succ_of_ne_zero (Nat.ne_of_gt hpos)
        have hstop : dump devs sizes (n + 1) 1 devs.length = some [] := dump_end n 1
        rw [← Nat.succ_eq_add_one, ← hn] at hstop
        rwa [Nat.zero_add]
      refine ⟨records, ?_, ⟨fun _ => hfits, fun _ => hid⟩, hwhole⟩
      dsimp only
      rw [hend, Option.map_some, List.append_nil]
      rfl
    | @lost room j records hfits hle hj hcount =>
      have hmore : ∃ rest, dump devs sizes devs.length 1 (0 + j + 1) = some rest ∧
          rest.length ≤ devs.length - (0 + j + 1) := dump_length hsizes (by omega) (by omega)
      obtain ⟨rest, hrest, hlen⟩ := hmore
      -- a switch was passed over, so there are too few records
      have hshort : (records ++ rest).length < devs.length := by
        rw [List.length_append]
        omega
      refine ⟨records ++ rest, ?_, ⟨fun hid => ?_, fun h => absurd h hfits⟩,
        ⟨fun hwhole => ?_, fun h => absurd (fitsAll_of_le h) hfits⟩⟩
      · dsimp only
        rw [hrest]
        rfl
      · have heq := congrArg List.length hid
        rw [List.length_map, List.length_map] at heq
        omega
      · have heq := congrArg List.length hwhole
        rw [List.length_map] at heq
        omega

end

section

def twoSwitches : List SwitchDev :=
  [⟨0, CStr.empty, CStr.empty, CStr.empty, 16, 5, []⟩,
    ⟨1, CStr.empty, CStr.empty, CStr.empty, 16, 5, [⟨0, none⟩]⟩]

/-- One message has room for both. -/
theorem dump_twoSwitches :
    dump twoSwitches (fun _ => 164) 3 0 0 = some (twoSwitches.map SwitchDev.whole) := by
  have hsizes : ∀ _ : Nat, ∀ dev ∈ twoSwitches, dev.total ≤ 164 := fun _ => by decide
  obtain ⟨records, hdump, -, hwhole⟩ := dump_iff hsizes
  rw [← hwhole.mpr (by decide)]
  exact hdump

/-- With messages for one switch, the second one is lost. -/
theorem dump_lost :
    (∀ dev ∈ twoSwitches, dev.total ≤ 100) ∧
      dump twoSwitches (fun _ => 100) 3 0 0 = some ((twoSwitches.take 1).map SwitchDev.whole) := by
  decide

end

end UolaOs.Switch
