import UolaOs.Lib.Buffer
import UolaOs.Lib.Numeral
import UolaOs.Lib.Text
import UolaOs.Swconfig.SetPorts
import UolaOs.Switch.Dump

/-!
# Port lists between swlib and the kernel

The lists of ports of swconfig.c and of swlib.c, and the messages between them, which are shorter
than 2 ^ 16 bytes.

* `getAttr_eq`: what the kernel sends, when it fits into one message;
* `parseText_eq`: the texts that are accepted;
* `transport_iff`: when a list arrives.
-/

namespace UolaOs.Swconfig

open Switch (nlaPut nlaTotalSize genlmsgSize nlaPut_of_le nlaPut_of_lt)

/-! ## Ports in a message -/

/-- `SWLIB_PORT_FLAG_TAGGED` -/
def swlibPortFlagTagged : UInt32 := 1

/-- What a `SWITCH_ATTR_PORT` nest says. -/
structure PortEntry where
  id : UInt32
  tagged : Bool
  deriving DecidableEq

/-- The nest of a port, by the flag of the program that writes it. -/
def SwitchPort.entry (mask : UInt32) (p : SwitchPort) : PortEntry := ⟨p.id, p.flags &&& mask != 0⟩

/-- The port of a nest, with the flag of the program that reads it. -/
def PortEntry.port (mask : UInt32) (e : PortEntry) : SwitchPort :=
  ⟨e.id, if e.tagged = true then mask else 0⟩

/-- The attributes of a nest: its header, the id and the flag. -/
def PortEntry.attrs (e : PortEntry) : List Nat := 0 :: 4 :: if e.tagged = true then [0] else []

/-- The size of a nest. -/
def PortEntry.size (e : PortEntry) : Nat := (e.attrs.map nlaTotalSize).sum

/-- What the programs are built with: the room of `nlmsg_new(NLMSG_GOODSIZE)` and of `nlmsg_alloc`,
and the largest `unsigned long`. -/
structure Sizes where
  kernel : Nat
  user : Nat
  ulongMax : Nat
  kernel_large : 64 ≤ kernel
  user_large : 64 ≤ user
  ulong_large : 2 ^ 32 - 1 ≤ ulongMax

/-! ## The kernel sends a list -/

inductive Failure where
  | einval
  | eopnotsupp
  /-- An access to a message that was sent. -/
  | stale
  deriving DecidableEq

/-- A message: its room, the ports that are not in the list, and the list with the room before it,
unless it was cancelled. -/
structure Msg where
  room : Nat
  loose : List PortEntry
  list : Option (Nat × List PortEntry)
  deriving DecidableEq

/-- `struct swconfig_callback`: the message, how many were sent before it, and in which of them
`nest[0]` is. -/
structure Callback where
  msg : Msg
  sent : List Msg
  nest : Option Nat

section
variable (size : Nat)

/-- `nla_nest_start` for the list -/
def Callback.nestStart (cb : Callback) : Option Callback :=
  if cb.msg.room < nlaTotalSize 0 then none
  else
    some
      { cb with
        msg := { cb.msg with
          room := cb.msg.room - nlaTotalSize 0
          list := some (cb.msg.room, []) }
        nest := some cb.sent.length }

/-- `nla_nest_cancel` for the list, which takes all of its ports away. -/
def Callback.nestCancel (cb : Callback) : Except Failure Callback :=
  match cb.nest with
  | none => .ok cb
  | some n =>
    if n = cb.sent.length then
      match cb.msg.list with
      | none => .ok cb
      | some (room, _) => .ok { cb with msg := { cb.msg with room := room, list := none } }
    else .error .stale

/-- A port behind the others, in the list when it is open in this message. -/
def Callback.put (cb : Callback) (room : Nat) (e : PortEntry) : Callback :=
  match cb.msg.list with
  | some (before, es) =>
    { cb with msg := { cb.msg with room := room, list := some (before, es ++ [e]) } }
  | none => { cb with msg := { cb.msg with room := room, loose := cb.msg.loose ++ [e] } }

/-- `swconfig_send_port` where `nest[0]` is set -/
def Callback.putPort (cb : Callback) (port : SwitchPort) : Except Failure (Bool × Callback) :=
  let e := port.entry switchPortFlagTagged
  let put := nlaPut cb.msg.room e.attrs
  if put.2 = true then .ok (true, cb.put put.1 e)
  else cb.nestCancel.map fun cb => (false, cb)

/-- `swconfig_send_port` -/
def sendPort (cb : Callback) (port : SwitchPort) : Except Failure (Bool × Callback) :=
  match cb.nest with
  | some _ => cb.putPort port
  | none =>
    match cb.nestStart with
    | none => .ok (false, cb)
    | some cb => cb.putPort port

/-- `swconfig_close_portlist` -/
def closePortlist (cb : Callback) : Except Failure Unit :=
  match cb.nest with
  | none => .ok ()
  | some n => if n = cb.sent.length then .ok () else .error .stale

/-- `swconfig_send_multipart` with `swconfig_send_port`: whether the port is in a message. -/
def sendMultipart (cb : Callback) (port : SwitchPort) : Except Failure (Bool × Callback) := do
  let r ← sendPort cb port
  if r.1 = true then return r
  else
    closePortlist r.2
    -- the message is sent without its header being finished, and the next one has no header
    sendPort { r.2 with msg := ⟨size, [], none⟩, sent := r.2.sent ++ [r.2.msg] } port

/-- The loop of `swconfig_send_ports` -/
def sendLoop : List SwitchPort → Callback → Except Failure (Bool × Callback)
  | [], cb => .ok (true, cb)
  | p :: ps, cb => do
    let r ← sendMultipart size cb p
    if r.1 = true then sendLoop ps r.2 else return r

/-- `swconfig_send_ports`, and the messages that `swconfig_get_attr` has sent after it. -/
def sendPorts (ports : List SwitchPort) : Except Failure (List Msg) := do
  let cb : Callback := ⟨⟨size - genlmsgSize, [], none⟩, [], none⟩
  let r ← sendLoop size ports (cb.nestStart.getD cb)
  -- the first message is freed when the list is not sent
  if r.1 = false then .error .stale
  else
    closePortlist r.2
    -- the header that is finished is that of the first message
    if r.2.sent.length ≠ 0 then .error .stale else return r.2.sent ++ [r.2.msg]

end

section
variable {σ : Type} (sz : Sizes) (dev : Device σ)

/-- `swconfig_get_attr` for the ports of a VLAN, with the driver's `get_vlan_ports`. -/
def getAttr (getVlanPorts : Option (UInt32 → List SwitchPort)) (vlan : UInt32) :
    Except Failure (List Msg) :=
  if dev.vlans ≤ vlan then .error .einval
  else
    match getVlanPorts with
    | none => .error .eopnotsupp
    | some op => sendPorts sz.kernel (op vlan)

/-! ## swlib receives a list -/

/-- `store_port_val`; there are `ports` ports. -/
def storePortVal (ports : Nat) : List SwitchPort → List PortEntry → List SwitchPort
  | val, [] => val
  | val, e :: es =>
    if ports ≤ val.length then val
    else storePortVal ports (val ++ [e.port swlibPortFlagTagged]) es

/-- `store_val` -/
def storeVal (ports : Nat) (val : List SwitchPort) (msg : Msg) : List SwitchPort :=
  match msg.list with
  | none => val
  | some (_, es) => storePortVal ports val es

/-- `swlib_get_attr` for the ports of a VLAN -/
def swlibGetAttr (getVlanPorts : Option (UInt32 → List SwitchPort)) (vlan : UInt32) :
    Except Failure (List SwitchPort) :=
  (getAttr sz dev getVlanPorts vlan).map fun msgs => msgs.foldl (storeVal dev.ports.toNat) []

/-! ## swlib sends a list -/

def isDigit (c : UInt8) : Bool := 48 ≤ c && c ≤ 57

/-- The loop of `swlib_set_attr_string` over a text, after `len` ports. -/
def parseText (max ports len : Nat) (text : Bytes) : Option (List SwitchPort) :=
  match htext : text.dropWhile isSpace with
  | [] => some []
  | c :: s =>
    if isDigit c = false then none
    else if ports ≤ len then none
    else
      let rest := s.dropWhile isDigit
      let ts := rest.takeWhile fun b => !isSpace b
      if ts.all (fun b => b == 116) = true then
        (parseText max ports (len + 1) ((rest.dropWhile fun b => !isSpace b).drop 1)).map fun ps =>
          ⟨UInt32.ofNat (strtoul max 10 (c :: s)), if ts = [] then 0 else swlibPortFlagTagged⟩ :: ps
      else none
termination_by text.length
decreasing_by
  have hfirst := (List.dropWhile_suffix isSpace (l := text)).length_le
  have hdigits := (List.dropWhile_suffix isDigit (l := s)).length_le
  have hword := (List.dropWhile_suffix (fun b => !isSpace b) (l := s.dropWhile isDigit)).length_le
  rw [htext, List.length_cons] at hfirst
  rw [List.length_drop]
  omega

/-- A request to set the ports of a VLAN. -/
structure SetMsg where
  vlan : UInt32
  ports : Option (List PortEntry)

/-- `send_attr_val` with `send_attr_ports` -/
def sendAttrVal (vlan : UInt32) (ports : List SwitchPort) : Option SetMsg :=
  let es := ports.map (SwitchPort.entry swlibPortFlagTagged)
  let attrs := 4 :: 4 :: 4 :: if ports = [] then [] else 0 :: es.flatMap PortEntry.attrs
  if (nlaPut (sz.user - genlmsgSize) attrs).2 = true then
    some ⟨vlan, if ports = [] then none else some es⟩
  else none

/-! ## The kernel receives a list -/

/-- `swconfig_parse_ports` -/
def parsePorts (max : Nat) : List SwitchPort → List PortEntry → Option (List SwitchPort)
  | val, [] => some val
  | val, e :: es =>
    if max ≤ val.length then none else parsePorts max (val ++ [e.port switchPortFlagTagged]) es

/-- `swconfig_set_attr` for the ports of a VLAN -/
def setAttr (msg : SetMsg) (s : σ) : Done σ :=
  if dev.vlans ≤ msg.vlan then ⟨.einval, s, []⟩
  else
    match msg.ports with
    | none => setVlanPorts dev msg.vlan [] s
    | some es =>
      match parsePorts dev.ports.toNat [] es with
      | none => ⟨.einval, s, []⟩
      | some ports => setVlanPorts dev msg.vlan ports s

/-- `swlib_set_attr_string` for the ports of a VLAN: what the kernel does, if it is asked. -/
def swlibSetAttrString (vlan : UInt32) (text : Bytes) (s : σ) : Option (Done σ) :=
  (parseText sz.ulongMax dev.ports.toNat 0 text).bind fun ports =>
    (sendAttrVal sz vlan ports).map fun msg => setAttr dev msg s

end

/-! ## Lists and texts -/

/-- The number that digits stand for. -/
def decimal (digits : Bytes) : Nat := Nat.ofDigits 10 (digits.map fun c => c.toNat - 48).reverse

/-- An id with t's behind it. -/
def readWord (w : Bytes) : Option (Nat × Bool) :=
  if w.takeWhile isDigit ≠ [] ∧ (w.dropWhile isDigit).all (fun c => c == 116) = true then
    some (decimal (w.takeWhile isDigit), decide (w.dropWhile isDigit ≠ []))
  else none

/-- The list that a text stands for: ids with t's behind them, between blanks. -/
def readText (text : Bytes) : Option (List (Nat × Bool)) := (words isSpace text).mapM readWord

/-- The ids and the flags of a list in the kernel. -/
def SwitchPort.member (p : SwitchPort) : Nat × Bool := (p.id.toNat, p.tagged)

section
variable {σ : Type} (sz : Sizes) (dev : Device σ)

/-- The list of the driver arrives at `swlib_get_attr`. -/
def Gets (vlan : UInt32) (es : List PortEntry) : Prop :=
  swlibGetAttr sz dev (some fun _ => es.map (PortEntry.port switchPortFlagTagged)) vlan =
    .ok (es.map (PortEntry.port swlibPortFlagTagged))

/-- A text is accepted. -/
def Accepts (text : Bytes) : Prop := (parseText sz.ulongMax dev.ports.toNat 0 text).isSome = true

/-- The driver's `set_vlan_ports` is called with the list of a text. -/
def Receives (vlan : UInt32) (text : Bytes) (ps : List (Nat × Bool)) (s : σ) : Prop :=
  ∃ done ports, swlibSetAttrString sz dev vlan text s = some done ∧
    .setVlanPorts vlan ports ∈ done.calls ∧ ports.map SwitchPort.member = ps

/-- The header and the list fit into one message. -/
def FitsKernel (es : List PortEntry) : Prop :=
  genlmsgSize + nlaTotalSize 0 + (es.map PortEntry.size).sum ≤ sz.kernel

/-- The size of a port of a text. -/
def memberSize (p : Nat × Bool) : Nat := PortEntry.size ⟨0, p.2⟩

/-- The header, the ids of the switch, the attribute and the VLAN, and the list fit into one
message. -/
def FitsUser (ps : List (Nat × Bool)) : Prop :=
  ps = [] ∨ genlmsgSize + 3 * nlaTotalSize 4 + nlaTotalSize 0 + (ps.map memberSize).sum ≤ sz.user

instance (ps : List (Nat × Bool)) : Decidable (FitsUser sz ps) :=
  inferInstanceAs (Decidable (_ ∨ _))

end

/-! ## Sending in one message -/

section
variable {size : Nat}

theorem entry_port {mask : UInt32} (hmask : mask ≠ 0) (e : PortEntry) :
    (e.port mask).entry mask = e := by
  cases e with
  | mk id tagged =>
    rw [PortEntry.port, SwitchPort.entry]
    cases tagged with
    | false => simp
    | true => simp [hmask]

/-- A port is put into the open list, when it has room there. -/
theorem sendPort_open {room before : Nat} {es : List PortEntry} {p : SwitchPort}
    (hp : (p.entry switchPortFlagTagged).size ≤ room) :
    sendPort ⟨⟨room, [], some (before, es)⟩, [], some 0⟩ p =
      .ok (true, ⟨⟨room - (p.entry switchPortFlagTagged).size, [],
        some (before, es ++ [p.entry switchPortFlagTagged])⟩, [], some 0⟩) := by
  rw [sendPort]
  dsimp only
  rw [Callback.putPort]
  dsimp only
  rw [nlaPut_of_le hp]
  rfl

/-- The ports are put behind each other. -/
theorem sendLoop_fits {ps : List SwitchPort} {room before : Nat} {es : List PortEntry}
    (hfits : ((ps.map (SwitchPort.entry switchPortFlagTagged)).map PortEntry.size).sum ≤ room) :
    ∃ left, sendLoop size ps ⟨⟨room, [], some (before, es)⟩, [], some 0⟩ =
      .ok (true, ⟨⟨left, [], some (before, es ++ ps.map (SwitchPort.entry switchPortFlagTagged))⟩,
        [], some 0⟩) := by
  induction ps generalizing room es with
  | nil => exact ⟨room, by rw [List.map_nil, List.append_nil]; rfl⟩
  | cons p ps ih =>
    rw [List.map_cons, List.map_cons, List.sum_cons] at hfits
    obtain ⟨left, hrest⟩ := @ih (room - (p.entry switchPortFlagTagged).size)
      (es ++ [p.entry switchPortFlagTagged]) (by omega)
    refine ⟨left, ?_⟩
    rw [sendLoop, sendMultipart, sendPort_open (by omega), ok_bind]
    dsimp only
    rw [if_pos rfl]
    show sendLoop size ps _ = _
    rw [hrest, List.append_assoc, List.singleton_append, List.map_cons]

/-- The list is open in a message that was sent. -/
def Stale (cb : Callback) : Prop := cb.nest = some 0 ∧ cb.sent ≠ []

theorem Stale.length_ne {cb : Callback} (h : Stale cb) : (0 : Nat) ≠ cb.sent.length :=
  fun heq => h.2 (List.length_eq_zero_iff.mp heq.symm)

theorem Stale.closePortlist {cb : Callback} (h : Stale cb) :
    Swconfig.closePortlist cb = .error .stale := by
  rw [Swconfig.closePortlist, h.1]
  exact if_neg h.length_ne

/-- What is behind the list is put in front of the message, or is not put anywhere. -/
theorem Stale.sendPort {cb : Callback} (h : Stale cb) (p : SwitchPort) :
    Swconfig.sendPort cb p = .error .stale ∨
      ∃ cb', Swconfig.sendPort cb p = .ok (true, cb') ∧ Stale cb' := by
  rw [Swconfig.sendPort, h.1]
  rw [Callback.putPort]
  dsimp only
  split_ifs
  · refine .inr ⟨_, rfl, ?_⟩
    rw [Callback.put]
    split
    · exact h
    · exact h
  · rw [Callback.nestCancel, h.1]
    dsimp only
    rw [if_neg h.length_ne]
    exact .inl rfl

theorem Stale.sendLoop {cb : Callback} (h : Stale cb) (ps : List SwitchPort) :
    Swconfig.sendLoop size ps cb = .error .stale ∨
      ∃ cb', Swconfig.sendLoop size ps cb = .ok (true, cb') ∧ Stale cb' := by
  induction ps generalizing cb with
  | nil => exact .inr ⟨cb, rfl, h⟩
  | cons p ps ih =>
    rw [Swconfig.sendLoop, sendMultipart]
    rcases h.sendPort p with herr | ⟨cb', hok, h'⟩
    · rw [herr]
      exact .inl rfl
    · rw [hok, ok_bind]
      exact ih h'

/-- A list that does not fit leaves a message that is not finished. -/
theorem sendLoop_stale {ps : List SwitchPort} {room before : Nat} {es : List PortEntry}
    (hlong : room < ((ps.map (SwitchPort.entry switchPortFlagTagged)).map PortEntry.size).sum) :
    sendLoop size ps ⟨⟨room, [], some (before, es)⟩, [], some 0⟩ = .error .stale ∨
      ∃ cb, sendLoop size ps ⟨⟨room, [], some (before, es)⟩, [], some 0⟩ = .ok (true, cb) ∧
        Stale cb := by
  induction ps generalizing room es with
  | nil => exact absurd hlong (Nat.not_lt_zero room)
  | cons p ps ih =>
    rw [List.map_cons, List.map_cons, List.sum_cons] at hlong
    rw [sendLoop, sendMultipart]
    by_cases hp : (p.entry switchPortFlagTagged).size ≤ room
    · rw [sendPort_open hp, ok_bind]
      exact ih (by omega)
    · -- the list is cancelled, and the message is sent without it
      have hcancel : sendPort ⟨⟨room, [], some (before, es)⟩, [], some 0⟩ p =
          .ok (false, ⟨⟨before, [], none⟩, [], some 0⟩) := by
        rw [sendPort]
        dsimp only
        rw [Callback.putPort]
        dsimp only
        rw [nlaPut_of_lt (Nat.lt_of_not_le hp), if_neg Bool.false_ne_true]
        rfl
      have hfresh : Stale ⟨⟨size, [], none⟩, [⟨before, [], none⟩], some 0⟩ :=
        ⟨rfl, List.cons_ne_nil _ _⟩
      rw [hcancel, ok_bind]
      show (sendPort ⟨⟨size, [], none⟩, [⟨before, [], none⟩], some 0⟩ p >>= _) = _ ∨ ∃ cb,
        (sendPort ⟨⟨size, [], none⟩, [⟨before, [], none⟩], some 0⟩ p >>= _) = _ ∧ Stale cb
      rcases hfresh.sendPort p with herr | ⟨cb', hok, h'⟩
      · rw [herr]
        exact .inl rfl
      · rw [hok, ok_bind]
        exact h'.sendLoop ps

/-- **One message** has the list when it fits; otherwise a message that was sent is written to. -/
theorem sendPorts_eq (hsize : genlmsgSize + nlaTotalSize 0 ≤ size) (ps : List SwitchPort) :
    (genlmsgSize + nlaTotalSize 0 +
        ((ps.map (SwitchPort.entry switchPortFlagTagged)).map PortEntry.size).sum ≤ size →
      ∃ left, sendPorts size ps = .ok [⟨left, [], some (size - genlmsgSize,
        ps.map (SwitchPort.entry switchPortFlagTagged))⟩]) ∧
      (size < genlmsgSize + nlaTotalSize 0 +
        ((ps.map (SwitchPort.entry switchPortFlagTagged)).map PortEntry.size).sum →
      sendPorts size ps = .error .stale) := by
  have hstart : (Callback.nestStart ⟨⟨size - genlmsgSize, [], none⟩, [], none⟩).getD
      ⟨⟨size - genlmsgSize, [], none⟩, [], none⟩ =
      ⟨⟨size - genlmsgSize - nlaTotalSize 0, [], some (size - genlmsgSize, [])⟩, [], some 0⟩ := by
    rw [Callback.nestStart, if_neg (by dsimp only; omega)]
    rfl
  rw [sendPorts, hstart]
  constructor
  · intro hfits
    obtain ⟨left, hrun⟩ := @sendLoop_fits size ps (size - genlmsgSize - nlaTotalSize 0)
      (size - genlmsgSize) [] (by omega)
    rw [hrun, ok_bind]
    exact ⟨left, rfl⟩
  · intro hlong
    rcases @sendLoop_stale size ps (size - genlmsgSize - nlaTotalSize 0) (size - genlmsgSize) []
      (by omega) with herr | ⟨cb, hok, hstale⟩
    · rw [herr]
      rfl
    · rw [hok, ok_bind]
      dsimp only
      rw [if_neg (by decide), hstale.closePortlist]
      rfl

end

/-! ## Receiving -/

section
variable {σ : Type} {sz : Sizes} {dev : Device σ} {vlan : UInt32}

theorem storePortVal_eq {ports : Nat} {val : List SwitchPort} {es : List PortEntry}
    (hle : val.length + es.length ≤ ports) :
    storePortVal ports val es = val ++ es.map (PortEntry.port swlibPortFlagTagged) := by
  induction es generalizing val with
  | nil => rw [List.map_nil, List.append_nil]; rfl
  | cons e es ih =>
    rw [List.length_cons] at hle
    rw [storePortVal, if_neg (by omega), ih (by rw [List.length_append, List.length_singleton]; omega),
      List.append_assoc, List.singleton_append, List.map_cons]

theorem parsePorts_eq {max : Nat} {val : List SwitchPort} {es : List PortEntry}
    (hle : val.length + es.length ≤ max) :
    parsePorts max val es = some (val ++ es.map (PortEntry.port switchPortFlagTagged)) := by
  induction es generalizing val with
  | nil => rw [List.map_nil, List.append_nil]; rfl
  | cons e es ih =>
    rw [List.length_cons] at hle
    rw [parsePorts, if_neg (by omega), ih (by rw [List.length_append, List.length_singleton]; omega),
      List.append_assoc, List.singleton_append, List.map_cons]

/-- A list of the driver arrives when it fits into one message. -/
theorem gets_iff {es : List PortEntry} (hle : es.length ≤ dev.ports.toNat) :
    Gets sz dev vlan es ↔ vlan < dev.vlans ∧ FitsKernel sz es := by
  have hentries : (es.map (PortEntry.port switchPortFlagTagged)).map
      (SwitchPort.entry switchPortFlagTagged) = es := by
    rw [List.map_map]
    exact (List.map_congr_left fun e _ => entry_port (by decide) e).trans (List.map_id es)
  have hsize : genlmsgSize + nlaTotalSize 0 ≤ sz.kernel :=
    Nat.le_trans (by decide) sz.kernel_large
  obtain ⟨hone, hmore⟩ := sendPorts_eq hsize (es.map (PortEntry.port switchPortFlagTagged))
  rw [hentries] at hone hmore
  rw [Gets, swlibGetAttr, getAttr]
  by_cases hvlan : dev.vlans ≤ vlan
  · rw [if_pos hvlan]
    exact ⟨(fun h => by cases h), fun h => absurd h.1 (UInt32.not_lt.mpr hvlan)⟩
  rw [if_neg hvlan]
  by_cases hfits : FitsKernel sz es
  · obtain ⟨left, hrun⟩ := hone hfits
    refine ⟨fun _ => ⟨UInt32.not_le.mp hvlan, hfits⟩, fun _ => ?_⟩
    rw [hrun]
    exact congrArg Except.ok (storePortVal_eq (by rw [List.length_nil]; omega))
  · rw [hmore (Nat.lt_of_not_le hfits)]
    exact ⟨(fun h => by cases h), fun h => absurd h.2 hfits⟩

end

/-! ## Reading a text -/

section
variable {max ports : Nat}

theorem isDigit_iff {c : UInt8} : isDigit c = true ↔ 48 ≤ c.toNat ∧ c.toNat ≤ 57 := by
  rw [isDigit, Bool.and_eq_true, decide_eq_true_eq, decide_eq_true_eq, UInt8.le_iff_toNat_le,
    UInt8.le_iff_toNat_le]
  exact Iff.rfl

theorem not_isSpace_of_isDigit {c : UInt8} (h : isDigit c = true) : isSpace c = false := by
  obtain ⟨hlo, hhi⟩ := isDigit_iff.mp h
  have h32 : c ≠ 32 := by
    rintro rfl
    exact absurd hlo (by decide)
  have h13 : ¬ c ≤ 13 := by
    rw [UInt8.le_iff_toNat_le]
    exact fun hle => absurd (hlo.trans hle) (by decide)
  simp [isSpace, h32, h13]

theorem not_blank_of_isDigit (c : UInt8) (h : isDigit c = true) : (!isSpace c) = true := by
  rw [not_isSpace_of_isDigit h]
  rfl

theorem digitValue_of_isDigit {c : UInt8} (h : isDigit c = true) :
    digitValue c = some (c.toNat - 48) := by
  obtain ⟨hlo, hhi⟩ := isDigit_iff.mp h
  exact if_pos ⟨UInt8.le_iff_toNat_le.mpr hlo, UInt8.le_iff_toNat_le.mpr hhi⟩

/-- A number ends in front of what is no digit. -/
theorem takeDigits_other {c : UInt8} (h : isDigit c = false) (s : Bytes) :
    takeDigits 10 (c :: s) = [] := by
  have hno : ¬ (48 ≤ c ∧ c ≤ 57) := by
    simpa [isDigit] using h
  rw [takeDigits, digitValue, if_neg hno]
  split_ifs with hlower hupper
  · have hlo := UInt8.le_iff_toNat_le.mp hlower.1
    have h97 : (97 : UInt8).toNat = 97 := rfl
    exact if_neg (by omega)
  · have hlo := UInt8.le_iff_toNat_le.mp hupper.1
    have h65 : (65 : UInt8).toNat = 65 := rfl
    exact if_neg (by omega)
  · rfl

theorem takeDigits_takeWhile (s : Bytes) :
    takeDigits 10 s = (s.takeWhile isDigit).map fun c => c.toNat - 48 := by
  induction s with
  | nil => rfl
  | cons c s ih =>
    cases hc : isDigit c with
    | true =>
      have hlt : c.toNat - 48 < 10 := by
        have hhi := (isDigit_iff.mp hc).2
        omega
      rw [takeDigits, digitValue_of_isDigit hc, List.takeWhile_cons_of_pos hc]
      dsimp only
      rw [if_pos hlt, ih, List.map_cons]
    | false =>
      rw [takeDigits_other hc, List.takeWhile_cons_of_neg (by rw [hc]; decide)]
      rfl

/-- `strtoul` on a text that starts with a digit. -/
theorem strtoul_digit {c : UInt8} (hc : isDigit c = true) (s : Bytes) :
    strtoul max 10 (c :: s) = min (decimal ((c :: s).takeWhile isDigit)) max := by
  have hspace : (c :: s).dropWhile isSpace = c :: s :=
    List.dropWhile_cons_of_neg (by rw [not_isSpace_of_isDigit hc]; decide)
  have hsign : takeSign (c :: s) = (false, c :: s) := by
    have hlo := (isDigit_iff.mp hc).1
    have h45 : c ≠ 45 := by
      rintro rfl
      exact absurd hlo (by decide)
    have h43 : c ≠ 43 := by
      rintro rfl
      exact absurd hlo (by decide)
    rw [takeSign, if_neg h45, if_neg h43]
  have hbase : takeBase 10 (c :: s) = (10, c :: s) := by
    cases s with
    | nil => rfl
    | cons d s =>
      rw [takeBase, if_neg (by rintro ⟨-, -, h | h⟩ <;> cases h)]
      rfl
  simp only [strtoul, hspace, hsign, hbase, takeDigits_takeWhile, decimal, Bool.false_eq_true,
    ↓reduceIte]
  split_ifs <;> omega

theorem takeWhile_split {p q : UInt8 → Bool} (h : ∀ c, q c = true → p c = true) (s : Bytes) :
    s.takeWhile p = s.takeWhile q ++ (s.dropWhile q).takeWhile p ∧
      s.dropWhile p = (s.dropWhile q).dropWhile p := by
  induction s with
  | nil => exact ⟨rfl, rfl⟩
  | cons c s ih =>
    cases hq : q c with
    | true =>
      rw [List.takeWhile_cons_of_pos (h c hq), List.takeWhile_cons_of_pos hq,
        List.dropWhile_cons_of_pos (h c hq), List.dropWhile_cons_of_pos hq]
      exact ⟨congrArg _ ih.1, ih.2⟩
    | false =>
      have hneg : ¬ q c = true := by
        rw [hq]
        decide
      rw [List.takeWhile_cons_of_neg hneg, List.dropWhile_cons_of_neg hneg]
      exact ⟨rfl, rfl⟩

/-- A word that starts with digits, and what is behind them. -/
theorem digits_append {ds ts : Bytes} (hds : ∀ c ∈ ds, isDigit c = true)
    (hts : ∀ c, ts.head? = some c → isDigit c = false) :
    (ds ++ ts).takeWhile isDigit = ds ∧ (ds ++ ts).dropWhile isDigit = ts := by
  have hstop : ts.takeWhile isDigit = [] ∧ ts.dropWhile isDigit = ts := by
    cases ts with
    | nil => exact ⟨rfl, rfl⟩
    | cons c ts =>
      have hneg : ¬ isDigit c = true := by
        rw [hts c rfl]
        decide
      exact ⟨List.takeWhile_cons_of_neg hneg, List.dropWhile_cons_of_neg hneg⟩
  rw [List.takeWhile_append_of_pos hds, List.dropWhile_append_of_pos hds, hstop.1, hstop.2,
    List.append_nil]
  exact ⟨rfl, rfl⟩

/-- The port that the text of a member becomes. -/
def memberPort (max : Nat) (p : Nat × Bool) : SwitchPort :=
  ⟨UInt32.ofNat (min p.1 max), if p.2 = true then swlibPortFlagTagged else 0⟩

/-- The first word of a text that starts with a digit. -/
theorem readWord_digit {c : UInt8} (hc : isDigit c = true) (s : Bytes) :
    readWord (c :: s.takeWhile fun b => !isSpace b) =
      if ((s.dropWhile isDigit).takeWhile fun b => !isSpace b).all (fun b => b == 116) = true then
        some (decimal ((c :: s).takeWhile isDigit),
          decide ((s.dropWhile isDigit).takeWhile (fun b => !isSpace b) ≠ []))
      else none := by
  have hds : ∀ b ∈ c :: s.takeWhile isDigit, isDigit b = true := by
    intro b hb
    rcases List.mem_cons.mp hb with rfl | hb
    · exact hc
    · exact List.mem_takeWhile_imp hb
  have hts : ∀ b, ((s.dropWhile isDigit).takeWhile fun b => !isSpace b).head? = some b →
      isDigit b = false := by
    intro b hb
    have hhead := List.head?_dropWhile_not isDigit s
    cases hrest : s.dropWhile isDigit with
    | nil =>
      rw [hrest] at hb
      cases hb
    | cons d rest =>
      rw [hrest] at hb hhead
      rw [List.takeWhile_cons] at hb
      split_ifs at hb
      · cases hb
        simpa using hhead
      · cases hb
  obtain ⟨hfirst, hrest⟩ := digits_append hds hts
  have hword : (c :: s.takeWhile fun b => !isSpace b) =
      (c :: s.takeWhile isDigit) ++ (s.dropWhile isDigit).takeWhile fun b => !isSpace b := by
    rw [(takeWhile_split not_blank_of_isDigit s).1, List.cons_append]
  rw [readWord, hword, hfirst, hrest, List.takeWhile_cons_of_pos hc]
  exact if_congr (and_iff_right (List.cons_ne_nil _ _)) rfl rfl

theorem readWord_other {c : UInt8} (hc : isDigit c = false) (s : Bytes) :
    readWord (c :: s) = none := by
  rw [readWord, List.takeWhile_cons_of_neg (by rw [hc]; decide)]
  exact if_neg fun h => h.1 rfl

/-- **The texts that are accepted** are those of words that can be read, unless there are too many
of them. -/
theorem parseText_eq {len : Nat} (hlen : len ≤ ports) (text : Bytes) :
    parseText max ports len text =
      if len + (words isSpace text).length ≤ ports then
        (readText text).map fun ps => ps.map (memberPort max)
      else none := by
  have hrec (n : Nat) : ∀ len text, len ≤ ports → text.length < n →
      parseText max ports len text =
        if len + (words isSpace text).length ≤ ports then
          (readText text).map fun ps => ps.map (memberPort max)
        else none := by
    induction n with
    | zero => exact fun _ _ _ hn => absurd hn (Nat.not_lt_zero _)
    | succ n ih =>
      intro len text hlen hn
      have hwords := @words_dropWhile isSpace text
      have hsuffix := (List.dropWhile_suffix isSpace (l := text)).length_le
      rw [parseText, readText, ← hwords]
      split
      · next hnil =>
        rw [hnil, words_nil, List.length_nil, Nat.add_zero, if_pos hlen]
        rfl
      · next c s hcons =>
        have hspace : isSpace c = false := by
          have hhead := List.head?_dropWhile_not isSpace text
          rw [hcons] at hhead
          simpa using hhead
        rw [hcons, List.length_cons] at hsuffix
        rw [hcons, words_cons hspace, List.length_cons, List.mapM_cons]
        cases hc : isDigit c with
        | false =>
          rw [if_pos rfl, readWord_other hc]
          split_ifs <;> rfl
        | true =>
          have hbehind := (takeWhile_split not_blank_of_isDigit s).2
          have hshort : ((s.dropWhile fun b => !isSpace b).drop 1).length < n := by
            have hsuffix' := (List.dropWhile_suffix (fun b => !isSpace b) (l := s)).length_le
            rw [List.length_drop]
            omega
          rw [if_neg (by decide), readWord_digit hc, strtoul_digit hc]
          by_cases hfull : ports ≤ len
          · rw [if_pos hfull, if_neg (by omega)]
          rw [if_neg hfull]
          dsimp only
          rw [← hbehind, ih (len + 1) _ (by omega) hshort, readText]
          generalize (s.dropWhile isDigit).takeWhile (fun b => !isSpace b) = ts
          generalize words isSpace ((s.dropWhile fun b => !isSpace b).drop 1) = ws
          have hcount : len + 1 + ws.length ≤ ports ↔ len + (ws.length + 1) ≤ ports := by omega
          by_cases hts : ts.all (fun b => b == 116) = true
          · rw [if_pos hts, if_pos hts, if_congr hcount rfl rfl]
            by_cases hroom : len + (ws.length + 1) ≤ ports
            · rw [if_pos hroom, if_pos hroom]
              cases ws.mapM readWord with
              | none => rfl
              | some ps =>
                refine congrArg (fun p => some (p :: ps.map (memberPort max))) ?_
                rw [memberPort]
                by_cases hnil : ts = []
                · rw [if_pos hnil, if_neg (by simpa using hnil)]
                · rw [if_neg hnil, if_pos (by simpa using hnil)]
            · rw [if_neg hroom, if_neg hroom]
              rfl
          · rw [if_neg hts, if_neg hts]
            split_ifs <;> rfl
  exact hrec (text.length + 1) len text hlen (Nat.lt_succ_self _)

end

/-! ## Setting a list -/

section
variable {σ : Type} {sz : Sizes} {dev : Device σ} {vlan : UInt32} {ps : List (Nat × Bool)}

theorem length_of_mapM {α β : Type} {f : α → Option β} {l : List α} {m : List β}
    (h : l.mapM f = some m) : m.length = l.length := by
  induction l generalizing m with
  | nil =>
    cases h
    rfl
  | cons a l ih =>
    rw [List.mapM_cons] at h
    obtain ⟨b, -, h⟩ := Option.bind_eq_some_iff.mp h
    obtain ⟨bs, hbs, h⟩ := Option.bind_eq_some_iff.mp h
    cases h
    rw [List.length_cons, List.length_cons, ih hbs]

/-- The port that the kernel makes of a member. -/
def kernelPort (max : Nat) (p : Nat × Bool) : SwitchPort :=
  ⟨UInt32.ofNat (min p.1 max), if p.2 = true then switchPortFlagTagged else 0⟩

/-- The nest of a member. -/
def memberEntry (max : Nat) (p : Nat × Bool) : PortEntry := ⟨UInt32.ofNat (min p.1 max), p.2⟩

theorem entry_memberPort (max : Nat) (p : Nat × Bool) :
    (memberPort max p).entry swlibPortFlagTagged = memberEntry max p :=
  entry_port (by decide) (memberEntry max p)

theorem member_kernelPort {max : Nat} (p : Nat × Bool) :
    (kernelPort max p).member = ((UInt32.ofNat (min p.1 max)).toNat, p.2) := by
  rcases p with ⟨id, tagged⟩
  rw [kernelPort, SwitchPort.member, SwitchPort.tagged]
  cases tagged with
  | false => simp
  | true =>
    have hmask : switchPortFlagTagged ≠ 0 := by decide
    simp [hmask]

/-- The request is there when it has room. -/
theorem sendAttrVal_eq (max : Nat) : sendAttrVal sz vlan (ps.map (memberPort max)) =
    if FitsUser sz ps then
      some ⟨vlan, if ps = [] then none else some (ps.map (memberEntry max))⟩
    else none := by
  have hlarge := sz.user_large
  have hes : (ps.map (memberPort max)).map (SwitchPort.entry swlibPortFlagTagged) =
      ps.map (memberEntry max) := by
    rw [List.map_map]
    exact List.map_congr_left fun p _ => entry_memberPort max p
  have hsum : (((ps.map (memberEntry max)).flatMap PortEntry.attrs).map nlaTotalSize).sum =
      (ps.map memberSize).sum := by
    clear hes
    induction ps with
    | nil => rfl
    | cons p ps ih =>
      rw [List.map_cons, List.flatMap_cons, List.map_append, List.sum_append, ih, List.map_cons,
        List.sum_cons]
      rfl
  have h4 : nlaTotalSize 4 = 8 := rfl
  have h0 : nlaTotalSize 0 = 4 := rfl
  have h20 : genlmsgSize = 20 := rfl
  rw [sendAttrVal, hes]
  by_cases hnil : ps = []
  · have hfits : FitsUser sz ps := .inl hnil
    have hmap : ps.map (memberPort max) = [] := by rw [hnil, List.map_nil]
    have hput : (nlaPut (sz.user - genlmsgSize) [4, 4, 4]).2 = true := by
      rw [nlaPut_of_le]
      simp only [List.map_cons, List.map_nil, List.sum_cons, List.sum_nil, h4]
      omega
    rw [if_pos hfits, if_pos hmap, if_pos hmap, if_pos hnil, if_pos hput]
  · have hmap : ps.map (memberPort max) ≠ [] := fun h => hnil (List.map_eq_nil_iff.mp h)
    have hattrs : ((4 :: 4 :: 4 :: 0 :: (ps.map (memberEntry max)).flatMap PortEntry.attrs).map
        nlaTotalSize).sum = 3 * nlaTotalSize 4 + nlaTotalSize 0 + (ps.map memberSize).sum := by
      simp only [List.map_cons, List.sum_cons, hsum]
      omega
    rw [if_neg hmap, if_neg hmap, if_neg hnil]
    by_cases hfits : FitsUser sz ps
    · have hroom := hfits.resolve_left hnil
      rw [if_pos hfits, nlaPut_of_le (by rw [hattrs]; omega), if_pos rfl]
    · have hroom : ¬ genlmsgSize + 3 * nlaTotalSize 4 + nlaTotalSize 0 +
          (ps.map memberSize).sum ≤ sz.user := fun h => hfits (.inr h)
      rw [if_neg hfits, nlaPut_of_lt (by rw [hattrs]; omega), if_neg Bool.false_ne_true]

/-- What the kernel does with the request. -/
theorem setAttr_eq (max : Nat) (hle : ps.length ≤ dev.ports.toNat) (s : σ) :
    setAttr dev ⟨vlan, if ps = [] then none else some (ps.map (memberEntry max))⟩ s =
      if dev.vlans ≤ vlan then ⟨.einval, s, []⟩
      else setVlanPorts dev vlan (ps.map (kernelPort max)) s := by
  rw [setAttr]
  by_cases hvlan : dev.vlans ≤ vlan
  · rw [if_pos hvlan, if_pos hvlan]
  rw [if_neg hvlan, if_neg hvlan]
  dsimp only
  by_cases hnil : ps = []
  · rw [if_pos hnil, hnil]
    rfl
  · have hports : (ps.map (memberEntry max)).map (PortEntry.port switchPortFlagTagged) =
        ps.map (kernelPort max) := by
      rw [List.map_map]
      rfl
    rw [if_neg hnil]
    dsimp only
    rw [parsePorts_eq (by rw [List.length_nil, List.length_map]; omega), List.nil_append, hports]

/-- The driver is called with a list when the checks have passed it. -/
theorem setVlanPorts_called {ports : List SwitchPort} (hle : ports.length ≤ dev.ports.toNat)
    (hvlan : vlan < dev.vlans) (ports' : List SwitchPort) (s : σ) :
    .setVlanPorts vlan ports' ∈ (setVlanPorts dev vlan ports s).calls ↔
      dev.ops.setVlanPorts ≠ none ∧ ports' = ports ∧ ∀ p ∈ ports, p.id < dev.ports := by
  have hpvid (ps : List SwitchPort) : Call.setVlanPorts vlan ports' ∉ pvidCalls dev vlan ps := by
    rw [pvidCalls]
    split_ifs
    · exact List.not_mem_nil
    · intro hmem
      obtain ⟨p, -, hp⟩ := List.mem_map.mp hmem
      cases hp
  rw [setVlanPorts, if_neg (UInt32.not_le.mpr hvlan), if_neg (Nat.not_lt.mpr hle)]
  cases hop : dev.ops.setVlanPorts with
  | none => exact ⟨fun h => absurd h List.not_mem_nil, fun h => absurd rfl h.1⟩
  | some op =>
    dsimp only
    rcases @setLoop_cases σ dev op vlan ports ports s [] with
      ⟨hall, ret, s', heq⟩ | ⟨hno, s', heq, -⟩
    · rw [heq, List.nil_append, List.mem_append, List.mem_singleton]
      constructor
      · rintro (hmem | hlast)
        · exact absurd hmem (hpvid _)
        · cases hlast
          exact ⟨Option.some_ne_none _, rfl, hall⟩
      · rintro ⟨-, rfl, -⟩
        exact .inr rfl
    · rw [heq, List.nil_append]
      exact ⟨fun hmem => absurd hmem (hpvid _), fun h => absurd h.2.2 hno⟩

/-- The list of a text reaches the driver when the request has room and the ports are there. -/
theorem receives_iff {text : Bytes} (hread : readText text = some ps)
    (hle : ps.length ≤ dev.ports.toNat) (s : σ) : Receives sz dev vlan text ps s ↔
      vlan < dev.vlans ∧ dev.ops.setVlanPorts ≠ none ∧ FitsUser sz ps ∧
        ∀ p ∈ ps, p.1 < dev.ports.toNat := by
  have hwords : (words isSpace text).length = ps.length := (length_of_mapM hread).symm
  have hports : (ps.map (kernelPort sz.ulongMax)).length ≤ dev.ports.toNat := by
    rw [List.length_map]
    exact hle
  have hlarge := sz.ulong_large
  have hrun : swlibSetAttrString sz dev vlan text s =
      if FitsUser sz ps then
        some (if dev.vlans ≤ vlan then ⟨.einval, s, []⟩
          else setVlanPorts dev vlan (ps.map (kernelPort sz.ulongMax)) s)
      else none := by
    rw [swlibSetAttrString, parseText_eq (Nat.zero_le _), if_pos (by omega), hread]
    show (sendAttrVal sz vlan (ps.map (memberPort sz.ulongMax))).map _ = _
    rw [sendAttrVal_eq]
    by_cases hfits : FitsUser sz ps
    · rw [if_pos hfits, if_pos hfits, Option.map_some, setAttr_eq _ hle]
    · rw [if_neg hfits, if_neg hfits]
      rfl
  constructor
  · rintro ⟨done, ports, hset, hcall, hmember⟩
    rw [hrun] at hset
    split_ifs at hset with hfits hvlan
    · cases hset
      exact absurd hcall List.not_mem_nil
    · cases hset
      have hvlan' := UInt32.not_le.mp hvlan
      obtain ⟨hop, rfl, hids⟩ := (setVlanPorts_called hports hvlan' ports s).mp hcall
      refine ⟨hvlan', hop, hfits, fun p hp => ?_⟩
      rw [List.map_map] at hmember
      have hsame := List.map_eq_map_iff.mp (hmember.trans (List.map_id ps).symm) p hp
      rw [Function.comp_apply, member_kernelPort] at hsame
      have hid := congrArg Prod.fst hsame
      have hlt := UInt32.lt_iff_toNat_lt.mp (hids _ (List.mem_map_of_mem hp))
      dsimp only [id] at hid
      rw [← hid]
      exact hlt
  · rintro ⟨hvlan, hop, hfits, hids⟩
    have hid {p : Nat × Bool} (hp : p ∈ ps) : (UInt32.ofNat (min p.1 sz.ulongMax)).toNat = p.1 := by
      have hlt := hids p hp
      have h32 := dev.ports.toNat_lt
      have hsize : UInt32.size = 2 ^ 32 := rfl
      rw [Nat.min_eq_left (by omega), UInt32.toNat_ofNat_of_lt' (by omega)]
    refine ⟨setVlanPorts dev vlan (ps.map (kernelPort sz.ulongMax)) s,
      ps.map (kernelPort sz.ulongMax), ?_, ?_, ?_⟩
    · rw [hrun, if_pos hfits, if_neg (UInt32.not_le.mpr hvlan)]
    · refine (setVlanPorts_called hports hvlan _ s).mpr ⟨hop, rfl, fun q hq => ?_⟩
      obtain ⟨p, hp, rfl⟩ := List.mem_map.mp hq
      rw [UInt32.lt_iff_toNat_lt, kernelPort, hid hp]
      exact hids p hp
    · rw [List.map_map]
      refine (List.map_congr_left fun p hp => ?_).trans (List.map_id ps)
      rw [Function.comp_apply, member_kernelPort, hid hp]
      rfl

end

/-- **Transport.** A list of the driver arrives when it fits into one message. The texts that are
accepted are those of ids with t's, as many as there are ports; their list reaches the driver when
it fits into one message, too, and the ids are those of ports. -/
theorem transport_iff {σ : Type} (sz : Sizes) (dev : Device σ) (vlan : UInt32) (s : σ) :
    (∀ es : List PortEntry, es.length ≤ dev.ports.toNat →
      (Gets sz dev vlan es ↔ vlan < dev.vlans ∧ FitsKernel sz es)) ∧
    (∀ text, Accepts sz dev text ↔ ∃ ps, readText text = some ps ∧ ps.length ≤ dev.ports.toNat) ∧
    ∀ text ps, readText text = some ps → ps.length ≤ dev.ports.toNat →
      (Receives sz dev vlan text ps s ↔ vlan < dev.vlans ∧ dev.ops.setVlanPorts ≠ none ∧
        FitsUser sz ps ∧ ∀ p ∈ ps, p.1 < dev.ports.toNat) := by
  refine ⟨fun es hle => gets_iff hle, fun text => ?_,
    fun text ps hread hle => receives_iff hread hle s⟩
  rw [Accepts, parseText_eq (Nat.zero_le _), Nat.zero_add]
  constructor
  · intro hsome
    split_ifs at hsome with hle
    · rw [Option.isSome_map] at hsome
      obtain ⟨ps, hps⟩ := Option.isSome_iff_exists.mp hsome
      exact ⟨ps, hps, by rw [length_of_mapM hps]; exact hle⟩
    · cases hsome
  · rintro ⟨ps, hps, hle⟩
    rw [if_pos (by rw [← length_of_mapM hps]; exact hle), hps]
    rfl

/-! ## A list that is too long -/

/-- A switch with many ports. -/
def manyPorts : Device Unit where
  ports := 256
  vlans := 16
  ops := ⟨some fun _ _ s => (s, 0), none⟩

/-- Messages of a page. -/
def pageSizes : Sizes where
  kernel := 3776
  user := 4096
  ulongMax := 2 ^ 64 - 1
  kernel_large := by decide
  user_large := by decide
  ulong_large := by decide

/-- A list of 240 tagged ports does not arrive. -/
theorem not_gets_long :
    (List.replicate 240 (⟨1, true⟩ : PortEntry)).length ≤ manyPorts.ports.toNat ∧
      ¬ Gets pageSizes manyPorts 1 (List.replicate 240 ⟨1, true⟩) := by
  have hle : (List.replicate 240 (⟨1, true⟩ : PortEntry)).length ≤ manyPorts.ports.toNat := by
    rw [List.length_replicate]
    decide
  refine ⟨hle, fun hgets => ?_⟩
  have hfits := ((gets_iff hle).mp hgets).2
  have hsum (n : Nat) :
      ((List.replicate n (⟨1, true⟩ : PortEntry)).map PortEntry.size).sum = n * 16 := by
    rw [List.map_replicate, List.sum_replicate_nat]
    rfl
  have hkernel : pageSizes.kernel = 3776 := rfl
  have h4 : nlaTotalSize 0 = 4 := rfl
  have h20 : genlmsgSize = 20 := rfl
  rw [FitsKernel, hsum, hkernel] at hfits
  omega

end UolaOs.Swconfig
