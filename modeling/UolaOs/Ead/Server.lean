import UolaOs.Lib.Bytes

/-!
# The emergency access daemon

The packet handlers of ead.c over one interface:

* the password file, the SRP functions, the cipher and the processes are a parameter `Extern`;
* `setState` does the work of a transition and may refuse it;
* `handlePacket` is one turn of the daemon, `none` where the process dies.
-/

namespace UolaOs

/-- `ntohs` on a machine of this order. -/
def Endian.ntohs (e : Endian) (n : Nat) : Nat := Endian.big.get (e.put 2 n)

namespace Ead

/-- `ead_type` -/
inductive EadType where
  | ping
  | pong
  | setUsername
  | ackUsername
  | getPrime
  | prime
  | sendA
  | sendB
  | sendAuth
  | doneAuth
  | sendCmd
  | resultCmd
  deriving DecidableEq

namespace EadType

def code : EadType → Int
  | ping => 0
  | pong => 1
  | setUsername => 2
  | ackUsername => 3
  | getPrime => 4
  | prime => 5
  | sendA => 6
  | sendB => 7
  | sendAuth => 8
  | doneAuth => 9
  | sendCmd => 10
  | resultCmd => 11

theorem code_injective : Function.Injective code := by
  intro s t h
  cases s <;> cases t <;> first | rfl | cases h

end EadType

/-- A captured packet, numbers in host order; `data` is what follows the message header. -/
structure Packet where
  etherDhost : Bytes
  etherType : Nat
  proto : Nat
  destport : Nat
  magic : UInt32
  len : UInt32
  type : UInt32
  nid : UInt16
  sid : UInt16
  data : Bytes

namespace Packet

/-- `sizeof(struct ead_packet)` -/
def headerSize : Nat := 62

/-- `h->len` -/
def caplen (pkt : Packet) : Nat := headerSize + pkt.data.length

/-- The type as the `int` that the handlers compare. -/
def typeInt (pkt : Packet) : Int := pkt.type.toBitVec.toInt

end Packet

/-- What the daemon is started with. -/
structure Config where
  endian : Endian
  /-- The width of `size_t`. -/
  sizeBits : Nat
  nid : UInt16
  instanceId : Int
  devName : Bytes

/-- What the daemon calls. The world `ω` has the files, the memory of the SRP library, the key
schedule and the processes; `τ` is `struct t_server *`. -/
structure Extern (ω τ : Type) where
  preparePassword : Bytes → ω → Bool × ω
  serverOpenRaw : ω → Option τ × ω
  serverClose : τ → ω → ω
  serverGenExp : τ → ω → Bytes × ω
  serverGetKey : τ → Bytes → ω → Option Bytes × ω
  serverVerify : τ → Bytes → ω → Int × ω
  serverResponse : τ → ω → Bytes
  salt : τ → ω → UInt8 × Bytes × Bytes
  setKey : Bytes → ω → ω
  /-- The length that `ead_decrypt_message` returns and the bytes it leaves. -/
  decryptMessage : UInt32 → Bytes → ω → (Int × Bytes) × ω
  encryptMessage : Bytes → ω → Bytes × ω
  pipe : ω → Bool × ω
  fork : ω → Bool × ω
  /-- The reads of the streaming loop and whether the child is left when the time is up. -/
  console : Nat → ω → (List Bytes × Bool) × ω

/-- What the daemon has done. -/
inductive Event (τ : Type) where
  | setUsername (name : Bytes)
  | opened (ts : τ)
  | closed (ts : τ)
  | getPrime (ts : τ)
  | genExp (ts : τ) (B : Bytes)
  /-- `A` was taken and `B` was sent. -/
  | sendA (ts : τ) (B A : Bytes)
  | setKey (ts : τ) (A key : Bytes)
  | verified (ts : τ) (auth : Bytes)
  | system (command : Bytes)
  deriving DecidableEq

inductive Reply where
  | pong (name : Bytes)
  | ackUsername
  | prime (index : UInt8) (salt extSalt : Bytes)
  | sendB (B : Bytes)
  | doneAuth (response : Bytes)
  | resultCmd (enc : Bytes)

/-- The variables of the daemon, with what it has done and sent. -/
structure Daemon (ω τ : Type) where
  env : ω
  state : EadType
  username : Bytes
  ts : Option τ
  A : Bytes
  B : Option Bytes
  skey : Option Bytes
  log : List (Event τ)
  sent : List Reply

/-- What a handler leaves: the response, if it asks for one, and `*nstate`. -/
structure Handled (ω τ : Type) where
  daemon : Daemon ω τ
  reply : Option Reply
  nstate : EadType

section
variable {ω τ : Type} (x : Extern ω τ) (cfg : Config)

def Daemon.did (d : Daemon ω τ) (es : List (Event τ)) : Daemon ω τ := { d with log := d.log ++ es }

def Daemon.send (d : Daemon ω τ) (rs : List Reply) : Daemon ω τ := { d with sent := d.sent ++ rs }

/-! ## Transitions -/

/-- The branch of `set_state` that leaves `EAD_TYPE_SET_USERNAME`. -/
def openSession (d : Daemon ω τ) (nstate : EadType) : Daemon ω τ :=
  let r := x.preparePassword d.username d.env
  if r.1 then
    match x.serverOpenRaw r.2 with
    | (none, env) => { d with env := env, ts := none }
    | (some ts, env) =>
      { d with env := env, ts := some ts, state := nstate, log := d.log ++ [.opened ts] }
  else { d with env := r.2 }

/-- The branch of `set_state` that leaves `EAD_TYPE_GET_PRIME`. -/
def generate (d : Daemon ω τ) (ts : τ) (nstate : EadType) : Daemon ω τ :=
  let r := x.serverGenExp ts d.env
  { d with env := r.2, B := some r.1, state := nstate, log := d.log ++ [.genExp ts r.1] }

/-- The branch of `set_state` that leaves `EAD_TYPE_SEND_A`. -/
def installKey (d : Daemon ω τ) (ts : τ) (nstate : EadType) : Daemon ω τ :=
  match x.serverGetKey ts d.A d.env with
  | (none, env) => { d with env := env, skey := none }
  | (some key, env) =>
    { d with
      env := x.setKey key env, skey := some key, state := nstate,
      log := d.log ++ [.setKey ts d.A key] }

/-- `set_state` -/
def setState (d : Daemon ω τ) (nstate : EadType) : Option (Daemon ω τ) :=
  if d.state = nstate then some d
  else if nstate.code < d.state.code then
    if nstate.code < EadType.getPrime.code ∧ EadType.getPrime.code ≤ d.state.code then
      d.ts.map fun ts =>
        { d with
          env := x.serverClose ts d.env, ts := none, state := nstate,
          log := d.log ++ [.closed ts] }
    else some { d with state := nstate }
  else
    match d.state with
    | .setUsername => some (openSession x d nstate)
    | .getPrime => d.ts.map fun ts => generate x d ts nstate
    | .sendA => d.ts.map fun ts => installKey x d ts nstate
    | _ => some { d with state := nstate }

/-! ## Handlers -/

/-- `handle_ping` -/
def handlePing (d : Daemon ω τ) : Option (Handled ω τ) :=
  some ⟨d, some (.pong (cfg.devName.take 1024)), d.state⟩

/-- `handle_set_username` -/
def handleSetUsername (pkt : Packet) (d : Daemon ω τ) : Option (Handled ω τ) :=
  (setState x d .setUsername).map fun d =>
    let name := ((pkt.data.take 32).takeWhile (· ≠ 0)).take 31
    ⟨{ d with username := name, log := d.log ++ [.setUsername name] }, some .ackUsername, .getPrime⟩

/-- `handle_get_prime` -/
def handleGetPrime (d : Daemon ω τ) : Option (Handled ω τ) :=
  d.ts.map fun ts =>
    let s := x.salt ts d.env
    ⟨d.did [.getPrime ts], some (.prime s.1 s.2.1 s.2.2), .sendA⟩

/-- `MAXPARAMLEN` -/
def maxParamLen : Nat := 256

/-- `handle_send_a` -/
def handleSendA (pkt : Packet) (d : Daemon ω τ) : Option (Handled ω τ) :=
  let len := (pkt.len - 1).toBitVec.toInt
  if (maxParamLen : Int) + 1 < len then some ⟨d, none, d.state⟩
  -- `memcpy` takes a negative length for a huge one
  else if len < 0 then none
  else
    let A := (pkt.data.drop 1).take len.toNat
    d.ts.bind fun ts => d.B.map fun B =>
      ⟨{ d with A := A, log := d.log ++ [.sendA ts B A] }, some (.sendB B), .sendAuth⟩

/-- `handle_send_auth` -/
def handleSendAuth (pkt : Packet) (d : Daemon ω τ) : Option (Handled ω τ) :=
  d.ts.map fun ts =>
    let auth := pkt.data.take 20
    let r := x.serverVerify ts auth d.env
    if r.1 ≠ 0 then ⟨{ d with env := r.2 }, none, .setUsername⟩
    else
      ⟨{ d with env := r.2, log := d.log ++ [.verified ts auth] },
        some (.doneAuth (x.serverResponse ts r.2)), .sendCmd⟩

/-- `ead_cmd_type` as far as `handle_send_cmd` knows it -/
inductive CmdType where
  | normal
  | background
  deriving DecidableEq

/-- A command as `handle_send_cmd` reads it from what decryption left. -/
structure Cmd where
  type : CmdType
  timeout : Nat
  text : Bytes

/-- The type is one byte and is converted as if it were two. -/
def cmdType (e : Endian) (type : UInt8) : Option CmdType :=
  if e.ntohs type.toNat = 0 then some .normal
  else if e.ntohs type.toNat = 1 then some .background
  else none

/-- `enclen` is what `ead_decrypt_message` returned. -/
def readCmd (e : Endian) (enclen : Int) (bytes : Bytes) : Option Cmd :=
  if enclen - 3 ≤ 0 then none
  else (cmdType e (bytes.getD 0 0)).map fun type =>
    { type := type
      timeout := Endian.big.get (load bytes 1 2)
      text := ((bytes.drop 3).take (enclen - 3).toNat).takeWhile (· ≠ 0) }

/-- `EAD_CMD_TIMEOUT` -/
def cmdTimeout : Nat := 10

/-- How long the output of a command is sent. -/
def Cmd.seconds (cmd : Cmd) : Nat := if cmd.timeout = 0 then cmdTimeout else cmd.timeout

/-- The streaming loop encrypts and sends a message for each read. -/
def stream (d : Daemon ω τ) (reads : List Bytes) : Daemon ω τ :=
  reads.foldl
    (fun d data =>
      let r := x.encryptMessage (0 :: data) d.env
      { d with env := r.2, sent := d.sent ++ [.resultCmd r.1] }) d

/-- The last message of a command. -/
def done (d : Daemon ω τ) : Handled ω τ :=
  let r := x.encryptMessage [1] d.env
  ⟨{ d with env := r.2 }, some (.resultCmd r.1), d.state⟩

/-- The child of a `fork` runs the command. -/
def forked (d : Daemon ω τ) (text : Bytes) (k : Daemon ω τ → Handled ω τ) : Handled ω τ :=
  let r := x.fork d.env
  if r.1 then k { d with env := r.2, log := d.log ++ [.system text] }
  else ⟨{ d with env := r.2 }, none, d.state⟩

/-- `EAD_CMD_NORMAL` -/
def runNormal (cmd : Cmd) (d : Daemon ω τ) : Handled ω τ :=
  let p := x.pipe d.env
  if p.1 then
    forked x { d with env := p.2 } cmd.text fun d =>
      let r := x.console cmd.seconds d.env
      let d := stream x { d with env := r.2 } r.1.1
      -- the child is killed
      if r.1.2 then ⟨d, none, d.state⟩ else done x d
  else ⟨{ d with env := p.2 }, none, d.state⟩

/-- `handle_send_cmd` -/
def handleSendCmd (pkt : Packet) (d : Daemon ω τ) : Option (Handled ω τ) :=
  let r := x.decryptMessage pkt.len pkt.data d.env
  let d := { d with env := r.2 }
  match readCmd cfg.endian r.1.1 r.1.2 with
  | none => some ⟨d, none, d.state⟩
  | some cmd =>
    match cmd.type with
    | .normal => some (runNormal x cmd d)
    | .background => some (forked x d cmd.text (done x))

/-! ## Packets -/

/-- The handler of a type and the length it asks for behind the header. -/
def handlerOf (pkt : Packet) : Option ((Daemon ω τ → Option (Handled ω τ)) × Nat) :=
  if pkt.typeInt = EadType.ping.code then some (handlePing cfg, 0)
  else if pkt.typeInt = EadType.setUsername.code then some (handleSetUsername x pkt, 32)
  else if pkt.typeInt = EadType.getPrime.code then some (handleGetPrime x, 0)
  else if pkt.typeInt = EadType.sendA.code then some (handleSendA pkt, 1)
  else if pkt.typeInt = EadType.sendAuth.code then some (handleSendAuth x pkt, 20)
  else if pkt.typeInt = EadType.sendCmd.code then some (handleSendCmd x cfg pkt, 3 + 25)
  else none

/-- The instance of a session id. -/
def instanceOf (sid : UInt16) : Int := ((sid &&& 0xf000) >>> 12).toNat

/-- The response goes out before the transition. -/
def respond (h : Handled ω τ) : Option (Daemon ω τ) :=
  setState x (h.daemon.send h.reply.toList) h.nstate

/-- `parse_message` -/
def parseMessage (pkt : Packet) (d : Daemon ω τ) : Option (Daemon ω τ) :=
  if EadType.getPrime.code ≤ pkt.typeInt ∧ d.state.code ≠ pkt.typeInt then some d
  else if pkt.typeInt ≠ EadType.ping.code ∧ instanceOf pkt.sid ≠ cfg.instanceId then some d
  else
    match handlerOf x cfg pkt with
    | none => some d
    | some (handler, min_len) =>
      if pkt.caplen < Packet.headerSize + min_len then some d
      else (handler d).bind (respond x)

/-- `handle_packet` -/
def handlePacket (pkt : Packet) (d : Daemon ω τ) : Option (Daemon ω τ) :=
  if pkt.caplen < Packet.headerSize then some d
  else if pkt.etherType ≠ 0x0800 then some d
  else if pkt.etherDhost ≠ List.replicate 6 0xff then some d
  else if pkt.proto ≠ 17 then some d
  else if pkt.destport ≠ 56026 then some d
  else if pkt.magic ≠ 3671771902 then some d
  else if pkt.caplen < (Packet.headerSize + pkt.len.toNat) % 2 ^ cfg.sizeBits then some d
  else if pkt.nid ≠ 0xffff ∧ pkt.nid ≠ cfg.nid then some d
  else parseMessage x cfg pkt d

end

end Ead

end UolaOs
