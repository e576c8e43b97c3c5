import UolaOs.Lib.Reaches
import UolaOs.Ead.Server

/-!
# Logins of the daemon

* `Begun`, `Generated`, `Keyed`, `Authenticated`: how far the log got since the last user name;
* `Inv`: the state variable tells how far, and `ts` and `B` are those of the log;
* `authenticated_reachable`: commands run only after a whole login on one session.
-/

namespace UolaOs.Ead

section
variable {τ : Type}

/-! ## How far a login got -/

/-- The last user name opened the session. -/
def Begun (log : List (Event τ)) (ts : τ) : Prop :=
  ∃ old name, log = old ++ [.setUsername name, .opened ts]

/-- `GET_PRIME` was handled after that and `B` was made. Any `A` taken since was refused. -/
def Generated (log : List (Event τ)) (ts : τ) (B : Bytes) : Prop :=
  ∃ (old : List (Event τ)) (refused : List Bytes), Begun old ts ∧
    log = old ++ [.getPrime ts, .genExp ts B] ++ refused.map fun A => .sendA ts B A

/-- `SEND_A` was handled after that and the key of the session was set. -/
def Keyed (log : List (Event τ)) (ts : τ) (B : Bytes) : Prop :=
  ∃ old A key, Generated old ts B ∧ log = old ++ [.sendA ts B A, .setKey ts A key]

/-- `SEND_AUTH` was handled after that and was right. Only commands were run since. -/
def Authenticated (log : List (Event τ)) (ts : τ) (B : Bytes) : Prop :=
  ∃ (old : List (Event τ)) (auth : Bytes) (commands : List Bytes), Keyed old ts B ∧
    log = old ++ [.verified ts auth] ++ commands.map fun command => .system command

/-- Opened, and neither closed nor replaced since. -/
def IsOpen (log : List (Event τ)) (ts : τ) : Prop :=
  ∃ old since, log = old ++ .opened ts :: since ∧
    .closed ts ∉ since ∧ ∀ other, .opened other ∉ since

/-- `B` was made for the session while it was open, and no other since. -/
def IsGenerated (log : List (Event τ)) (ts : τ) (B : Bytes) : Prop :=
  ∃ old since, log = old ++ .genExp ts B :: since ∧ IsOpen old ts ∧ .closed ts ∉ since ∧
    (∀ other, .opened other ∉ since) ∧ ∀ other C, .genExp other C ∉ since

/-- What an event needs of the log before it. -/
def Event.Allowed (log : List (Event τ)) : Event τ → Prop
  | .sendA ts B _ => Generated log ts B
  | .system _ => ∃ ts B, Authenticated log ts B
  | _ => True

/-- Every event was allowed when it happened. -/
def Lawful (log : List (Event τ)) : Prop :=
  ∀ old e since, log = old ++ e :: since → e.Allowed old

section
variable {log : List (Event τ)} {ts : τ} {B : Bytes}

theorem Begun.generated (h : Begun log ts) (B : Bytes) :
    Generated (log ++ [.getPrime ts] ++ [.genExp ts B]) ts B :=
  ⟨log, [], h, by simp⟩

theorem Generated.sendA (h : Generated log ts B) (A : Bytes) :
    Generated (log ++ [.sendA ts B A]) ts B := by
  obtain ⟨old, refused, hold, rfl⟩ := h
  exact ⟨old, refused ++ [A], hold, by simp⟩

theorem Generated.keyed (h : Generated log ts B) (A key : Bytes) :
    Keyed (log ++ [.sendA ts B A] ++ [.setKey ts A key]) ts B :=
  ⟨log, A, key, h, by simp⟩

theorem Keyed.authenticated (h : Keyed log ts B) (auth : Bytes) :
    Authenticated (log ++ [.verified ts auth]) ts B :=
  ⟨log, auth, [], h, by simp⟩

theorem Authenticated.system (h : Authenticated log ts B) (command : Bytes) :
    Authenticated (log ++ [.system command]) ts B := by
  obtain ⟨old, auth, commands, hold, rfl⟩ := h
  exact ⟨old, auth, commands ++ [command], hold, by simp⟩

theorem IsOpen.append (h : IsOpen log ts) {es : List (Event τ)} (hclosed : .closed ts ∉ es)
    (hopened : ∀ other, .opened other ∉ es) : IsOpen (log ++ es) ts := by
  obtain ⟨old, since, rfl, hc, ho⟩ := h
  refine ⟨old, since ++ es, by simp, ?_, ?_⟩
  · simp [hc, hclosed]
  · simp [ho, hopened]

theorem Begun.isOpen (h : Begun log ts) : IsOpen log ts := by
  obtain ⟨old, name, rfl⟩ := h
  exact ⟨old ++ [.setUsername name], [], by simp, by simp, by simp⟩

theorem IsGenerated.isOpen (h : IsGenerated log ts B) : IsOpen log ts := by
  obtain ⟨old, since, rfl, hold, hc, ho, -⟩ := h
  exact hold.append (by simp [hc]) (by simp [ho])

theorem IsGenerated.append (h : IsGenerated log ts B) {es : List (Event τ)}
    (hclosed : .closed ts ∉ es) (hopened : ∀ other, .opened other ∉ es)
    (hgen : ∀ other C, .genExp other C ∉ es) : IsGenerated (log ++ es) ts B := by
  obtain ⟨old, since, rfl, hold, hc, ho, hg⟩ := h
  exact ⟨old, since ++ es, by simp, hold, by simp [hc, hclosed], by simp [ho, hopened],
    by simp [hg, hgen]⟩

theorem Generated.isGenerated (h : Generated log ts B) : IsGenerated log ts B := by
  obtain ⟨old, refused, hold, rfl⟩ := h
  refine ⟨old ++ [.getPrime ts], refused.map fun A => .sendA ts B A, by simp, ?_, by simp,
    by simp, by simp⟩
  exact hold.isOpen.append (by simp) (by simp)

theorem Keyed.isGenerated (h : Keyed log ts B) : IsGenerated log ts B := by
  obtain ⟨old, A, key, hold, rfl⟩ := h
  exact hold.isGenerated.append (by simp) (by simp) (by simp)

theorem Authenticated.isGenerated (h : Authenticated log ts B) : IsGenerated log ts B := by
  obtain ⟨old, auth, commands, hold, rfl⟩ := h
  rw [List.append_assoc]
  exact hold.isGenerated.append (by simp) (by simp) (by simp)

theorem Lawful.snoc (h : Lawful log) {e : Event τ} (he : e.Allowed log) :
    Lawful (log ++ [e]) := by
  intro old f since heq
  rcases List.eq_nil_or_concat since with rfl | ⟨since, g, rfl⟩
  · obtain ⟨rfl, hf⟩ := List.append_inj' heq rfl
    cases hf
    exact he
  · rw [List.concat_eq_append, ← List.cons_append, ← List.append_assoc] at heq
    exact h _ _ _ (List.append_inj' heq rfl).1

end

end

/-! ## The invariant -/

section
variable {ω τ : Type} {x : Extern ω τ} {cfg : Config} {d d' : Daemon ω τ}

/-- What the state variable tells. -/
def Stage (d : Daemon ω τ) : Prop :=
  match d.state with
  | .setUsername => d.ts = none
  | .getPrime => ∃ ts, d.ts = some ts ∧ Begun d.log ts
  | .sendA => ∃ ts B, d.ts = some ts ∧ d.B = some B ∧ Generated d.log ts B
  | .sendAuth => ∃ ts B, d.ts = some ts ∧ d.B = some B ∧ Keyed d.log ts B
  | .sendCmd => ∃ ts B, d.ts = some ts ∧ d.B = some B ∧ Authenticated d.log ts B
  | _ => False

structure Inv (d : Daemon ω τ) : Prop where
  stage : Stage d
  lawful : Lawful d.log

/-- A daemon that was just started. -/
structure Init (d : Daemon ω τ) : Prop where
  state : d.state = .setUsername
  ts : d.ts = none
  log : d.log = []

/-- Past the user name a session is open. -/
theorem Stage.getPrime_le (h : Stage d) (hs : d.state ≠ .setUsername) :
    EadType.getPrime.code ≤ d.state.code := by
  unfold Stage at h
  cases hst : d.state with
  | setUsername => exact absurd hst hs
  | getPrime | sendA | sendAuth | sendCmd => decide
  | ping | pong | ackUsername | prime | sendB | doneAuth | resultCmd =>
    rw [hst] at h
    exact absurd h id

theorem Init.inv (h : Init d) : Inv d where
  stage := by
    rw [Stage, h.state]
    exact h.ts
  lawful old e since heq := by
    rw [h.log] at heq
    exact absurd heq.symm (by simp)

theorem Inv.send (h : Inv d) (rs : List Reply) : Inv (d.send rs) := ⟨h.stage, h.lawful⟩

/-! ## Transitions -/

theorem setState_self (d : Daemon ω τ) : setState x d d.state = some d := if_pos rfl

section
variable {ts : τ}

theorem setState_getPrime (hs : d.state = .setUsername) :
    setState x d .getPrime = some (openSession x d .getPrime) := by
  simp [setState, hs, EadType.code]

theorem setState_sendA (hs : d.state = .getPrime) (hts : d.ts = some ts) :
    setState x d .sendA = some (generate x d ts .sendA) := by
  simp [setState, hs, hts, EadType.code]

theorem setState_sendAuth (hs : d.state = .sendA) (hts : d.ts = some ts) :
    setState x d .sendAuth = some (installKey x d ts .sendAuth) := by
  simp [setState, hs, hts, EadType.code]

theorem setState_sendCmd (hs : d.state = .sendAuth) :
    setState x d .sendCmd = some { d with state := .sendCmd } := by
  simp [setState, hs, EadType.code]

end

/-- A login that is given up or starts anew closes the session. -/
theorem Inv.restart (h : Inv d) (hd : setState x d .setUsername = some d') :
    d'.state = .setUsername ∧ d'.ts = none ∧ Lawful d'.log := by
  have hstage := h.stage
  unfold setState at hd
  split at hd
  · rename_i hs
    obtain rfl := Option.some.inj hd
    rw [Stage, hs] at hstage
    exact ⟨hs, hstage, h.lawful⟩
  · rename_i hs
    have hle := hstage.getPrime_le (Ne.intro hs)
    have hlt : EadType.setUsername.code < EadType.getPrime.code := by decide
    rw [if_pos (lt_of_lt_of_le hlt hle), if_pos ⟨hlt, hle⟩] at hd
    obtain ⟨ts, hts, rfl⟩ := Option.map_eq_some_iff.mp hd
    exact ⟨rfl, rfl, h.lawful.snoc trivial⟩

/-- The way out of `EAD_TYPE_SET_USERNAME` right after a user name was taken. -/
theorem inv_openSession {old : List (Event τ)} {name : Bytes} (hs : d.state = .setUsername)
    (hts : d.ts = none) (hlog : d.log = old ++ [.setUsername name]) (hlaw : Lawful d.log) :
    Inv (openSession x d .getPrime) := by
  have hstay (env : ω) : Inv { d with env := env } := by
    refine ⟨?_, hlaw⟩
    show Stage d
    rw [Stage, hs]
    exact hts
  unfold openSession
  dsimp only
  split
  · split
    · rename_i env _
      have hd : { d with env := env, ts := none } = { d with env := env } := by rw [← hts]
      rw [hd]
      exact hstay env
    · rename_i ts env _
      refine ⟨⟨ts, rfl, old, name, ?_⟩, hlaw.snoc trivial⟩
      rw [hlog, List.append_assoc]
      rfl
  · exact hstay _

theorem inv_generate {log : List (Event τ)} {ts : τ} (hlog : d.log = log ++ [.getPrime ts])
    (hts : d.ts = some ts) (h : Begun log ts) (hlaw : Lawful d.log) :
    Inv (generate x d ts .sendA) := by
  refine ⟨⟨ts, _, hts, rfl, ?_⟩, hlaw.snoc trivial⟩
  show Generated (d.log ++ _) ts _
  rw [hlog]
  exact h.generated _

theorem inv_installKey {log : List (Event τ)} {ts : τ} {B : Bytes} (hs : d.state = .sendA)
    (hts : d.ts = some ts) (hB : d.B = some B) (hlog : d.log = log ++ [.sendA ts B d.A])
    (h : Generated log ts B) (hlaw : Lawful d.log) : Inv (installKey x d ts .sendAuth) := by
  unfold installKey
  split
  · refine ⟨?_, hlaw⟩
    show Stage d
    rw [Stage, hs]
    exact ⟨ts, B, hts, hB, hlog ▸ h.sendA d.A⟩
  · rename_i key env _
    refine ⟨⟨ts, B, hts, hB, ?_⟩, hlaw.snoc trivial⟩
    show Keyed (d.log ++ _) ts B
    rw [hlog]
    exact h.keyed d.A key

/-! ## Handlers -/

/-- A handler that leaves `*nstate` alone. -/
theorem inv_respond_same {h : Handled ω τ} (hd : Inv h.daemon) (hn : h.nstate = h.daemon.state)
    (hr : respond x h = some d') : Inv d' := by
  rw [respond, hn] at hr
  obtain rfl := Option.some.inj ((setState_self _).symm.trans hr)
  exact hd.send _

theorem inv_handleSetUsername {pkt : Packet} {h : Handled ω τ} (hi : Inv d)
    (hh : handleSetUsername x pkt d = some h) (hr : respond x h = some d') : Inv d' := by
  obtain ⟨e, he, rfl⟩ := Option.map_eq_some_iff.mp hh
  obtain ⟨hs, hts, hlaw⟩ := hi.restart he
  obtain rfl := Option.some.inj ((setState_getPrime (by exact hs)).symm.trans hr)
  exact inv_openSession hs hts rfl (hlaw.snoc trivial)

theorem inv_handleGetPrime {h : Handled ω τ} (hi : Inv d) (hs : d.state = .getPrime)
    (hh : handleGetPrime x d = some h) (hr : respond x h = some d') : Inv d' := by
  have hstage := hi.stage
  rw [Stage, hs] at hstage
  obtain ⟨ts, hts, hbegun⟩ := hstage
  rw [handleGetPrime, hts] at hh
  obtain rfl := Option.some.inj hh
  obtain rfl := Option.some.inj ((setState_sendA (by exact hs) (by exact hts)).symm.trans hr)
  exact inv_generate rfl hts hbegun (hi.lawful.snoc trivial)

theorem inv_handleSendA {pkt : Packet} {h : Handled ω τ} (hi : Inv d) (hs : d.state = .sendA)
    (hh : handleSendA pkt d = some h) (hr : respond x h = some d') : Inv d' := by
  have hstage := hi.stage
  rw [Stage, hs] at hstage
  obtain ⟨ts, B, hts, hB, hgen⟩ := hstage
  unfold handleSendA at hh
  dsimp only at hh
  split at hh
  · obtain rfl := Option.some.inj hh
    exact inv_respond_same hi rfl hr
  split at hh
  · cases hh
  obtain ⟨t, ht, hh⟩ := Option.bind_eq_some_iff.mp hh
  obtain ⟨C, hC, rfl⟩ := Option.map_eq_some_iff.mp hh
  obtain rfl := Option.some.inj (hts.symm.trans ht)
  obtain rfl := Option.some.inj (hB.symm.trans hC)
  obtain rfl := Option.some.inj ((setState_sendAuth (by exact hs) (by exact hts)).symm.trans hr)
  exact inv_installKey hs hts hB rfl hgen (hi.lawful.snoc hgen)

theorem inv_handleSendAuth {pkt : Packet} {h : Handled ω τ} (hi : Inv d)
    (hs : d.state = .sendAuth) (hh : handleSendAuth x pkt d = some h)
    (hr : respond x h = some d') : Inv d' := by
  have hstage := hi.stage
  rw [Stage, hs] at hstage
  obtain ⟨ts, B, hts, hB, hkeyed⟩ := hstage
  obtain ⟨t, ht, rfl⟩ := Option.map_eq_some_iff.mp hh
  obtain rfl := Option.some.inj (hts.symm.trans ht)
  dsimp only at hr
  split at hr
  · have hi' : Inv { d with env := (x.serverVerify ts (pkt.data.take 20) d.env).2 } :=
      ⟨hi.stage, hi.lawful⟩
    obtain ⟨hs', hts', hlaw⟩ := (hi'.send []).restart hr
    refine ⟨?_, hlaw⟩
    rw [Stage, hs']
    exact hts'
  · obtain rfl := Option.some.inj ((setState_sendCmd (by exact hs)).symm.trans hr)
    exact ⟨⟨ts, B, hts, hB, hkeyed.authenticated _⟩, hi.lawful.snoc trivial⟩

/-! ## Commands -/

/-- A daemon that is logged in. -/
structure LoggedIn (d : Daemon ω τ) : Prop where
  inv : Inv d
  state : d.state = .sendCmd

namespace LoggedIn

theorem env (h : LoggedIn d) (env : ω) : LoggedIn { d with env := env } :=
  ⟨⟨h.inv.stage, h.inv.lawful⟩, h.state⟩

theorem send (h : LoggedIn d) (rs : List Reply) : LoggedIn (d.send rs) :=
  ⟨h.inv.send rs, h.state⟩

theorem system (h : LoggedIn d) (env : ω) (text : Bytes) :
    LoggedIn { d with env := env, log := d.log ++ [.system text] } := by
  have hstage := h.inv.stage
  rw [Stage, h.state] at hstage
  obtain ⟨ts, B, hts, hB, hauth⟩ := hstage
  refine ⟨⟨?_, h.inv.lawful.snoc ⟨ts, B, hauth⟩⟩, h.state⟩
  rw [Stage, h.state]
  exact ⟨ts, B, hts, hB, hauth.system text⟩

theorem stream (h : LoggedIn d) (reads : List Bytes) : LoggedIn (stream x d reads) := by
  induction reads generalizing d with
  | nil => exact h
  | cons data reads ih => exact ih ((h.env _).send _)

end LoggedIn

/-- What the handler of a command leaves. -/
structure Handled.Kept (h : Handled ω τ) : Prop where
  daemon : LoggedIn h.daemon
  nstate : h.nstate = .sendCmd

theorem Handled.Kept.respond {h : Handled ω τ} (hk : h.Kept) (hr : respond x h = some d') :
    Inv d' :=
  inv_respond_same hk.daemon.inv (hk.nstate.trans hk.daemon.state.symm) hr

theorem LoggedIn.kept (h : LoggedIn d) (reply : Option Reply) :
    (⟨d, reply, d.state⟩ : Handled ω τ).Kept := ⟨h, h.state⟩

theorem LoggedIn.done (h : LoggedIn d) : (done x d).Kept := (h.env _).kept _

theorem LoggedIn.forked (h : LoggedIn d) (text : Bytes) {k : Daemon ω τ → Handled ω τ}
    (hk : ∀ d, LoggedIn d → (k d).Kept) : (forked x d text k).Kept := by
  unfold Ead.forked
  dsimp only
  split
  · exact hk _ (h.system _ text)
  · exact (h.env _).kept none

theorem LoggedIn.runNormal (h : LoggedIn d) (cmd : Cmd) : (runNormal x cmd d).Kept := by
  unfold Ead.runNormal
  dsimp only
  split
  · refine (h.env _).forked _ fun d hd => ?_
    split
    · exact ((hd.env _).stream _).kept none
    · exact ((hd.env _).stream _).done
  · exact (h.env _).kept none

theorem inv_handleSendCmd {pkt : Packet} {h : Handled ω τ} (hi : Inv d) (hs : d.state = .sendCmd)
    (hh : handleSendCmd x cfg pkt d = some h) (hr : respond x h = some d') : Inv d' := by
  have hd : LoggedIn d := ⟨hi, hs⟩
  refine Handled.Kept.respond ?_ hr
  unfold handleSendCmd at hh
  dsimp only at hh
  split at hh
  · obtain rfl := Option.some.inj hh
    exact (hd.env _).kept none
  · split at hh
    · obtain rfl := Option.some.inj hh
      exact (hd.env _).runNormal _
    · obtain rfl := Option.some.inj hh
      exact (hd.env _).forked _ fun _ => LoggedIn.done

/-! ## Packets -/

/-- A packet past the checks has the type that the state asks for, a ping or a user name. -/
theorem inv_parseMessage {pkt : Packet} (hi : Inv d) (hd : parseMessage x cfg pkt d = some d') :
    Inv d' := by
  unfold parseMessage at hd
  split at hd
  · cases hd
    exact hi
  rename_i hstate
  split at hd
  · cases hd
    exact hi
  split at hd
  · cases hd
    exact hi
  rename_i handler min_len hof
  split at hd
  · cases hd
    exact hi
  obtain ⟨h, hh, hr⟩ := Option.bind_eq_some_iff.mp hd
  have hcode {s : EadType} (ht : pkt.typeInt = s.code) (hle : EadType.getPrime.code ≤ s.code) :
      d.state = s := by
    have heq : d.state.code = s.code := by
      by_contra hne
      exact hstate ⟨ht ▸ hle, fun h => hne (h.trans ht)⟩
    exact EadType.code_injective heq
  unfold handlerOf at hof
  split at hof
  · cases hof
    obtain rfl := Option.some.inj hh
    exact inv_respond_same hi rfl hr
  split at hof
  · cases hof
    exact inv_handleSetUsername hi hh hr
  split at hof
  · rename_i ht
    cases hof
    exact inv_handleGetPrime hi (hcode ht (by decide)) hh hr
  split at hof
  · rename_i ht
    cases hof
    exact inv_handleSendA hi (hcode ht (by decide)) hh hr
  split at hof
  · rename_i ht
    cases hof
    exact inv_handleSendAuth hi (hcode ht (by decide)) hh hr
  split at hof
  · rename_i ht
    cases hof
    exact inv_handleSendCmd hi (hcode ht (by decide)) hh hr
  · cases hof

theorem inv_handlePacket {pkt : Packet} (hi : Inv d) (hd : handlePacket x cfg pkt d = some d') :
    Inv d' := by
  unfold handlePacket at hd
  repeat' split at hd
  all_goals first
    | exact inv_parseMessage hi hd
    | exact Option.some.inj hd ▸ hi

/-! ## Runs -/

/-- Packets in any order reach the daemon. -/
def Reachable (x : Extern ω τ) (cfg : Config) : Daemon ω τ → Prop :=
  Reaches Init fun d pkt d' => handlePacket x cfg pkt d = some d'

theorem inv_reachable (h : Reachable x cfg d) : Inv d :=
  h.invariant (fun _ => Init.inv) fun _ _ _ => inv_handlePacket

/-- **Authentication before execution.** Whatever packets arrive, a command runs only after a
whole login on one session since the last user name, `B` is sent only after it was made for that
session, and past the user name `ts` is open and has the `B` of the log. -/
theorem authenticated_reachable (h : Reachable x cfg d) :
    (∀ old command since, d.log = old ++ .system command :: since →
      ∃ ts B, Authenticated old ts B) ∧
    (∀ old ts B A since, d.log = old ++ .sendA ts B A :: since → Generated old ts B) ∧
    (EadType.getPrime.code ≤ d.state.code → ∃ ts, d.ts = some ts ∧ IsOpen d.log ts) ∧
    (EadType.sendA.code ≤ d.state.code →
      ∃ ts B, d.ts = some ts ∧ d.B = some B ∧ IsGenerated d.log ts B) := by
  have hi := inv_reachable h
  have hstage := hi.stage
  refine ⟨fun old command since => hi.lawful old _ since,
    fun old ts B A since => hi.lawful old _ since, fun hle => ?_, fun hle => ?_⟩
  · unfold Stage at hstage
    cases hs : d.state with
    | setUsername => rw [hs] at hle; exact absurd hle (by decide)
    | getPrime =>
      rw [hs] at hstage
      obtain ⟨ts, hts, hbegun⟩ := hstage
      exact ⟨ts, hts, hbegun.isOpen⟩
    | sendA =>
      rw [hs] at hstage
      obtain ⟨ts, B, hts, -, hgen⟩ := hstage
      exact ⟨ts, hts, hgen.isGenerated.isOpen⟩
    | sendAuth =>
      rw [hs] at hstage
      obtain ⟨ts, B, hts, -, hkeyed⟩ := hstage
      exact ⟨ts, hts, hkeyed.isGenerated.isOpen⟩
    | sendCmd =>
      rw [hs] at hstage
      obtain ⟨ts, B, hts, -, hauth⟩ := hstage
      exact ⟨ts, hts, hauth.isGenerated.isOpen⟩
    | ping | pong | ackUsername | prime | sendB | doneAuth | resultCmd =>
      rw [hs] at hstage
      exact absurd hstage id
  · unfold Stage at hstage
    cases hs : d.state with
    | setUsername | getPrime => rw [hs] at hle; exact absurd hle (by decide)
    | sendA =>
      rw [hs] at hstage
      obtain ⟨ts, B, hts, hB, hgen⟩ := hstage
      exact ⟨ts, B, hts, hB, hgen.isGenerated⟩
    | sendAuth =>
      rw [hs] at hstage
      obtain ⟨ts, B, hts, hB, hkeyed⟩ := hstage
      exact ⟨ts, B, hts, hB, hkeyed.isGenerated⟩
    | sendCmd =>
      rw [hs] at hstage
      obtain ⟨ts, B, hts, hB, hauth⟩ := hstage
      exact ⟨ts, B, hts, hB, hauth.isGenerated⟩
    | ping | pong | ackUsername | prime | sendB | doneAuth | resultCmd =>
      rw [hs] at hstage
      exact absurd hstage id

end

section

/-- A machine on which every call succeeds and the cipher is the identity. -/
def plainExtern : Extern Unit Unit where
  preparePassword _ _ := (true, ())
  serverOpenRaw _ := (some (), ())
  serverClose _ _ := ()
  serverGenExp _ _ := ([5], ())
  serverGetKey _ A _ := (some A, ())
  serverVerify _ _ _ := (0, ())
  serverResponse _ _ := []
  salt _ _ := (0, [], [])
  setKey _ _ := ()
  decryptMessage _ data _ := ((data.length - 25 - (data.getD 24 0).toNat, data.drop 25), ())
  encryptMessage bytes _ := (bytes, ())
  pipe _ := (true, ())
  fork _ := (true, ())
  console _ _ := (([], false), ())

def plainConfig : Config where
  endian := .little
  sizeBits := 32
  nid := 0x1337
  instanceId := 1
  devName := []

def plainPacket (type : UInt32) (data : Bytes) : Packet where
  etherDhost := List.replicate 6 0xff
  etherType := 0x0800
  proto := 17
  destport := 56026
  magic := 3671771902
  len := UInt32.ofNat data.length
  type := type
  nid := 0x1337
  sid := 0x1000
  data := data

/-- A login as `root` and the command `ls`. -/
def plainLogin : List Packet :=
  [plainPacket 2 ([0x72, 0x6f, 0x6f, 0x74] ++ List.replicate 28 0), plainPacket 4 [],
    plainPacket 6 [0, 7], plainPacket 8 (List.replicate 20 1),
    plainPacket 10
      (List.replicate 24 0 ++ [33, 0, 0, 10, 0x6c, 0x73, 0] ++ List.replicate 33 0)]

def plainStart : Daemon Unit Unit := ⟨(), .setUsername, [], none, [], none, none, [], []⟩

theorem plainStart_init : Init plainStart := ⟨rfl, rfl, rfl⟩

theorem authenticated_reachable_plain :
    ∃ d : Daemon Unit Unit, Reachable plainExtern plainConfig d ∧
      d.log.getLast? = some (.system [0x6c, 0x73]) ∧
      (EadType.sendA.code ≤ d.state.code →
        ∃ ts B, d.ts = some ts ∧ d.B = some B ∧ IsGenerated d.log ts B) := by
  have hrun : (plainLogin.foldlM (fun d pkt => handlePacket plainExtern plainConfig pkt d)
      plainStart).any (fun d => d.log.getLast? == some (.system [0x6c, 0x73])) = true := by
    decide
  obtain ⟨d, hd, hlast⟩ := Reaches.exists_run plainStart_init hrun
  exact ⟨d, hd, beq_iff_eq.mp hlast, (authenticated_reachable hd).2.2.2⟩

end

end UolaOs.Ead
