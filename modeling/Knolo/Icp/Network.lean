import Knolo.Icp.Custody
import Knolo.Library.History
import Knolo.Library.Relational

/-!
# Canisters that hand over

A canister forwards a handoff to a peer: a call of `accept_handoff`, sent when the forwarding call has
passed its checks, done by the peer once or never, and answered once, by what the peer replies or by a
rejection. In between, and while the peer drains the effects of the new execution, every canister of the
network goes on with messages of its own.

* `Network`, `Move` — the canisters, the calls between them and their log; a message, a delivery, an answer.
* `run_projects` — what a canister does in a network, it does alone.
* `handoffs_agree` — what forwards, acceptances and records say of each other, in every order of the moves.
-/

namespace Knolo.Icp

open Core Library Library.Fallible Host Knolo.Runtime

variable (codec : Codec) (principal : String → Except String String) (f : Formats)

/-! ### Calls between canisters -/

/-- A call of `accept_handoff` at a peer. -/
structure Transfer where
  peer : String
  executionId : String
  envelopeJson : String
  stateJson : String
  parentAuthorityJson : String

/-- How far a call has come. -/
inductive Stage where
  /-- It is on its way. -/
  | sent
  /-- The peer has done it, and replies. The reply comes when the effects are drained. -/
  | done (dto : HandoffDto)
  /-- The peer has trapped. -/
  | trapped

/-- A call that is not answered yet. -/
structure Outbound where
  serial : ℕ
  transfer : Transfer
  stage : Stage

/-- The canister the call is to. -/
def Transfer.target (t : Transfer) : Option String := (parsePrincipal principal t.peer).toOption

/-- What the canister keeps of the call. -/
def Transfer.forwarding (t : Transfer) : Forwarding where
  peer := t.peer
  executionId := t.executionId

/-- `HandoffDto::from_record`. -/
def HandoffDto.fromRecord (h : HandoffRecordV1) : HandoffDto where
  ok := h.status = "accepted" ∨ h.status = "forwarded"
  handoffId := h.handoffId
  executionId := h.executionId
  destination := h.destination
  status := h.status
  message := h.message

/-- `HandoffDto::err`. -/
def HandoffDto.err (message : String) : HandoffDto where
  ok := false
  handoffId := ""
  executionId := ""
  destination := ""
  status := "error"
  message := message

/-- `accept_handoff`, with the record that it replies from. -/
def Transfer.accept (i : Ingress) (t : Transfer) : Method Canister Notice String Unit HandoffRecordV1 := do
  requireRunAuth i
  requireCyclesGuard i
  let (_, h) ← onEngine codec
    (Icp.acceptHandoff codec t.executionId t.envelopeJson t.stateJson t.parentAuthorityJson)
  Method.tell (.created t.executionId)
  Method.tell (.handed h.handoffId)
  finish codec principal f t.executionId i.readings
  return h

/-- The update call it is. -/
def Transfer.update (t : Transfer) : Update :=
  .acceptHandoff t.executionId t.envelopeJson t.stateJson t.parentAuthorityJson

/-- The call that a message makes, of a canister that is `c` before and `c'` after it. -/
def Message.forwards (c c' : Canister) : Message → Option Transfer
  | .update _ (.forwardHandoff peer executionId envelopeJson stateJson parentAuthorityJson) =>
    if c.forwards.length < c'.forwards.length then
      some { peer, executionId, envelopeJson, stateJson, parentAuthorityJson }
    else none
  | _ => none

/-! ### The network -/

/-- What is worth noting of the handoffs in a network. -/
inductive Happening where
  /-- `source` calls a peer; `definition` is what it has loaded. -/
  | forwarded (serial : ℕ) (source : String) (transfer : Transfer) (definition : Option LoadedDefinition)
  /-- The peer, `target`, accepts. -/
  | accepted (serial : ℕ) (target : String) (definition : Option LoadedDefinition) (record : HandoffRecordV1)
  /-- `source` has the answer and keeps a record. -/
  | recorded (serial : ℕ) (source : String) (record : HandoffRecordV1)

/-- The call a happening is about. -/
def Happening.serial : Happening → ℕ
  | .forwarded s .. | .accepted s .. | .recorded s .. => s

/-- A peer accepts. -/
def Happening.isAccepted : Happening → Bool
  | .accepted .. => true
  | _ => false

/-- A record is kept. -/
def Happening.isRecorded : Happening → Bool
  | .recorded .. => true
  | _ => false

/-- Canisters by their principals, and the calls of each that are not answered. -/
structure Network where
  canisters : String → CanisterSession
  calls : String → List Outbound
  /-- The calls made so far. -/
  made : ℕ
  log : List Happening

/-- New canisters. -/
def Network.blank : Network where
  canisters := fun _ => newCanister
  calls := fun _ => []
  made := 0
  log := []

/-- What can happen next. -/
inductive Move where
  /-- A message to a canister that is not the answer of a peer. -/
  | message (canister : String) (m : Message)
  /-- A call of `source` comes to its peer. -/
  | deliver (source : String) (index : ℕ) (i : Ingress)
  /-- A call of `source` is answered: by the peer's reply, or by a rejection. -/
  | answer (source : String) (index : ℕ) (rejection : Option String)
  /-- A call of `source` to a canister of another kind is answered. -/
  | foreign (source : String) (index : ℕ) (dto : HandoffDto)

/-- The network after a message to a canister. -/
def Network.tell (n : Network) (canister : String) (m : Message) : Network :=
  let s := n.canisters canister
  let s' := s.after (Message.perform codec principal f) m
  let n := { n with canisters := Function.update n.canisters canister s' }
  match m.forwards s.state s'.state with
  | none => n
  | some t =>
    { n with
      calls := Function.update n.calls canister (n.calls canister ++ [{ serial := n.made, transfer := t, stage := .sent }])
      made := n.made + 1
      log := n.log ++ [.forwarded n.made canister t s.state.engine.definition] }

/-- The network after the call `o` of `source` was done by its peer. -/
def Network.deliver (n : Network) (source : String) (index : ℕ) (o : Outbound) (target : String) (i : Ingress) : Network :=
  let s := n.canisters target
  let staged := fun stage : Stage =>
    Function.update n.calls source ((n.calls source).set index { o with stage })
  match o.transfer.accept codec principal f { i with caller := source } s.state with
  | .error _ => { n with calls := staged .trapped }
  | .ok r =>
    let canisters := Function.update n.canisters target { state := r.state, log := s.log ++ r.log }
    match r.result with
    | .error message => { n with canisters, calls := staged (.done (.err message)) }
    | .ok h =>
      { n with
        canisters, calls := staged (.done (.fromRecord h))
        log := n.log ++ [.accepted o.serial target s.state.engine.definition h] }

/-- The network after the call `o` of `source` was answered. -/
def Network.conclude (n : Network) (source : String) (index : ℕ) (o : Outbound) (reply : Except String HandoffDto) :
    Network :=
  { n with
    canisters := Function.update n.canisters source
      ((n.canisters source).after (Message.perform codec principal f) (.peerReply index reply))
    calls := Function.update n.calls source ((n.calls source).eraseIdx index)
    log :=
      match reply with
      | .ok dto => n.log ++ [.recorded o.serial source (o.transfer.forwarding.record dto)]
      | .error _ => n.log }

variable (runtime : String → Bool)

/-- The network after a move; `runtime` says which canisters are agent runtimes. -/
def Network.after (n : Network) : Move → Network
  | .message _ (.peerReply ..) => n
  | .message canister m => n.tell codec principal f canister m
  | .deliver source index i =>
    match (n.calls source)[index]? with
    | none => n
    | some o =>
      match o.stage, o.transfer.target principal with
      | .sent, some target => if runtime target then n.deliver codec principal f source index o target i else n
      | _, _ => n
  | .answer source index rejection =>
    match (n.calls source)[index]? with
    | none => n
    | some o =>
      match rejection, o.stage with
      | some message, _ => n.conclude codec principal f source index o (.error message)
      | none, .done dto => n.conclude codec principal f source index o (.ok dto)
      | none, _ => n
  | .foreign source index dto =>
    match (n.calls source)[index]? with
    | none => n
    | some o =>
      if (o.transfer.target principal).any fun target => !runtime target then
        n.conclude codec principal f source index o (.ok dto)
      else n

/-- The network after moves, from new canisters. -/
def Network.run (moves : List Move) : Network := moves.foldl (Network.after codec principal f runtime) .blank

/-! ### What a message does to the calls -/

variable {codec : Codec} {principal : String → Except String String} {f : Formats} {c c' : Canister}
  {l : List Forwarding} {runtime : String → Bool}

/-- The calls that wait for an answer. -/
def Waiting (l : List Forwarding) (c : Canister) : Prop := c.forwards = l

theorem onEngine_waiting {α : Type} (p : EngineM α) : Method.Keeps (Waiting l) (onEngine codec p) :=
  fun _ hc => onEngine_sat fun _ _ => hc

theorem persistCurrent_waiting : Method.Keeps (Waiting l) (persistCurrent f) := by
  intro c hc
  refine persistCurrent_sat.mono fun _ c' _ h => ?_
  obtain ⟨⟨stable, rfl, -⟩, -⟩ := h
  exact hc

theorem finish_waiting (k : String) (readings : List CycleReading) :
    Method.Keeps (Waiting l) (finish codec principal f k readings) := by
  intro c hc
  refine finish_sat (fun e timer timers c' _ h => ?_) fun _ _ => hc
  obtain ⟨⟨stable, rfl, -⟩, -⟩ := h
  exact hc

theorem guards_waiting (i : Ingress) :
    Method.Keeps (Waiting l) (requireRunAuth i) ∧ Method.Keeps (Waiting l) (requireCyclesGuard i) :=
  ⟨Method.Keeps.read_bind fun _ _ => Method.keeps_ofExcept _, Method.Keeps.read_bind fun _ _ => Method.keeps_ofExcept _⟩

theorem timerContinueExecution_waiting (k : String) (readings : List CycleReading) :
    Method.Keeps (Waiting l) (timerContinueExecution codec principal f k readings) := by
  have hrest : ∀ p : EngineM ExecutionRecord, Method.Keeps (Waiting l)
      (onEngine codec p >>= fun _ => finish codec principal f k readings) :=
    fun p => (onEngine_waiting p).bind fun _ => finish_waiting k readings
  refine fun c hc => Method.sat_read_bind.mpr ?_
  split
  · exact Method.sat_modify_bind.mpr (hrest _ _ hc)
  · exact hrest _ c hc

theorem goOn_waiting (t : Task) (answer : HostReply) (after : Option ℕ) (readings : List CycleReading) :
    Method.Keeps (Waiting l) (t.goOn codec principal f answer after readings) := by
  refine Method.Keeps.bind (Method.keeps_modify fun _ hc => hc) fun _ => (onEngine_waiting _).observe.bind fun out => ?_
  split
  · exact finish_waiting t.executionId readings
  · exact persistCurrent_waiting.observe.bind fun _ => Method.keeps_pure _

/-- Only a handoff that is forwarded adds a call. -/
theorem Update.waiting (i : Ingress) (u : Update)
    (hu : ∀ peer k envelope state parent, u ≠ .forwardHandoff peer k envelope state parent) :
    Method.Keeps (Waiting l) (u.perform codec principal f i) := by
  obtain ⟨hauth, hguard⟩ := guards_waiting (l := l) i
  have hpersist : ∀ g : String → String, Method.Keeps (Waiting l) ((persistCurrent f).mapError g) :=
    fun g => persistCurrent_waiting.mapError g
  have hfinish := fun k => @finish_waiting codec principal f l k i.readings
  cases u with
  | loadDefinition json =>
    refine (Method.keeps_ofExcept _).bind fun _ => (onEngine_waiting _).bind fun _ => ?_
    exact (hpersist _).bind fun _ => Method.keeps_tell _
  | clearDefinition =>
    refine (Method.keeps_ofExcept _).bind fun _ => (onEngine_waiting _).bind fun _ => ?_
    exact (hpersist _).bind fun _ => Method.keeps_tell _
  | setLimits =>
    refine (Method.keeps_ofExcept _).bind fun _ => Method.Keeps.read_bind fun c _ => ?_
    exact (onEngine_waiting _).bind fun _ => (hpersist _).bind fun _ => Method.keeps_tell _
  | startExecution k state =>
    refine hauth.bind fun _ => hguard.bind fun _ => (onEngine_waiting _).bind fun _ => ?_
    exact (Method.keeps_tell _).bind fun _ => hfinish k
  | step k n => exact hauth.bind fun _ => hguard.bind fun _ => (onEngine_waiting _).bind fun _ => hfinish k
  | resume k => exact hauth.bind fun _ => hguard.bind fun _ => (onEngine_waiting _).bind fun _ => hfinish k
  | continueEffects k => exact hauth.bind fun _ => hfinish k
  | acceptHandoff k envelope state parent =>
    refine hauth.bind fun _ => hguard.bind fun _ => (onEngine_waiting _).bind fun x => ?_
    exact (Method.keeps_tell _).bind fun _ => (Method.keeps_tell _).bind fun _ => hfinish k
  | forwardHandoff peer k envelope state parent => exact absurd rfl (hu peer k envelope state parent)

/-- An identifier is not empty. -/
theorem identifier_text_ne (id : Identifier) : id.text ≠ "" := fun h => by
  have hvalid := id.valid
  rw [h] at hvalid
  simp [validIdentifier] at hvalid

theorem mapError_eq_ok {ε ε' α : Type} {x : Except ε α} {g : ε → ε'} {a : α} : x.mapError g = .ok a ↔ x = .ok a := by
  cases x <;> simp [Except.mapError]

/-- What is checked of a handoff against the definition `d`. -/
structure Checked (codec : Codec) (t : Transfer) (d : LoadedDefinition) (parent : AuthorityV1)
    (envelope : HandoffEnvelopeV1) : Prop where
  readsParent : codec.parseAuthority t.parentAuthorityJson = .ok parent
  readsEnvelope : codec.parseEnvelope t.envelopeJson = .ok envelope
  narrowed : envelope.authorityProjection.narrowedBy parent d.authority = .ok ()

theorem checked_of_valid {t : Transfer} {d : LoadedDefinition} {parent : AuthorityV1} {envelope : HandoffEnvelopeV1}
    {limits : RuntimeLimitsV1} (hp : parseAuthority codec t.parentAuthorityJson = .ok parent)
    (he : parseAndValidateEnvelope codec t.envelopeJson parent d.authority limits = .ok envelope) :
    Checked codec t d parent envelope := by
  obtain ⟨_, -, h⟩ := bind_eq_ok.mp he
  obtain ⟨envelope', henvelope, h⟩ := bind_eq_ok.mp h
  obtain ⟨_, hvalid, h⟩ := bind_eq_ok.mp h
  cases h
  obtain ⟨_, -, hvalid⟩ := bind_eq_ok.mp hvalid
  exact ⟨mapError_eq_ok.mp hp, mapError_eq_ok.mp henvelope, hvalid⟩

/-- What the canister has checked of a handoff that it forwards. -/
structure Forwardable (codec : Codec) (principal : String → Except String String) (c : Canister) (t : Transfer) :
    Prop where
  checked : ∃ d parent envelope, c.engine.definition = some d ∧ Checked codec t d parent envelope
  target : ∃ target, t.target principal = some target

theorem forwardHandoff_waiting (i : Ingress) (t : Transfer) :
    ((Update.forwardHandoff t.peer t.executionId t.envelopeJson t.stateJson t.parentAuthorityJson).perform
      codec principal f i).Sat c fun _ c' _ =>
        c'.forwards = c.forwards ∨ c'.forwards = c.forwards ++ [t.forwarding] ∧ Forwardable codec principal c t := by
  refine (still_runAuth i).sat_bind (fun _ => ?_) fun _ => .inl rfl
  refine (still_cyclesGuard i).sat_bind (fun _ => ?_) fun _ => .inl rfl
  refine Method.Sat.ofExcept_bind (fun target htarget => ?_) fun _ _ => .inl rfl
  refine Method.sat_read_bind.mpr (Method.Sat.ofExcept_bind (fun _ hcheck => ?_) fun _ _ => .inl rfl)
  refine Method.sat_modify.mpr (.inr ⟨rfl, ?_, target, ?_⟩)
  · obtain ⟨d, hd, h⟩ := bind_eq_ok.mp (mapError_eq_ok.mp hcheck)
    obtain ⟨parent, hparent, h⟩ := bind_eq_ok.mp h
    obtain ⟨envelope, henvelope, -⟩ := bind_eq_ok.mp h
    exact ⟨d, parent, envelope, loaded_eq_ok.mp hd, checked_of_valid hparent henvelope⟩
  · rw [Transfer.target, mapError_eq_ok.mp htarget]
    rfl

/-- A message that is no answer of a peer adds the call that it makes. -/
theorem forwards_of_message {s : CanisterSession} {m : Message} (hm : ∀ index reply, m ≠ .peerReply index reply) :
    (m.forwards s.state (s.after (Message.perform codec principal f) m).state = none ∧
      (s.after (Message.perform codec principal f) m).state.forwards = s.state.forwards) ∨
    ∃ t, m.forwards s.state (s.after (Message.perform codec principal f) m).state = some t ∧
      (s.after (Message.perform codec principal f) m).state.forwards = s.state.forwards ++ [t.forwarding] ∧
      Forwardable codec principal s.state t := by
  have hkeep : Method.Keeps (Waiting s.state.forwards) (m.perform codec principal f) →
      (s.after (Message.perform codec principal f) m).state.forwards = s.state.forwards := fun h =>
    Session.after_of_sat (m := Message.perform codec principal f) (T := fun c' _ => c'.forwards = s.state.forwards)
      (h s.state rfl) rfl
  have hnone : (∀ c c', m.forwards c c' = none) → Method.Keeps (Waiting s.state.forwards) (m.perform codec principal f) →
      (m.forwards s.state (s.after (Message.perform codec principal f) m).state = none ∧
        (s.after (Message.perform codec principal f) m).state.forwards = s.state.forwards) :=
    fun h hk => ⟨h _ _, hkeep hk⟩
  cases m with
  | update i u =>
    by_cases hu : ∃ peer k envelope state parent, u = .forwardHandoff peer k envelope state parent
    · obtain ⟨peer, k, envelope, state, parent, rfl⟩ := hu
      let t : Transfer := ⟨peer, k, envelope, state, parent⟩
      have hafter := Session.after_of_sat (m := Message.perform codec principal f) (s := s)
        (c := .update i (.forwardHandoff peer k envelope state parent))
        (T := fun c' _ => c'.forwards = s.state.forwards ∨
          c'.forwards = s.state.forwards ++ [t.forwarding] ∧ Forwardable codec principal s.state t)
        (forwardHandoff_waiting (f := f) i t) (.inl rfl)
      rcases hafter with hsame | ⟨hadded, hchecked⟩
      · exact .inl ⟨by simp [Message.forwards, hsame], hsame⟩
      · exact .inr ⟨t, by simp [Message.forwards, hadded, t], hadded, hchecked⟩
    · refine .inl (hnone (fun c c' => ?_) (u.waiting i fun peer k envelope state parent h =>
        hu ⟨peer, k, envelope, state, parent, h⟩))
      cases u with
      | forwardHandoff peer k envelope state parent => exact absurd ⟨peer, k, envelope, state, parent, rfl⟩ hu
      | _ => rfl
  | timer k readings =>
    refine .inl (hnone (fun _ _ => rfl) (Method.Keeps.read_bind fun c _ => ?_))
    split
    · exact fun c hc => committing_sat hc (timerContinueExecution_waiting k readings _ hc)
    · exact Method.keeps_pure _
  | reply index answer after readings =>
    refine .inl (hnone (fun _ _ => rfl) (Method.Keeps.read_bind fun c _ => ?_))
    split
    · exact fun c hc => committing_sat hc (goOn_waiting _ answer after readings _ hc)
    · exact Method.keeps_pure _
  | peerReply index reply => exact absurd rfl (hm index reply)

/-! ### What a peer does -/

/-- What is so when a peer whose canister is `c` accepts. -/
structure Acceptance (codec : Codec) (t : Transfer) (d : LoadedDefinition) (h : HandoffRecordV1) : Prop where
  checked : ∃ envelope, Checked codec t d h.parentAuthority envelope ∧
    h.childAuthority = envelope.authorityProjection ∧ h.destination = envelope.destination.text
  here : h.destination = d.compiled.definition.id.text
  execution : h.executionId = t.executionId

theorem acceptHandoff_acceptance (t : Transfer) (e : AgentEngine) :
    (Icp.acceptHandoff codec t.executionId t.envelopeJson t.stateJson t.parentAuthorityJson).Sat e fun res _ _ =>
      ∀ r h, res = .ok (r, h) → ∃ d, e.definition = some d ∧ Acceptance codec t d h := by
  have hfailed : ∀ err : CoreError, ∀ r h, (.error err : Except CoreError (ExecutionRecord × HandoffRecordV1)) = .ok (r, h) →
      ∃ d, e.definition = some d ∧ Acceptance codec t d h := fun _ _ _ h => by cases h
  refine Method.sat_read_bind.mpr (Method.Sat.ofExcept_bind (fun _ _ => ?_) fun _ _ => hfailed _)
  refine Method.Sat.ofExcept_bind (fun d hd => ?_) fun _ _ => hfailed _
  refine Method.Sat.ofExcept_bind (fun parent hparent => ?_) fun _ _ => hfailed _
  refine Method.Sat.ofExcept_bind (fun envelope henvelope => ?_) fun _ _ => hfailed _
  refine Method.Sat.ofExcept_bind (fun _ hdestination => ?_) fun _ _ => hfailed _
  have hchecked := checked_of_valid hparent henvelope
  have hhere := ensure_eq_ok.mp hdestination
  refine Method.Sat.bind (P := fun _ _ _ => True) (fun _ _ => trivial) (fun record _ _ _ => ?_) fun _ _ _ _ => hfailed _
  refine Method.Sat.bind (P := fun _ _ _ => True) (fun _ _ => trivial) (fun _ _ _ _ => ?_) fun _ _ _ _ => hfailed _
  refine Method.sat_modify_bind.mpr (Method.sat_pure.mpr fun r h heq => ⟨d, loaded_eq_ok.mp hd, ?_⟩)
  cases heq
  exact ⟨⟨envelope, hchecked, rfl, rfl⟩, hhere, rfl⟩

/-- What the peer does is the update call. -/
theorem accept_update (t : Transfer) (i : Ingress) :
    t.update.perform codec principal f i = (do let _ ← t.accept codec principal f i) := by
  simp only [Transfer.update, Update.perform, Transfer.accept, Method.bind_assoc, pure_bind, bind_pure_unit]

theorem accept_waiting (t : Transfer) (i : Ingress) : Method.Keeps (Waiting l) (t.accept codec principal f i) := by
  obtain ⟨hauth, hguard⟩ := guards_waiting (l := l) i
  refine hauth.bind fun _ => hguard.bind fun _ => (onEngine_waiting _).bind fun x => ?_
  refine (Method.keeps_tell _).bind fun _ => (Method.keeps_tell _).bind fun _ => ?_
  exact (finish_waiting _ _).bind fun _ => Method.keeps_pure _

theorem accept_acceptance (t : Transfer) (i : Ingress) :
    (t.accept codec principal f i).Sat c fun res _ _ =>
      ∀ h, res = .ok h → ∃ d, c.engine.definition = some d ∧ Acceptance codec t d h := by
  have hfailed : ∀ err : String, ∀ h, (.error err : Except String HandoffRecordV1) = .ok h →
      ∃ d, c.engine.definition = some d ∧ Acceptance codec t d h := fun _ _ h => by cases h
  refine (still_runAuth i).sat_bind (fun _ => ?_) hfailed
  refine (still_cyclesGuard i).sat_bind (fun _ => ?_) hfailed
  have hengine : (onEngine codec (Icp.acceptHandoff codec t.executionId t.envelopeJson t.stateJson
      t.parentAuthorityJson)).Sat c fun res _ _ =>
        ∀ r h, res = .ok (r, h) → ∃ d, c.engine.definition = some d ∧ Acceptance codec t d h :=
    onEngine_sat ((acceptHandoff_acceptance t c.engine).mono fun res _ _ hres r h heq => hres r h (mapError_eq_ok.mp heq))
  refine hengine.bind ?_ fun _ _ _ _ => hfailed _
  rintro ⟨r, h⟩ c' _ hh
  have hlast : ∀ c'' : Canister, (do
      finish codec principal f t.executionId i.readings
      return h : Method Canister Notice String Unit HandoffRecordV1).Sat c'' fun res _ _ =>
        ∀ h, res = .ok h → ∃ d, c.engine.definition = some d ∧ Acceptance codec t d h := by
    intro c''
    refine Method.Sat.bind (P := fun _ _ _ => True) (fun _ _ => trivial) (fun _ _ _ _ => ?_) fun _ _ _ _ => hfailed _
    refine Method.sat_pure.mpr fun h' heq => ?_
    cases heq
    exact hh r h rfl
  refine Method.Sat.bind (P := fun _ _ _ => True) (fun _ _ => trivial) (fun _ _ _ _ => ?_) fun _ _ _ _ => hfailed _
  refine Method.Sat.bind (P := fun _ _ _ => True) (fun _ _ => trivial) (fun _ c'' _ _ => ?_) fun _ _ _ _ => hfailed _
  exact hlast c''

/-! ### Justified logs -/

/-- What a happening says of those before it. -/
def Justified (codec : Codec) (principal : String → Except String String) (runtime : String → Bool)
    (past : List Happening) : Happening → Prop
  -- A call is new, and its canister has checked it.
  | .forwarded serial _ t definition =>
    (∀ x ∈ past, x.serial ≠ serial) ∧
      ∃ d parent envelope, definition = some d ∧ Checked codec t d parent envelope
  -- A peer accepts a call that was made, to it, once, and before it is answered; and has checked it itself.
  | .accepted serial target definition h =>
    ∃ source t before, .forwarded serial source t before ∈ past ∧ t.target principal = some target ∧
      (∀ x ∈ past, x.serial = serial → x.isAccepted = false ∧ x.isRecorded = false) ∧
      ∃ d, definition = some d ∧ Acceptance codec t d h
  -- A record is kept of a call that was made, once. It has a destination if and only if the peer has accepted.
  | .recorded serial source h =>
    ∃ t before, .forwarded serial source t before ∈ past ∧
      (∀ x ∈ past, x.serial = serial → x.isRecorded = false) ∧
      h.executionId = t.executionId ∧ h.peerCanister = some t.peer ∧
      ∀ target, t.target principal = some target → runtime target = true →
        (h.destination ≠ "" ↔ ∃ definition h', .accepted serial target definition h' ∈ past ∧ h'.destination = h.destination)

/-- What is so of a call of `source` that is not answered yet. -/
structure Pending (principal : String → Except String String) (runtime : String → Bool) (log : List Happening)
    (source : String) (o : Outbound) : Prop where
  made : ∃ definition, .forwarded o.serial source o.transfer definition ∈ log
  unrecorded : ∀ x ∈ log, x.serial = o.serial → x.isRecorded = false
  unsent : o.stage = .sent → ∀ x ∈ log, x.serial = o.serial → x.isAccepted = false
  replied : ∀ dto, o.stage = .done dto → ∀ target, o.transfer.target principal = some target → runtime target = true →
    (dto.destination ≠ "" ↔
      ∃ definition h, .accepted o.serial target definition h ∈ log ∧ h.destination = dto.destination)

/-- The invariant of a network. -/
structure Consistent (codec : Codec) (principal : String → Except String String) (runtime : String → Bool)
    (n : Network) : Prop where
  aligned : ∀ id, (n.calls id).map (·.transfer.forwarding) = (n.canisters id).state.forwards
  distinct : ∀ id, ((n.calls id).map (·.serial)).Nodup
  pending : ∀ id, ∀ o ∈ n.calls id, Pending principal runtime n.log id o
  below : ∀ x ∈ n.log, x.serial < n.made
  unique : ∀ {serial source t definition source' t' definition'}, .forwarded serial source t definition ∈ n.log →
    .forwarded serial source' t' definition' ∈ n.log → source = source' ∧ t = t'
  justified : Each (Justified codec principal runtime) [] n.log

variable {n : Network} {source : String} {o : Outbound} {log : List Happening}

theorem consistent_blank : Consistent codec principal runtime .blank where
  aligned _ := rfl
  distinct _ := List.nodup_nil
  pending _ _ ho := by cases ho
  below _ hx := by cases hx
  unique h := by cases h
  justified := each_nil _

/-- Happenings of other calls change nothing for a call. -/
theorem Pending.append (h : Pending principal runtime log source o) {extra : List Happening}
    (hextra : ∀ x ∈ extra, x.serial ≠ o.serial) : Pending principal runtime (log ++ extra) source o := by
  have hold : ∀ x ∈ log ++ extra, x.serial = o.serial → x ∈ log := by
    intro x hx hserial
    rcases List.mem_append.mp hx with hx | hx
    · exact hx
    · exact absurd hserial (hextra x hx)
  obtain ⟨definition, hmade⟩ := h.made
  refine ⟨⟨definition, List.mem_append_left _ hmade⟩, fun x hx hs => h.unrecorded x (hold x hx hs) hs,
    fun hsent x hx hs => h.unsent hsent x (hold x hx hs) hs, fun dto hdone target ht hr => ?_⟩
  rw [h.replied dto hdone target ht hr]
  constructor
  · rintro ⟨d, h', hmem, heq⟩
    exact ⟨d, h', List.mem_append_left _ hmem, heq⟩
  · rintro ⟨d, h', hmem, heq⟩
    exact ⟨d, h', hold _ hmem rfl, heq⟩

/-! ### Steps -/

/-- The other calls of a canister have other serials. -/
theorem other_of_mem_eraseIdx {calls : List Outbound} {i : ℕ} {o' : Outbound} (hd : (calls.map (·.serial)).Nodup)
    (ho : calls[i]? = some o) (h : o' ∈ calls.eraseIdx i) : o' ∈ calls ∧ o'.serial ≠ o.serial := by
  obtain ⟨hi, rfl⟩ := List.getElem?_eq_some_iff.mp ho
  have hperm := List.getElem_cons_eraseIdx_perm hi
  refine ⟨List.mem_of_mem_eraseIdx h, fun heq => ?_⟩
  have hnodup := (hperm.map (·.serial)).nodup_iff.mpr hd
  rw [List.map_cons, List.nodup_cons] at hnodup
  exact hnodup.1 (heq ▸ List.mem_map_of_mem h)

theorem mem_set_iff_of_some {calls : List Outbound} {i : ℕ} {x o' : Outbound} (ho : calls[i]? = some o)
    (h : o' ∈ calls.set i x) : o' = x ∨ o' ∈ calls.eraseIdx i := by
  obtain ⟨hi, rfl⟩ := List.getElem?_eq_some_iff.mp ho
  exact List.mem_cons.mp ((List.set_perm_cons_eraseIdx hi x).mem_iff.mp h)

/-- What a change of one call does not touch. -/
theorem map_set_of_some {β : Type} {g : Outbound → β} {calls : List Outbound} {i : ℕ} {x : Outbound}
    (ho : calls[i]? = some o) (hx : g x = g o) : (calls.set i x).map g = calls.map g := by
  obtain ⟨hi, rfl⟩ := List.getElem?_eq_some_iff.mp ho
  rw [List.map_set, hx, ← List.getElem_map g (h := by simpa using hi), List.set_getElem_self]

/-- A canister may do what adds no call and answers none. -/
theorem Consistent.visit (h : Consistent codec principal runtime n) {id : String} {s : CanisterSession}
    (hs : s.state.forwards = (n.canisters id).state.forwards) :
    Consistent codec principal runtime { n with canisters := Function.update n.canisters id s } where
  aligned id' := by
    by_cases hid : id' = id
    · subst hid
      simp [hs, h.aligned]
    · simp [Function.update_of_ne hid, h.aligned]
  distinct := h.distinct
  pending := h.pending
  below := h.below
  unique := h.unique
  justified := h.justified

/-- The calls that are made are older than the next. -/
theorem Consistent.serial_lt (h : Consistent codec principal runtime n) {id : String} (ho : o ∈ n.calls id) :
    o.serial < n.made := by
  obtain ⟨_, hmade⟩ := (h.pending id o ho).made
  exact h.below _ hmade

/-- A canister may make a call that it has checked. -/
theorem Consistent.call (h : Consistent codec principal runtime n) {id : String} {s : CanisterSession} {t : Transfer}
    (hs : s.state.forwards = (n.canisters id).state.forwards ++ [t.forwarding]) {definition : Option LoadedDefinition}
    (hchecked : ∃ d parent envelope, definition = some d ∧ Checked codec t d parent envelope) :
    Consistent codec principal runtime
      { canisters := Function.update n.canisters id s
        calls := Function.update n.calls id (n.calls id ++ [{ serial := n.made, transfer := t, stage := .sent }])
        made := n.made + 1
        log := n.log ++ [.forwarded n.made id t definition] } := by
  have hfresh : ∀ x ∈ n.log, x.serial ≠ n.made := fun x hx => (h.below x hx).ne
  have hnew : ∀ x ∈ n.log ++ [Happening.forwarded n.made id t definition],
      x.serial = n.made → x = .forwarded n.made id t definition := by
    intro x hx hserial
    rcases List.mem_append.mp hx with hx | hx
    · exact absurd hserial (hfresh x hx)
    · exact List.mem_singleton.mp hx
  refine ⟨fun id' => ?_, fun id' => ?_, fun id' o ho => ?_, fun x hx => ?_, ?_, ?_⟩
  · by_cases hid : id' = id
    · subst hid
      simp [hs, h.aligned]
    · simp [Function.update_of_ne hid, h.aligned]
  · by_cases hid : id' = id
    · subst hid
      simp only [Function.update_self, List.map_append, List.map_cons, List.map_nil]
      refine List.nodup_append.mpr ⟨h.distinct id', List.nodup_singleton _, fun a ha b hb => ?_⟩
      obtain ⟨o, ho, rfl⟩ := List.mem_map.mp ha
      rw [List.mem_singleton.mp hb]
      exact (h.serial_lt ho).ne
    · simpa [Function.update_of_ne hid] using h.distinct id'
  · by_cases hcall : o ∈ n.calls id'
    · refine (h.pending id' o hcall).append fun x hx => ?_
      rw [List.mem_singleton.mp hx]
      exact (h.serial_lt hcall).ne'
    · by_cases hid : id' = id
      · subst hid
        simp only [Function.update_self, List.mem_append, hcall, false_or, List.mem_singleton] at ho
        subst ho
        refine ⟨⟨_, List.mem_append_right _ (List.mem_singleton_self _)⟩, fun x hx hserial => ?_,
          fun _ x hx hserial => ?_, fun dto hdone => by cases hdone⟩
        · rw [hnew x hx hserial]
          rfl
        · rw [hnew x hx hserial]
          rfl
      · exact absurd (by simpa [Function.update_of_ne hid] using ho) hcall
  · rcases List.mem_append.mp hx with hx | hx
    · exact (h.below x hx).trans (Nat.lt_succ_self _)
    · rw [List.mem_singleton.mp hx]
      exact Nat.lt_succ_self _
  · intro serial source t₁ definition₁ source' t₂ definition₂ h₁ h₂
    rcases List.mem_append.mp h₁ with h₁ | h₁ <;> rcases List.mem_append.mp h₂ with h₂ | h₂
    · exact h.unique h₁ h₂
    · cases List.mem_singleton.mp h₂
      exact absurd rfl (hfresh _ h₁)
    · cases List.mem_singleton.mp h₁
      exact absurd rfl (hfresh _ h₂)
    · cases List.mem_singleton.mp h₁
      cases List.mem_singleton.mp h₂
      exact ⟨rfl, rfl⟩
  · exact (each_append [] _ _).mpr ⟨h.justified, ⟨hfresh, hchecked⟩, trivial⟩

/-- A message to a canister keeps the network consistent. -/
theorem Consistent.tell (h : Consistent codec principal runtime n) (id : String) {m : Message}
    (hm : ∀ index reply, m ≠ .peerReply index reply) :
    Consistent codec principal runtime (n.tell codec principal f id m) := by
  unfold Network.tell
  rcases @forwards_of_message codec principal f (n.canisters id) m hm with
    ⟨hnone, hsame⟩ | ⟨t, hsome, hadded, hforward⟩
  · simp only [hnone]
    exact h.visit hsame
  · simp only [hsome]
    exact h.call hadded hforward.checked

/-- A call may come further, or to its end. -/
theorem Consistent.settle (h : Consistent codec principal runtime n) {index : ℕ}
    (ho : (n.calls source)[index]? = some o) {canisters : String → CanisterSession} {calls : List Outbound}
    {extra : List Happening}
    (haligned : ∀ id, (Function.update n.calls source calls id).map (·.transfer.forwarding) = (canisters id).state.forwards)
    (hdistinct : (calls.map (·.serial)).Nodup)
    (hcalls : ∀ x ∈ calls, x ∈ (n.calls source).eraseIdx index ∨ Pending principal runtime (n.log ++ extra) source x)
    (hextra : ∀ x ∈ extra, x.serial = o.serial ∧ ∀ serial source t definition, x ≠ .forwarded serial source t definition)
    (hjustified : Each (Justified codec principal runtime) n.log extra) :
    Consistent codec principal runtime
      { canisters, calls := Function.update n.calls source calls, made := n.made, log := n.log ++ extra } := by
  have hmem : o ∈ n.calls source := List.mem_of_getElem? ho
  have hforwarded : ∀ {serial source : _} {t : Transfer} {definition : Option LoadedDefinition},
      Happening.forwarded serial source t definition ∈ n.log ++ extra →
        Happening.forwarded serial source t definition ∈ n.log := by
    intro serial source t definition hx
    rcases List.mem_append.mp hx with hx | hx
    · exact hx
    · exact absurd rfl ((hextra _ hx).2 _ _ _ _)
  have hother : ∀ {id : String} {x : Outbound}, x ∈ n.calls id → x.serial ≠ o.serial →
      Pending principal runtime (n.log ++ extra) id x := fun {id x} hx hne =>
    (h.pending id x hx).append fun y hy => (hextra y hy).1 ▸ hne.symm
  refine ⟨haligned, fun id => ?_, fun id x hx => ?_, fun x hx => ?_, fun h₁ h₂ => ?_, ?_⟩
  · by_cases hid : id = source
    · subst hid
      simpa using hdistinct
    · simpa [Function.update_of_ne hid] using h.distinct id
  · by_cases hid : id = source
    · subst hid
      rcases hcalls x (by simpa using hx) with hx | hx
      · obtain ⟨hx, hne⟩ := other_of_mem_eraseIdx (h.distinct id) ho hx
        exact hother hx hne
      · exact hx
    · have hx : x ∈ n.calls id := by simpa [Function.update_of_ne hid] using hx
      refine hother hx fun heq => hid ?_
      obtain ⟨_, hmade⟩ := (h.pending id x hx).made
      obtain ⟨_, hmade'⟩ := (h.pending source o hmem).made
      exact (h.unique (heq ▸ hmade) hmade').1
  · rcases List.mem_append.mp hx with hx | hx
    · exact h.below x hx
    · exact (hextra x hx).1 ▸ h.serial_lt hmem
  · exact h.unique (hforwarded h₁) (hforwarded h₂)
  · exact (each_append [] _ _).mpr ⟨h.justified, hjustified⟩

/-- A call may come further while its peer does something. -/
theorem Consistent.stage (h : Consistent codec principal runtime n) {index : ℕ} (ho : (n.calls source)[index]? = some o)
    {target : String} {s : CanisterSession} (hs : s.state.forwards = (n.canisters target).state.forwards) {stage : Stage}
    {extra : List Happening}
    (hextra : ∀ x ∈ extra, x.serial = o.serial ∧ ∀ serial source t definition, x ≠ .forwarded serial source t definition)
    (hjustified : Each (Justified codec principal runtime) n.log extra)
    (hpending : Pending principal runtime (n.log ++ extra) source { o with stage }) :
    Consistent codec principal runtime
      { canisters := Function.update n.canisters target s
        calls := Function.update n.calls source ((n.calls source).set index { o with stage })
        made := n.made
        log := n.log ++ extra } := by
  refine h.settle ho (fun id => ?_) ?_ (fun x hx => ?_) hextra hjustified
  · have hcalls : (Function.update n.calls source ((n.calls source).set index { o with stage }) id).map
        (·.transfer.forwarding) = (n.calls id).map (·.transfer.forwarding) := by
      by_cases hid : id = source
      · subst hid
        rw [Function.update_self, map_set_of_some (x := { o with stage }) ho rfl]
      · rw [Function.update_of_ne hid]
    rw [hcalls, h.aligned]
    by_cases hid : id = target
    · subst hid
      rw [Function.update_self, hs]
    · rw [Function.update_of_ne hid]
  · rw [map_set_of_some (x := { o with stage }) ho rfl]
    exact h.distinct source
  · rcases mem_set_iff_of_some ho hx with rfl | hx
    · exact .inr hpending
    · exact .inl hx

/-- A call whose peer has trapped. -/
theorem Pending.trapped (h : Pending principal runtime log source o) :
    Pending principal runtime log source { o with stage := .trapped } :=
  ⟨h.made, h.unrecorded, fun h => (by cases h), fun _ h => (by cases h)⟩

/-- A call that its peer has refused: a reply with no destination says that the peer has not accepted. -/
theorem Pending.refused (h : Pending principal runtime log source o) (hsent : o.stage = .sent) (message : String) :
    Pending principal runtime log source { o with stage := .done (.err message) } := by
  refine ⟨h.made, h.unrecorded, fun h => (by cases h), fun dto hdone target _ _ => ?_⟩
  cases hdone
  refine ⟨fun hne => absurd rfl hne, ?_⟩
  rintro ⟨d, h', hmem, -⟩
  cases h.unsent hsent _ hmem rfl

/-- A call that its peer has accepted. -/
theorem Pending.accepted (h : Pending principal runtime log source o) {target : String}
    (htarget : o.transfer.target principal = some target) {definition : Option LoadedDefinition}
    {record : HandoffRecordV1} (hne : record.destination ≠ "") :
    Pending principal runtime (log ++ [.accepted o.serial target definition record]) source
      { o with stage := .done (.fromRecord record) } := by
  obtain ⟨before, hmade⟩ := h.made
  refine ⟨⟨before, List.mem_append_left _ hmade⟩, fun x hx hs => ?_, fun h => (by cases h), ?_⟩
  · rcases List.mem_append.mp hx with hx | hx
    · exact h.unrecorded x hx hs
    · rw [List.mem_singleton.mp hx]
      rfl
  · intro dto hdone target' htarget' _
    cases hdone
    obtain rfl : target = target' := Option.some.inj (htarget.symm.trans htarget')
    exact ⟨fun _ => ⟨definition, record, List.mem_append_right _ (List.mem_singleton_self _), rfl⟩, fun _ => hne⟩

/-- What the peer does keeps the network consistent. -/
theorem Consistent.deliver (h : Consistent codec principal runtime n) {index : ℕ}
    (ho : (n.calls source)[index]? = some o) (hsent : o.stage = .sent) {target : String}
    (htarget : o.transfer.target principal = some target) (i : Ingress) :
    Consistent codec principal runtime (n.deliver codec principal f source index o target i) := by
  have hpending := h.pending source o (List.mem_of_getElem? ho)
  unfold Network.deliver
  dsimp only
  split
  · have hstaged : Consistent codec principal runtime
        { canisters := Function.update n.canisters target (n.canisters target)
          calls := Function.update n.calls source ((n.calls source).set index { o with stage := .trapped })
          made := n.made
          log := n.log ++ [] } :=
      h.stage ho rfl (by simp) trivial (by simpa using hpending.trapped)
    rwa [List.append_nil, Function.update_eq_self] at hstaged
  · rename_i r hr
    have hforwards : r.state.forwards = (n.canisters target).state.forwards :=
      accept_waiting o.transfer { i with caller := source } _ rfl r hr
    split
    · rename_i message _
      have hstaged : Consistent codec principal runtime
          { canisters := Function.update n.canisters target
              { state := r.state, log := (n.canisters target).log ++ r.log }
            calls := Function.update n.calls source
              ((n.calls source).set index { o with stage := .done (.err message) })
            made := n.made
            log := n.log ++ [] } :=
        h.stage ho hforwards (by simp) trivial (by simpa using hpending.refused hsent message)
      rwa [List.append_nil] at hstaged
    · rename_i record hrecord
      obtain ⟨d, hd, hacc⟩ := accept_acceptance o.transfer { i with caller := source } r hr record hrecord
      obtain ⟨definition, hmade⟩ := hpending.made
      have hne : record.destination ≠ "" := by
        rw [hacc.here]
        exact identifier_text_ne _
      refine h.stage ho hforwards ?_ ?_ (hpending.accepted htarget hne)
      · intro x hx
        rw [List.mem_singleton.mp hx]
        exact ⟨rfl, fun _ _ _ _ h => by cases h⟩
      · refine ⟨⟨source, o.transfer, definition, hmade, htarget, fun x hx hs => ?_, d, hd, hacc⟩, trivial⟩
        exact ⟨hpending.unsent hsent x hx hs, hpending.unrecorded x hx hs⟩

theorem persistCurrent_returns (c : Canister) : (persistCurrent f).Returns c := by
  unfold Method.Returns persistCurrent
  split
  · rename_i d _
    exact nomatch d
  · exact ⟨_, rfl⟩

/-- The answer of a peer ends its call. -/
theorem forwards_of_peerReply {s : CanisterSession} {index : ℕ} {w : Forwarding} (hw : s.state.forwards[index]? = some w)
    (reply : Except String HandoffDto) :
    (s.after (Message.perform codec principal f) (.peerReply index reply)).state.forwards =
      s.state.forwards.eraseIdx index := by
  have hperform : ∃ r, Message.perform codec principal f (.peerReply index reply) s.state = .ok r ∧
      r.state.forwards = s.state.forwards.eraseIdx index := by
    simp only [Message.perform]
    rw [Method.bind_of_quiet (p := Method.read) rfl]
    simp only [hw]
    cases reply with
    | error message => exact ⟨_, rfl, rfl⟩
    | ok dto =>
      dsimp only
      rw [Method.bind_of_quiet (p := Method.modify _) rfl]
      obtain ⟨r, hr⟩ := persistCurrent_returns (f := f)
        { s.state with
          forwards := s.state.forwards.eraseIdx index, engine := s.state.engine.forward (w.record dto) }
      obtain ⟨⟨stable, hstable, -⟩, hquiet⟩ := persistCurrent_sat r hr
      have hobserve : (persistCurrent f).observe
          { s.state with
            forwards := s.state.forwards.eraseIdx index, engine := s.state.engine.forward (w.record dto) } =
          .ok { result := .ok r.result, state := r.state, log := [] } := by
        rw [Method.observe, hr, ← hquiet]
        rfl
      rw [Method.bind_of_quiet hobserve]
      exact ⟨_, rfl, by rw [hstable]⟩
  obtain ⟨r, hr, hforwards⟩ := hperform
  rw [Session.after, hr]
  exact hforwards

/-- An answer keeps the network consistent, if it says what the peer has done. -/
theorem Consistent.conclude (h : Consistent codec principal runtime n) {index : ℕ}
    (ho : (n.calls source)[index]? = some o) (reply : Except String HandoffDto)
    (hreply : ∀ dto, reply = .ok dto → ∀ target, o.transfer.target principal = some target → runtime target = true →
      (dto.destination ≠ "" ↔
        ∃ definition h, .accepted o.serial target definition h ∈ n.log ∧ h.destination = dto.destination)) :
    Consistent codec principal runtime (n.conclude codec principal f source index o reply) := by
  have hpending := h.pending source o (List.mem_of_getElem? ho)
  have hwaiting : (n.canisters source).state.forwards[index]? = some o.transfer.forwarding := by
    rw [← h.aligned, List.getElem?_map, ho]
    rfl
  have haligned : ∀ id,
      (Function.update n.calls source ((n.calls source).eraseIdx index) id).map (·.transfer.forwarding) =
        (Function.update n.canisters source
          ((n.canisters source).after (Message.perform codec principal f) (.peerReply index reply)) id).state.forwards := by
    intro id
    by_cases hid : id = source
    · subst hid
      rw [Function.update_self, Function.update_self, forwards_of_peerReply hwaiting, ← h.aligned, List.eraseIdx_map]
    · rw [Function.update_of_ne hid, Function.update_of_ne hid, h.aligned]
  have hdistinct : (((n.calls source).eraseIdx index).map (·.serial)).Nodup := by
    rw [← List.eraseIdx_map]
    exact (h.distinct source).eraseIdx index
  unfold Network.conclude
  cases reply with
  | error message =>
    have hsettled : Consistent codec principal runtime
        { canisters := Function.update n.canisters source
            ((n.canisters source).after (Message.perform codec principal f) (.peerReply index (.error message)))
          calls := Function.update n.calls source ((n.calls source).eraseIdx index)
          made := n.made
          log := n.log ++ [] } := h.settle ho haligned hdistinct (fun x hx => .inl hx) (by simp) trivial
    rwa [List.append_nil] at hsettled
  | ok dto =>
    obtain ⟨definition, hmade⟩ := hpending.made
    refine h.settle ho haligned hdistinct (fun x hx => .inl hx) (fun x hx => ?_) ⟨?_, trivial⟩
    · rw [List.mem_singleton.mp hx]
      exact ⟨rfl, fun _ _ _ _ h => by cases h⟩
    · exact ⟨o.transfer, definition, hmade, hpending.unrecorded, rfl, rfl, hreply dto rfl⟩

/-- A move keeps the network consistent. -/
theorem Consistent.after (h : Consistent codec principal runtime n) (move : Move) :
    Consistent codec principal runtime (n.after codec principal f runtime move) := by
  cases move with
  | message id m =>
    cases m with
    | peerReply index reply => exact h
    | update i u => exact h.tell id (m := .update i u) fun _ _ h => by cases h
    | timer k readings => exact h.tell id (m := .timer k readings) fun _ _ h => by cases h
    | reply index reply after readings => exact h.tell id (m := .reply index reply after readings) fun _ _ h => by cases h
  | deliver source index i =>
    simp only [Network.after]
    split
    · exact h
    · rename_i o ho
      split
      · rename_i target hstage htarget
        split
        · exact h.deliver ho hstage htarget i
        · exact h
      · exact h
  | answer source index rejection =>
    simp only [Network.after]
    split
    · exact h
    · rename_i o ho
      split
      · exact h.conclude ho _ fun _ heq => by cases heq
      · rename_i dto hstage
        refine h.conclude ho _ fun dto' heq => ?_
        cases heq
        exact (h.pending source o (List.mem_of_getElem? ho)).replied dto hstage
      · exact h
  | foreign source index dto =>
    simp only [Network.after]
    split
    · exact h
    · rename_i o ho
      split
      · rename_i hforeign
        refine h.conclude ho _ fun _ _ target htarget hruntime => ?_
        simp [htarget, hruntime] at hforeign
      · exact h

theorem run_consistent (moves : List Move) :
    Consistent codec principal runtime (Network.run codec principal f runtime moves) := by
  induction moves using List.reverseRecOn with
  | nil => exact consistent_blank
  | append_singleton moves move ih =>
    rw [Network.run, List.foldl_append]
    exact ih.after move

/-! ### One canister of a network -/

/-- The session comes of messages to a new canister. -/
def Alone (codec : Codec) (principal : String → Except String String) (f : Formats) (s : CanisterSession) : Prop :=
  ∃ ms, s = newCanister.run (Message.perform codec principal f) ms

theorem Alone.after {s : CanisterSession} (h : Alone codec principal f s) (m : Message) :
    Alone codec principal f (s.after (Message.perform codec principal f) m) := by
  obtain ⟨ms, rfl⟩ := h
  exact ⟨ms ++ [m], by rw [Session.run_append, Session.run_singleton]⟩

/-- What the peer does is a message. -/
theorem after_update (t : Transfer) (i : Ingress) (s : CanisterSession) :
    s.after (Message.perform codec principal f) (.update i t.update) =
      match t.accept codec principal f i s.state with
      | .ok r => { state := r.state, log := s.log ++ r.log }
      | .error _ => s := by
  simp only [Session.after, Message.perform, accept_update]
  cases ht : t.accept codec principal f i s.state with
  | ok r => rw [Method.drop_eq ht]
  | error d =>
    have hdrop : (do let _ ← t.accept codec principal f i : CanisterM Unit) s.state = .error d := by
      show Method.bind _ _ _ = _
      simp [Method.bind, ht]
    rw [hdrop]

/-- The canisters of a network come each of messages. -/
def Projects (codec : Codec) (principal : String → Except String String) (f : Formats) (n : Network) : Prop :=
  ∀ id, Alone codec principal f (n.canisters id)

theorem projects_update (h : Projects codec principal f n) {id : String} {s : CanisterSession}
    (hs : Alone codec principal f s) (id' : String) : Alone codec principal f (Function.update n.canisters id s id') := by
  by_cases hid : id' = id
  · subst hid
    rwa [Function.update_self]
  · rw [Function.update_of_ne hid]
    exact h id'

theorem tell_projects (h : Projects codec principal f n) (id : String) (m : Message) :
    Projects codec principal f (n.tell codec principal f id m) := by
  unfold Network.tell
  dsimp only
  split <;> exact projects_update h ((h id).after m)

theorem deliver_projects (h : Projects codec principal f n) (source : String) (index : ℕ) (o : Outbound)
    (target : String) (i : Ingress) : Projects codec principal f (n.deliver codec principal f source index o target i) := by
  have hafter := (h target).after (.update { i with caller := source } o.transfer.update)
  rw [after_update] at hafter
  unfold Network.deliver
  dsimp only
  split
  · exact h
  · rename_i r hr
    rw [hr] at hafter
    split <;> exact projects_update h hafter

theorem conclude_projects (h : Projects codec principal f n) (source : String) (index : ℕ) (o : Outbound)
    (reply : Except String HandoffDto) : Projects codec principal f (n.conclude codec principal f source index o reply) :=
  projects_update h ((h source).after (.peerReply index reply))

theorem after_projects (h : Projects codec principal f n) (move : Move) :
    Projects codec principal f (n.after codec principal f runtime move) := by
  cases move with
  | message id m =>
    cases m with
    | peerReply index reply => exact h
    | update i u => exact tell_projects h id (.update i u)
    | timer k readings => exact tell_projects h id (.timer k readings)
    | reply index reply after readings => exact tell_projects h id (.reply index reply after readings)
  | deliver source index i =>
    simp only [Network.after]
    split
    · exact h
    · split
      · split
        · exact deliver_projects h source index _ _ i
        · exact h
      · exact h
  | answer source index rejection =>
    simp only [Network.after]
    split
    · exact h
    · split
      · exact conclude_projects h source index _ _
      · exact conclude_projects h source index _ _
      · exact h
  | foreign source index dto =>
    simp only [Network.after]
    split
    · exact h
    · split
      · exact conclude_projects h source index _ _
      · exact h

/-- **What a canister does in a network, it does alone**: it comes of messages to it, in some order. -/
theorem run_projects (moves : List Move) (id : String) :
    Alone codec principal f ((Network.run codec principal f runtime moves).canisters id) := by
  induction moves using List.reverseRecOn generalizing id with
  | nil => exact ⟨[], rfl⟩
  | append_singleton moves move ih =>
    rw [Network.run, List.foldl_append]
    exact after_projects ih move id

/-! ### Handoffs -/

/-- A handoff that a record tells of is within the authority of both canisters, and of the parent's. -/
structure Narrowed (codec : Codec) (t : Transfer) (here there : LoadedDefinition) (h : HandoffRecordV1) : Prop where
  source : ∃ envelope, Checked codec t here h.parentAuthority envelope ∧ h.childAuthority = envelope.authorityProjection
  target : ∃ envelope, Checked codec t there h.parentAuthority envelope ∧ h.childAuthority = envelope.authorityProjection
  destination : h.destination = there.compiled.definition.id.text

theorem Consistent.narrowed (h : Consistent codec principal runtime n) {serial : ℕ} {target : String}
    {record : HandoffRecordV1} (hrecorded : .recorded serial source record ∈ n.log) (hne : record.destination ≠ "")
    {t : Transfer} {definition : Option LoadedDefinition} (hforwarded : .forwarded serial source t definition ∈ n.log)
    (htarget : t.target principal = some target) (hruntime : runtime target = true) :
    ∃ d d' definition' accepted, definition = some d ∧ definition' = some d' ∧
      .accepted serial target definition' accepted ∈ n.log ∧ accepted.destination = record.destination ∧
      Narrowed codec t d d' accepted := by
  obtain ⟨pre, post, hlog⟩ := List.append_of_mem hrecorded
  have hsplit := fun pre x post => (each_iff_split [] n.log).mp h.justified pre x post
  obtain ⟨t', before, hmade, -, -, -, hagree⟩ := hsplit pre _ post hlog
  have hpre : ∀ x ∈ pre, x ∈ n.log := fun x hx => hlog ▸ List.mem_append_left _ hx
  obtain rfl : t = t' := (h.unique hforwarded (hpre _ hmade)).2
  obtain ⟨definition', accepted, haccepted, hdestination⟩ := (hagree target htarget hruntime).mp hne
  obtain ⟨pre', post', hlog'⟩ := List.append_of_mem (hpre _ haccepted)
  obtain ⟨source', t', before', hmade', -, -, d', hd', hacc⟩ := hsplit pre' _ post' hlog'
  have hmade' : .forwarded serial source' t' before' ∈ n.log := hlog' ▸ List.mem_append_left _ hmade'
  obtain rfl : t = t' := (h.unique hforwarded hmade').2
  obtain ⟨pre'', post'', hlog''⟩ := List.append_of_mem hforwarded
  obtain ⟨-, d, parent, envelope, hd, hchecked⟩ := hsplit pre'' _ post'' hlog''
  obtain ⟨envelope', hchecked', hchild, -⟩ := hacc.checked
  obtain rfl : envelope = envelope' := Except.ok.inj (hchecked.readsEnvelope.symm.trans hchecked'.readsEnvelope)
  obtain rfl : parent = accepted.parentAuthority :=
    Except.ok.inj (hchecked.readsParent.symm.trans hchecked'.readsParent)
  exact ⟨d, d', definition', accepted, hd, hd', hpre _ haccepted, hdestination,
    ⟨envelope, hchecked, hchild⟩, ⟨envelope, hchecked', hchild⟩, hacc.here⟩

/-- **Handoffs between canisters agree**, in every order of the moves of any network. A call that is made was checked
against the authority of its canister. A peer accepts only calls that were made to it, each at most once, and only within
its own authority. A record is kept of a call at most once, and has a destination if and only if the peer has accepted:
then the child is within the authority of both. And each canister goes through a run of messages to it alone. -/
theorem handoffs_agree (codec : Codec) (principal : String → Except String String) (f : Formats)
    (runtime : String → Bool) (moves : List Move) :
    let n := Network.run codec principal f runtime moves
    Each (Justified codec principal runtime) [] n.log ∧
    (∀ serial source target record t definition, .recorded serial source record ∈ n.log → record.destination ≠ "" →
      .forwarded serial source t definition ∈ n.log → t.target principal = some target → runtime target = true →
      ∃ d d' definition' accepted, definition = some d ∧ definition' = some d' ∧
        .accepted serial target definition' accepted ∈ n.log ∧ accepted.destination = record.destination ∧
        Narrowed codec t d d' accepted) ∧
    ∀ id, ∃ ms, n.canisters id = newCanister.run (Message.perform codec principal f) ms :=
  have h := run_consistent moves
  ⟨h.justified, fun _ _ _ _ _ _ hr hne hf ht hrt => h.narrowed hr hne hf ht hrt, run_projects moves⟩

/-- One runtime hands an execution over to another. -/
def relayMoves : List Move :=
  let i : Ingress :=
    { caller := "admin", isController := true, balance := none, readings := List.replicate 4 ⟨none, none⟩ }
  [.message "a" (.update i (.loadDefinition toolText)), .message "b" (.update i (.loadDefinition toolText)),
    .message "a" (.update i (.forwardHandoff "b" "e" oneStepText (Sample.stateText toolValue) parentText)),
    .deliver "a" 0 { i with isController := false }, .answer "a" 0 none]

/-- A happening in short: its call, where it happens, and the destination. -/
def Happening.brief : Happening → ℕ × String × Option String
  | .forwarded serial source .. => (serial, source, none)
  | .accepted serial target _ h => (serial, target, some h.destination)
  | .recorded serial source h => (serial, source, some h.destination)

example : (Network.run toolCodec .ok blankFormats (fun _ => true) relayMoves).log.map Happening.brief =
    [(0, "a", none), (0, "b", some "g"), (0, "a", some "g")] := by
  decide +kernel

end Knolo.Icp
