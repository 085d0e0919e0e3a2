import Knolo.Icp.Upkeep

/-!
# The canister

`lib.rs` and `auth.rs` of `knolo-agent-icp`: the update calls of the canister, its timers, and what
another canister replies. A message runs to its end without another in between. A call that waits for
another canister ends its message there: the engine is taken out of its cell before, and put back when the
reply has come.

A message that traps leaves the canister as it was. The queries change nothing and are left out.

* `continueEffectsInner` — the loop over the effects of an execution, to its end or to an await.
* `Update.perform`, `Message.perform` — what an update call does, and what a message does.
-/

namespace Knolo.Icp

open Core Library Library.Fallible

/-! ### Access -/

/-- A controller may load a definition, drop it and set the limits. -/
def requireController (caller : String) (isController : Bool) : Except String Unit :=
  ensure isController s!"Unauthorized: caller {caller} is not a controller of this canister."

/-- Controllers may run executions, and callers that the limits allow. -/
def requireRunAccess (caller : String) (isController : Bool) (limits : RuntimeLimitsV1) : Except String Unit :=
  if isController then .ok ()
  else if limits.requireControllerForRuns then
    .error s!"Unauthorized: runs require a controller (caller {caller})."
  else if limits.allowedCallers.isEmpty then .ok ()
  else if limits.allowedCallers.contains caller then .ok ()
  else .error s!"Unauthorized: caller {caller} is not in allowed_callers."

/-- The cycles that are kept in reserve. -/
def requireCyclesReserve (balance : Option ℕ) (limits : RuntimeLimitsV1) : Except String Unit :=
  if limits.minCyclesReserve = 0 then .ok ()
  else
    match balance with
    | some b =>
      ensure (limits.minCyclesReserve ≤ b) s!"cycles reserve too low: balance {b} < min {limits.minCyclesReserve}"
    | none => .ok ()

/-! ### State -/

/-- A message that awaits the reply of another canister, with the engine it has taken. -/
structure Task where
  executionId : String
  engine : AgentEngine
  request : HostRequest
  /-- The cycles before the effect. -/
  before : Option ℕ

/-- A handoff that was forwarded and is not answered. -/
structure Forwarding where
  peer : String
  executionId : String

/-- The canister between two messages. -/
structure Canister where
  /-- `ENGINE`. -/
  engine : AgentEngine
  stable : StableMemory
  tasks : List Task
  forwards : List Forwarding
  timers : List String

/-- A new canister. -/
def Canister.blank : Canister where
  engine := .default
  stable := .blank
  tasks := []
  forwards := []
  timers := []

/-- What a call reports. -/
inductive Notice where
  /-- `load_definition` has succeeded. -/
  | loaded (json : String)
  /-- `clear_definition` has. -/
  | cleared
  /-- `set_limits` has. -/
  | limited (limits : RuntimeLimitsV1)
  /-- An execution was created. -/
  | created (executionId : String)
  /-- A handoff was accepted, or forwarded. -/
  | handed (handoffId : String)
  /-- The reply for a task has trapped. -/
  | lost
  deriving DecidableEq

/-- A part of a message: it may return an error, and it may trap. -/
abbrev CanisterM := Method Canister Notice String Unit

/-- What comes with a message: who calls, the cycles, and those around each round of effects. A message that
has no rounds left runs out of instructions. -/
structure Ingress where
  caller : String
  isController : Bool
  balance : Option ℕ
  readings : List CycleReading

variable (codec : Codec) (principal : String → Except String String) (f : Formats)

/-! ### The parts of a message -/

/-- An operation of the engine in the cell. -/
def onEngine {α : Type} (p : EngineM α) : CanisterM α := fun c =>
  match p c.engine with
  | .error _ => .error ()
  | .ok r => .ok { result := r.result.mapError codec.display, state := { c with engine := r.state }, log := [] }

/-- Keep a snapshot of the engine in the cell. -/
def persistCurrent : CanisterM Unit := fun c =>
  match persistSnapshot f c.engine.snapshot c.stable with
  | .error d => nomatch d
  | .ok r => .ok { result := r.result, state := { c with stable := r.state }, log := [] }

/-- `require_run_auth`. -/
def requireRunAuth (i : Ingress) : CanisterM Unit := do
  let c ← Method.read
  Method.ofExcept (requireRunAccess i.caller i.isController c.engine.limits)

/-- `require_cycles_guard`. -/
def requireCyclesGuard (i : Ingress) : CanisterM Unit := do
  let c ← Method.read
  Method.ofExcept (requireCyclesReserve i.balance c.engine.limits)

/-- How the loop over the effects ends. -/
inductive Drained where
  /-- There is nothing more to do, or not before a timer. -/
  | returned (engine : AgentEngine) (timer : Bool)
  /-- Another canister is asked. -/
  | awaits (task : Task)

/-- The definition lets timers go on with its executions. -/
def AgentEngine.autoContinue (e : AgentEngine) : Bool := (e.definition.map (·.bundle.host.autoContinue)).getD false

/-- Where the loop ends before a round: there is nothing to resolve, or a timer goes on with it. -/
def AgentEngine.pause (e : AgentEngine) (executionId : String) : Option Drained :=
  match e.executions[executionId]? with
  | none => some (.returned e false)
  | some current =>
    if current.statusKind ≠ "suspended" then some (.returned e false)
    else if current.statusDetail = "hitl_approval" then some (.returned e false)
    else if current.statusDetail = "step_slice" ∧ e.autoContinue ∧ !current.timerScheduled then
      some (.returned (e.put executionId { current with timerScheduled := true }) true)
    else none

/-- The effects of an execution, one after the other. -/
def continueEffectsInner (executionId : String) : List CycleReading → AgentEngine → Option Drained
  | [], e => e.pause executionId
  | reading :: readings, e =>
    match e.pause executionId with
    | some out => some out
    | none =>
      match resolveOneEffect codec principal executionId reading e with
      | .error _ => none
      | .ok r =>
        match r.result with
        | .ok (.settled (some _)) => continueEffectsInner executionId readings r.state
        | .ok (.settled none) => some (.returned r.state false)
        | .ok (.awaiting request) =>
          some (.awaits { executionId, engine := r.state, request, before := reading.before })
        | .error _ => some (.returned r.state false)

/-- The loop over the effects, and a snapshot at its end. The message may end at an await instead. -/
def finish (executionId : String) (readings : List CycleReading) : CanisterM Unit := do
  let c ← Method.read
  match continueEffectsInner codec principal executionId readings c.engine with
  | none => Method.abort ()
  | some (.returned engine timer) => do
    Method.modify fun c => { c with engine, timers := if timer then c.timers ++ [executionId] else c.timers }
    let _ ← Method.observe (persistCurrent f)
  | some (.awaits task) =>
    Method.modify fun c => { c with engine := .default, tasks := c.tasks ++ [task] }

/-! ### Update calls -/

/-- An update call. -/
inductive Update where
  | loadDefinition (json : String)
  | clearDefinition
  | setLimits (maxConcurrentExecutions maxEventsPerExecution maxStateBytes : ℕ) (requireControllerForRuns : Bool)
    (allowedCallers : List String) (minCyclesReserve : ℕ)
  | startExecution (executionId stateJson : String)
  | step (executionId : String) (maxNodeSteps : ℕ)
  | resume (executionId : String)
  | continueEffects (executionId : String)
  | acceptHandoff (executionId envelopeJson stateJson parentAuthorityJson : String)
  | forwardHandoff (peer executionId envelopeJson stateJson parentAuthorityJson : String)

/-- Only controllers may make the call. -/
def Update.controllersOnly : Update → Bool
  | .loadDefinition _ | .clearDefinition | .setLimits .. => true
  | _ => false

/-- The limits that `set_limits` installs: a zero keeps what there is. -/
def RuntimeLimitsV1.merge (l : RuntimeLimitsV1) (maxConcurrentExecutions maxEventsPerExecution maxStateBytes : ℕ)
    (requireControllerForRuns : Bool) (allowedCallers : List String) (minCyclesReserve : ℕ) : RuntimeLimitsV1 :=
  { l with
    maxConcurrentExecutions := if 0 < maxConcurrentExecutions then maxConcurrentExecutions else l.maxConcurrentExecutions
    maxEventsPerExecution := if 0 < maxEventsPerExecution then maxEventsPerExecution else l.maxEventsPerExecution
    maxStateBytes := if 0 < maxStateBytes then maxStateBytes else l.maxStateBytes
    requireControllerForRuns, allowedCallers, minCyclesReserve }

/-- The checks of a handoff before it is forwarded. -/
def AgentEngine.checkForward (e : AgentEngine) (envelopeJson parentAuthorityJson : String) : Except CoreError Unit := do
  let d ← e.loaded
  let limits := d.compiled.definition.limits
  let packAuth := authorityFromPack d.bundle.pack limits.maxSteps limits.maxCostMicros
  let parent ← parseAuthority codec parentAuthorityJson
  let _ ← parseAndValidateEnvelope codec envelopeJson parent packAuth e.limits

/-- What an update call does. -/
def Update.perform (i : Ingress) : Update → CanisterM Unit
  | .loadDefinition json => do
    Method.ofExcept (requireController i.caller i.isController)
    let _ ← onEngine codec (Icp.loadDefinition codec json)
    (persistCurrent f).mapError fun err => s!"loaded but failed to persist: {err}"
    Method.tell (.loaded json)
  | .clearDefinition => do
    Method.ofExcept (requireController i.caller i.isController)
    let message ← onEngine codec Icp.clearDefinition
    (persistCurrent f).mapError fun err => s!"{message} Persist failed: {err}"
    Method.tell .cleared
  | .setLimits maxConcurrentExecutions maxEventsPerExecution maxStateBytes requireControllerForRuns allowedCallers
      minCyclesReserve => do
    Method.ofExcept (requireController i.caller i.isController)
    let c ← Method.read
    let limits := c.engine.limits.merge maxConcurrentExecutions maxEventsPerExecution maxStateBytes
      requireControllerForRuns allowedCallers minCyclesReserve
    onEngine codec (Icp.setLimits limits)
    (persistCurrent f).mapError fun err => s!"limits set but persist failed: {err}"
    Method.tell (.limited limits)
  | .startExecution executionId stateJson => do
    requireRunAuth i
    requireCyclesGuard i
    let _ ← onEngine codec (Icp.startExecution codec executionId stateJson)
    Method.tell (.created executionId)
    finish codec principal f executionId i.readings
  | .step executionId maxNodeSteps => do
    requireRunAuth i
    requireCyclesGuard i
    let _ ← onEngine codec (Icp.step codec executionId maxNodeSteps)
    finish codec principal f executionId i.readings
  | .resume executionId => do
    requireRunAuth i
    requireCyclesGuard i
    let _ ← onEngine codec (Icp.resume codec executionId)
    finish codec principal f executionId i.readings
  | .continueEffects executionId => do
    requireRunAuth i
    finish codec principal f executionId i.readings
  | .acceptHandoff executionId envelopeJson stateJson parentAuthorityJson => do
    requireRunAuth i
    requireCyclesGuard i
    let (_, h) ← onEngine codec (Icp.acceptHandoff codec executionId envelopeJson stateJson parentAuthorityJson)
    Method.tell (.created executionId)
    Method.tell (.handed h.handoffId)
    finish codec principal f executionId i.readings
  | .forwardHandoff peer executionId envelopeJson _ parentAuthorityJson => do
    requireRunAuth i
    requireCyclesGuard i
    let _ ← Method.ofExcept ((parsePrincipal principal peer).mapError codec.display)
    let c ← Method.read
    Method.ofExcept ((c.engine.checkForward codec envelopeJson parentAuthorityJson).mapError codec.display)
    Method.modify fun c => { c with forwards := c.forwards ++ [{ peer, executionId }] }

/-! ### Messages -/

/-- What a peer replies to a forwarded handoff. -/
structure HandoffDto where
  ok : Bool
  handoffId : String
  executionId : String
  destination : String
  status : String
  message : String

/-- The record of a handoff that was forwarded. -/
def Forwarding.record (w : Forwarding) (dto : HandoffDto) : HandoffRecordV1 where
  version := 1
  handoffId := s!"forward-{w.executionId}"
  executionId := w.executionId
  destination := dto.destination
  returnContract := ""
  parentAuthority := { capabilities := ∅, namespaces := ∅, maxSteps := 0, maxCostMicros := 0 }
  childAuthority := { capabilities := ∅, namespaces := ∅, maxSteps := 0, maxCostMicros := 0 }
  status := "forwarded"
  peerCanister := some w.peer
  message := dto.message

/-- Change the canister, then do what may trap: the change stays if it does. -/
def committing (change : Canister → Canister) (notices : List Notice) (p : CanisterM Unit) : CanisterM Unit := fun c =>
  match p (change c) with
  | .ok r => .ok r
  | .error _ => .ok { result := .ok (), state := change c, log := notices }

/-- Go on with a task after the reply. -/
def Task.goOn (t : Task) (answer : HostReply) (after : Option ℕ) (readings : List CycleReading) : CanisterM Unit := do
  Method.modify fun c => { c with engine := t.engine }
  match ← Method.observe (onEngine codec (finishEffect codec t.executionId answer { before := t.before, after })) with
  | .ok _ => finish codec principal f t.executionId readings
  | .error _ => do
    let _ ← Method.observe (persistCurrent f)

/-- A timer has fired. -/
def timerContinueExecution (executionId : String) (readings : List CycleReading) : CanisterM Unit := do
  let c ← Method.read
  match c.engine.executions[executionId]? with
  | some r => Method.modify fun c => { c with engine := c.engine.put executionId { r with timerScheduled := false } }
  | none => pure ()
  let _ ← onEngine codec (Icp.step codec executionId 1)
  finish codec principal f executionId readings

/-- A message. -/
inductive Message where
  | update (i : Ingress) (u : Update)
  /-- The timer for an execution fires. -/
  | timer (executionId : String) (readings : List CycleReading)
  /-- The reply for a task comes. -/
  | reply (index : ℕ) (answer : HostReply) (after : Option ℕ) (readings : List CycleReading)
  /-- A peer replies to a forwarded handoff. -/
  | peerReply (index : ℕ) (answer : Except String HandoffDto)

/-- What a message does. Timers fire once they are set, and replies come for what was asked. -/
def Message.perform : Message → CanisterM Unit
  | .update i u => u.perform codec principal f i
  | .timer executionId readings => do
    let c ← Method.read
    if c.timers.contains executionId then
      committing (fun c => { c with timers := c.timers.erase executionId }) []
        (timerContinueExecution codec principal f executionId readings)
    else pure ()
  | .reply index answer after readings => do
    let c ← Method.read
    match c.tasks[index]? with
    | some t =>
      committing (fun c => { c with tasks := c.tasks.eraseIdx index }) [.lost]
        (t.goOn codec principal f answer after readings)
    | none => pure ()
  | .peerReply index answer => do
    let c ← Method.read
    match c.forwards[index]?, answer with
    | some w, .ok dto => do
      Method.modify fun c =>
        { c with forwards := c.forwards.eraseIdx index, engine := c.engine.forward (w.record dto) }
      let _ ← Method.observe (persistCurrent f)
      Method.tell (.handed (w.record dto).handoffId)
    | some _, .error _ => Method.modify fun c => { c with forwards := c.forwards.eraseIdx index }
    | none, _ => pure ()

/-- The canister and its notices, after messages. -/
abbrev CanisterSession := Session Canister Notice

/-- A new canister, before any message. -/
def newCanister : CanisterSession where
  state := .blank
  log := []

end Knolo.Icp
