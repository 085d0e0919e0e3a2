import Knolo.Icp.Executor
import Knolo.Icp.Tools
import Knolo.Runtime.Trajectory

/-!
# The engine of the canister

`engine.rs` of `knolo-agent-icp`: the state of the canister and its operations. An operation
runs the scheduler for a slice of one execution, against the store of the engine, and keeps a
record of the execution between slices.

* `ExecutionRecord`, `AgentEngine` — the state.
* `EngineM` — an operation: it may fail, and what it changed before then stays. It logs the
  scheduler runs it makes (`SchedulerRun`).
* `runFromStart`, `runResume` — a slice; `recordFromReport`, `mergeStepReport` — its record.
* `startExecution`, `acceptHandoff`, `step`, `resume`, `injectEffectAndResume`,
  `runToolForPending` — the operations on executions.
* `Call` — a call of any operation, `Call.perform`.
-/

namespace Knolo.Icp

open Core Library Library.Fallible Library.Prog Host Knolo.Runtime

/-! ### State -/

/-- What is kept of an execution between slices. -/
structure ExecutionRecord where
  executionId : String
  statusKind : String
  statusDetail : String
  steps : ℕ
  tokens : ℕ
  costMicros : ℕ
  state : StateSnapshot
  events : List ExecutionEventV1
  lastCheckpoint : Option CheckpointV1
  pendingResume : Option CheckpointV1
  effectCache : Std.ExtTreeMap String Json
  timerScheduled : Bool
  handoffId : Option String

/-- The engine. -/
structure AgentEngine where
  definition : Option LoadedDefinition
  executions : Std.ExtTreeMap String ExecutionRecord
  store : InMemoryCheckpointStore
  budget : HostBudgetTracker
  tools : ToolRegistry HostTool
  limits : RuntimeLimitsV1
  packMeta : Option PackMetaV1
  handoffs : Std.ExtTreeMap String HandoffRecordV1

/-- A new engine. -/
def AgentEngine.default : AgentEngine where
  definition := none
  executions := ∅
  store := .empty
  budget := .empty
  tools := .empty
  limits := {}
  packMeta := none
  handoffs := ∅

/-- A run of the scheduler: the call, what it left outside, and how it ended. -/
structure SchedulerRun where
  call : Invocation
  observed : List Observation
  outcome : Except CoreError ExecutionReportV1

/-- An operation of the engine. -/
abbrev EngineM := Method AgentEngine SchedulerRun CoreError Abort

/-- A computation of the engine that does not change it. -/
def consult {α : Type} (x : Except Abort α) : EngineM α := fun e =>
  match x with
  | .ok a => .ok { result := .ok a, state := e, log := [] }
  | .error (.error err) => .ok { result := .error err, state := e, log := [] }
  | .error d => .error d

/-- The value of a computation, if it has one (`.ok()`). -/
def optional {α : Type} : Except Abort α → Except Abort (Option α)
  | .ok a => .ok (some a)
  | .error (.error _) => .ok none
  | .error d => .error d

variable (codec : Codec)

/-! ### Slices -/

/-- The time of the canister's clock. -/
def deterministicNowMs : ℕ := 1

/-- The policy of a definition: no retries. -/
def policyFrom (d : LoadedDefinition) : RuntimePolicyV1 :=
  { maxRetries := 0, retryDelayMs := 0, packHash := d.bundle.packHash, policyHash := d.bundle.policyHash
    nodeImplementationHash := d.nodeImplementationHash, contractHash := d.bundle.contractHash }

/-- The scheduler of a definition. -/
def LoadedDefinition.scheduler (d : LoadedDefinition) : Scheduler :=
  { graph := d.compiled, schema := d.bundle.schema, policy := policyFrom d }

/-- The surroundings of a slice. -/
def sliceHost : Host HostCall Answer (World DeterministicExecutor) :=
  surroundings DeterministicExecutor.execute false deterministicNowMs

/-- The world of a slice: an executor, an empty sink and the store of the engine. -/
def AgentEngine.world (e : AgentEngine) (x : DeterministicExecutor) : World DeterministicExecutor :=
  { executor := x, sink := [], store := e.store }

/-- Run the scheduler with executor `x` against the store of the engine. -/
def schedule (d : LoadedDefinition) (x : DeterministicExecutor) (call : Invocation) :
    EngineM ExecutionReportV1 := fun e =>
  let out := (call.program d.scheduler).run sliceHost (e.world x)
  let observed := observe ((call.program d.scheduler).trace sliceHost (e.world x))
  let state := { e with store := out.2.store }
  match out.1 with
  | .ok report => .ok { result := .ok report, state, log := [{ call, observed, outcome := .ok report }] }
  | .error (.error err) => .ok { result := .error err, state, log := [{ call, observed, outcome := .error err }] }
  | .error d => .error d

/-- The loaded definition. -/
def AgentEngine.loaded (e : AgentEngine) : Except CoreError LoadedDefinition :=
  match e.definition with
  | some d => .ok d
  | none => .error (.host "no definition loaded")

/-- The executor of a slice. -/
def executorFor (d : LoadedDefinition) (stepBudget : Option ℕ) (hitlApproved : Bool)
    (effectCache : Std.ExtTreeMap String Json) : DeterministicExecutor :=
  { implementationId := d.bundle.implementationId, remainingSteps := stepBudget, hitlApproved, effectCache }

/-- A slice from the start of an execution. -/
def runFromStart (id : ExecutionId) (state : StateSnapshot) (stepBudget : Option ℕ)
    (effectCache : Std.ExtTreeMap String Json) : EngineM ExecutionReportV1 := do
  let e ← Method.read
  let d ← Method.ofExcept e.loaded
  schedule d (executorFor d stepBudget false effectCache) (.run id state)

/-- A slice from a checkpoint. -/
def runResume (checkpoint : CheckpointV1) (stepBudget : Option ℕ) (hitlApproved : Bool)
    (effectCache : Std.ExtTreeMap String Json) : EngineM ExecutionReportV1 := do
  let e ← Method.read
  let d ← Method.ofExcept e.loaded
  schedule d (executorFor d stepBudget hitlApproved effectCache) (.resume checkpoint)

/-! ### Records -/

/-- `ExecutionId::from_str`. -/
def executionIdFrom (executionId : String) : Except CoreError ExecutionId :=
  (Identifier.new executionId).mapError fun e => .host s!"invalid execution_id: {codec.display e}"

/-- Kind and detail of a status. -/
def statusParts : ExecutionStatusV1 → String × String
  | .suspended reason => ("suspended", reason)
  | .terminated result => ("terminated", codec.write result)
  | .failed error => ("failed", error)
  | .cancelled => ("cancelled", "")

/-- Is an execution of this kind over? -/
def isTerminal (kind : String) : Bool := kind = "terminated" || kind = "failed" || kind = "cancelled"

/-- The record of a report, before its checkpoints are known. -/
def draft (executionId : String) (report : ExecutionReportV1) (effectCache : Std.ExtTreeMap String Json)
    (handoffId : Option String) : ExecutionRecord where
  executionId := executionId
  statusKind := (statusParts codec report.status).1
  statusDetail := (statusParts codec report.status).2
  steps := report.steps
  tokens := report.tokens
  costMicros := report.costMicros
  state := report.state
  events := report.events
  lastCheckpoint := none
  pendingResume := none
  effectCache := effectCache
  timerScheduled := false
  handoffId := handoffId

/-- The cursor after the last event. -/
def cursorAfter (events : List ExecutionEventV1) : Except Abort ℕ :=
  match events.getLast? with
  | some e => checkedAdd u64Max e.sequence 1
  | none => .ok 1

/-- Is the execution suspended for an effect of the host? -/
def ExecutionRecord.awaitsHost (r : ExecutionRecord) : Bool :=
  r.statusKind = "suspended" && isHostEffectSuspend r.statusDetail

namespace AgentEngine

variable (e : AgentEngine)

/-- The checkpoint of an execution that was suspended before its first one. -/
def synthesizeSuspendCheckpoint (executionId : String) (existing : ExecutionRecord) :
    Except Abort CheckpointV1 := do
  let d ← liftError e.loaded
  let pending := (existing.events.reverse.findSome? (·.nodeId)).getD d.compiled.definition.entry
  let id ← liftError (executionIdFrom codec executionId)
  let eventCursor ← cursorAfter existing.events
  return {
    version := 1, executionId := id, graphHash := d.compiled.hash, packHash := d.bundle.packHash
    policyHash := d.bundle.policyHash, nodeImplementationHash := d.nodeImplementationHash
    contractHash := d.bundle.contractHash, state := existing.state, pendingNode := pending, eventCursor
    steps := existing.steps, tokens := existing.tokens, costMicros := existing.costMicros }

/-- The checkpoint an execution goes on from. -/
def checkpointFor (existing : ExecutionRecord) (executionId : String) : Except Abort CheckpointV1 :=
  match existing.pendingResume.or existing.lastCheckpoint with
  | some cp => .ok cp
  | none =>
    match (Identifier.new executionId).toOption.bind e.store.load with
    | some cp => .ok cp
    | none => e.synthesizeSuspendCheckpoint codec executionId existing

/-- The checkpoint an execution goes on from after a human has approved. -/
def checkpointForHitlResume (executionId : String) (existing : ExecutionRecord) :
    Except Abort CheckpointV1 := do
  let cp ← e.checkpointFor codec existing executionId
  if cp.pendingNode.text = "await_human" then return cp
  else
    let pendingNode ← liftError (Identifier.new "await_human")
    let eventCursor ← cursorAfter existing.events
    return { cp with
      pendingNode, state := existing.state, steps := existing.steps, tokens := existing.tokens
      costMicros := existing.costMicros, eventCursor }

/-- Drop the oldest events over the cap. -/
def applyEventCap (r : ExecutionRecord) : ExecutionRecord :=
  { r with events := e.limits.truncateEventsIfNeeded r.events }

/-- The checkpoint a suspension for the host is resumed from. -/
def pendingResumeOf (executionId : String) (r : ExecutionRecord) (last : Option CheckpointV1) :
    Except Abort (Option CheckpointV1) :=
  if r.awaitsHost then
    match last with
    | some cp => .ok (some cp)
    | none => optional (e.synthesizeSuspendCheckpoint codec executionId r)
  else .ok none

/-- The record of a new execution. -/
def recordFromReport (executionId : String) (report : ExecutionReportV1)
    (effectCache : Std.ExtTreeMap String Json) : Except Abort ExecutionRecord := do
  let id ← liftError (executionIdFrom codec executionId)
  let last := e.store.load id
  let r := draft codec executionId report effectCache none
  let pendingResume ← e.pendingResumeOf codec executionId r last
  return e.applyEventCap { r with lastCheckpoint := last.or pendingResume, pendingResume }

end AgentEngine

/-- The sequence number of the last event. -/
def lastSequence (events : List ExecutionEventV1) : ℕ := (events.getLast?.map (·.sequence)).getD 0

/-- Renumber an event that does not come after `base`. -/
def resequence (base : ℕ) (e : ExecutionEventV1) : Except Abort ExecutionEventV1 :=
  if e.sequence ≤ base then do
    let sequence ← checkedAdd u64Max base (satAdd e.sequence 1)
    return { e with sequence }
  else .ok e

/-- Append the events of a slice. -/
def mergeEvents (events new : List ExecutionEventV1) : Except Abort (List ExecutionEventV1) := do
  let new ← new.mapM (resequence (lastSequence events))
  return events ++ new

/-- The record of an execution that went on. -/
def AgentEngine.mergeStepReport (e : AgentEngine) (executionId : String) (previous : ExecutionRecord)
    (report : ExecutionReportV1) : Except Abort ExecutionRecord := do
  let id ← liftError (executionIdFrom codec executionId)
  let last := (e.store.load id).or previous.lastCheckpoint
  let r := draft codec executionId report previous.effectCache previous.handoffId
  let pendingResume ← e.pendingResumeOf codec executionId r last
  let events ← mergeEvents previous.events report.events
  return e.applyEventCap { r with events, lastCheckpoint := last.or pendingResume, pendingResume }

/-! ### Operations -/

/-- Load a definition. -/
def loadDefinition (json : String) : EngineM String := do
  let d ← Method.ofExcept (AgentDefinitionBundleV1.load codec json)
  Method.modify fun e =>
    { e with
      packMeta := some d.packMeta, definition := some d, executions := ∅, handoffs := ∅
      store := .empty, budget := .empty, tools := defaultRegistry d.bundle.host.allowHttpsTools }
  return s!"Loaded graph '{d.compiled.definition.id.text}' with implementation '{d.bundle.implementationId}'."

/-- Drop the definition. -/
def clearDefinition : EngineM String := do
  let e ← Method.read
  Method.modify fun e =>
    { e with
      definition := none, executions := ∅, handoffs := ∅, packMeta := none
      store := .empty, budget := .empty, tools := .empty }
  return if e.definition.isSome then "Definition cleared." else "No definition was loaded."

/-- Change the limits. -/
def setLimits (limits : RuntimeLimitsV1) : EngineM Unit := do
  Method.ofExcept (ensure (limits.version = 1) (.host s!"unsupported limits version {limits.version}"))
  Method.ofExcept (ensure (limits.maxConcurrentExecutions ≠ 0)
    (.host "max_concurrent_executions must be > 0"))
  Method.modify fun e => { e with limits }

/-- The checks of a new execution. -/
def AgentEngine.guardNewExecution (e : AgentEngine) (executionId stateJson : String) :
    Except CoreError Unit := do
  (e.limits.validateExecutionId executionId).mapError .host
  (e.limits.validateStateBytes stateJson).mapError .host
  (e.limits.checkCapacity e.executions.size).mapError .host
  ensure (!e.executions.contains executionId) (.host s!"execution '{executionId}' already exists")

/-- Put a record in its place. -/
def install (executionId : String) (record : ExecutionRecord) : EngineM Unit :=
  Method.modify fun e => { e with executions := e.executions.insert executionId record }

/-- Take over the counters of a record in the budget, and put it in its place. -/
def account (executionId : String) (record : ExecutionRecord) : EngineM Unit := do
  Method.modify fun e =>
    { e with budget := e.budget.syncRunTotals record.steps record.tokens record.costMicros }
  install executionId record

/-- The first slice of a new execution, and its record. -/
def launch (executionId stateJson : String) (stepBudget : Option ℕ) : EngineM ExecutionRecord := do
  let state ← Method.ofExcept (parseState codec stateJson)
  let id ← Method.ofExcept (executionIdFrom codec executionId)
  let report ← runFromStart id state stepBudget ∅
  let e ← Method.read
  consult (e.recordFromReport codec executionId report ∅)

/-- Start an execution. -/
def startExecution (executionId initialStateJson : String) : EngineM ExecutionRecord := do
  let e ← Method.read
  Method.ofExcept (e.guardNewExecution executionId initialStateJson)
  let record ← launch codec executionId initialStateJson none
  let record := e.applyEventCap record
  account executionId record
  return record

/-- A number of node executions, where zero is no bound. -/
def stepBudget (maxNodeSteps : ℕ) : Option ℕ := if maxNodeSteps = 0 then none else some maxNodeSteps

/-- Start an execution with a bound on the node executions of its first slice. -/
def startWithBudget (executionId initialStateJson : String) (maxNodeSteps : ℕ) : EngineM ExecutionRecord := do
  let e ← Method.read
  Method.ofExcept (e.guardNewExecution executionId initialStateJson)
  let record ← launch codec executionId initialStateJson (stepBudget maxNodeSteps)
  let record := e.applyEventCap record
  install executionId record
  return record

/-- Accept a handoff and start the execution it asks for. -/
def acceptHandoff (executionId envelopeJson stateJson parentAuthorityJson : String) :
    EngineM (ExecutionRecord × HandoffRecordV1) := do
  let e ← Method.read
  Method.ofExcept (e.guardNewExecution executionId stateJson)
  let d ← Method.ofExcept e.loaded
  let limits := d.compiled.definition.limits
  let packAuth := authorityFromPack d.bundle.pack limits.maxSteps limits.maxCostMicros
  let parent ← Method.ofExcept (parseAuthority codec parentAuthorityJson)
  let envelope ← Method.ofExcept (parseAndValidateEnvelope codec envelopeJson parent packAuth e.limits)
  let loadedId := d.compiled.definition.id.text
  Method.ofExcept (ensure (envelope.destination.text = loadedId)
    (.host s!"handoff destination '{envelope.destination.text}' does not match loaded graph '{loadedId}'"))
  let handoffId := s!"handoff-{executionId}"
  let record ← launch codec executionId stateJson none
  let record := e.applyEventCap { record with handoffId := some handoffId }
  account executionId record
  let hrecord : HandoffRecordV1 :=
    { version := 1, handoffId, executionId, destination := envelope.destination.text
      returnContract := envelope.returnContract, parentAuthority := parent
      childAuthority := envelope.authorityProjection, status := "accepted", peerCanister := none
      message := "handoff accepted; execution started" }
  Method.modify fun e => { e with handoffs := e.handoffs.insert handoffId hrecord }
  return (record, hrecord)

/-- The record of an execution. -/
def existing (executionId : String) : EngineM ExecutionRecord := do
  let e ← Method.read
  match e.executions[executionId]? with
  | some r => return r
  | none => Method.ofExcept (.error (.host s!"unknown execution '{executionId}'"))

/-- The checks of a step. -/
def ExecutionRecord.stepGuard (r : ExecutionRecord) (executionId : String) (maxNodeSteps : ℕ) :
    Except CoreError Unit := do
  ensure (!isTerminal r.statusKind)
    (.host s!"execution '{executionId}' is already terminal ({r.statusKind})")
  ensure (!(r.statusKind = "suspended" && !isHostEffectSuspend r.statusDetail &&
      r.statusDetail ≠ "hitl_approval"))
    (.host s!"execution is suspended for '{r.statusDetail}'; use resume after host input")
  ensure (!(r.statusKind = "suspended" && r.statusDetail = "hitl_approval" && maxNodeSteps ≠ 0))
    (.host "HITL suspension requires resume(), not step()")

/-- The next slice of an execution, and its record. -/
def proceed (executionId : String) (r : ExecutionRecord) (checkpoint : CheckpointV1) (budget : Option ℕ)
    (hitlApproved : Bool) : EngineM ExecutionRecord := do
  let _ ← Method.ofExcept (executionIdFrom codec executionId)
  let report ← runResume checkpoint budget hitlApproved r.effectCache
  let e ← Method.read
  consult (e.mergeStepReport codec executionId r report)

/-- Run the next slice of an execution. -/
def step (executionId : String) (maxNodeSteps : ℕ) : EngineM ExecutionRecord := do
  let r ← existing executionId
  Method.ofExcept (r.stepGuard executionId maxNodeSteps)
  let e ← Method.read
  let checkpoint ← consult (e.checkpointFor codec r executionId)
  let record ← proceed codec executionId r checkpoint (stepBudget maxNodeSteps) false
  account executionId record
  return record

/-- Is the execution suspended for a human? -/
def ExecutionRecord.awaitsHuman (r : ExecutionRecord) : Bool :=
  r.statusKind = "suspended" && r.statusDetail = "hitl_approval"

/-- The checkpoint `resume` goes on from. -/
def AgentEngine.resumeCheckpoint (e : AgentEngine) (r : ExecutionRecord) (executionId : String) :
    Except Abort CheckpointV1 :=
  if r.awaitsHuman then e.checkpointForHitlResume codec executionId r
  else e.checkpointFor codec r executionId

/-- Run an execution to its next suspension or its end. -/
def resume (executionId : String) : EngineM ExecutionRecord := do
  let r ← existing executionId
  let e ← Method.read
  let checkpoint ← consult (e.resumeCheckpoint codec r executionId)
  let record ← proceed codec executionId r checkpoint none r.awaitsHuman
  let record := { record with timerScheduled := false }
  account executionId record
  return record

/-- The suspension an effect resolves. -/
def expectedSuspension : String → Except CoreError String
  | "llm" => .ok "await_llm"
  | "tool" => .ok "await_tool"
  | "retrieve" => .ok "await_retrieve"
  | other => .error (.host s!"unknown effect kind '{other}'")

/-- Put the result of an effect in the cache, and resume. -/
def injectEffectAndResume (executionId effect : String) (value : Json) : EngineM ExecutionRecord := do
  let r ← existing executionId
  Method.ofExcept (ensure (r.statusKind = "suspended")
    (.host s!"execution is not suspended (status={r.statusKind})"))
  let expected ← Method.ofExcept (expectedSuspension effect)
  Method.ofExcept (ensure (r.statusDetail = expected)
    (.host s!"execution suspended for '{r.statusDetail}' but inject is for '{expected}'"))
  install executionId { r with effectCache := r.effectCache.insert effect value }
  resume codec executionId

/-- Use the registry and the ledger of the engine. -/
def atDesk {α : Type} (p : Method (ToolRegistry.Desk HostTool) (ToolRegistry.GateEvent HostTool) CoreError Abort α) :
    EngineM α := fun e =>
  match p { registry := e.tools, ledger := e.budget.ledger } with
  | .ok r =>
    .ok
      { result := r.result
        state := { e with tools := r.state.registry, budget := { e.budget with ledger := r.state.ledger } }
        log := [] }
  | .error d => .error d

/-- Run the tool a suspended execution waits for. -/
def runToolForPending (executionId : String) : EngineM Json := do
  let r ← existing executionId
  Method.ofExcept (ensure (r.statusDetail = "await_tool") (.host "not awaiting tool"))
  let toolId := ((r.state.value.pointer "/tool_id").bind Json.asStr).getD "echo"
  let arguments :=
    (r.state.value.pointer "/tool_args").getD (.object [("message", .string "hello-from-icp")])
  let e ← Method.read
  let policy := e.definition.bind (·.policy)
  let result ← atDesk (executeToolCall codec policy toolId arguments s!"{executionId}-tool")
  let usage := result.usage
  Method.modify fun e =>
    { e with budget := e.budget.noteToolUsage usage.calls usage.units usage.durationMs }
  return .object
    [("call_id", .string result.callId), ("cost_micros", jsonU64 (min (usage.units * 10) u64Max)),
      ("tool_id", .string result.toolId.text),
      ("usage", .object
        [("calls", jsonU64 usage.calls), ("duration_ms", jsonU64 usage.durationMs),
          ("units", jsonU64 usage.units)]),
      ("value", result.value)]

/-! ### Calls -/

/-- A call of an operation. -/
inductive Call where
  | loadDefinition (json : String)
  | clearDefinition
  | setLimits (limits : RuntimeLimitsV1)
  | startExecution (executionId stateJson : String)
  | startWithBudget (executionId stateJson : String) (maxNodeSteps : ℕ)
  | acceptHandoff (executionId envelopeJson stateJson parentAuthorityJson : String)
  | step (executionId : String) (maxNodeSteps : ℕ)
  | resume (executionId : String)
  | injectEffectAndResume (executionId effect : String) (value : Json)
  | runToolForPending (executionId : String)

/-- Perform a call; what it returns is dropped. -/
def Call.perform : Call → EngineM Unit
  | .loadDefinition json => do let _ ← Icp.loadDefinition codec json
  | .clearDefinition => do let _ ← Icp.clearDefinition
  | .setLimits limits => Icp.setLimits limits
  | .startExecution id state => do let _ ← Icp.startExecution codec id state
  | .startWithBudget id state n => do let _ ← Icp.startWithBudget codec id state n
  | .acceptHandoff id envelope state parent => do let _ ← Icp.acceptHandoff codec id envelope state parent
  | .step id n => do let _ ← Icp.step codec id n
  | .resume id => do let _ ← Icp.resume codec id
  | .injectEffectAndResume id effect value => do let _ ← Icp.injectEffectAndResume codec id effect value
  | .runToolForPending id => do let _ ← Icp.runToolForPending codec id

end Knolo.Icp
