import Knolo.Core.Execution
import Knolo.Library.Loop

/-!
# The scheduler

`knolo-agent/src/runtime/mod.rs`: the loop that runs a compiled graph. At every head it
checks cancellation and the budgets, runs the pending node with retries, charges the
execution, commits its patch, records its decision and saves a checkpoint.

## The model

* `HostCall` — what the scheduler asks of its surroundings: the caller's cancellation
  flag, the clock, the node executor, the event sink and the checkpoint store. A run is
  a program over these calls (`Run`), so executor, sink, store and clock are arbitrary.
* `RunState` — what `run_from` carries round its loop.
* `Scheduler.iterate` — one turn of the loop, in the source's three parts: `enter` (the
  checks at the head), `attempts` (the retry loop) and `settle` (what follows a
  completed execution).
* `Scheduler.run`, `Scheduler.resume` — the two entry points.

The loops get as much fuel as they can use: the retry loop `max_retries + 1` and the main
loop one more than the steps that are left.
-/

namespace Knolo.Runtime

open Core Library Library.Fallible Library.Prog

/-! ### The surroundings of a run -/

/-- What the scheduler asks of its surroundings. -/
inductive HostCall where
  /-- The caller's cancellation flag. -/
  | cancelled
  /-- `Clock::now_ms`. -/
  | nowMs
  /-- `NodeExecutor::execute`. -/
  | execute (request : NodeRequest)
  /-- `EventSink::emit`. -/
  | emit (event : ExecutionEventV1)
  /-- `CheckpointStore::save`. -/
  | save (checkpoint : CheckpointV1)

/-- What a call is answered with. -/
abbrev Answer : HostCall → Type
  | .cancelled => Bool
  | .nowMs => ℕ
  | .execute _ => Except CoreError NodeExecutionV1
  | .emit _ => Except CoreError Unit
  | .save _ => Except CoreError Unit

/-- A computation of the scheduler. -/
abbrev Run := Prog HostCall Answer Abort

/-! ### Policy and reports -/

/-- The retry policy, and the hashes of the artifacts of a run. -/
structure RuntimePolicyV1 where
  maxRetries : ℕ
  retryDelayMs : ℕ
  packHash : String
  policyHash : String
  nodeImplementationHash : String
  contractHash : String

/-- How a run ended. -/
inductive ExecutionStatusV1 where
  | suspended (reason : String)
  | terminated (result : Json)
  | failed (error : String)
  | cancelled
  deriving DecidableEq

/-- What a run reports. -/
structure ExecutionReportV1 where
  status : ExecutionStatusV1
  state : StateSnapshot
  events : List ExecutionEventV1
  steps : ℕ
  tokens : ℕ
  costMicros : ℕ
  deriving DecidableEq

/-- What `run_from` carries round its loop. -/
structure RunState where
  state : StateSnapshot
  node : NodeId
  seq : ℕ
  steps : ℕ
  tokens : ℕ
  cost : ℕ
  events : List ExecutionEventV1
  visits : NodeId → ℕ

/-- The report of a run that ends in `s`. -/
def RunState.report (s : RunState) (status : ExecutionStatusV1) : ExecutionReportV1 :=
  { status, state := s.state, events := s.events, steps := s.steps, tokens := s.tokens,
    costMicros := s.cost }

/-- The state after event `e`. -/
def RunState.logged (s : RunState) (e : ExecutionEventV1) : RunState :=
  { s with seq := s.seq + 1, events := s.events ++ [e] }

/-- The state after the visit to the pending node was counted. -/
def RunState.visit (s : RunState) : RunState :=
  { s with visits := fun n => if n = s.node then s.visits n + 1 else s.visits n }

/-- The state after a completed execution was charged. -/
def RunState.charge (s : RunState) (x : NodeExecutionV1) : RunState :=
  { s with
    steps := s.steps + 1
    tokens := satAdd s.tokens x.tokens
    cost := satAdd s.cost x.costMicros }

section Fields

variable (s : RunState) (x : NodeExecutionV1)

@[simp] theorem RunState.visit_state : s.visit.state = s.state := rfl
@[simp] theorem RunState.visit_node : s.visit.node = s.node := rfl
@[simp] theorem RunState.visit_seq : s.visit.seq = s.seq := rfl
@[simp] theorem RunState.visit_steps : s.visit.steps = s.steps := rfl
@[simp] theorem RunState.visit_tokens : s.visit.tokens = s.tokens := rfl
@[simp] theorem RunState.visit_cost : s.visit.cost = s.cost := rfl
@[simp] theorem RunState.visit_events : s.visit.events = s.events := rfl

@[simp] theorem RunState.charge_state : (s.charge x).state = s.state := rfl
@[simp] theorem RunState.charge_node : (s.charge x).node = s.node := rfl
@[simp] theorem RunState.charge_seq : (s.charge x).seq = s.seq := rfl
@[simp] theorem RunState.charge_steps : (s.charge x).steps = s.steps + 1 := rfl
@[simp] theorem RunState.charge_tokens : (s.charge x).tokens = satAdd s.tokens x.tokens := rfl
@[simp] theorem RunState.charge_cost : (s.charge x).cost = satAdd s.cost x.costMicros := rfl
@[simp] theorem RunState.charge_events : (s.charge x).events = s.events := rfl
@[simp] theorem RunState.charge_visits : (s.charge x).visits = s.visits := rfl

end Fields

/-! ### Events -/

/-- Emit the next event and collect it for the report. -/
def event (id : ExecutionId) (node : Option NodeId) (kind : EventKindV1) (s : RunState) :
    Run RunState := do
  let seq ← ofExcept (checkedAdd u64Max s.seq 1)
  let now ← ask .nowMs
  let e : ExecutionEventV1 :=
    { version := 1, sequence := seq, executionId := id, nodeId := node, timestampMs := now, kind }
  let emitted ← ask (.emit e)
  ofExcept (liftError emitted)
  return s.logged e

/-- Record the failure of the pending node, and report it. -/
def fail (id : ExecutionId) (s : RunState) (msg : String) : Run ExecutionReportV1 := do
  let s ← event id (some s.node) (.failed msg) s
  return s.report (.failed msg)

/-- Record a decision of the pending node, if it has an event. -/
def record (id : ExecutionId) (kind : Option EventKindV1) (s : RunState) : Run RunState :=
  match kind with
  | none => return s
  | some kind => event id (some s.node) kind s

/-! ### What an outcome asks for -/

/-- What the scheduler does about an outcome: the patch to commit, the node to go on
with, the status to end with, and the event that records the decision. -/
structure Decision where
  patch : Option StatePatch
  next : Option NodeId
  status : Option ExecutionStatusV1
  event : Option EventKindV1

/-- The decision about the outcome of `node`. -/
def decision (g : CompiledGraphV1) (node : NodeId) : NodeOutcomeV1 → Except CoreError Decision
  | .continue patch =>
    .ok { patch := some patch, next := g.route node "continue", status := none, event := none }
  | .route route patch =>
    match g.route node route with
    | none => .error (.invalidGraph ("undeclared route " ++ route))
    | some target =>
      .ok { patch, next := some target, status := none, event := some (.routed route target) }
  | .suspend reason patch =>
    .ok { patch, next := none, status := some (.suspended reason), event := some (.suspended reason) }
  | .terminate result patch =>
    .ok { patch, next := none, status := some (.terminated result), event := some .terminated }
  | .fail error _ =>
    .ok { patch := none, next := none, status := some (.failed error), event := some (.failed error) }

/-! ### The loop -/

/-- A graph with the schema of its state and the policy of its runs. -/
structure Scheduler where
  graph : CompiledGraphV1
  schema : StateSchemaV1
  policy : RuntimePolicyV1

namespace Scheduler

variable (sch : Scheduler) (id : ExecutionId)

/-- Is the pending node, just counted, visited more often than its cycle allows? -/
def cycleExceeded (s : RunState) : Bool :=
  match sch.graph.cycleLimit s.node with
  | some max => max < s.visits s.node
  | none => false

/-- Count the visit to the pending node: does it exceed its cycle? -/
def visitCheck (s : RunState) : Except Abort Bool := do
  let _ ← checkedAdd u32Max (s.visits s.node) 1
  return sch.cycleExceeded s.visit

/-- The checks at the loop head: the definition of the pending node, or a report. -/
def enter (start : ℕ) (s : RunState) : Run ((RunState × NodeDefinitionV1) ⊕ ExecutionReportV1) := do
  let cancelled ← ask .cancelled
  if cancelled then
    let s ← event id (some s.node) .cancelled s
    return .inr (s.report .cancelled)
  else if sch.graph.limits.maxSteps ≤ s.steps then
    .inr <$> fail id s "step budget exceeded"
  else
    let now ← ask .nowMs
    if sch.graph.limits.timeoutMs < now - start then
      .inr <$> fail id s "timeout budget exceeded"
    else
      let exceeded ← ofExcept (sch.visitCheck s)
      if exceeded then
        .inr <$> fail id s.visit "cycle limit exceeded"
      else
        match sch.graph.node s.node with
        | none => .throw (.error (.invalidGraph "pending node missing"))
        | some d => return .inl (s.visit, d)

/-- One attempt at the pending node; a failure that may be retried is, while retries are left. -/
def attempt (p : ℕ × RunState) :
    Run ((ℕ × RunState) ⊕ ((RunState × NodeExecutionV1) ⊕ ExecutionReportV1)) := do
  let attempt ← ofExcept (checkedAdd u32Max p.1 1)
  let s ← event id (some p.2.node) (.nodeStarted attempt) p.2
  let answer ← ask (.execute { nodeId := s.node, state := s.state, attempt })
  let execution ← ofExcept (liftError answer)
  match execution.outcome.retryableError with
  | none => return .inr (.inl (s, execution))
  | some error =>
    if attempt ≤ sch.policy.maxRetries then
      let again ← ofExcept (checkedAdd u32Max attempt 1)
      let s ← event id (some s.node) (.retrying again) s
      return .inl (attempt, s)
    else
      (.inr ∘ .inr) <$> fail id s error

/-- The retry loop. -/
def attempts (s : RunState) : Run ((RunState × NodeExecutionV1) ⊕ ExecutionReportV1) :=
  loop (.throw .stuck) (sch.attempt id) (sch.policy.maxRetries + 1) (0, s)

/-- Apply a patch of the pending node to the state. -/
def patch (d : NodeDefinitionV1) (p : StatePatch) (s : RunState) : Except Abort StateSnapshot := do
  let seq ← checkedAdd u64Max s.seq 1
  reduce s.state p d.writes sch.schema { executionId := id, nodeId := s.node, eventSequence := seq }

/-- Commit the patch of an outcome, if it has one. -/
def commit (d : NodeDefinitionV1) (patch : Option StatePatch) (s : RunState) : Run RunState :=
  match patch with
  | none => return s
  | some p => do
    let state ← ofExcept (sch.patch id d p s)
    event id (some s.node) (.statePatched state.revision) { s with state }

/-- The checkpoint of a run whose last completed node leads to `pending`. -/
def checkpointOf (pending : NodeId) (cursor : ℕ) (s : RunState) : CheckpointV1 :=
  { version := 1, executionId := id
    graphHash := sch.graph.hash, packHash := sch.policy.packHash, policyHash := sch.policy.policyHash
    nodeImplementationHash := sch.policy.nodeImplementationHash
    contractHash := sch.policy.contractHash
    state := s.state, pendingNode := pending, eventCursor := cursor
    steps := s.steps, tokens := s.tokens, costMicros := s.cost }

/-- Save a checkpoint and go on with `pending`. -/
def checkpoint (pending : NodeId) (s : RunState) : Run RunState := do
  let cursor ← ofExcept (checkedAdd u64Max s.seq 1)
  let cp := sch.checkpointOf id pending cursor s
  let s ← event id (some s.node) .checkpointed s
  let saved ← ask (.save cp)
  ofExcept (liftError saved)
  return { s with node := pending }

/-- Carry out a decision: commit, record, and end or go on. -/
def conclude (d : NodeDefinitionV1) (dec : Decision) (s : RunState) :
    Run (RunState ⊕ ExecutionReportV1) := do
  let s ← sch.commit id d dec.patch s
  let s ← record id dec.event s
  match dec.status, dec.next with
  | some status, _ => return .inr (s.report status)
  | none, none =>
    .throw (.error (.invalidGraph "continue has no declared `continue` transition"))
  | none, some pending => .inl <$> sch.checkpoint id pending s

/-- What follows a completed execution: charge it, check the budgets, decide. -/
def settle (d : NodeDefinitionV1) (s : RunState) (x : NodeExecutionV1) :
    Run (RunState ⊕ ExecutionReportV1) := do
  let _ ← ofExcept (checkedAdd u64Max s.steps 1)
  let s := s.charge x
  if sch.graph.limits.maxTokens < s.tokens then
    .inr <$> fail id s "token budget exceeded"
  else if sch.graph.limits.maxCostMicros < s.cost then
    .inr <$> fail id s "cost budget exceeded"
  else
    let dec ← ofExcept (liftError (decision sch.graph s.node x.outcome))
    sch.conclude id d dec s

/-- One turn of the loop. -/
def iterate (start : ℕ) (s : RunState) : Run (RunState ⊕ ExecutionReportV1) := do
  match ← sch.enter id start s with
  | .inr report => return .inr report
  | .inl (s, d) =>
    match ← sch.attempts id s with
    | .inr report => return .inr report
    | .inl (s, execution) => sch.settle id d s execution

/-- The loop, from `s`. -/
def runLoop (start : ℕ) (s : RunState) : Run ExecutionReportV1 :=
  loop (.throw .stuck) (sch.iterate id start) (sch.graph.limits.maxSteps - s.steps + 1) s

/-- Check the state, and begin. -/
def begin (started : Bool) (s : RunState) : Run (ℕ × RunState) := do
  ofExcept (liftError (sch.schema.validate s.state.value))
  ofExcept (ensure (s.state.schemaId = sch.schema.id)
    (.error (.schemaViolation "snapshot schema id mismatch")))
  let start ← ask .nowMs
  if started then
    let s ← event id none .executionStarted s
    return (start, s)
  else
    return (start, s)

/-- Run from a node, with the counters of what came before. -/
def runFrom (started : Bool) (s : RunState) : Run ExecutionReportV1 := do
  let (start, s) ← sch.begin id started s
  sch.runLoop id start s

end Scheduler

/-- The state a run starts in. -/
def RunState.initial (state : StateSnapshot) (node : NodeId) (seq steps tokens cost : ℕ) : RunState :=
  { state, node, seq, steps, tokens, cost, events := [], visits := fun _ => 0 }

/-- The state a resumed run starts in. -/
def RunState.ofCheckpoint (cp : CheckpointV1) : RunState :=
  .initial cp.state cp.pendingNode cp.eventCursor cp.steps cp.tokens cp.costMicros

/-- Run a graph from its entry. -/
def Scheduler.run (sch : Scheduler) (id : ExecutionId) (state : StateSnapshot) :
    Run ExecutionReportV1 :=
  sch.runFrom id true (.initial state sch.graph.definition.entry 0 0 0 0)

/-- Continue from a checkpoint. -/
def Scheduler.resume (sch : Scheduler) (cp : CheckpointV1) : Run ExecutionReportV1 := do
  ofExcept (liftError (cp.checkArtifacts sch.graph.hash sch.policy.packHash sch.policy.policyHash
    sch.policy.nodeImplementationHash sch.policy.contractHash))
  sch.runFrom cp.executionId false (.ofCheckpoint cp)

end Knolo.Runtime
