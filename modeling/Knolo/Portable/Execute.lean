import Knolo.Portable.Protocol

/-!
# The portable engine

`knolo-agent-wasm/src/execute.rs`: the scheduler cut into messages. A `run` command starts a
session and comes to the first node it needs a result for; every `continue` command takes the
result, finishes that node and comes to the next one, or to the report.

* `dispatchNode` — the checks before a node, and the request to run it.
* `completeNode` — what follows a node's result, up to the next dispatch.
* `startRun`, `startResume`, `continueRun` — the three commands that advance a session.
* `handle` — one command, with its failures as responses.

`Progress` is a session being worked on, with the events of the message at hand.
-/

namespace Knolo.Portable

open Core Library.Fallible

/-! ### Failures -/

/-- Fail with a message of the engine. -/
def fail {α : Type} (kind text : String) : Except Halt α :=
  .error (.failure { kind, message := .text text })

/-- An error of the core is a failure of the definition. -/
def definition {α : Type} : Except CoreError α → Except Halt α
  | .ok a => .ok a
  | .error e => .error (.failure { kind := "definition", message := .core e })

/-- A computation of the core. -/
def fromCore {α : Type} : Except Abort α → Except Halt α
  | .ok a => .ok a
  | .error (.error e) => definition (.error e)
  | .error .overflow => .error .overflow
  | .error .stuck => .error .stuck

/-- An optional value that must be there. -/
def require {α : Type} (text : String) : Option α → Except Halt α
  | some a => .ok a
  | none => fail "definition" text

/-- A check of the definition. -/
def check (c : Prop) [Decidable c] (text : String) : Except Halt Unit :=
  if c then .ok () else fail "definition" text

/-! ### Work on a session -/

/-- A session being worked on, and the events of this message. -/
structure Progress where
  session : PortableSession
  fresh : List ProtocolEvent

/-- Record an event. -/
def emit (nodeId : Option String) (kind : ProtocolEventKind) (now : ℕ) (p : Progress) :
    Except Halt Progress := do
  let sequence ← fromCore (checkedAdd u64Max p.session.sequence 1)
  let event : ProtocolEvent :=
    { version := 1, sequence, executionId := p.session.executionId, nodeId, timestampMs := now, kind }
  return { session := { p.session with sequence, events := p.session.events ++ [event] }
           fresh := p.fresh ++ [event] }

/-- The report of a session that ends. -/
def report (status : ProtocolStatus) (s : PortableSession) : ProtocolReport :=
  { status, state := s.state, events := s.events, steps := s.steps, tokens := s.tokens,
    costMicros := s.costMicros, snapshots := s.snapshots }

/-- End a session. -/
def finish (status : ProtocolStatus) (p : Progress) : List ProtocolResponse :=
  p.fresh.map .event ++ [.report (report status p.session)]

/-- Record a failure of a node, and end the session. -/
def failReport (nodeId : NodeId) (now : ℕ) (message : String) (p : Progress) :
    Except Halt (List ProtocolResponse) := do
  let p ← emit (some nodeId.text) (.failed message) now p
  return finish (.failed message) p

/-! ### Dispatch -/

/-- Count the visit to the current node. -/
def countVisit (s : PortableSession) : Except Halt PortableSession := do
  let count ← fromCore (checkedAdd u32Max (s.visits s.currentNode) 1)
  return { s with visits := fun n => if n = s.currentNode then count else s.visits n }

/-- Is the current node, just counted, visited more often than its cycle allows? -/
def cycleExceeded (g : CompiledGraphV1) (nodeId : NodeId) (s : PortableSession) : Bool :=
  match g.cycleLimit nodeId with
  | some max => max < s.visits s.currentNode
  | none => false

/-- The session that awaits the result of a node. -/
def PortableSession.await (nodeId : NodeId) (s : PortableSession) : PortableSession :=
  { s with awaitingNode := nodeId.text, awaitingAttempt := 1 }

/-- Check the budgets, and ask the host to run the current node. -/
def dispatchNode (g : CompiledGraphV1) (now : ℕ) (p : Progress) :
    Except Halt (List ProtocolResponse) := do
  let nodeId ← definition (Identifier.new p.session.currentNode)
  if g.limits.maxSteps ≤ p.session.steps then
    failReport nodeId now "step budget exceeded" p
  else if g.limits.timeoutMs < now - p.session.startMs then
    failReport nodeId now "timeout budget exceeded" p
  else
    let session ← countVisit p.session
    let p := { p with session }
    if cycleExceeded g nodeId session then
      failReport nodeId now "cycle limit exceeded" p
    else
      let _ ← require "pending node missing" (g.node nodeId)
      let p ← emit (some nodeId.text) (.nodeStarted 1) now p
      return p.fresh.map .event ++
        [.dispatch { nodeId := nodeId.text, state := p.session.state.value, attempt := 1 }
          (p.session.await nodeId)]

/-! ### Patches -/

/-- One member of a patch: a top-level field to set. -/
def patchMember (operations : Std.ExtTreeMap String PatchOperation) (member : String × Json) :
    Except Halt (Std.ExtTreeMap String PatchOperation) :=
  if member.1.isEmpty || '/' ∈ member.1.toList then
    fail "definition" ("patch key " ++ member.1 ++ " must be a top-level state field")
  else .ok (operations.insert ("/" ++ member.1) (.set member.2))

/-- The operations a patch of members stands for. -/
def patchOperations (members : Members) : Except Halt (Std.ExtTreeMap String PatchOperation) :=
  members.foldlM patchMember ∅

/-- The session after its state went on to a next snapshot. -/
def PortableSession.patched (s : PortableSession) (next : StateSnapshot) : PortableSession :=
  { s with state := next, snapshots := s.snapshots ++ [next] }

/-- Apply the patch of a node to the session. A patch with no operations leaves it alone. -/
def applyPatch (nodeId : NodeId) (writes : Std.ExtTreeSet String) (schema : StateSchemaV1)
    (patch : Json) (s : PortableSession) : Except Halt PortableSession := do
  let members ← require "node patch must be a JSON object" patch.asObject
  let operations ← patchOperations members
  if operations.isEmpty then return s
  else
    let executionId ← definition (Identifier.new s.executionId)
    let eventSequence ← fromCore (checkedAdd u64Max s.sequence 1)
    let next ← fromCore (s.state.apply { baseRevision := s.state.revision, operations } writes schema
      { executionId, nodeId, eventSequence })
    return s.patched next

/-! ### The result of a node -/

/-- What the engine does about an outcome. -/
structure PortableDecision where
  patch : Option Json
  next : Option NodeId
  status : Option ProtocolStatus
  event : Option ProtocolEventKind

/-- The decision about the outcome of a node. -/
def decision (g : CompiledGraphV1) (nodeId : NodeId) : ProtocolOutcome → Except Halt PortableDecision
  | .continue patch => do
    let next ← require "continue has no declared `continue` transition" (g.route nodeId "continue")
    return { patch, next := some next, status := none, event := none }
  | .route route patch => do
    let target ← require ("undeclared route " ++ route) (g.route nodeId route)
    return { patch, next := some target, status := none, event := some (.routed route target.text) }
  | .suspend reason patch =>
    .ok { patch, next := none, status := some (.suspended reason), event := some (.suspended reason) }
  | .terminate result patch =>
    .ok { patch, next := none, status := some (.terminated result), event := some .terminated }
  | .fail error _ =>
    .ok { patch := none, next := none, status := some (.failed error), event := some (.failed error) }

/-- The session after a node was charged. -/
def PortableSession.charge (s : PortableSession) (x : ProtocolNodeExecution) : PortableSession :=
  { s with
    awaitingNode := "", awaitingAttempt := 0
    steps := satAdd s.steps 1
    tokens := satAdd s.tokens (x.tokens.getD 0)
    costMicros := satAdd s.costMicros (x.costMicros.getD 0) }

/-- Commit the patch of an outcome, if it has one. -/
def commit (d : NodeDefinitionV1) (nodeId : NodeId) (schema : StateSchemaV1) (now : ℕ)
    (patch : Option Json) (p : Progress) : Except Halt Progress :=
  match patch with
  | none => .ok p
  | some patch => do
    let session ← applyPatch nodeId d.writes schema patch p.session
    emit (some nodeId.text) (.statePatched session.state.revision) now { p with session }

/-- Record a decision, if it has an event. -/
def record (nodeId : NodeId) (now : ℕ) (kind : Option ProtocolEventKind) (p : Progress) :
    Except Halt Progress :=
  match kind with
  | none => .ok p
  | some kind => emit (some nodeId.text) kind now p

/-- Carry out a decision: commit, record, and end or go on. -/
def conclude (d : NodeDefinitionV1) (nodeId : NodeId) (schema : StateSchemaV1) (now : ℕ)
    (dec : PortableDecision) (p : Progress) : Except Halt (Progress ⊕ List ProtocolResponse) := do
  let p ← commit d nodeId schema now dec.patch p
  let p ← record nodeId now dec.event p
  match dec.status with
  | some status => return .inr (finish status p)
  | none =>
    let pending ← require "continue has no declared `continue` transition" dec.next
    let p ← emit (some nodeId.text) .checkpointed now p
    return .inl { p with session := { p.session with currentNode := pending.text } }

/-- What follows the result of a node, up to the next dispatch. -/
def completeNode (g : CompiledGraphV1) (schema : StateSchemaV1) (session : PortableSession)
    (execution : ProtocolNodeExecution) (now : ℕ) :
    Except Halt (Progress ⊕ List ProtocolResponse) := do
  check (session.version = 1 ∧ session.graphHash = g.hash) "session graph hash mismatch"
  if session.awaitingNode.isEmpty then fail "execution" "session is not awaiting a node result"
  else
    let nodeId ← definition (Identifier.new session.awaitingNode)
    let d ← require "pending node missing" (g.node nodeId)
    let p : Progress := { session := session.charge execution, fresh := [] }
    if g.limits.maxTokens < p.session.tokens then
      .inr <$> failReport nodeId now "token budget exceeded" p
    else if g.limits.maxCostMicros < p.session.costMicros then
      .inr <$> failReport nodeId now "cost budget exceeded" p
    else
      let dec ← decision g nodeId execution.outcome
      conclude d nodeId schema now dec p

/-! ### Commands -/

/-- The schema of a command. -/
def requireSchema (schema : Option StateSchemaV1) : Except Halt StateSchemaV1 :=
  require "run, resume, and continue require a state schema" schema

/-- A session at the entry of the graph. -/
def newSession (g : CompiledGraphV1) (executionId : String) (snapshot : StateSnapshot) (now : ℕ) :
    PortableSession :=
  { version := 1, executionId, graphHash := g.hash, state := snapshot
    currentNode := g.definition.entry.text, sequence := 0, steps := 0, tokens := 0, costMicros := 0
    snapshots := [snapshot], visits := fun _ => 0, startMs := now
    awaitingNode := "", awaitingAttempt := 0, events := [], resumeInput := none }

/-- Start a session at the entry of the graph. -/
def startRun (g : CompiledGraphV1) (schema : Option StateSchemaV1) (executionId : String) (state : Json)
    (now : ℕ) : Except Halt (List ProtocolResponse) := do
  let schema ← requireSchema schema
  definition (schema.validate state)
  check (schema.id = g.definition.stateSchema) "schema id does not match graph.state_schema"
  let snapshot : StateSnapshot := { schemaId := schema.id, revision := 0, value := state, provenance := none }
  let session := newSession g executionId snapshot now
  let p ← emit none .executionStarted now { session, fresh := [] }
  dispatchNode g now p

/-- Start a session at the pending node of a checkpoint. -/
def startResume (g : CompiledGraphV1) (schema : Option StateSchemaV1) (cp : CheckpointV1) (input : Json)
    (now : ℕ) : Except Halt (List ProtocolResponse) := do
  let schema ← requireSchema schema
  check (cp.version = 1 ∧ cp.graphHash = g.hash) "checkpoint graph hash mismatch"
  definition (schema.validate cp.state.value)
  check (cp.state.schemaId = schema.id) "snapshot schema id mismatch"
  check ((g.node cp.pendingNode).isSome) "pending node missing"
  let session : PortableSession :=
    { version := 1, executionId := cp.executionId.text, graphHash := g.hash, state := cp.state
      currentNode := cp.pendingNode.text, sequence := cp.eventCursor, steps := cp.steps
      tokens := cp.tokens, costMicros := cp.costMicros, snapshots := [cp.state], visits := fun _ => 0
      startMs := now, awaitingNode := "", awaitingAttempt := 0, events := [], resumeInput := some input }
  dispatchNode g now { session, fresh := [] }

/-- Take the result of the awaited node. -/
def continueRun (g : CompiledGraphV1) (schema : Option StateSchemaV1) (session : PortableSession)
    (execution : ProtocolNodeExecution) (now : ℕ) : Except Halt (List ProtocolResponse) := do
  let schema ← requireSchema schema
  match ← completeNode g schema session execution now with
  | .inr responses => return responses
  | .inl p => dispatchNode g now p

/-- A failure is a response. -/
def errorResponse : Except Halt (List ProtocolResponse) → Except Halt (List ProtocolResponse)
  | .error (.failure f) => .ok [.error f]
  | answer => answer

/-- Handle one command. -/
def handle (digest : GraphDefinitionV1 → String) (request : ProtocolRequest) :
    Except Halt (List ProtocolResponse) :=
  errorResponse do
    if request.version ≠ 1 then fail "unsupported" "unsupported protocol version"
    else
      let g ← definition (request.graph.compile digest)
      let now := request.nowMs.getD 0
      match request.command with
      | .inspect => return [.inspection { engine := "wasm", graph := g.definition, capabilities, limitations }]
      | .replay =>
        fail "unsupported" "replay is a host-side compare; re-run with the same execution_id"
      | .run executionId state => startRun g request.schema executionId state now
      | .resume checkpoint input => startResume g request.schema checkpoint input now
      | .continue session execution => continueRun g request.schema session execution now

end Knolo.Portable
