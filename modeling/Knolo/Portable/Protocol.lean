import Knolo.Core.Execution

/-!
# The portable protocol

The messages of `knolo-agent-wasm/src/protocol.rs`. An engine that has no scheduler of its
own sends commands and gets responses; between two messages the whole run is in a
`PortableSession` that the engine hands back unchanged.

Messages are the decoded values, not their JSON texts. Nodes and executions are named by
plain strings here, as on the wire; only the engine parses them.
-/

namespace Knolo.Portable

open Core

/-! ### What nodes answer -/

/-- The outcome of a node, on the wire. -/
inductive ProtocolOutcome where
  | continue (patch : Option Json)
  | route (route : String) (patch : Option Json)
  | suspend (reason : String) (patch : Option Json)
  | terminate (result : Json) (patch : Option Json)
  | fail (error : String) (retryable : Option Bool)
  deriving DecidableEq

/-- The patch of an outcome. -/
def ProtocolOutcome.patch : ProtocolOutcome → Option Json
  | .continue patch | .route _ patch | .suspend _ patch | .terminate _ patch => patch
  | .fail _ _ => none

/-- An outcome and what it cost. -/
structure ProtocolNodeExecution where
  outcome : ProtocolOutcome
  tokens : Option ℕ
  costMicros : Option ℕ
  deriving DecidableEq

/-- What the host is asked to run. -/
structure DispatchRequest where
  nodeId : String
  state : Json
  attempt : ℕ
  deriving DecidableEq

/-! ### Events and reports -/

/-- What an event records, on the wire. -/
inductive ProtocolEventKind where
  | executionStarted
  | nodeStarted (attempt : ℕ)
  | statePatched (revision : ℕ)
  | routed (route target : String)
  | retrying (attempt : ℕ)
  | suspended (reason : String)
  | terminated
  | failed (error : String)
  | cancelled
  | checkpointed
  deriving DecidableEq

/-- An event, on the wire. -/
structure ProtocolEvent where
  version : ℕ
  sequence : ℕ
  executionId : String
  nodeId : Option String
  timestampMs : ℕ
  kind : ProtocolEventKind
  deriving DecidableEq

/-- How a run ended. -/
inductive ProtocolStatus where
  | suspended (reason : String)
  | terminated (result : Json)
  | failed (error : String)
  | cancelled
  deriving DecidableEq

/-- What a run reports. -/
structure ProtocolReport where
  status : ProtocolStatus
  state : StateSnapshot
  events : List ProtocolEvent
  steps : ℕ
  tokens : ℕ
  costMicros : ℕ
  snapshots : List StateSnapshot
  deriving DecidableEq

/-! ### Sessions -/

/-- A run between two messages. -/
structure PortableSession where
  version : ℕ
  executionId : String
  graphHash : String
  state : StateSnapshot
  currentNode : String
  sequence : ℕ
  steps : ℕ
  tokens : ℕ
  costMicros : ℕ
  snapshots : List StateSnapshot
  /-- The visits counted, zero where there is no entry. -/
  visits : String → ℕ
  startMs : ℕ
  /-- The node whose result is awaited, or empty. -/
  awaitingNode : String
  awaitingAttempt : ℕ
  events : List ProtocolEvent
  resumeInput : Option Json

/-! ### Failures -/

/-- The text of a failure: the engine's own, or an error of the core as it displays. -/
inductive Message where
  | text (s : String)
  | core (e : CoreError)
  deriving DecidableEq

/-- A failure. -/
structure Failure where
  kind : String
  message : Message
  deriving DecidableEq

/-- How a command ends without an answer of its own: a failure, an arithmetic overflow,
or a bound of this model that was too small. -/
inductive Halt where
  | failure (f : Failure)
  | overflow
  | stuck
  deriving DecidableEq

/-! ### Commands and responses -/

/-- What the engine is asked to do. -/
inductive ProtocolCommand where
  | inspect
  | run (executionId : String) (state : Json)
  | resume (checkpoint : CheckpointV1) (input : Json)
  | continue (session : PortableSession) (execution : ProtocolNodeExecution)
  | replay

/-- A command, with the graph and schema it is about and the time. -/
structure ProtocolRequest where
  version : ℕ
  command : ProtocolCommand
  graph : GraphDefinitionV1
  schema : Option StateSchemaV1
  nowMs : Option ℕ

/-- A description of the engine and the graph. -/
structure Inspection where
  engine : String
  graph : GraphDefinitionV1
  capabilities : List String
  limitations : List String

/-- A response. -/
inductive ProtocolResponse where
  | inspection (inspection : Inspection)
  | event (event : ProtocolEvent)
  | dispatch (request : DispatchRequest) (session : PortableSession)
  | report (report : ProtocolReport)
  | error (failure : Failure)

/-- What the engine can do. -/
def capabilities : List String := ["state", "routing", "suspension"]

/-- What it leaves to its host. -/
def limitations : List String :=
  ["host node handlers use the versioned continue boundary",
    "tools, retrieval, and durable effects stay host-bound"]

end Knolo.Portable
