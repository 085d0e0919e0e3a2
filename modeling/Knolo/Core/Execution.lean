import Knolo.Core.Graph
import Knolo.Core.State

/-!
# Events, checkpoints and node outcomes

The records an execution exchanges with its surroundings: `event/mod.rs`,
`checkpoint/mod.rs` and `node/mod.rs` of `knolo-agent-core`.
-/

namespace Knolo.Core

open Library.Fallible

/-! ### Events -/

/-- What an event records. -/
inductive EventKindV1 where
  | executionStarted
  | nodeStarted (attempt : ℕ)
  | statePatched (revision : ℕ)
  | routed (route : String) (target : NodeId)
  | retrying (attempt : ℕ)
  | suspended (reason : String)
  | terminated
  | failed (error : String)
  | cancelled
  | checkpointed
  deriving DecidableEq

/-- An event of an execution. -/
structure ExecutionEventV1 where
  version : ℕ
  sequence : ℕ
  executionId : ExecutionId
  nodeId : Option NodeId
  timestampMs : ℕ
  kind : EventKindV1
  deriving DecidableEq

/-! ### Checkpoints -/

/-- A checkpoint: where an execution goes on, and the artifacts it was made with. -/
structure CheckpointV1 where
  version : ℕ
  executionId : ExecutionId
  graphHash : String
  packHash : String
  policyHash : String
  nodeImplementationHash : String
  contractHash : String
  state : StateSnapshot
  pendingNode : NodeId
  eventCursor : ℕ
  steps : ℕ
  tokens : ℕ
  costMicros : ℕ
  deriving DecidableEq

/-- A checkpoint is resumed only with the artifacts it was made with. -/
def CheckpointV1.checkArtifacts (cp : CheckpointV1) (graph pack policy node contract : String) :
    Except CoreError Unit :=
  ensure (cp.version = 1 ∧ cp.graphHash = graph ∧ cp.packHash = pack ∧ cp.policyHash = policy ∧
      cp.nodeImplementationHash = node ∧ cp.contractHash = contract)
    (.checkpointIncompatible "graph, pack, policy, node implementation, or contract hash mismatch")

/-! ### Nodes -/

/-- What a node asks for when it is done. -/
inductive NodeOutcomeV1 where
  | continue (patch : StatePatch)
  | route (route : String) (patch : Option StatePatch)
  | suspend (reason : String) (patch : Option StatePatch)
  | terminate (result : Json) (patch : Option StatePatch)
  | fail (error : String) (retryable : Bool)
  deriving DecidableEq

/-- An outcome and what it cost. -/
structure NodeExecutionV1 where
  outcome : NodeOutcomeV1
  tokens : ℕ
  costMicros : ℕ
  deriving DecidableEq

/-- What an executor is given. -/
structure NodeRequest where
  nodeId : NodeId
  state : StateSnapshot
  attempt : ℕ
  deriving DecidableEq

/-- The error of an attempt that may be retried. -/
def NodeOutcomeV1.retryableError : NodeOutcomeV1 → Option String
  | .fail error true => some error
  | _ => none

end Knolo.Core
