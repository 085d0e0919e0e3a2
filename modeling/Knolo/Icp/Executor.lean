import Knolo.Runtime.Surroundings

/-!
# The built-in node implementations

`executor.rs` of `knolo-agent-icp`: the executor of the canister. It is chosen by the
implementation id of the definition, counts down a budget of node executions, and reads the
host effects that were injected for it.

* `DeterministicExecutor.execute` — the executor, as the scheduler calls it.
-/

namespace Knolo.Icp

open Core Knolo.Runtime

/-- The executor of the canister. -/
structure DeterministicExecutor where
  implementationId : String
  /-- Node executions that are left before the run is suspended. -/
  remainingSteps : Option ℕ
  /-- Has a human approved? -/
  hitlApproved : Bool
  /-- Results of host effects, by effect. -/
  effectCache : Std.ExtTreeMap String Json

/-! ### Outcomes -/

/-- Continue, writing `sets`. -/
def continued (r : NodeRequest) (sets : List (String × Json)) (tokens costMicros : ℕ) : NodeExecutionV1 :=
  { outcome := .continue { baseRevision := r.state.revision, operations := .ofList (sets.map fun s => (s.1, PatchOperation.set s.2)) }
    tokens, costMicros }

/-- Terminate with a result. -/
def terminated (result : Json) (tokens costMicros : ℕ) : NodeExecutionV1 :=
  { outcome := .terminate result none, tokens, costMicros }

/-- Wait for the host, at no cost. -/
def awaiting (reason : String) : NodeExecutionV1 :=
  { outcome := .suspend reason none, tokens := 0, costMicros := 0 }

/-- A node the implementation does not know. -/
def noBehavior (implementation node : String) : CoreError :=
  .host s!"{implementation} has no behavior for node '{node}'"

/-- `n + 1` on `u64`, which wraps in a release build. -/
def wrappingSucc (n : ℕ) : ℕ := (n + 1) % (u64Max + 1)

/-- A number in JSON. -/
def jsonU64 (n : ℕ) : Json := .number (.posInt n)

/-- What a pointer leads to, or `null`. -/
def pointerOrNull (v : Json) (p : String) : Json := (v.pointer p).getD .null

/-- A number a result reports of itself, or a default. -/
def reported (result : Json) (key : String) (default : ℕ) : ℕ := ((result.get key).bind Json.asU64).getD default

/-! ### Implementations -/

/-- `portable-counter-v1`. -/
def portableCounter (r : NodeRequest) : Except CoreError NodeExecutionV1 :=
  match r.nodeId.text with
  | "increment" =>
    let count := ((r.state.value.pointer "/count").bind Json.asU64).getD 0
    .ok (continued r [("/count", jsonU64 (wrappingSucc count))] 1 1)
  | "done" =>
    .ok (terminated
      (.object [("count", pointerOrNull r.state.value "/count"), ("ok", .bool true)]) 1 1)
  | id => .error (noBehavior "portable-counter-v1" id)

/-- `a-b-terminate-v1`. -/
def aBTerminate (r : NodeRequest) : Except CoreError NodeExecutionV1 :=
  match r.nodeId.text with
  | "a" => .ok (continued r [("/n", jsonU64 (wrappingSucc r.state.revision))] 1 1)
  | "b" => .ok (terminated (.string "ok") 1 1)
  | id => .error (noBehavior "a-b-terminate-v1" id)

/-- `suspend-demo-v1`. -/
def suspendDemo (r : NodeRequest) (hitlApproved : Bool) : Except CoreError NodeExecutionV1 :=
  match r.nodeId.text with
  | "work" => .ok (continued r [("/phase", .string "worked")] 1 1)
  | "await_human" =>
    if hitlApproved then .ok (continued r [("/phase", .string "approved")] 1 1)
    else .ok (awaiting "hitl_approval")
  | "finish" => .ok (terminated (.object [("approved", .bool true)]) 1 1)
  | id => .error (noBehavior "suspend-demo-v1" id)

/-- `host-effects-v1`: each effect node waits until its result was injected. -/
def hostEffects (r : NodeRequest) (cache : Std.ExtTreeMap String Json) : Except CoreError NodeExecutionV1 :=
  match r.nodeId.text with
  | "prepare" => .ok (continued r [("/phase", .string "prepared")] 0 0)
  | "llm" =>
    match cache["llm"]? with
    | some result =>
      .ok (continued r [("/phase", .string "llm_done"), ("/llm_result", result)]
        (reported result "tokens" 8) (reported result "cost_micros" 100))
    | none => .ok (awaiting "await_llm")
  | "tool" =>
    match cache["tool"]? with
    | some result =>
      .ok (continued r [("/phase", .string "tool_done"), ("/tool_result", result)] 0
        (reported result "cost_micros" 10))
    | none => .ok (awaiting "await_tool")
  | "retrieve" =>
    match cache["retrieve"]? with
    | some result =>
      .ok (continued r [("/phase", .string "retrieve_done"), ("/retrieval_result", result)] 0 5)
    | none => .ok (awaiting "await_retrieve")
  | "done" =>
    .ok (terminated
      (.object
        [("llm", pointerOrNull r.state.value "/llm_result"), ("ok", .bool true),
          ("phase", pointerOrNull r.state.value "/phase"),
          ("retrieval", pointerOrNull r.state.value "/retrieval_result"),
          ("tool", pointerOrNull r.state.value "/tool_result")]) 0 0)
  | id => .error (noBehavior "host-effects-v1" id)

namespace DeterministicExecutor

/-- `consume_step_budget`. -/
def consumeStepBudget (x : DeterministicExecutor) : DeterministicExecutor :=
  { x with remainingSteps := x.remainingSteps.map (· - 1) }

/-- The implementation the executor was made for. -/
def implementation (x : DeterministicExecutor) (r : NodeRequest) : Except CoreError NodeExecutionV1 :=
  match x.implementationId with
  | "portable-counter-v1" => portableCounter r
  | "a-b-terminate-v1" => aBTerminate r
  | "suspend-demo-v1" => suspendDemo r x.hitlApproved
  | "host-effects-v1" => hostEffects r x.effectCache
  | id => .error (.host s!"unknown implementation_id '{id}'")

/-- Execute a node, or suspend the run when its slice is used up. -/
def execute : Executor DeterministicExecutor := fun r x =>
  if x.remainingSteps = some 0 then (.ok (awaiting "step_slice"), x)
  else (x.implementation r, x.consumeStepBudget)

end DeterministicExecutor

/-- Suspensions the host can resolve by itself. -/
def isHostEffectSuspend (reason : String) : Bool :=
  reason = "await_llm" || reason = "await_tool" || reason = "await_retrieve" || reason = "step_slice"

end Knolo.Icp
