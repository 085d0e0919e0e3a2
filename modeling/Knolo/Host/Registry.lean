import Knolo.Host.Policy
import Knolo.Library.Method

/-!
# The tool registry

`knolo-agent/src/host/mod.rs`: the tools a host has registered, and the gate every call goes
through. A registry is over an arbitrary type of implementations (`ToolImplementation`), which
keep a state of their own.
-/

namespace Knolo.Host

open Core Library

/-- An implementation of a tool. -/
class ToolImplementation (T : Type) where
  /-- What the tool says it is. -/
  definition : T → ToolDefinition
  /-- Run it: the value and usage, and its state afterwards. -/
  execute : Json → T → Except CoreError (Json × ResourceUsageV1) × T

/-- A record of a call. -/
structure ToolAuditEventV1 where
  version : ℕ
  sequence : ℕ
  callId : String
  toolId : ToolId
  outcome : String
  deriving DecidableEq

/-- The tools of a host. -/
structure ToolRegistry (T : Type) where
  tools : Std.ExtTreeMap ToolId T
  auditSequence : ℕ

namespace ToolRegistry

variable {T : Type} [ToolImplementation T]

/-- No tools. -/
def empty : ToolRegistry T := { tools := ∅, auditSequence := 0 }

/-- Register a tool: the registry afterwards, and whether the tool is new. -/
def register (r : ToolRegistry T) (tool : T) : ToolRegistry T × Except CoreError Unit :=
  let id := (ToolImplementation.definition tool).id
  ({ r with tools := r.tools.insert id tool },
    if r.tools.contains id then .error (.host "duplicate tool") else .ok ())

/-- What is observed of a call. -/
inductive GateEvent (T : Type) where
  /-- An implementation was invoked. -/
  | invoked (tool : T) (arguments : Json)
  /-- The audit stream took a record. -/
  | audited (event : ToolAuditEventV1)

/-- What a call goes through works on: the tools and the ledger. -/
structure Gate (T : Type) where
  tools : Std.ExtTreeMap ToolId T
  ledger : BudgetLedger

/-- A computation of the gate. -/
abbrev GateM (T : Type) := Method (Gate T) (GateEvent T) CoreError Abort

/-- Reserve a call in the ledger. -/
def reserve (policy : CompiledPolicyV1) (tool : ToolDefinition) : GateM T Unit := fun g =>
  match g.ledger.reserveCall policy tool with
  | .ok ledger => .ok { result := .ok (), state := { g with ledger }, log := [] }
  | .error (.error e) => .ok { result := .error e, state := g, log := [] }
  | .error d => .error d

/-- Run a registered tool. -/
def run (id : ToolId) (tool : T) (arguments : Json) : GateM T (Json × ResourceUsageV1) := fun g =>
  let out := ToolImplementation.execute arguments tool
  .ok
    { result := out.1, state := { g with tools := g.tools.insert id out.2 }
      log := [.invoked tool arguments] }

/-- Charge the ledger for a call. -/
def charge (policy : CompiledPolicyV1) (tool : ToolDefinition) (usage : ResourceUsageV1) : GateM T Unit :=
  fun g =>
    let out := g.ledger.charge policy tool usage
    .ok { result := out.2, state := { g with ledger := out.1 }, log := [] }

/-- The gate a call goes through. -/
def gate (policy : CompiledPolicyV1) (call : ToolCallV1) : GateM T ToolResultV1 := do
  Method.ofExcept (validateCall call)
  let g ← Method.read
  match g.tools[call.toolId]? with
  | none =>
    Method.ofExcept (.error (.policyDenied
      { version := 1, code := .toolNotFound, toolId := some call.toolId, ns := none
        message := "tool is not registered" }))
  | some tool =>
    let definition := ToolImplementation.definition tool
    Method.ofExcept (authorize policy definition call)
    reserve policy definition
    let (value, usage) ← run call.toolId tool call.arguments
    charge policy definition usage
    if !validateSchema value definition.resultContract then
      Method.ofExcept (.error (deny .resultInvalid (some definition) "tool result violates contract"))
    else
      return { version := 1, callId := call.callId, toolId := call.toolId, value, usage }

/-- What executing a call works on: the registry and the ledger. -/
structure Desk (T : Type) where
  registry : ToolRegistry T
  ledger : BudgetLedger

/-- Execute a call and record it in the audit stream `emit`. -/
def execute (policy : CompiledPolicyV1) (call : ToolCallV1)
    (emit : ToolAuditEventV1 → Except CoreError Unit) :
    Method (Desk T) (GateEvent T) CoreError Abort ToolResultV1 := fun d => do
  let out ← gate policy call { tools := d.registry.tools, ledger := d.ledger }
  let sequence ← checkedAdd u64Max d.registry.auditSequence 1
  let event : ToolAuditEventV1 :=
    { version := 1, sequence, callId := call.callId, toolId := call.toolId
      outcome := if out.result.isOk then "executed" else "denied" }
  let state : Desk T :=
    { registry := { tools := out.state.tools, auditSequence := sequence }, ledger := out.state.ledger }
  match emit event with
  | .ok () => return { result := out.result, state, log := out.log ++ [.audited event] }
  | .error e => return { result := .error e, state, log := out.log }

end ToolRegistry

end Knolo.Host
