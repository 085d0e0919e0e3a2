import Knolo.Core.Contract
import Knolo.Core.Json

/-!
# Packs and tools

`pack/mod.rs` and `tool/mod.rs` of `knolo-agent-core`: the authority a pack declares, the
compiled policy a host enforces, and the records of a tool call.
-/

namespace Knolo.Core

/-! ### Tools -/

/-- What tools may use in one execution. -/
structure ResourceBudgetV1 where
  maxCalls : ℕ
  maxUnits : ℕ
  maxDurationMs : ℕ
  deriving DecidableEq

/-- What tools have used. -/
structure ResourceUsageV1 where
  calls : ℕ
  units : ℕ
  durationMs : ℕ
  deriving DecidableEq

/-- The description of a tool. -/
structure ToolDefinition where
  version : ℕ
  id : ToolId
  ns : NamespaceId
  capability : CapabilityId
  argumentContract : Json
  resultContract : Json
  deriving DecidableEq

/-- A request to run a tool. -/
structure ToolCallV1 where
  version : ℕ
  callId : String
  toolId : ToolId
  arguments : Json
  deriving DecidableEq

/-- The result of a tool call. -/
structure ToolResultV1 where
  version : ℕ
  callId : String
  toolId : ToolId
  value : Json
  usage : ResourceUsageV1
  deriving DecidableEq

/-! ### Packs -/

/-- The authority a pack declares. -/
structure PackDeclarationV1 where
  version : ℕ
  id : PackId
  tools : Std.ExtTreeSet ToolId
  namespaces : Std.ExtTreeSet NamespaceId
  argumentConstraints : Std.ExtTreeMap ToolId Json
  budget : ResourceBudgetV1
  capabilityBindings : Std.ExtTreeMap CapabilityId String

/-- The authority a host enforces. -/
structure CompiledPolicyV1 where
  allowedTools : Std.ExtTreeSet ToolId
  namespaces : Std.ExtTreeSet NamespaceId
  constraints : Std.ExtTreeMap ToolId Json
  budget : ResourceBudgetV1
  bindings : Std.ExtTreeMap CapabilityId String

/-- Compile a declaration. -/
def PackDeclarationV1.compile (p : PackDeclarationV1) : Except String CompiledPolicyV1 :=
  if p.version ≠ 1 ∨ p.budget.maxCalls = 0 then .error "unsupported pack or zero call budget"
  else if p.argumentConstraints.keys.any fun t => !p.tools.contains t then
    .error "constraint references undeclared tool"
  else
    .ok { allowedTools := p.tools, namespaces := p.namespaces, constraints := p.argumentConstraints
          budget := p.budget, bindings := p.capabilityBindings }

namespace CompiledPolicyV1

variable (p : CompiledPolicyV1)

/-- Is the tool granted? -/
def allowsTool (t : ToolId) : Bool := p.allowedTools.contains t

/-- Is the namespace granted? -/
def allowsNamespace (n : NamespaceId) : Bool := p.namespaces.contains n

/-- The constraint on a tool's arguments. -/
def constraint (t : ToolId) : Option Json := p.constraints[t]?

/-- What a capability is bound to. -/
def binding (c : CapabilityId) : Option String := p.bindings[c]?

end CompiledPolicyV1

end Knolo.Core
