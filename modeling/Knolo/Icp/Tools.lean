import Knolo.Host.Registry
import Knolo.Icp.Definition

/-!
# Budget and tools of the canister

`budget.rs` and `tools_host.rs` of `knolo-agent-icp`: the counters the canister keeps of what its
executions have used, and the two tools it has built in, behind the gate of the host.
-/

namespace Knolo.Icp

open Core Library Library.Fallible Host

/-! ### The budget -/

/-- What was used. -/
structure HostBudgetSnapshotV1 where
  toolCalls : ℕ
  toolUnits : ℕ
  toolDurationMs : ℕ
  llmCalls : ℕ
  retrievalCalls : ℕ
  effectRounds : ℕ
  lastCyclesBalance : Option ℕ
  cyclesSpentObserved : ℕ
  knoloCostMicros : ℕ
  knoloTokens : ℕ
  knoloSteps : ℕ
  deriving DecidableEq

/-- The ledger of the tools, and the counters. -/
structure HostBudgetTracker where
  ledger : BudgetLedger
  snapshot : HostBudgetSnapshotV1
  deriving DecidableEq

namespace HostBudgetTracker

/-- Nothing used. -/
def empty : HostBudgetTracker where
  ledger := .empty
  snapshot :=
    { toolCalls := 0, toolUnits := 0, toolDurationMs := 0, llmCalls := 0, retrievalCalls := 0
      effectRounds := 0, lastCyclesBalance := none, cyclesSpentObserved := 0
      knoloCostMicros := 0, knoloTokens := 0, knoloSteps := 0 }

variable (b : HostBudgetTracker)

/-- Count the usage of a tool. -/
def noteToolUsage (calls units durationMs : ℕ) : HostBudgetTracker :=
  { b with snapshot := { b.snapshot with
      toolCalls := satAdd b.snapshot.toolCalls calls
      toolUnits := satAdd b.snapshot.toolUnits units
      toolDurationMs := satAdd b.snapshot.toolDurationMs durationMs } }

/-- Count a call of the language model. -/
def noteLlm (tokens costMicros : ℕ) : HostBudgetTracker :=
  { b with snapshot := { b.snapshot with
      llmCalls := satAdd b.snapshot.llmCalls 1
      knoloTokens := satAdd b.snapshot.knoloTokens tokens
      knoloCostMicros := satAdd b.snapshot.knoloCostMicros costMicros } }

/-- Count a retrieval. -/
def noteRetrieval (costMicros : ℕ) : HostBudgetTracker :=
  { b with snapshot := { b.snapshot with
      retrievalCalls := satAdd b.snapshot.retrievalCalls 1
      knoloCostMicros := satAdd b.snapshot.knoloCostMicros costMicros } }

/-- Count a round of the effect loop. -/
def noteEffectRound : HostBudgetTracker :=
  { b with snapshot := { b.snapshot with effectRounds := satAdd b.snapshot.effectRounds 1 } }

/-- Observe the balance of cycles around an effect; the sum saturates on `u128`. -/
def noteCyclesDelta (before after : ℕ) : HostBudgetTracker :=
  { b with snapshot := { b.snapshot with
      lastCyclesBalance := some after
      cyclesSpentObserved :=
        if after ≤ before then min (b.snapshot.cyclesSpentObserved + (before - after)) (2 ^ 128 - 1)
        else b.snapshot.cyclesSpentObserved } }

/-- Take over the counters of an execution. -/
def syncRunTotals (steps tokens costMicros : ℕ) : HostBudgetTracker :=
  { b with snapshot := { b.snapshot with
      knoloSteps := steps
      knoloTokens := max b.snapshot.knoloTokens tokens
      knoloCostMicros := max b.snapshot.knoloCostMicros costMicros } }

end HostBudgetTracker

/-! ### The tools -/

/-- An identifier of a built-in tool. -/
abbrev builtinId (text : String) (h : validIdentifier text = true := by exact Eq.refl true) : Identifier := ⟨text, h⟩

/-- A contract of objects. -/
def objectContract (properties : List (String × String)) (required : List String) : Json :=
  .object
    [("properties", .object (properties.map fun p => (p.1, .object [("type", .string p.2)]))),
      ("required", .array (required.map .string)), ("type", .string "object")]

/-- `EchoTool`. -/
def echoDefinition : ToolDefinition where
  version := 1
  id := builtinId "echo"
  ns := builtinId "tools"
  capability := builtinId "echo"
  argumentContract := objectContract [("message", "string")] ["message"]
  resultContract := objectContract [("echo", "string")] ["echo"]

/-- `HttpsGetTool`. -/
def httpsGetDefinition : ToolDefinition where
  version := 1
  id := builtinId "https_get"
  ns := builtinId "tools"
  capability := builtinId "https"
  argumentContract := objectContract [("url", "string")] ["url"]
  resultContract := objectContract [("body", "string"), ("status", "number")] ["status", "body"]

/-- The tools of the canister. -/
inductive HostTool where
  | echo
  | httpsGet (allow : Bool) (canned : Option String)
  deriving DecidableEq

/-- A member that is a string, or the empty string. -/
def textArgument (arguments : Json) (key : String) : String :=
  ((arguments.get key).bind Json.asStr).getD ""

/-- Run a tool. -/
def HostTool.execute (arguments : Json) : HostTool → Except CoreError (Json × ResourceUsageV1)
  | .echo =>
    .ok (.object [("echo", .string (textArgument arguments "message"))],
      { calls := 1, units := 1, durationMs := 0 })
  | .httpsGet allow canned => do
    ensure allow (.host "https_get disabled by host config (allow_https_tools=false)")
    let url := textArgument arguments "url"
    ensure (!url.isEmpty) (.host "https_get requires url")
    match canned with
    | some body =>
      .ok (.object [("body", .string body), ("status", .number (.posInt 200))],
        { calls := 1, units := 10, durationMs := 1 })
    | none => .error (.host s!"https_get for '{url}' has no outcall result; inject body or use mock")

instance : ToolImplementation HostTool where
  definition
    | .echo => echoDefinition
    | .httpsGet _ _ => httpsGetDefinition
  execute arguments tool := (tool.execute arguments, tool)

/-- The registry of a loaded definition. -/
def defaultRegistry (allowHttps : Bool) : ToolRegistry HostTool :=
  let r := (ToolRegistry.empty.register HostTool.echo).1
  (r.register (.httpsGet allowHttps none)).1

/-- Execute a call of a tool; its audit stream is dropped. -/
def executeToolCall (codec : Codec) (policy : Option CompiledPolicyV1) (toolId : String)
    (arguments : Json) (callId : String) :
    Method (ToolRegistry.Desk HostTool) (ToolRegistry.GateEvent HostTool) CoreError Abort ToolResultV1 := do
  match policy with
  | none =>
    Method.ofExcept (.error (.host "tool execution requires a pack policy on the definition"))
  | some policy =>
    match Identifier.new toolId with
    | .error e => Method.ofExcept (.error (.host s!"invalid tool_id: {codec.display e}"))
    | .ok toolId =>
      ToolRegistry.execute policy { version := 1, callId, toolId, arguments } fun _ => .ok ()

end Knolo.Icp
