import Knolo.Builder.Definition
import Knolo.Builder.StableHash
import Knolo.Harness.Cbor
import Knolo.Library.JsonText

/-!
# Building and compiling an agent

`packages/agents/src/builder/index.ts`: what an author builds a graph with (`node`, `terminal`,
`transition`, `limits`), `defineAgent`, and `compile`, which hashes the graph as `JSON.stringify`
writes it.

A number of a graph is a literal: the one `JSON.stringify` writes for it. Handlers, and the types
of the state's values, play no part in a definition and are left out.
-/

namespace Knolo.Builder

open Core Script Library Library.Fallible Library.JsonText

/-! ### Building -/

/-- The paths of a state, and its identifier. -/
structure StateSchemaV1 where
  id : String
  paths : List String
  deriving DecidableEq

/-- A node as it is built. -/
structure NodeSpec extends NodeDefinitionV1 where
  capabilities : Option (List String) := none
  deriving DecidableEq

/-- What may be said of a node. -/
structure NodeOptions where
  reads : Option (List String) := none
  writes : Option (List String) := none
  capabilities : Option (List String) := none

/-- A pack an agent is bound to. -/
structure PackReference where
  version : ℕ := 1
  id : String
  hash : Option String := none
  capabilities : Option (List String) := none
  deriving DecidableEq

/-- `stateSchema`, from the keys of a shape. -/
def stateSchema (id : String) (keys : List String) : Except String StateSchemaV1 := do
  assertIdentifier id "state schema id"
  return { id := id, paths := keys.map fun key => if key.startsWith "/" then key else s!"/{key}" }

/-- `node`. -/
def node (id : String) (options : NodeOptions) : Except String NodeSpec := do
  assertIdentifier id "node id"
  return { id := id, terminal := false
           reads := (options.reads.getD []).map fun x => s!"/{x}"
           writes := (options.writes.getD []).map fun x => s!"/{x}"
           capabilities := options.capabilities }

/-- `terminal`. -/
def terminal (id : String) (options : NodeOptions) : Except String NodeSpec := do
  return { ← node id options with terminal := true }

/-- `transition`. -/
def transition (source route target : String) (id : Option String := none) :
    Except String TransitionDefinitionV1 := do
  let id := id.getD s!"{source}.{route}.{target}"
  assertIdentifier id "transition id"
  return { id := id, source := source, route := route, target := target }

/-- `Number.MAX_SAFE_INTEGER`. -/
def maxSafeInteger : Literal := { whole := 9007199254740991 }

/-- `limits`. -/
def limits (maxSteps maxTokens maxCostMicros timeoutMs : Option Literal := none) : ExecutionLimitsV1 where
  maxSteps := maxSteps.getD { whole := 100 }
  maxTokens := maxTokens.getD maxSafeInteger
  maxCostMicros := maxCostMicros.getD maxSafeInteger
  timeoutMs := timeoutMs.getD { whole := 30000 }

/-- What an agent is defined from. -/
structure AgentConfig where
  id : String
  state : StateSchemaV1
  nodes : List NodeSpec
  transitions : List TransitionDefinitionV1
  entry : String
  cycles : Option (List CycleDefinitionV1) := none
  limits : Option ExecutionLimitsV1 := none
  pack : Option PackReference := none

/-- An agent. -/
structure AgentDefinition where
  graph : GraphDefinitionV1
  schema : StateSchemaV1
  capabilities : List String
  pack : Option PackReference
  deriving DecidableEq

/-- Every path a node reads or writes is declared. -/
def validateGraphStatePaths (graph : GraphDefinitionV1) (schema : StateSchemaV1) : Except String Unit :=
  graph.nodes.forM fun n => (n.reads ++ n.writes).forM fun path =>
    ensure (path ∈ schema.paths) s!"node {n.id} references undeclared state path {path}"

/-- Every capability is granted by the pack, if that says what it grants. -/
def checkCapabilities (capabilities : List String) (pack : Option PackReference) : Except String Unit :=
  match pack.bind (·.capabilities) with
  | some granted =>
    ensure (capabilities.all granted.contains) "graph capability is not granted by pack"
  | none => .ok ()

/-- The graph of an agent. -/
def AgentConfig.graph (config : AgentConfig) : GraphDefinitionV1 where
  version := { whole := 1 }
  id := config.id
  stateSchema := config.state.id
  entry := config.entry
  nodes := config.nodes.map (·.toNodeDefinitionV1)
  transitions := config.transitions
  cycles := config.cycles.getD []
  limits := config.limits.getD (Builder.limits)

/-- `defineAgent`. -/
def defineAgent (config : AgentConfig) : Except String AgentDefinition := do
  validateDefinition config.graph
  validateGraphStatePaths config.graph config.state
  let capabilities := (config.nodes.flatMap fun n => n.capabilities.getD []).eraseDups
  checkCapabilities capabilities config.pack
  return { graph := config.graph, schema := config.state, capabilities := capabilities, pack := config.pack }

/-! ### Writing a graph -/

/-- The digits of a number. -/
def digits (n : ℕ) : List Char := Nat.toDigits 10 n

/-- A literal, as JavaScript writes numbers. -/
def literal (l : Literal) : List Char :=
  (if l.negative then ['-'] else []) ++ digits l.whole ++
    (match l.fraction with
      | some ds => '.' :: ds.map fun d => Nat.digitChar d.val
      | none => []) ++
    match l.exponent with
      | some e => 'e' :: (if e < 0 then '-' else '+') :: digits e.natAbs
      | none => []

/-- A list of strings. -/
def strings (xs : List String) : Written := .array (xs.map .string)

/-- `true` or `false`. -/
def boolean (b : Bool) : Written := .token (if b then ['t', 'r', 'u', 'e'] else ['f', 'a', 'l', 's', 'e'])

/-- A node, as an object. -/
def NodeDefinitionV1.written (n : NodeDefinitionV1) : Written := .object
  [("id", .string n.id), ("terminal", boolean n.terminal), ("reads", strings n.reads),
    ("writes", strings n.writes)]

/-- A transition, as an object. -/
def TransitionDefinitionV1.written (t : TransitionDefinitionV1) : Written := .object
  [("id", .string t.id), ("from", .string t.source), ("route", .string t.route), ("to", .string t.target)]

/-- A cycle, as an object: its members in the order in which the author wrote them. -/
def CycleDefinitionV1.written (c : CycleDefinitionV1) : Written :=
  let nodes := ("nodes", strings c.nodes)
  let maxIterations := ("max_iterations", .token (literal c.maxIterations))
  .object (if c.iterationsFirst then [maxIterations, nodes] else [nodes, maxIterations])

/-- The limits, as an object. -/
def ExecutionLimitsV1.written (l : ExecutionLimitsV1) : Written := .object
  [("max_steps", .token (literal l.maxSteps)), ("max_tokens", .token (literal l.maxTokens)),
    ("max_cost_micros", .token (literal l.maxCostMicros)), ("timeout_ms", .token (literal l.timeoutMs))]

/-- A graph, as an object. -/
def GraphDefinitionV1.written (g : GraphDefinitionV1) : Written := .object
  [("version", .token (literal g.version)), ("id", .string g.id), ("state_schema", .string g.stateSchema),
    ("entry", .string g.entry), ("nodes", .array (g.nodes.map (·.written))),
    ("transitions", .array (g.transitions.map (·.written))), ("cycles", .array (g.cycles.map (·.written))),
    ("limits", g.limits.written)]

/-- The bytes of a value as both JSON libraries write it: in UTF-8, without white space, with the
same escapes. -/
def bytes (v : Written) : List UInt8 := Harness.utf8 (String.ofList (text Json.escape v))

/-! ### Compiling -/

/-- An agent and the hash of its graph. -/
structure CompiledAgentDefinition extends AgentDefinition where
  hash : String

/-- `compile`. -/
def compile (definition : AgentDefinition) : Except String CompiledAgentDefinition := do
  validateDefinition definition.graph
  validateGraphStatePaths definition.graph definition.schema
  checkCapabilities definition.capabilities definition.pack
  return { definition with hash := StableHash.stableHash (bytes definition.graph.written) }

/-- An agent that was defined compiles. -/
theorem compile_of_defineAgent {config : AgentConfig} {a : AgentDefinition} (h : defineAgent config = .ok a) :
    compile a = .ok { a with hash := StableHash.stableHash (bytes a.graph.written) } := by
  obtain ⟨⟨⟩, h1, h⟩ := bind_eq_ok.mp h
  obtain ⟨⟨⟩, h2, h⟩ := bind_eq_ok.mp h
  obtain ⟨⟨⟩, h3, h⟩ := bind_eq_ok.mp h
  cases h
  simp only [compile, h1, h2, h3, ok_bind]
  rfl

end Knolo.Builder
