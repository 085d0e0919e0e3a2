import Knolo.Core.Graph
import Knolo.Script.Values

/-!
# Graph definitions in the script

`packages/agents/src/builder/index.ts`: a graph as the TypeScript package has it, with strings
for identifiers and numbers as they are written in JSON, and its validation
(`validateDefinition`). `GraphDefinitionV1.deserialize` is what the Rust core reads from the same
JSON.
-/

namespace Knolo.Builder

open Core Script Library Library.Fallible

/-- The bounds of an execution. -/
structure ExecutionLimitsV1 where
  maxSteps : Literal
  maxTokens : Literal
  maxCostMicros : Literal
  timeoutMs : Literal
  deriving DecidableEq

/-- A node: what it may read and write. -/
structure NodeDefinitionV1 where
  id : String
  terminal : Bool
  reads : List String
  writes : List String
  deriving DecidableEq

/-- A transition. -/
structure TransitionDefinitionV1 where
  id : String
  source : String
  route : String
  target : String
  deriving DecidableEq

/-- A declared cycle, as its author wrote it. -/
structure CycleDefinitionV1 where
  nodes : List String
  maxIterations : Literal
  /-- The author wrote `max_iterations` before `nodes`. -/
  iterationsFirst : Bool := false
  deriving DecidableEq

/-- A graph. -/
structure GraphDefinitionV1 where
  version : Literal
  id : String
  stateSchema : String
  entry : String
  nodes : List NodeDefinitionV1
  transitions : List TransitionDefinitionV1
  cycles : List CycleDefinitionV1
  limits : ExecutionLimitsV1
  deriving DecidableEq

/-! ### Validation in the script -/

/-- The pattern of identifiers: letters, digits and the core's signs, at most 128 of them. -/
def identifier (value : String) : Bool :=
  1 ≤ value.toList.length && value.toList.length ≤ 128 && value.toList.all identifierChar

/-- `assertIdentifier`. -/
def assertIdentifier (value label : String) : Except String Unit :=
  ensure (identifier value) s!"{label} is not a valid identifier: {value}"

/-- A safe integer above zero. -/
def positive (l : Literal) : Bool :=
  match l.number.safeInteger with
  | some z => 0 < z
  | none => false

/-- What a route is remembered by. -/
def TransitionDefinitionV1.key (t : TransitionDefinitionV1) : String := s!"{t.source}\x00{t.route}"

/-- The endpoints of a transition are declared, and its route is new. -/
def checkTransition (ids routes : Finset String) (t : TransitionDefinitionV1) :
    Except String (Finset String) := do
  ensure (t.source ∈ ids ∧ t.target ∈ ids) "transition endpoint is not declared"
  ensure (t.key ∉ routes) "duplicate route from node"
  return insert t.key routes

/-- The edges of a graph. -/
def GraphDefinitionV1.edges (g : GraphDefinitionV1) : List (String × String) :=
  g.transitions.map fun t => (t.source, t.target)

/-- `validateDefinition`. -/
def validateDefinition (g : GraphDefinitionV1) : Except String Unit := do
  assertIdentifier g.id "graph id"
  ensure (g.version.number = .finite 1) "unsupported graph version"
  ensure (positive g.limits.maxSteps ∧ positive g.limits.timeoutMs) "limits must be positive integers"
  let ids := (g.nodes.map (·.id)).toFinset
  ensure (ids.card = g.nodes.length) "duplicate node id"
  ensure (g.entry ∈ ids) "entry node is not declared"
  ensure (g.nodes.any (·.terminal)) "at least one terminal node is required"
  let _ ← g.transitions.foldlM (checkTransition ids) ∅
  ensure ((Reach.saturate g.edges (g.transitions.length + 1) {g.entry}).card = ids.card) "unreachable node"

/-! ### What the core reads -/

/-- An unsigned integer up to `max`. -/
def unsigned (max : ℕ) (l : Literal) : Option ℕ :=
  if l.isInteger ∧ l.negative = false ∧ l.whole ≤ max then some l.whole else none

/-- An identifier, by its constructor. -/
def readIdentifier (value : String) : Option Identifier := (Identifier.new value).toOption

/-- A node. -/
def NodeDefinitionV1.deserialize (n : NodeDefinitionV1) : Option Core.NodeDefinitionV1 := do
  return { id := ← readIdentifier n.id, terminal := n.terminal
           reads := .ofList n.reads, writes := .ofList n.writes }

/-- A transition. -/
def TransitionDefinitionV1.deserialize (t : TransitionDefinitionV1) : Option Core.TransitionDefinitionV1 := do
  return { id := ← readIdentifier t.id, source := ← readIdentifier t.source
           route := t.route, target := ← readIdentifier t.target }

/-- A cycle. -/
def CycleDefinitionV1.deserialize (c : CycleDefinitionV1) : Option Core.CycleDefinitionV1 := do
  return { nodes := .ofList (← c.nodes.mapM readIdentifier), maxIterations := ← unsigned u32Max c.maxIterations }

/-- The limits. -/
def ExecutionLimitsV1.deserialize (l : ExecutionLimitsV1) : Option Core.ExecutionLimitsV1 := do
  return { maxSteps := ← unsigned u64Max l.maxSteps, maxTokens := ← unsigned u64Max l.maxTokens
           maxCostMicros := ← unsigned u64Max l.maxCostMicros, timeoutMs := ← unsigned u64Max l.timeoutMs }

/-- A graph. -/
def GraphDefinitionV1.deserialize (g : GraphDefinitionV1) : Option Core.GraphDefinitionV1 := do
  return { version := ← unsigned 65535 g.version, id := ← readIdentifier g.id
           stateSchema := ← readIdentifier g.stateSchema, entry := ← readIdentifier g.entry
           nodes := ← g.nodes.mapM NodeDefinitionV1.deserialize
           transitions := ← g.transitions.mapM TransitionDefinitionV1.deserialize
           cycles := ← g.cycles.mapM CycleDefinitionV1.deserialize
           limits := ← g.limits.deserialize }

/-- The script accepts a graph. -/
def GraphDefinitionV1.ScriptAccepts (g : GraphDefinitionV1) : Prop := validateDefinition g = .ok ()

/-- The core accepts a graph: it reads it and finds it valid. -/
def GraphDefinitionV1.CoreAccepts (g : GraphDefinitionV1) : Prop :=
  ∃ c, g.deserialize = some c ∧ c.validate = .ok ()

end Knolo.Builder
