import Knolo.Core.Pack
import Knolo.Core.Execution

/-!
# Definition bundles and limits

`definition.rs` and `limits.rs` of `knolo-agent-icp`, with the authorities and envelopes of
`knolo-agent-core/src/handoff`: what the canister is given as JSON text, and the checks it is
put through.

The text layer is a parameter, `Codec`: it reads the four kinds of document, writes values and
errors, and computes the digests. A `LoadedDefinition` carries the proof that its compiled graph is the graph
of its bundle.
-/

namespace Knolo.Icp

open Core Library.Fallible

/-! ### Host configuration -/

/-- How the host resolves effects. -/
structure HostConfigV1 where
  autoContinue : Bool := false
  timerNs : ℕ := 1000000000
  llmEnabled : Bool := true
  llmModel : String := "llama3.1:8b"
  knowledgeCanister : Option String := none
  allowHttpsTools : Bool := false
  maxEffectRounds : ℕ := 8
  deriving DecidableEq

/-! ### Bundles -/

/-- What `load_definition` accepts. -/
structure AgentDefinitionBundleV1 where
  version : ℕ
  implementationId : String
  packHash : String := "none"
  policyHash : String := "none"
  contractHash : String := "none"
  graph : GraphDefinitionV1
  schema : StateSchemaV1
  pack : Option PackDeclarationV1 := none
  host : HostConfigV1 := {}

/-- A set of capabilities and namespaces, and bounds. -/
structure AuthorityV1 where
  capabilities : Std.ExtTreeSet String
  namespaces : Std.ExtTreeSet String
  maxSteps : ℕ
  maxCostMicros : ℕ

/-- The delegation of a part of an authority to a graph. -/
structure HandoffEnvelopeV1 where
  version : ℕ
  destination : GraphId
  stateProjection : Std.ExtTreeMap String String
  authorityProjection : AuthorityV1
  returnContract : String

/-- The text layer. -/
structure Codec where
  /-- `serde_json::from_str` at a bundle. -/
  parseBundle : String → Except String AgentDefinitionBundleV1
  /-- `serde_json::from_str` at a snapshot. -/
  parseState : String → Except String StateSnapshot
  /-- `serde_json::from_str` at an envelope. -/
  parseEnvelope : String → Except String HandoffEnvelopeV1
  /-- `serde_json::from_str` at an authority. -/
  parseAuthority : String → Except String AuthorityV1
  /-- `serde_json::to_string` of a value. -/
  write : Json → String
  /-- `Display` of an error, its debug text. -/
  display : CoreError → String
  /-- The hash of a graph. -/
  digest : GraphDefinitionV1 → String
  /-- `Sha256::digest`, in hexadecimal. -/
  sha256 : String → String

/-- `char::is_whitespace`. -/
def isWhitespace (c : Char) : Bool :=
  (0x09 ≤ c.toNat && c.toNat ≤ 0x0d) || c.toNat = 0x20 || c.toNat = 0x85 || c.toNat = 0xa0 ||
    c.toNat = 0x1680 || (0x2000 ≤ c.toNat && c.toNat ≤ 0x200a) || c.toNat = 0x2028 ||
    c.toNat = 0x2029 || c.toNat = 0x202f || c.toNat = 0x205f || c.toNat = 0x3000

/-- The largest definition that is read, in bytes. -/
def maxDefinitionBytes : ℕ := 2 * 1024 * 1024

namespace AgentDefinitionBundleV1

/-- Read a bundle. -/
def parse (codec : Codec) (json : String) : Except CoreError AgentDefinitionBundleV1 := do
  ensure (!json.isEmpty) (.host "definition JSON was empty")
  ensure (json.utf8ByteSize ≤ maxDefinitionBytes)
    (.host s!"definition is too large: {json.utf8ByteSize} bytes exceeds the {maxDefinitionBytes} byte limit")
  let bundle ← (codec.parseBundle json).mapError fun e => .host s!"invalid definition JSON: {e}"
  ensure (bundle.version = 1) (.host s!"unsupported definition version {bundle.version}")
  ensure (!bundle.implementationId.toList.all isWhitespace) (.host "implementation_id must be non-empty")
  ensure (bundle.schema.id.text = bundle.graph.stateSchema.text)
    (.host "schema.id must match graph.state_schema")
  return bundle

/-- The policy of the pack, if there is one. -/
def compilePolicy (b : AgentDefinitionBundleV1) : Except CoreError (Option CompiledPolicyV1) :=
  match b.pack with
  | some pack => (pack.compile.mapError .packLoad).map some
  | none => .ok none

end AgentDefinitionBundleV1

/-- What compiling a graph returns is that graph. -/
theorem definition_of_compile {digest : GraphDefinitionV1 → String} {g : GraphDefinitionV1}
    {c : CompiledGraphV1} (h : g.compile digest = .ok c) : c.definition = g := by
  unfold GraphDefinitionV1.compile at h
  split at h
  · cases h
  · cases h
    rfl

/-- A bundle that was loaded. -/
structure LoadedDefinition where
  bundle : AgentDefinitionBundleV1
  compiled : CompiledGraphV1
  nodeImplementationHash : String
  definitionJson : String
  policy : Option CompiledPolicyV1
  /-- The graph that is run is the one of the bundle. -/
  graph_eq : compiled.definition = bundle.graph

/-- Read a bundle and compile it. -/
def AgentDefinitionBundleV1.load (codec : Codec) (json : String) : Except CoreError LoadedDefinition := do
  let bundle ← parse codec json
  match h : bundle.graph.compile codec.digest with
  | .error e => .error e
  | .ok compiled =>
    let policy ← bundle.compilePolicy
    return {
      bundle, compiled, policy
      nodeImplementationHash := codec.sha256 bundle.implementationId
      definitionJson := json
      graph_eq := definition_of_compile h }

/-- What is kept of a definition beside it. -/
structure PackMetaV1 where
  packHash : String
  policyHash : String
  contractHash : String
  graphId : String
  graphHash : String
  implementationId : String
  packId : Option String
  deriving DecidableEq

/-- The identity of a loaded definition. -/
def LoadedDefinition.packMeta (d : LoadedDefinition) : PackMetaV1 :=
  { packHash := d.bundle.packHash, policyHash := d.bundle.policyHash
    contractHash := d.bundle.contractHash, graphId := d.compiled.definition.id.text
    graphHash := d.compiled.hash, implementationId := d.bundle.implementationId
    packId := d.bundle.pack.map (·.id.text) }

/-! ### Limits -/

/-- The limits of the host. -/
structure RuntimeLimitsV1 where
  maxConcurrentExecutions : ℕ := 32
  maxEventsPerExecution : ℕ := 10000
  maxExecutionIdLen : ℕ := 128
  maxStateBytes : ℕ := 512 * 1024
  maxHandoffBytes : ℕ := 256 * 1024
  maxExecutionRecordBytes : ℕ := 2 * 1024 * 1024
  requireControllerForRuns : Bool := false
  allowedCallers : List String := []
  minCyclesReserve : ℕ := 0
  version : ℕ := 1
  deriving DecidableEq

/-- The characters of an execution id. -/
def executionIdChar (c : Char) : Bool := c.isAlphanum || c = '-' || c = '_' || c = '.'

namespace RuntimeLimitsV1

variable (l : RuntimeLimitsV1)

/-- The id of a new execution. -/
def validateExecutionId (executionId : String) : Except String Unit := do
  ensure (!executionId.isEmpty) "execution_id must be non-empty"
  ensure (executionId.utf8ByteSize ≤ l.maxExecutionIdLen)
    s!"execution_id length {executionId.utf8ByteSize} exceeds max {l.maxExecutionIdLen}"
  ensure (executionId.toList.all executionIdChar)
    "execution_id may only contain ASCII alphanumerics, '-', '_', '.'"

/-- The size of an initial state. -/
def validateStateBytes (stateJson : String) : Except String Unit :=
  ensure (stateJson.utf8ByteSize ≤ l.maxStateBytes)
    s!"state JSON size {stateJson.utf8ByteSize} exceeds max {l.maxStateBytes}"

/-- The size of an envelope. -/
def validateHandoffBytes (envelopeJson : String) : Except String Unit :=
  ensure (envelopeJson.utf8ByteSize ≤ l.maxHandoffBytes)
    s!"handoff envelope size {envelopeJson.utf8ByteSize} exceeds max {l.maxHandoffBytes}"

/-- Room for one more execution. -/
def checkCapacity (currentExecutions : ℕ) : Except String Unit :=
  ensure (currentExecutions < l.maxConcurrentExecutions)
    s!"max concurrent executions reached ({l.maxConcurrentExecutions})"

/-- Keep the newest events. -/
def truncateEventsIfNeeded {α : Type} (events : List α) : List α :=
  events.drop (events.length - l.maxEventsPerExecution)

end RuntimeLimitsV1

/-! ### Handoffs -/

/-- Is the authority within the parent's and the pack's? -/
def AuthorityV1.narrowedBy (a parent pack : AuthorityV1) : Except CoreError Unit :=
  ensure (a.capabilities.all parent.capabilities.contains && a.capabilities.all pack.capabilities.contains &&
      a.namespaces.all parent.namespaces.contains && a.namespaces.all pack.namespaces.contains &&
      a.maxSteps ≤ min parent.maxSteps pack.maxSteps &&
      a.maxCostMicros ≤ min parent.maxCostMicros pack.maxCostMicros)
    (.authorityEscalation "handoff authority exceeds parent execution or pack policy")

/-- The checks of an envelope. -/
def HandoffEnvelopeV1.validate (e : HandoffEnvelopeV1) (parent pack : AuthorityV1) :
    Except CoreError Unit := do
  ensure (e.version = 1 ∧ !e.returnContract.isEmpty) (.invalidGraph "invalid handoff contract")
  e.authorityProjection.narrowedBy parent pack

/-- The record of an accepted handoff. -/
structure HandoffRecordV1 where
  version : ℕ
  handoffId : String
  executionId : String
  destination : String
  returnContract : String
  parentAuthority : AuthorityV1
  childAuthority : AuthorityV1
  status : String
  peerCanister : Option String
  message : String

/-- The authority of a pack under the limits of a graph. -/
def authorityFromPack (pack : Option PackDeclarationV1) (graphMaxSteps graphMaxCostMicros : ℕ) :
    AuthorityV1 :=
  match pack with
  | some p =>
    { capabilities := .ofList (p.capabilityBindings.keys.map (·.text))
      namespaces := .ofList (p.namespaces.toList.map (·.text))
      maxSteps := graphMaxSteps, maxCostMicros := graphMaxCostMicros }
  | none =>
    { capabilities := ∅, namespaces := ∅, maxSteps := graphMaxSteps, maxCostMicros := graphMaxCostMicros }

/-- Read an envelope and check it. -/
def parseAndValidateEnvelope (codec : Codec) (envelopeJson : String) (parent pack : AuthorityV1)
    (limits : RuntimeLimitsV1) : Except CoreError HandoffEnvelopeV1 := do
  (limits.validateHandoffBytes envelopeJson).mapError .host
  let envelope ← (codec.parseEnvelope envelopeJson).mapError fun e =>
    .host s!"invalid handoff envelope JSON: {e}"
  envelope.validate parent pack
  return envelope

/-- Read an authority. -/
def parseAuthority (codec : Codec) (json : String) : Except CoreError AuthorityV1 :=
  (codec.parseAuthority json).mapError fun e => .host s!"invalid authority JSON: {e}"

/-- Read a state. -/
def parseState (codec : Codec) (json : String) : Except CoreError StateSnapshot :=
  (codec.parseState json).mapError fun e => .host s!"invalid state JSON: {e}"

end Knolo.Icp
