import Knolo.Builder.Agent
import Knolo.Builder.State
import Knolo.Replay.Values

/-!
# The TypeScript engine

`packages/agents/src/engine/typescript/index.ts`: how an agent runs (`runFrom`), with the check of a
state of `packages/agents/src/builder/index.ts` (`validateState`), here of values that JSON need not
have.

A handler is a function of what it is given; what it throws is its error. The clock is the sequence of
its readings, and a signal tells after how many of them it is aborted.

`runFrom_untimed` is the determinism of the engine: a run that is neither aborted nor timed out is,
up to its timestamps, the run in which the clock stands still.
-/

namespace Knolo.Replay

open Core (ValueType Json)
open Builder (GraphDefinitionV1 NodeDefinitionV1 Intrinsics validateDefinition utf16Length)
open Script Library.Fallible Library.Nearest

/-! ### Numbers -/

/-- The value of a number that is not infinite. -/
def finiteValue : JsNumber → ℚ
  | .finite q => q
  | _ => 0

/-- A number, rounded to double precision. -/
def rounded (q : ℚ) : JsNumber :=
  let m := nearest |q|
  if 2 ^ 1024 ≤ m then .infinite (decide (q < 0)) else .finite (if q < 0 then -m else m)

/-- `x + y`. -/
def plus : Number → Number → Number
  | none, _ | _, none => none
  | some (.infinite a), some (.infinite b) => if a = b then some (.infinite a) else none
  | some (.infinite a), _ => some (.infinite a)
  | _, some (.infinite b) => some (.infinite b)
  | some .negZero, some .negZero => some .negZero
  | some x, some y => some (rounded (finiteValue x + finiteValue y))

/-- `x > limit`. -/
def exceeds : Number → JsNumber → Bool
  | none, _ => false
  | some (.infinite negative), limit => !negative && limit ≠ .infinite false
  | some _, .infinite negative => negative
  | some x, limit => finiteValue limit < finiteValue x

/-! ### The state boundary -/

/-- The paths of a state, with their types, and those that must be there. -/
structure TypedStateSchema where
  id : String
  paths : List (String × ValueType)
  required : List String

/-- What a read has come to: a part of the state, or a built-in value. -/
inductive Reading (V : Type) where
  | state (v : Value)
  | outside (x : V)

/-- A property or an item of its own. -/
def ownProperty (v : Value) (key : String) : Option Value :=
  match v with
  | .object ks f => if key ∈ ks then some (f key) else none
  | .array items => (Json.parseIndex key.toList).bind fun i => items[i]?
  | _ => none

section State

variable (I : Intrinsics)

/-- What a value has besides its own properties. -/
def inherited (v : Value) (key : String) : Option I.Value :=
  match v with
  | .undefined | .null => none
  | .bool _ => I.prototype .bool key
  | .number _ => I.prototype .number key
  | .string s =>
    if key = "length" then some I.length
    else if ((Json.parseIndex key.toList).filter (· < utf16Length s)).isSome then some I.character
    else I.prototype .string key
  | .array _ => if key = "length" then some I.length else I.prototype .array key
  | .object .. => I.prototype .object key

/-- A read that may have come to `undefined`. -/
def Reading.of : Value → Option (Reading I.Value)
  | .undefined => none
  | v => some (.state v)

/-- One step of the reduction over the keys of a path; `none` is `undefined`. -/
def advance (current : Option (Reading I.Value)) (key : String) : Except String (Option (Reading I.Value)) :=
  match current with
  | none => .ok none
  | some (.state v) =>
    match ownProperty v key with
    | some w => .ok (Reading.of I w)
    | none => .ok ((inherited I v key).map .outside)
  | some (.outside x) => if I.type x = some .null then .ok none else (I.get x key).map (·.map .outside)

/-- `readPath`. -/
def readPath (value : Value) (path : String) : Except String (Option (Reading I.Value)) :=
  match Intrinsics.keys path with
  | none => .ok none
  | some ks => ks.foldlM (advance I) (Reading.of I value)

/-- `valueType`. -/
def valueType : Reading I.Value → Except String ValueType
  | .state v =>
    match v with
    | .undefined => .error "state must contain JSON values"
    | .null => .ok .null
    | .bool _ => .ok .bool
    | .number _ => .ok .number
    | .string _ => .ok .string
    | .array _ => .ok .array
    | .object .. => .ok .object
  | .outside x =>
    match I.type x with
    | some t => .ok t
    | none => .error "state must contain JSON values"

/-- A required path must not be `undefined`. -/
def checkRequired (value : Value) (path : String) : Except String Unit := do
  let item ← readPath I value path
  ensure item.isSome ("missing required state path " ++ path)

/-- A path that is not `undefined` must have its type. -/
def checkType (value : Value) (entry : String × ValueType) : Except String Unit := do
  match ← readPath I value entry.1 with
  | none => .ok ()
  | some item => do
    let type ← valueType I item
    ensure (type = entry.2) ("wrong state type at " ++ entry.1)

/-- `validateState`. -/
def validateState (schema : TypedStateSchema) (value : Value) : Except String Unit := do
  schema.required.forM (checkRequired I value)
  schema.paths.forM (checkType I value)

end State

/-! ### Agents -/

/-- What a handler is given. -/
structure NodeContext where
  state : Value
  attempt : ℕ
  resumeInput : Value

/-- A change of the state, or the function that computes it. -/
inductive StateUpdate where
  | members (r : Record)
  | function (f : Value → Except String Record)

/-- The properties to set in a state. -/
def StateUpdate.resolve (value : Value) : StateUpdate → Except String Record
  | .members r => .ok r
  | .function f => f value

/-- What a node asks for when it is done. -/
inductive NodeOutcome where
  | continue (patch : Option StateUpdate)
  | route (route : String) (patch : Option StateUpdate)
  | suspend (reason : String) (patch : Option StateUpdate)
  | terminate (result : Value) (patch : Option StateUpdate)
  | fail (error : String) (retryable : Bool)

/-- `outcome.patch`, if there is one. -/
def NodeOutcome.patch : NodeOutcome → Option StateUpdate
  | .continue patch | .route _ patch | .suspend _ patch | .terminate _ patch => patch
  | .fail .. => none

/-- An outcome and what it cost. -/
structure NodeExecution where
  outcome : NodeOutcome
  tokens : Option Number := none
  costMicros : Option Number := none

/-- The implementation of a node. -/
abbrev NodeHandler := NodeContext → Except String NodeExecution

/-- An agent that was compiled. -/
structure CompiledAgentDefinition where
  graph : GraphDefinitionV1
  schema : TypedStateSchema
  handlers : String → Option NodeHandler
  capabilities : List String

/-- What the engine supports. -/
def supported : List String := ["state", "routing", "suspension"]

/-- A definition that the engine has accepted. -/
structure Agent where
  definition : CompiledAgentDefinition
  valid : validateDefinition definition.graph = .ok ()
  capable : definition.capabilities.filter (· ∉ supported) = []

/-- `Agent.load`, of a compiled definition, for the engine `typescript`. -/
def Agent.load (definition : CompiledAgentDefinition) : Except String Agent :=
  match h : validateDefinition definition.graph with
  | .error e => .error e
  | .ok () =>
    if hc : definition.capabilities.filter (· ∉ supported) = [] then .ok ⟨definition, h, hc⟩
    else .error ("typescript engine does not support capabilities: " ++
      ", ".intercalate (definition.capabilities.filter (· ∉ supported)))

/-- The number of steps that a graph allows. -/
def maxSteps (graph : GraphDefinitionV1) : ℕ := (graph.limits.maxSteps.number.safeInteger.getD 0).toNat

/-! ### Runs -/

/-- What an event records. -/
inductive EventKindV1 where
  | executionStarted
  | nodeStarted (attempt : ℕ)
  | statePatched (revision : ℕ)
  | routed (route target : String)
  | suspended (reason : String)
  | terminated
  | failed (error : String)
  | cancelled
  | checkpointed
  deriving DecidableEq

/-- An event. -/
structure ExecutionEventV1 where
  version : ℕ := 1
  sequence : ℕ
  executionId : String
  nodeId : Option String
  timestampMs : ℕ
  kind : EventKindV1
  deriving DecidableEq

/-- Where a state comes from. -/
structure ProvenanceV1 where
  executionId : String
  nodeId : String
  eventSequence : ℕ
  deriving DecidableEq

/-- A state and its revision. -/
structure StateSnapshot where
  schemaId : String
  revision : ℕ
  value : Value
  provenance : Option ProvenanceV1

/-- How a run has ended. -/
inductive ExecutionStatus where
  | suspended (reason : String)
  | terminated (result : Value)
  | failed (error : String)
  | cancelled

/-- What a run reports. -/
structure ExecutionReport where
  status : ExecutionStatus
  state : StateSnapshot
  events : List ExecutionEventV1
  steps : ℕ
  tokens : Number
  costMicros : Number
  snapshots : Option (List StateSnapshot)

/-- How a run is started. -/
structure RunOptions where
  /-- After how many readings of the clock the signal is aborted. -/
  signal : Option (ℕ → Bool) := none
  executionId : Option String := none
  resumeInput : Value := .undefined

/-- What the surroundings of a run give: the readings of the clock, and an identifier. -/
structure Surroundings where
  now : ℕ → ℕ
  randomId : String

/-- What does not change during a run. -/
structure Frame where
  executionId : String
  resumeInput : Value
  aborted : ℕ → Bool
  now : ℕ → ℕ

/-- The variables of a run. -/
structure RunState where
  state : StateSnapshot
  current : String
  sequence : ℕ
  steps : ℕ
  tokens : Number
  cost : Number
  events : List ExecutionEventV1
  snapshots : List StateSnapshot
  visits : List (String × ℕ)
  /-- How often the clock was read. -/
  readings : ℕ

/-- `report`. -/
def RunState.report (s : RunState) (status : ExecutionStatus) : ExecutionReport :=
  { status := status, state := s.state, events := s.events, steps := s.steps, tokens := s.tokens
    costMicros := s.cost, snapshots := some s.snapshots }

/-- `{ ...value, ...update }`, of the own properties of a value. -/
def spread : Value → Record
  | .object ks f => ⟨ks, f⟩
  | .array items => .of (items.mapIdx fun i v => (toString i, v))
  | .string s => .of (s.toList.mapIdx fun i c => (toString i, .string (String.singleton c)))
  | _ => ⟨[], fun _ => .undefined⟩

/-- An object with the properties of another set. -/
def Record.merge (r update : Record) : Record where
  keys := r.keys ++ (enumerated update.keys).filter (· ∉ r.keys)
  value key := if key ∈ update.keys then update.value key else r.value key

section Runs

variable (f : Frame)

/-- `emit`. -/
def emit (kind : EventKindV1) (nodeId : Option String) (s : RunState) : RunState :=
  { s with
    sequence := s.sequence + 1
    events := s.events ++ [{ sequence := s.sequence + 1, executionId := f.executionId, nodeId := nodeId
                             timestampMs := f.now s.readings, kind := kind }]
    readings := s.readings + 1 }

/-- The run ends with an event. -/
def stop (kind : EventKindV1) (status : ExecutionStatus) (s : RunState) : ExecutionReport :=
  (emit f kind (some s.current) s).report status

/-- The run fails. -/
def fail (error : String) (s : RunState) : ExecutionReport := stop f (.failed error) (.failed error) s

variable (I : Intrinsics) (a : Agent)

/-- The run has taken too long. -/
def late (s : RunState) : Bool :=
  exceeds (some (.finite (f.now s.readings - f.now 0))) a.definition.graph.limits.timeoutMs.number

/-- A node may write a property. -/
def checkWrite (nodeId key : String) : Except String Unit :=
  match a.definition.graph.nodes.find? (·.id = nodeId) with
  | none => .error "Cannot read properties of undefined (reading 'writes')"
  | some node => ensure ("/" ++ key ∈ node.writes) s!"node {nodeId} wrote undeclared state key {key}"

/-- A patch. -/
def applyPatch (patch : StateUpdate) (s : RunState) : Except String RunState := do
  let update ← patch.resolve s.state.value
  (enumerated update.keys).forM (checkWrite a s.current)
  let nextValue := ((spread s.state.value).merge update).toValue
  validateState I a.definition.schema nextValue
  let state : StateSnapshot :=
    { schemaId := s.state.schemaId, revision := s.state.revision + 1, value := nextValue
      provenance := some ⟨f.executionId, s.current, s.sequence + 1⟩ }
  return emit f (.statePatched state.revision) (some s.current)
    { s with state := state, snapshots := s.snapshots ++ [state] }

/-- The patch of an outcome, if there is one. -/
def commit (patch : Option StateUpdate) (s : RunState) : Except String RunState :=
  match patch with
  | none => .ok s
  | some patch => applyPatch f I a patch s

/-- Go on along a route. -/
def follow (route : String) (routed : Bool) (s : RunState) : Except String RunState :=
  match a.definition.graph.transitions.find? fun t => t.source = s.current ∧ t.route = route with
  | none => .error s!"undeclared route {route} from {s.current}"
  | some edge =>
    let s := if routed then emit f (.routed route edge.target) (some s.current) s else s
    .ok { emit f .checkpointed (some s.current) s with current := edge.target }

/-- What the outcome of an execution leads to: the end of the run, or its next turn. -/
def proceed (outcome : NodeOutcome) (s : RunState) : Except String (ExecutionReport ⊕ RunState) :=
  match outcome with
  | .terminate result _ => .ok (.inl (stop f .terminated (.terminated result) s))
  | .suspend reason _ => .ok (.inl (stop f (.suspended reason) (.suspended reason) s))
  | .fail error _ => .ok (.inl (fail f error s))
  | .route route _ => (follow f a route true s).map .inr
  | .continue _ => (follow f a "continue" false s).map .inr

/-- What an execution cost. -/
def charge (execution : NodeExecution) (s : RunState) : RunState :=
  { s with
    steps := s.steps + 1
    tokens := plus s.tokens (execution.tokens.getD (some (.finite 0)))
    cost := plus s.cost (execution.costMicros.getD (some (.finite 0))) }

/-- The budget that is exceeded, if one is. -/
def overBudget (s : RunState) : Option String :=
  if exceeds s.tokens a.definition.graph.limits.maxTokens.number then some "token budget exceeded"
  else if exceeds s.cost a.definition.graph.limits.maxCostMicros.number then some "cost budget exceeded"
  else none

/-- A node was executed. -/
def complete (execution : NodeExecution) (s : RunState) : Except String (ExecutionReport ⊕ RunState) :=
  let s := charge execution s
  match overBudget a s with
  | some error => .ok (.inl (fail f error s))
  | none => commit f I a execution.outcome.patch s >>= proceed f a execution.outcome

/-- The visit of a node. -/
def visit (s : RunState) : RunState :=
  { s with visits := setProperty s.current ((s.visits.lookup s.current).getD 0 + 1) s.visits }

/-- The current node was visited too often. -/
def cycleExceeded (s : RunState) : Bool :=
  match a.definition.graph.cycles.find? (s.current ∈ ·.nodes) with
  | none => false
  | some cycle => exceeds (some (.finite ((s.visits.lookup s.current).getD 0 : ℕ))) cycle.maxIterations.number

/-- One turn of the loop, within the budget of steps. -/
def turn (s : RunState) : Except String (ExecutionReport ⊕ RunState) :=
  if late f a s then .ok (.inl (fail f "timeout budget exceeded" { s with readings := s.readings + 1 }))
  else
    let s := visit { s with readings := s.readings + 1 }
    if cycleExceeded a s then .ok (.inl (fail f "cycle limit exceeded" s))
    else
      match a.definition.handlers s.current with
      | none => .error s!"node {s.current} has no handler"
      | some handler =>
        let s := emit f (.nodeStarted 1) (some s.current) s
        match handler ⟨s.state.value, 1, f.resumeInput⟩ with
        | .error message => .ok (.inl (fail f message s))
        | .ok execution => complete f I a execution s

/-- The loop of `runFrom`, while so many steps remain. -/
def runFrom : ℕ → RunState → Except String ExecutionReport
  | 0, s =>
    .ok (if f.aborted s.readings then stop f .cancelled .cancelled s else fail f "step budget exceeded" s)
  | remaining + 1, s =>
    if f.aborted s.readings then .ok (stop f .cancelled .cancelled s)
    else
      match turn f I a s with
      | .error e => .error e
      | .ok (.inl report) => .ok report
      | .ok (.inr s) => runFrom remaining s

end Runs

section Agents

variable (I : Intrinsics) (a : Agent)

/-- The frame of a run. -/
def RunOptions.frame (options : RunOptions) (w : Surroundings) : Frame where
  executionId := options.executionId.getD w.randomId
  resumeInput := options.resumeInput
  aborted i := (options.signal.map fun signal => signal i).getD false
  now := w.now

/-- The variables at the start of the loop. -/
def firstState (f : Frame) (initial : Value) : RunState :=
  let snapshot : StateSnapshot :=
    { schemaId := a.definition.schema.id, revision := 0, value := initial, provenance := none }
  emit f .executionStarted none
    { state := snapshot, current := a.definition.graph.entry, sequence := 0, steps := 0
      tokens := some (.finite 0), cost := some (.finite 0), events := [], snapshots := [snapshot]
      visits := [], readings := 1 }

/-- `Agent.run`. -/
def Agent.run (initial : Value) (options : RunOptions) (w : Surroundings) : Except String ExecutionReport := do
  validateState I a.definition.schema initial
  let f := options.frame w
  runFrom f I a (maxSteps a.definition.graph) (firstState a f initial)

end Agents

/-! ### Timestamps -/

/-- An event without its timestamp. -/
def ExecutionEventV1.untimed (e : ExecutionEventV1) : ExecutionEventV1 := { e with timestampMs := 0 }

/-- The variables of a run without timestamps. -/
def RunState.untimed (s : RunState) : RunState := { s with events := s.events.map (·.untimed) }

/-- A report without timestamps. -/
def ExecutionReport.untimed (r : ExecutionReport) : ExecutionReport := { r with events := r.events.map (·.untimed) }

/-- What a turn has come to, without timestamps. -/
def untimedTurn : ExecutionReport ⊕ RunState → ExecutionReport ⊕ RunState := Sum.map (·.untimed) (·.untimed)

/-- The frame in which the clock stands still and nothing is aborted. -/
def Frame.still (f : Frame) : Frame := { f with aborted := fun _ => false, now := fun _ => 0 }

section Untimed

variable {f : Frame} {I : Intrinsics} {a : Agent} {s : RunState}

theorem emit_untimed (kind : EventKindV1) (nodeId : Option String) :
    (emit f kind nodeId s).untimed = emit f.still kind nodeId s.untimed := by
  simp [emit, RunState.untimed, ExecutionEventV1.untimed, Frame.still]

theorem stop_untimed (kind : EventKindV1) (status : ExecutionStatus) :
    (stop f kind status s).untimed = stop f.still kind status s.untimed := by
  rw [stop, stop, show s.untimed.current = s.current from rfl, ← emit_untimed]
  rfl

theorem applyPatch_untimed (patch : StateUpdate) :
    (·.untimed) <$> applyPatch f I a patch s = applyPatch f.still I a patch s.untimed := by
  simp only [applyPatch, map_bind]
  refine bind_congr fun update => bind_congr fun _ => bind_congr fun _ => ?_
  rw [map_pure, emit_untimed]
  rfl

theorem commit_untimed (patch : Option StateUpdate) :
    (·.untimed) <$> commit f I a patch s = commit f.still I a patch s.untimed := by
  cases patch with
  | none => rfl
  | some patch => exact applyPatch_untimed patch

theorem follow_untimed (route : String) (routed : Bool) :
    (·.untimed) <$> follow f a route routed s = follow f.still a route routed s.untimed := by
  simp only [follow, show s.untimed.current = s.current from rfl]
  cases a.definition.graph.transitions.find? fun t => t.source = s.current ∧ t.route = route with
  | none => rfl
  | some edge =>
    cases routed <;>
    · refine congrArg Except.ok ?_
      simp [emit, RunState.untimed, ExecutionEventV1.untimed, Frame.still]

theorem proceed_untimed (outcome : NodeOutcome) :
    untimedTurn <$> proceed f a outcome s = proceed f.still a outcome s.untimed := by
  have hfollow : ∀ route routed, untimedTurn <$> (follow f a route routed s).map Sum.inr =
      (follow f.still a route routed s.untimed).map Sum.inr := by
    intro route routed
    rw [← follow_untimed]
    cases follow f a route routed s <;> rfl
  cases outcome with
  | «continue» patch => exact hfollow "continue" false
  | route route patch => exact hfollow route true
  | _ => exact congrArg (Except.ok ∘ Sum.inl) (stop_untimed _ _)

theorem complete_untimed (execution : NodeExecution) :
    untimedTurn <$> complete f I a execution s = complete f.still I a execution s.untimed := by
  have hcharge : (charge execution s).untimed = charge execution s.untimed := rfl
  have hbudget : overBudget a (charge execution s.untimed) = overBudget a (charge execution s) := rfl
  simp only [complete, hbudget]
  cases overBudget a (charge execution s) with
  | some error => exact congrArg (Except.ok ∘ Sum.inl) (stop_untimed _ _)
  | none =>
    dsimp only
    rw [map_bind, ← hcharge, ← commit_untimed, bind_map_left]
    exact bind_congr fun _ => proceed_untimed _

/-- A positive limit is not exceeded by zero. -/
theorem exceeds_zero {limit : JsNumber} {z : ℤ} (h : limit.safeInteger = some z) (hz : 0 < z) :
    exceeds (some (.finite 0)) limit = false := by
  cases limit with
  | finite q =>
    have hq : (0 : ℚ) < q := by
      rw [JsNumber.eq_of_safeInteger h]
      exact_mod_cast hz
    exact decide_eq_false (not_lt.mpr hq.le)
  | negZero =>
    cases h
    omega
  | infinite negative => cases h

/-- A clock that stands still is never late. -/
theorem late_still : late f.still a s = false := by
  have hvalid := (check_bind_eq_ok.mp (check_bind_eq_ok.mp a.valid).2).2
  obtain ⟨-, hpositive⟩ := ensure_eq_ok.mp (check_bind_eq_ok.mp hvalid).1
  unfold Builder.positive at hpositive
  split at hpositive
  · rename_i z hz
    rw [late, show f.still.now = fun _ => 0 from rfl, Nat.cast_zero, sub_zero]
    exact exceeds_zero hz (of_decide_eq_true hpositive)
  · cases hpositive

/-- A turn in time is, but for the timestamps, the one in which the clock stands still. -/
theorem turn_untimed (hlate : late f a s = false) :
    untimedTurn <$> turn f I a s = turn f.still I a s.untimed := by
  simp only [turn, hlate, late_still, Bool.false_eq_true, if_false]
  have hvisit : (visit { s with readings := s.readings + 1 }).untimed =
      visit { s.untimed with readings := s.readings + 1 } := rfl
  rw [show s.untimed.readings = s.readings from rfl, ← hvisit]
  generalize visit { s with readings := s.readings + 1 } = u
  rw [show cycleExceeded a u.untimed = cycleExceeded a u from rfl]
  by_cases hcycle : cycleExceeded a u = true
  · rw [if_pos hcycle, if_pos hcycle]
    exact congrArg (Except.ok ∘ Sum.inl) (stop_untimed _ _)
  rw [if_neg hcycle, if_neg hcycle, show u.untimed.current = u.current from rfl]
  cases a.definition.handlers u.current with
  | none => rfl
  | some handler =>
    dsimp only
    rw [← emit_untimed, show f.still.resumeInput = f.resumeInput from rfl,
      show (emit f (.nodeStarted 1) (some u.current) u).untimed.state =
        (emit f (.nodeStarted 1) (some u.current) u).state from rfl]
    cases handler ⟨(emit f (.nodeStarted 1) (some u.current) u).state.value, 1, f.resumeInput⟩ with
    | error message => exact congrArg (Except.ok ∘ Sum.inl) (stop_untimed _ _)
    | ok execution => exact complete_untimed execution

/-! ### Determinism -/

/-- From here on, with so many steps left, the run is neither aborted nor timed out. -/
def Undisturbed (f : Frame) (I : Intrinsics) (a : Agent) : ℕ → RunState → Prop
  | 0, s => f.aborted s.readings = false
  | remaining + 1, s => f.aborted s.readings = false ∧ late f a s = false ∧
      ∀ s', turn f I a s = .ok (.inr s') → Undisturbed f I a remaining s'

/-- **A run that is neither aborted nor timed out is, but for its timestamps, the run in which the clock
stands still.** -/
theorem runFrom_untimed {remaining : ℕ} (h : Undisturbed f I a remaining s) :
    (·.untimed) <$> runFrom f I a remaining s = runFrom f.still I a remaining s.untimed := by
  induction remaining generalizing s with
  | zero =>
    have habort : f.aborted s.readings = false := h
    simp only [runFrom, habort, show f.still.aborted s.untimed.readings = false from rfl, Bool.false_eq_true,
      if_false]
    exact congrArg Except.ok (stop_untimed _ _)
  | succ remaining ih =>
    obtain ⟨habort, hlate, hnext⟩ := h
    simp only [runFrom, habort, show f.still.aborted s.untimed.readings = false from rfl, Bool.false_eq_true,
      if_false]
    rw [← turn_untimed hlate]
    cases hturn : turn f I a s with
    | error e => rfl
    | ok out =>
      cases out with
      | inl r => rfl
      | inr s' => exact ih (hnext s' hturn)

end Untimed

end Knolo.Replay
