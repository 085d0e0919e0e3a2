import Knolo.Runtime.Observation

/-!
# The surroundings of a run

The hosts the repository ships for its scheduler: `VecEventSink` and `FixedClock` of
`runtime/mod.rs` and `InMemoryCheckpointStore` of `checkpoint/mod.rs`, around an
arbitrary executor with a state of its own.

`sink_run` and `store_run` connect what a run observes with what the sink and the store
hold afterwards. The graph of the repository's scheduler tests (`tests/runtime.rs`) is
here for the concrete runs of later modules.
-/

namespace Knolo.Runtime

open Core Library Library.Fallible Library.Prog

/-! ### Stores -/

/-- A checkpoint store in memory. -/
structure InMemoryCheckpointStore where
  checkpoints : Std.ExtTreeMap ExecutionId CheckpointV1

namespace InMemoryCheckpointStore

/-- The empty store. -/
def empty : InMemoryCheckpointStore := ⟨∅⟩

/-- `save`. -/
def save (s : InMemoryCheckpointStore) (cp : CheckpointV1) : InMemoryCheckpointStore :=
  ⟨s.checkpoints.insert cp.executionId cp⟩

/-- `load`. -/
def load (s : InMemoryCheckpointStore) (id : ExecutionId) : Option CheckpointV1 := s.checkpoints[id]?

/-- A store after checkpoints were saved in it, in order. -/
def saveAll (s : InMemoryCheckpointStore) (cps : List CheckpointV1) : InMemoryCheckpointStore :=
  cps.foldl save s

@[simp] theorem saveAll_nil (s : InMemoryCheckpointStore) : s.saveAll [] = s := rfl

@[simp] theorem saveAll_cons (s : InMemoryCheckpointStore) (cp : CheckpointV1)
    (cps : List CheckpointV1) : s.saveAll (cp :: cps) = (s.save cp).saveAll cps := rfl

/-- The last checkpoint saved for an execution is the one loaded. -/
theorem load_saveAll {cps : List CheckpointV1} {id : ExecutionId}
    (hid : ∀ cp ∈ cps, cp.executionId = id) (s : InMemoryCheckpointStore) :
    (s.saveAll cps).load id = cps.getLast?.or (s.load id) := by
  induction cps generalizing s with
  | nil => rfl
  | cons cp cps ih =>
    rw [saveAll_cons, ih fun c hc => hid c (List.mem_cons_of_mem _ hc)]
    have hsave : (s.save cp).load id = some cp := by
      rw [← hid cp (List.mem_cons_self ..)]
      simp [load, save]
    rw [hsave]
    cases cps with
    | nil => rfl
    | cons c cs => simp [List.getLast?_cons]

end InMemoryCheckpointStore

/-! ### Hosts -/

/-- An executor with a state, a `VecEventSink` and an `InMemoryCheckpointStore`. -/
structure World (X : Type) where
  executor : X
  sink : List ExecutionEventV1
  store : InMemoryCheckpointStore

/-- An executor that keeps a state. -/
abbrev Executor (X : Type) := NodeRequest → X → Except CoreError NodeExecutionV1 × X

/-- An executor that is a function of its request. -/
def stateless (exec : NodeRequest → Except CoreError NodeExecutionV1) : Executor Unit :=
  fun r x => (exec r, x)

/-- The surroundings of a run under `FixedClock now`. -/
def surroundings {X : Type} (exec : Executor X) (cancelled : Bool) (now : ℕ) :
    Host HostCall Answer (World X)
  | .cancelled, w => (cancelled, w)
  | .nowMs, w => (now, w)
  | .execute r, w => ((exec r w.executor).1, { w with executor := (exec r w.executor).2 })
  | .emit e, w => (.ok (), { w with sink := w.sink ++ [e] })
  | .save cp, w => (.ok (), { w with store := w.store.save cp })

section Run

variable {X α : Type} (exec : Executor X) (cancelled : Bool) (now : ℕ) (p : Run α) (w : World X)

/-- The sink holds what was emitted. -/
theorem sink_run : (p.run (surroundings exec cancelled now) w).2.sink =
    w.sink ++ emissions (observe (p.trace (surroundings exec cancelled now) w)) := by
  induction p generalizing w with
  | ret a => simp
  | throw e => simp
  | call c k ih =>
    rw [run_call, trace_call, ih]
    cases c <;> simp [surroundings]

/-- The store holds what was saved. -/
theorem store_run : (p.run (surroundings exec cancelled now) w).2.store =
    w.store.saveAll (saves (observe (p.trace (surroundings exec cancelled now) w))) := by
  induction p generalizing w with
  | ret a => simp
  | throw e => simp
  | call c k ih =>
    rw [run_call, trace_call, ih]
    cases c <;> simp [surroundings]

end Run

/-! ### The graph of the tests -/

/-- An identifier of the tests. -/
abbrev testId (text : String) (h : validIdentifier text = true := by exact Eq.refl true) : Identifier := ⟨text, h⟩

/-- The nodes `a` and `b`, with a transition between them and, with `cycle`, one back. -/
def setupDefinition (cycle : Bool) : GraphDefinitionV1 where
  version := 1
  id := testId "g"
  stateSchema := testId "s"
  entry := testId "a"
  nodes :=
    [{ id := testId "a", terminal := false, reads := ∅, writes := {"/n"} },
      { id := testId "b", terminal := true, reads := ∅, writes := ∅ }]
  transitions :=
    { id := testId "next", source := testId "a", route := "continue", target := testId "b" } ::
      if cycle then
        [{ id := testId "back", source := testId "b", route := "continue", target := testId "a" }]
      else []
  cycles := if cycle then [{ nodes := {testId "a", testId "b"}, maxIterations := 2 }] else []
  limits := { maxSteps := 20, maxTokens := 100, maxCostMicros := 100, timeoutMs := 100 }

theorem setupDefinition_valid (cycle : Bool) : (setupDefinition cycle).validate = .ok () := by
  cases cycle <;> decide +kernel

/-- The compiled graph; its hash is not looked at. -/
def setupGraph (cycle : Bool) : CompiledGraphV1 where
  definition := setupDefinition cycle
  nodes := collect ((setupDefinition cycle).nodes.map fun n => (n.id, n))
  routes := collect ((setupDefinition cycle).transitions.map fun t => ((t.source, t.route), t.target))
  hash := "sha256:graph"
  valid := setupDefinition_valid cycle
  nodes_eq := rfl
  routes_eq := rfl

/-- The state schema: a number at `/n`. -/
def setupSchema : StateSchemaV1 where
  version := 1
  id := testId "s"
  paths := {("/n", .number)}
  required := {"/n"}

/-- The policy: one retry. -/
def setupPolicy : RuntimePolicyV1 where
  maxRetries := 1
  retryDelayMs := 0
  packHash := "p"
  policyHash := "policy"
  nodeImplementationHash := "nodes"
  contractHash := "contracts"

/-- The scheduler of the tests. -/
def setup (cycle : Bool) : Scheduler :=
  { graph := setupGraph cycle, schema := setupSchema, policy := setupPolicy }

/-- The initial state, `{"n": 0}`. -/
def setupState : StateSnapshot :=
  { schemaId := testId "s", revision := 0, value := .object [("n", .number (.posInt 0))], provenance := none }

/-- An executor that always continues, with no change. -/
def proceed (r : NodeRequest) : Except CoreError NodeExecutionV1 :=
  .ok { outcome := .continue { baseRevision := r.state.revision, operations := ∅ }
        tokens := 1, costMicros := 1 }

/-- A world with nothing in it but an executor. -/
def World.fresh {X : Type} (x : X) : World X := { executor := x, sink := [], store := .empty }

end Knolo.Runtime
