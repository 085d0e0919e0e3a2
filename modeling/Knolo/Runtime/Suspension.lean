import Knolo.Runtime.Invariant
import Knolo.Runtime.Surroundings

/-!
# What a suspension leaves in the store

A run saves a checkpoint when it goes on to the next node, never when it suspends: the
suspension leaves the loop before the checkpoint is made. What the store holds after a
suspended run is the checkpoint of the node before, one step behind the report, or
whatever it held before the run.

* `Durable` — the store holds what the report says.
* `suspension` — after a suspended run the store is durable only if it was so before and
  the run saved nothing; never, when it was not ahead of the run at the start.
* `suspension_not_durable` — a suspended run whose patch is lost.
-/

namespace Knolo.Runtime

open Core Library Library.Fallible Library.Prog

/-- The store holds, for execution `id`, a checkpoint of what the report says, from which
`resume` continues. -/
def Durable (sch : Scheduler) (store : InMemoryCheckpointStore) (id : ExecutionId)
    (report : ExecutionReportV1) : Prop :=
  ∃ cp, store.load id = some cp ∧ cp.state = report.state ∧ cp.steps = report.steps ∧
    cp.tokens = report.tokens ∧ cp.costMicros = report.costMicros ∧
    report.events.getLast?.map (·.sequence) = some cp.eventCursor ∧
    (Invocation.resume cp).check sch = .ok ()

namespace Scheduler

variable {sch : Scheduler} {id : ExecutionId}

/-- What turns that go on save: checkpoints of the execution, the last of them with the
current step count. -/
theorem Turns.saves {s u : RunState} {obs : List Observation} (h : sch.Turns id s obs u) :
    (∀ cp ∈ saves obs, cp.executionId = id) ∧
      (saves obs = [] ∧ u.steps = s.steps ∨
        ∃ cp, (saves obs).getLast? = some cp ∧ cp.steps = u.steps ∧ s.steps < u.steps) := by
  induction h with
  | start => exact ⟨by simp, .inl ⟨rfl, rfl⟩⟩
  | @step obs obs' u v hts ht ih =>
    cases ht with
    | @goesOn obs' w dec pending t h _ _ =>
      have hsaves := h.completion.saves
      obtain ⟨hsteps, -⟩ := h.steps
      refine ⟨fun cp hcp => ?_, .inr ⟨sch.checkpointOf id pending (w.seq + 1) w, ?_, rfl, ?_⟩⟩
      · simp only [saves_append, hsaves, saves_emitted, saves_saved, saves_nil, List.nil_append,
          List.mem_append, List.mem_singleton] at hcp
        rcases hcp with hcp | rfl
        · exact ih.1 cp hcp
        · rfl
      · simp
      · have hs : s.steps ≤ u.steps := by
          rcases ih.2 with ⟨-, h0⟩ | ⟨_, -, -, h0⟩ <;> omega
        simp only [RunState.noted_eq_after, RunState.after_steps]
        omega

/-- A turn that suspends saves nothing, and is a step further than its head. -/
theorem Turn.suspended {s : RunState} {obs : List Observation} {report : ExecutionReportV1}
    {reason : String} (h : sch.Turn id s obs (.ok (.inr report)))
    (hr : report.status = .suspended reason) : saves obs = [] ∧ report.steps = s.steps + 1 := by
  cases h with
  | refused _ hk =>
    rcases hk with ⟨-, rfl⟩ | ⟨msg, -, rfl⟩ <;> simp [RunState.report] at hr
  | exhausted _ _ => simp [RunState.report] at hr
  | overBudget _ _ => simp [RunState.report] at hr
  | ended h _ => exact ⟨h.completion.saves, h.steps.1⟩

end Scheduler

open Scheduler

variable {sch : Scheduler} {call : Invocation}

/-- **Suspension**: a suspended run leaves a durable store exactly if it saved nothing and
the store was durable before; so never, if what the store held for the execution at the
start was not ahead of where the run started. -/
theorem suspension {tr : List (Answered HostCall Answer)} {report : ExecutionReportV1} {reason : String}
    (h : Runs (call.program sch) tr (.ok report)) (hr : report.status = .suspended reason)
    (store : InMemoryCheckpointStore) :
    (Durable sch (store.saveAll (saves (observe tr))) call.id report ↔
      saves (observe tr) = [] ∧ Durable sch store call.id report) ∧
    ((∀ cp, store.load call.id = some cp → cp.steps ≤ (call.initial sch).steps) →
      ¬ Durable sch (store.saveAll (saves (observe tr))) call.id report) := by
  rcases runs_turns h with ⟨-, e, he, -⟩ | ⟨obs, s, obs', u, obs'', hb, hts, hl, hobs⟩
  · simp at he
  · have hstart : s.steps = (call.initial sch).steps := by rw [hb.eq_after, RunState.after_steps]
    obtain ⟨hnone, hsteps⟩ := Turn.suspended hl hr
    have hsaves : saves (observe tr) = saves obs' := by simp [hobs, hb.quiet.2, hnone]
    obtain ⟨hid, hlast⟩ := hts.saves
    rw [hsaves]
    have key : Durable sch (store.saveAll (saves obs')) call.id report →
        saves obs' = [] ∧ Durable sch store call.id report := by
      intro hd
      rcases hlast with ⟨hnil, -⟩ | ⟨cp, hcp, hcps, -⟩
      · exact ⟨hnil, by simpa [hnil] using hd⟩
      · obtain ⟨cp', hload, -, hst, -⟩ := hd
        rw [InMemoryCheckpointStore.load_saveAll hid, hcp] at hload
        simp only [Option.some_or, Option.some.injEq] at hload
        subst hload
        omega
    refine ⟨⟨key, fun ⟨hnil, hd⟩ => by simpa [hnil] using hd⟩, fun hahead hd => ?_⟩
    obtain ⟨-, cp, hload, -, hst, -⟩ := key hd
    have := hahead cp hload
    have : s.steps ≤ u.steps := by
      rcases hlast with ⟨-, h0⟩ | ⟨_, -, -, h0⟩ <;> omega
    omega

/-- An executor that suspends with a patch. -/
def suspendPatched : Executor Unit := fun r _ =>
  (.ok { outcome := .suspend "approval" (some
           { baseRevision := r.state.revision
             operations := {("/n", .set (.number (.posInt 1)))} })
         tokens := 1, costMicros := 1 }, ())

/-- A run of the test graph. -/
def suspendedCall : Invocation := .run (testId "e") setupState

/-- An event of that run. -/
def suspendedEvent (sequence : ℕ) (nodeId : Option NodeId) (kind : EventKindV1) : ExecutionEventV1 :=
  { version := 1, sequence, executionId := testId "e", nodeId, timestampMs := 1, kind }

/-- Its report: suspended, one step, revision 1. -/
def suspendedReport : ExecutionReportV1 where
  status := .suspended "approval"
  state :=
    { schemaId := testId "s", revision := 1, value := .object [("n", .number (.posInt 1))]
      provenance := some { executionId := testId "e", nodeId := testId "a", eventSequence := 3 } }
  events :=
    [suspendedEvent 1 none .executionStarted,
      suspendedEvent 2 (testId "a") (.nodeStarted 1),
      suspendedEvent 3 (testId "a") (.statePatched 1),
      suspendedEvent 4 (testId "a") (.suspended "approval")]
  steps := 1
  tokens := 1
  costMicros := 1

theorem suspendedCall_run :
    ((suspendedCall.program (setup false)).run (surroundings suspendPatched false 1)
      (World.fresh ())).1 = .ok suspendedReport := by
  decide +kernel

/-- The calls of that run. -/
def suspendedTrace : List (Answered HostCall Answer) :=
  (suspendedCall.program (setup false)).trace (surroundings suspendPatched false 1) (World.fresh ())

theorem suspendedCall_runs :
    Runs (suspendedCall.program (setup false)) suspendedTrace (.ok suspendedReport) := by
  rw [← suspendedCall_run]
  exact runs_trace ..

/-- **A suspension is not durable**: the run commits a patch and suspends, and the store
holds nothing to resume from. -/
theorem suspension_not_durable :
    ¬ ∀ (sch : Scheduler) (call : Invocation) (tr : List (Answered HostCall Answer))
      (report : ExecutionReportV1) (reason : String), Runs (call.program sch) tr (.ok report) →
      report.status = .suspended reason →
      Durable sch (InMemoryCheckpointStore.empty.saveAll (saves (observe tr))) call.id report := by
  intro h
  obtain ⟨cp, hload, -⟩ := h _ _ _ _ "approval" suspendedCall_runs rfl
  have hnone : (InMemoryCheckpointStore.empty.saveAll (saves (observe suspendedTrace))).load
      suspendedCall.id = none := by decide +kernel
  simp [hnone] at hload

/-- What `suspension` says of that run. -/
theorem suspension_lost :
    ¬ Durable (setup false) (InMemoryCheckpointStore.empty.saveAll (saves (observe suspendedTrace)))
      suspendedCall.id suspendedReport :=
  (suspension suspendedCall_runs (rfl : suspendedReport.status = .suspended "approval") .empty).2 fun cp h => by
    simp [InMemoryCheckpointStore.load, InMemoryCheckpointStore.empty] at h

end Knolo.Runtime
