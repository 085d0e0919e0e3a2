import Knolo.Icp.Engine

/-!
# What a call can do

Said once: `Transition c e e' log` relates the engines before and after a call and the scheduler
runs the call made. Every property of the engine is derived from it, case by case, and none
unfolds an operation.

* `Slice` — one run of the scheduler against the store of the engine.
* `Launch` — the first slice of a new execution; `Going` — a call that passes its checks and goes
  on with the record of an execution.
* `perform_transition` — a call does nothing else.
-/

namespace Knolo.Icp

open Core Library Library.Fallible Library.Prog Host Knolo.Runtime

/-- The engine after a slice: its store has what the slice saved. -/
def AgentEngine.stored (e : AgentEngine) (run : SchedulerRun) : AgentEngine :=
  { e with store := e.store.saveAll (saves run.observed) }

/-- The engine with a record in its place. -/
def AgentEngine.put (e : AgentEngine) (k : String) (r : ExecutionRecord) : AgentEngine :=
  { e with executions := e.executions.insert k r }

/-- `run` is a slice of definition `d` with executor `x`, in `e`. -/
structure Slice (d : LoadedDefinition) (x : DeterministicExecutor) (e : AgentEngine) (run : SchedulerRun) :
    Prop where
  definition : e.definition = some d
  observed : run.observed = observe ((run.call.program d.scheduler).trace sliceHost (e.world x))
  outcome : ((run.call.program d.scheduler).run sliceHost (e.world x)).1 = liftError run.outcome

/-- A slice is a behaviour of the scheduler. -/
theorem Slice.runs {d : LoadedDefinition} {x : DeterministicExecutor} {e : AgentEngine} {run : SchedulerRun}
    (h : Slice d x e run) :
    ∃ tr, Runs (run.call.program d.scheduler) tr (liftError run.outcome) ∧ run.observed = observe tr :=
  ⟨_, h.outcome ▸ runs_trace sliceHost _ (e.world x), h.observed⟩

/-! ### Parts of an operation -/

variable {α β : Type} {e : AgentEngine} {Q : Except CoreError α → AgentEngine → List SchedulerRun → Prop}

@[simp] theorem sat_consult {x : Except Abort α} :
    (consult x).Sat e Q ↔ (∀ a, x = .ok a → Q (.ok a) e []) ∧ ∀ err, x = .error (.error err) → Q (.error err) e [] := by
  constructor
  · intro h
    constructor
    · rintro a rfl
      exact h _ rfl
    · rintro err rfl
      exact h _ rfl
  · rintro ⟨hok, herr⟩ r hr
    unfold consult at hr
    split at hr
    · cases hr
      exact hok _ rfl
    · cases hr
      exact herr _ rfl
    · cases hr

theorem loaded_eq_ok {d : LoadedDefinition} : e.loaded = .ok d ↔ e.definition = some d := by
  unfold AgentEngine.loaded
  cases e.definition <;> simp

theorem schedule_sat {d : LoadedDefinition} (hd : e.definition = some d) (x : DeterministicExecutor)
    (call : Invocation) :
    (schedule d x call).Sat e fun res e' log =>
      ∃ run, Slice d x e run ∧ run.call = call ∧ res = run.outcome ∧ e' = e.stored run ∧ log = [run] := by
  intro r hr
  have hstore : ((call.program d.scheduler).run sliceHost (e.world x)).2.store =
      e.store.saveAll (saves (observe ((call.program d.scheduler).trace sliceHost (e.world x)))) :=
    store_run ..
  unfold schedule at hr
  simp only [hstore] at hr
  split at hr
  · cases hr
    exact ⟨_, ⟨hd, rfl, ‹_›⟩, rfl, rfl, rfl, rfl⟩
  · cases hr
    exact ⟨_, ⟨hd, rfl, ‹_›⟩, rfl, rfl, rfl, rfl⟩
  · cases hr

theorem existing_sat (k : String) :
    (existing k).Sat e fun res e' log => e' = e ∧ log = [] ∧ ∀ r, res = .ok r → e.executions[k]? = some r := by
  refine Method.sat_read_bind.mpr ?_
  cases h : e.executions[k]? with
  | none => simp
  | some r => simp

/-- A slice was refused, or run. -/
inductive Sliced (e : AgentEngine) (x : LoadedDefinition → DeterministicExecutor) (call : Invocation) :
    Except CoreError ExecutionReportV1 → AgentEngine → List SchedulerRun → Prop
  /-- No definition is loaded. -/
  | refused {err : CoreError} : Sliced e x call (.error err) e []
  /-- The scheduler ran. -/
  | ran {d : LoadedDefinition} {run : SchedulerRun} :
      Slice d (x d) e run → run.call = call → Sliced e x call run.outcome (e.stored run) [run]

theorem sliced_sat (x : LoadedDefinition → DeterministicExecutor) (call : Invocation) :
    (do let e ← Method.read
        let d ← Method.ofExcept e.loaded
        schedule d (x d) call : EngineM ExecutionReportV1).Sat e (Sliced e x call) := by
  refine Method.sat_read_bind.mpr (Method.Sat.ofExcept_bind (fun d hd => ?_) fun _ _ => .refused)
  refine (schedule_sat (loaded_eq_ok.mp hd) (x d) call).mono fun res e' log h => ?_
  obtain ⟨run, hrun, hcall, rfl, rfl, rfl⟩ := h
  exact .ran hrun hcall

theorem runFromStart_sat (id : ExecutionId) (state : StateSnapshot) (budget : Option ℕ)
    (cache : Std.ExtTreeMap String Json) :
    (runFromStart id state budget cache).Sat e
      (Sliced e (executorFor · budget false cache) (.run id state)) :=
  sliced_sat (executorFor · budget false cache) (.run id state)

theorem runResume_sat (cp : CheckpointV1) (budget : Option ℕ) (hitl : Bool)
    (cache : Std.ExtTreeMap String Json) :
    (runResume cp budget hitl cache).Sat e (Sliced e (executorFor · budget hitl cache) (.resume cp)) :=
  sliced_sat (executorFor · budget hitl cache) (.resume cp)

/-! ### Records -/

variable {codec : Codec} {k : String}

theorem executionIdFrom_eq_ok {id : ExecutionId} : executionIdFrom codec k = .ok id ↔ id.text = k := by
  unfold executionIdFrom
  constructor
  · intro h
    unfold Identifier.new at h
    split at h
    · cases h
      rfl
    · cases h
  · rintro rfl
    simp [Except.mapError]

theorem optional_ne_error {x : Except Abort α} {err : CoreError} : optional x ≠ .error (.error err) := by
  unfold optional
  split <;> simp_all

theorem pendingResumeOf_ne_error {r : ExecutionRecord} {last : Option CheckpointV1} {err : CoreError} :
    e.pendingResumeOf codec k r last ≠ .error (.error err) := by
  unfold AgentEngine.pendingResumeOf
  split
  · split
    · simp
    · exact optional_ne_error
  · simp

theorem resequence_ne_error {base : ℕ} {ev : ExecutionEventV1} {err : CoreError} :
    resequence base ev ≠ .error (.error err) := by
  unfold resequence checkedAdd
  split
  · split <;> simp
  · simp

theorem mergeEvents_ne_error {events new : List ExecutionEventV1} {err : CoreError} :
    mergeEvents events new ≠ .error (.error err) := by
  intro h
  rcases bind_eq_error.mp h with h | ⟨_, -, h⟩
  · obtain ⟨_, _, h⟩ := mapM_eq_error h
    exact resequence_ne_error h
  · cases h

/-- The record of a report is not refused. -/
theorem recordFromReport_ne_error {id : ExecutionId} {report : ExecutionReportV1}
    {cache : Std.ExtTreeMap String Json} {err : CoreError} :
    e.recordFromReport codec id.text report cache ≠ .error (.error err) := by
  intro h
  rcases bind_eq_error.mp h with h | ⟨_, -, h⟩
  · simp [executionIdFrom_eq_ok.mpr rfl, liftError] at h
  rcases bind_eq_error.mp h with h | ⟨_, -, h⟩
  · exact pendingResumeOf_ne_error h
  · cases h

/-- Nor is the record of an execution that went on. -/
theorem mergeStepReport_ne_error {id : ExecutionId} {r : ExecutionRecord} {report : ExecutionReportV1}
    {err : CoreError} : e.mergeStepReport codec id.text r report ≠ .error (.error err) := by
  intro h
  rcases bind_eq_error.mp h with h | ⟨_, -, h⟩
  · simp [executionIdFrom_eq_ok.mpr rfl, liftError] at h
  rcases bind_eq_error.mp h with h | ⟨_, -, h⟩
  · exact pendingResumeOf_ne_error h
  rcases bind_eq_error.mp h with h | ⟨_, -, h⟩
  · exact mergeEvents_ne_error h
  · cases h

/-! ### Slices and their records -/

/-- A first slice: `k` names a new execution, and what came of it. -/
inductive Launch (codec : Codec) (k : String) (budget : Option ℕ) (e : AgentEngine) :
    Except CoreError ExecutionRecord → AgentEngine → List SchedulerRun → Prop
  /-- Nothing ran. -/
  | refused {err : CoreError} : Launch codec k budget e (.error err) e []
  /-- The scheduler returned an error. -/
  | failed {err : CoreError} {d : LoadedDefinition} {id : ExecutionId} {state : StateSnapshot}
      {run : SchedulerRun} :
      id.text = k → Slice d (executorFor d budget false ∅) e run → run.call = .run id state →
      run.outcome = .error err → Launch codec k budget e (.error err) (e.stored run) [run]
  /-- The scheduler returned a report. -/
  | recorded {d : LoadedDefinition} {id : ExecutionId} {state : StateSnapshot} {run : SchedulerRun}
      {report : ExecutionReportV1} {record : ExecutionRecord} :
      id.text = k → Slice d (executorFor d budget false ∅) e run → run.call = .run id state →
      run.outcome = .ok report → (e.stored run).recordFromReport codec k report ∅ = .ok record →
      Launch codec k budget e (.ok record) (e.stored run) [run]

theorem launch_sat (stateJson : String) (budget : Option ℕ) :
    (launch codec k stateJson budget).Sat e (Launch codec k budget e) := by
  refine Method.Sat.ofExcept_bind (fun state _ => ?_) fun _ _ => .refused
  refine Method.Sat.ofExcept_bind (fun id hid => ?_) fun _ _ => .refused
  obtain rfl := executionIdFrom_eq_ok.mp hid
  refine Method.sat_bind.mpr ((runFromStart_sat id state budget ∅).mono fun res e' log h => ?_)
  cases h with
  | refused => exact .refused
  | @ran d run hrun hcall =>
    cases hout : run.outcome with
    | error err => exact .failed rfl hrun hcall hout
    | ok report =>
      refine Method.sat_read_bind.mpr (sat_consult.mpr ⟨fun record h => ?_, fun err h => ?_⟩)
      · exact .recorded rfl hrun hcall hout h
      · exact absurd h recordFromReport_ne_error

/-- A next slice of execution `k` from checkpoint `cp`, with record `r`, and what came of it. -/
inductive Advance (codec : Codec) (k : String) (r : ExecutionRecord) (cp : CheckpointV1)
    (budget : Option ℕ) (hitl : Bool) (e : AgentEngine) :
    Except CoreError ExecutionRecord → AgentEngine → List SchedulerRun → Prop
  /-- Nothing ran. -/
  | refused {err : CoreError} : Advance codec k r cp budget hitl e (.error err) e []
  /-- The scheduler returned an error. -/
  | failed {err : CoreError} {d : LoadedDefinition} {run : SchedulerRun} :
      Slice d (executorFor d budget hitl r.effectCache) e run → run.call = .resume cp →
      run.outcome = .error err → Advance codec k r cp budget hitl e (.error err) (e.stored run) [run]
  /-- The scheduler returned a report. -/
  | recorded {d : LoadedDefinition} {run : SchedulerRun} {report : ExecutionReportV1}
      {record : ExecutionRecord} :
      Slice d (executorFor d budget hitl r.effectCache) e run → run.call = .resume cp →
      run.outcome = .ok report → (e.stored run).mergeStepReport codec k r report = .ok record →
      Advance codec k r cp budget hitl e (.ok record) (e.stored run) [run]

theorem proceed_sat (r : ExecutionRecord) (cp : CheckpointV1) (budget : Option ℕ) (hitl : Bool) :
    (proceed codec k r cp budget hitl).Sat e (Advance codec k r cp budget hitl e) := by
  refine Method.Sat.ofExcept_bind (fun id hid => ?_) fun _ _ => .refused
  obtain rfl := executionIdFrom_eq_ok.mp hid
  refine Method.sat_bind.mpr ((runResume_sat cp budget hitl r.effectCache).mono fun res e' log h => ?_)
  cases h with
  | refused => exact .refused
  | @ran d run hrun hcall =>
    cases hout : run.outcome with
    | error err => exact .failed hrun hcall hout
    | ok report =>
      refine Method.sat_read_bind.mpr (sat_consult.mpr ⟨fun record h => ?_, fun err h => ?_⟩)
      · exact .recorded hrun hcall hout h
      · exact absurd h mergeStepReport_ne_error

/-! ### Calls -/

/-- `c` starts execution `k`, with a bound on its first slice. -/
inductive Starting : Call → String → Option ℕ → Prop
  | startExecution {k state : String} : Starting (.startExecution k state) k none
  | startWithBudget {k state : String} {n : ℕ} : Starting (.startWithBudget k state n) k (stepBudget n)
  | acceptHandoff {k envelope state parent : String} : Starting (.acceptHandoff k envelope state parent) k none

/-- `c` passes its checks and goes on with record `r` of execution `k`: in which engine, from
which checkpoint, with which bound on the slice, and with whose approval. -/
inductive Going (codec : Codec) (e : AgentEngine) :
    Call → String → ExecutionRecord → AgentEngine → CheckpointV1 → Option ℕ → Bool → Prop
  | step {k : String} {n : ℕ} {r : ExecutionRecord} {cp : CheckpointV1} :
      e.executions[k]? = some r → r.stepGuard k n = .ok () → e.checkpointFor codec r k = .ok cp →
      Going codec e (.step k n) k r e cp (stepBudget n) false
  | resume {k : String} {r : ExecutionRecord} {cp : CheckpointV1} :
      e.executions[k]? = some r → e.resumeCheckpoint codec r k = .ok cp →
      Going codec e (.resume k) k r e cp none r.awaitsHuman
  | inject {k effect : String} {value : Json} {r r' : ExecutionRecord} {cp : CheckpointV1} :
      e.executions[k]? = some r → r.statusKind = "suspended" →
      expectedSuspension effect = .ok r.statusDetail →
      r' = { r with effectCache := r.effectCache.insert effect value } →
      (e.put k r').resumeCheckpoint codec r' k = .ok cp →
      Going codec e (.injectEffectAndResume k effect value) k r' (e.put k r') cp none r'.awaitsHuman

/-- **What a call can do.** -/
inductive Transition (codec : Codec) (e : AgentEngine) : Call → AgentEngine → List SchedulerRun → Prop
  /-- It was refused. -/
  | refused {c : Call} : Transition codec e c e []
  /-- It loaded a definition. -/
  | loaded {json : String} {d : LoadedDefinition} :
      AgentDefinitionBundleV1.load codec json = .ok d →
      Transition codec e (.loadDefinition json)
        { e with
          packMeta := some d.packMeta, definition := some d, executions := ∅, handoffs := ∅
          store := .empty, budget := .empty, tools := defaultRegistry d.bundle.host.allowHttpsTools } []
  /-- It dropped the definition. -/
  | cleared :
      Transition codec e .clearDefinition
        { e with
          definition := none, executions := ∅, handoffs := ∅, packMeta := none
          store := .empty, budget := .empty, tools := .empty } []
  /-- It changed the limits. -/
  | limited {limits : RuntimeLimitsV1} : Transition codec e (.setLimits limits) { e with limits } []
  /-- It ran a tool, or tried to. -/
  | toolRun {k : String} {r : ExecutionRecord} {tools : ToolRegistry HostTool} {budget : HostBudgetTracker} :
      e.executions[k]? = some r → Transition codec e (.runToolForPending k) { e with tools, budget } []
  /-- The first slice of an execution failed. -/
  | startFailed {c : Call} {k : String} {budget : Option ℕ} {err : CoreError} {d : LoadedDefinition}
      {id : ExecutionId} {state : StateSnapshot} {run : SchedulerRun} :
      Starting c k budget → e.executions.contains k = false → id.text = k →
      Slice d (executorFor d budget false ∅) e run → run.call = .run id state → run.outcome = .error err →
      Transition codec e c (e.stored run) [run]
  /-- The first slice of an execution was recorded. -/
  | started {c : Call} {k : String} {budget : Option ℕ} {d : LoadedDefinition} {id : ExecutionId}
      {state : StateSnapshot} {run : SchedulerRun} {report : ExecutionReportV1} {record : ExecutionRecord}
      {handoffId : Option String} {spent : HostBudgetTracker} {handoffs : Std.ExtTreeMap String HandoffRecordV1} :
      Starting c k budget → e.executions.contains k = false → id.text = k →
      Slice d (executorFor d budget false ∅) e run → run.call = .run id state → run.outcome = .ok report →
      (e.stored run).recordFromReport codec k report ∅ = .ok record →
      (handoffs = e.handoffs ∨ ∃ h : HandoffRecordV1, handoffs = e.handoffs.insert h.handoffId h) →
      Transition codec e c
        { (e.stored run).put k (e.applyEventCap { record with handoffId }) with budget := spent, handoffs } [run]
  /-- The result of an effect was kept, and nothing ran. -/
  | injected {k effect : String} {value : Json} {r : ExecutionRecord} :
      e.executions[k]? = some r → r.statusKind = "suspended" →
      expectedSuspension effect = .ok r.statusDetail →
      Transition codec e (.injectEffectAndResume k effect value)
        (e.put k { r with effectCache := r.effectCache.insert effect value }) []
  /-- The next slice of an execution failed. -/
  | advanceFailed {c : Call} {k : String} {r : ExecutionRecord} {e₁ : AgentEngine} {cp : CheckpointV1}
      {budget : Option ℕ} {hitl : Bool} {err : CoreError} {d : LoadedDefinition} {run : SchedulerRun} :
      Going codec e c k r e₁ cp budget hitl → Slice d (executorFor d budget hitl r.effectCache) e₁ run →
      run.call = .resume cp → run.outcome = .error err → Transition codec e c (e₁.stored run) [run]
  /-- The next slice of an execution was recorded. -/
  | advanced {c : Call} {k : String} {r : ExecutionRecord} {e₁ : AgentEngine} {cp : CheckpointV1}
      {budget : Option ℕ} {hitl : Bool} {d : LoadedDefinition} {run : SchedulerRun}
      {report : ExecutionReportV1} {record : ExecutionRecord} {spent : HostBudgetTracker} :
      Going codec e c k r e₁ cp budget hitl → Slice d (executorFor d budget hitl r.effectCache) e₁ run →
      run.call = .resume cp → run.outcome = .ok report →
      (e₁.stored run).mergeStepReport codec k r report = .ok record →
      Transition codec e c { (e₁.stored run).put k record with budget := spent } [run]

/-- The operation does what call `c` can do. -/
abbrev Does (codec : Codec) (c : Call) (e : AgentEngine) (p : EngineM α) : Prop :=
  p.Sat e fun _ e' log => Transition codec e c e' log

theorem guardNewExecution_fresh {stateJson : String} (h : e.guardNewExecution k stateJson = .ok ()) :
    e.executions.contains k = false := by
  obtain ⟨_, -, h⟩ := bind_eq_ok.mp h
  obtain ⟨_, -, h⟩ := bind_eq_ok.mp h
  obtain ⟨_, -, h⟩ := bind_eq_ok.mp h
  simpa using ensure_eq_ok.mp h

/-- Starting an execution, with what is done to its record. -/
theorem start_does {c : Call} {budget : Option ℕ} {stateJson : String} {finish : ExecutionRecord → EngineM β}
    (hc : Starting c k budget) (hk : e.executions.contains k = false)
    (hfinish : ∀ (r : ExecutionRecord) (e' : AgentEngine), (finish r).Sat e' fun _ e'' log => log = [] ∧
      ∃ handoffId spent handoffs,
        (handoffs = e'.handoffs ∨ ∃ h : HandoffRecordV1, handoffs = e'.handoffs.insert h.handoffId h) ∧
        e'' = { e'.put k (e.applyEventCap { r with handoffId }) with budget := spent, handoffs }) :
    Does codec c e (launch codec k stateJson budget >>= finish) := by
  refine Method.sat_bind.mpr ((launch_sat stateJson budget).mono fun res e' log h => ?_)
  cases h with
  | refused => exact .refused
  | failed hid hrun hcall hout => exact .startFailed hc hk hid hrun hcall hout
  | @recorded d id state run report record hid hrun hcall hout hrec =>
    refine (hfinish record (e.stored run)).mono fun res e'' log h => ?_
    obtain ⟨rfl, handoffId, spent, handoffs, hh, rfl⟩ := h
    exact .started hc hk hid hrun hcall hout hrec hh

theorem account_sat (r : ExecutionRecord) :
    (account k r).Sat e fun _ e' log => log = [] ∧
      e' = { e.put k r with budget := e.budget.syncRunTotals r.steps r.tokens r.costMicros } := by
  refine Method.sat_modify_bind.mpr ?_
  simp [install, AgentEngine.put]

theorem startExecution_does (stateJson : String) :
    Does codec (.startExecution k stateJson) e (startExecution codec k stateJson) := by
  refine Method.sat_read_bind.mpr (Method.Sat.ofExcept_bind (fun _ hg => ?_) fun _ _ => .refused)
  refine start_does .startExecution (guardNewExecution_fresh hg) fun r e' => ?_
  refine Method.sat_bind.mpr ((account_sat _).mono fun res e'' log h => ?_)
  obtain ⟨rfl, rfl⟩ := h
  cases res with
  | ok _ => exact Method.sat_pure.mpr ⟨rfl, r.handoffId, _, e'.handoffs, .inl rfl, rfl⟩
  | error _ => exact ⟨rfl, r.handoffId, _, e'.handoffs, .inl rfl, rfl⟩

theorem startWithBudget_does (stateJson : String) (n : ℕ) :
    Does codec (.startWithBudget k stateJson n) e (startWithBudget codec k stateJson n) := by
  refine Method.sat_read_bind.mpr (Method.Sat.ofExcept_bind (fun _ hg => ?_) fun _ _ => .refused)
  refine start_does .startWithBudget (guardNewExecution_fresh hg) fun r e' => ?_
  exact Method.sat_modify_bind.mpr (Method.sat_pure.mpr ⟨rfl, r.handoffId, e'.budget, e'.handoffs, .inl rfl, rfl⟩)

theorem acceptHandoff_does (envelopeJson stateJson parentJson : String) :
    Does codec (.acceptHandoff k envelopeJson stateJson parentJson) e
      (acceptHandoff codec k envelopeJson stateJson parentJson) := by
  refine Method.sat_read_bind.mpr (Method.Sat.ofExcept_bind (fun _ hg => ?_) fun _ _ => .refused)
  refine Method.Sat.ofExcept_bind (fun d _ => ?_) fun _ _ => .refused
  refine Method.Sat.ofExcept_bind (fun parent _ => ?_) fun _ _ => .refused
  refine Method.Sat.ofExcept_bind (fun envelope _ => ?_) fun _ _ => .refused
  refine Method.Sat.ofExcept_bind (fun _ _ => ?_) fun _ _ => .refused
  refine start_does .acceptHandoff (guardNewExecution_fresh hg) fun r e' => ?_
  refine Method.sat_bind.mpr ((account_sat _).mono fun res e'' log h => ?_)
  obtain ⟨rfl, rfl⟩ := h
  cases res with
  | ok _ =>
    let h : HandoffRecordV1 :=
      { version := 1, handoffId := s!"handoff-{k}", executionId := k, destination := envelope.destination.text
        returnContract := envelope.returnContract, parentAuthority := parent
        childAuthority := envelope.authorityProjection, status := "accepted", peerCanister := none
        message := "handoff accepted; execution started" }
    exact Method.sat_modify_bind.mpr (Method.sat_pure.mpr ⟨rfl, _, _, _, .inr ⟨h, rfl⟩, rfl⟩)
  | error _ => exact ⟨rfl, _, _, e'.handoffs, .inl rfl, rfl⟩

/-- Going on with an execution, with what is done to its record. -/
theorem advance_does {c : Call} {r : ExecutionRecord} {e₁ : AgentEngine} {cp : CheckpointV1} {budget : Option ℕ}
    {hitl : Bool} (edit : ExecutionRecord → ExecutionRecord) (hgo : Going codec e c k r e₁ cp budget hitl)
    (hkept : Transition codec e c e₁ [])
    (hedit : ∀ (e' : AgentEngine) (report : ExecutionReportV1) (record : ExecutionRecord),
      e'.mergeStepReport codec k r report = .ok record → edit record = record) :
    (proceed codec k r cp budget hitl >>= fun record => do
      account k (edit record)
      return edit record).Sat e₁ fun _ e' log => Transition codec e c e' log := by
  refine Method.sat_bind.mpr ((proceed_sat r cp budget hitl).mono fun res e' log h => ?_)
  cases h with
  | refused => exact hkept
  | failed hrun hcall hout => exact .advanceFailed hgo hrun hcall hout
  | @recorded d run report record hrun hcall hout hrec =>
    have hadv : ∀ spent, Transition codec e c { (e₁.stored run).put k record with budget := spent } [run] :=
      fun _ => .advanced hgo hrun hcall hout hrec
    simp only [hedit _ _ _ hrec]
    refine Method.sat_bind.mpr ((account_sat _).mono fun res e'' log h => ?_)
    obtain ⟨rfl, rfl⟩ := h
    cases res with
    | ok _ => exact Method.sat_pure.mpr (hadv _)
    | error _ => exact hadv _

theorem step_does (n : ℕ) : Does codec (.step k n) e (step codec k n) := by
  refine Method.sat_bind.mpr ((existing_sat k).mono fun res e' log h => ?_)
  obtain ⟨rfl, rfl, hr⟩ := h
  cases res with
  | error _ => exact .refused
  | ok r =>
    refine Method.Sat.ofExcept_bind (fun _ hg => ?_) fun _ _ => .refused
    refine Method.sat_read_bind.mpr (Method.sat_bind.mpr (sat_consult.mpr ⟨fun cp hcp => ?_, fun _ _ => .refused⟩))
    exact advance_does id (.step (hr r rfl) hg hcp) .refused fun _ _ _ _ => rfl

/-- A merged record has no timer. -/
theorem timerScheduled_of_merge {r record : ExecutionRecord} {report : ExecutionReportV1}
    (h : e.mergeStepReport codec k r report = .ok record) : { record with timerScheduled := false } = record := by
  obtain ⟨_, -, h⟩ := bind_eq_ok.mp h
  obtain ⟨_, -, h⟩ := bind_eq_ok.mp h
  obtain ⟨_, -, h⟩ := bind_eq_ok.mp h
  cases h
  rfl

/-- What `resume` does after the record was found, for a call that found `r` in `e₁`. -/
theorem resume_does_of {c : Call} {r : ExecutionRecord} {e₁ : AgentEngine} (hr : e₁.executions[k]? = some r)
    (hkept : Transition codec e c e₁ [])
    (hgo : ∀ cp, e₁.resumeCheckpoint codec r k = .ok cp → Going codec e c k r e₁ cp none r.awaitsHuman) :
    (resume codec k).Sat e₁ fun _ e' log => Transition codec e c e' log := by
  refine Method.sat_bind.mpr ((existing_sat k).mono fun res e' log h => ?_)
  obtain ⟨rfl, rfl, hr'⟩ := h
  cases res with
  | error _ => exact hkept
  | ok r' =>
    obtain rfl : r' = r := Option.some.inj ((hr' r' rfl).symm.trans hr)
    refine Method.sat_read_bind.mpr (Method.sat_bind.mpr (sat_consult.mpr ⟨fun cp hcp => ?_, fun _ _ => hkept⟩))
    exact advance_does (fun record => { record with timerScheduled := false }) (hgo cp hcp) hkept
      fun _ _ _ h => timerScheduled_of_merge h

theorem resume_does : Does codec (.resume k) e (resume codec k) := by
  cases hr : e.executions[k]? with
  | some r => exact resume_does_of hr .refused fun cp hcp => .resume hr hcp
  | none =>
    refine Method.sat_bind.mpr ((existing_sat k).mono fun res e' log h => ?_)
    obtain ⟨rfl, rfl, hr'⟩ := h
    cases res with
    | error _ => exact .refused
    | ok r => simp [hr] at hr'

theorem injectEffectAndResume_does (effect : String) (value : Json) :
    Does codec (.injectEffectAndResume k effect value) e (injectEffectAndResume codec k effect value) := by
  refine Method.sat_bind.mpr ((existing_sat k).mono fun res e' log h => ?_)
  obtain ⟨rfl, rfl, hr⟩ := h
  cases res with
  | error _ => exact .refused
  | ok r =>
    have hr := hr r rfl
    refine Method.Sat.ofExcept_bind (fun _ hs => ?_) fun _ _ => .refused
    refine Method.Sat.ofExcept_bind (fun expected he => ?_) fun _ _ => .refused
    refine Method.Sat.ofExcept_bind (fun _ hd => ?_) fun _ _ => .refused
    have hs := ensure_eq_ok.mp hs
    have hd : expectedSuspension effect = .ok r.statusDetail := ensure_eq_ok.mp hd ▸ he
    refine Method.sat_modify_bind.mpr ?_
    exact resume_does_of (by simp) (.injected hr hs hd) fun cp hcp => .inject hr hs hd rfl hcp

theorem atDesk_sat {p : Method (ToolRegistry.Desk HostTool) (ToolRegistry.GateEvent HostTool) CoreError Abort α} :
    (atDesk p).Sat e fun _ e' log => log = [] ∧ ∃ tools budget, e' = { e with tools, budget } := by
  intro r hr
  unfold atDesk at hr
  split at hr
  · cases hr
    exact ⟨rfl, _, _, rfl⟩
  · cases hr

theorem runToolForPending_does : Does codec (.runToolForPending k) e (runToolForPending codec k) := by
  refine Method.sat_bind.mpr ((existing_sat k).mono fun res e' log h => ?_)
  obtain ⟨rfl, rfl, hr⟩ := h
  cases res with
  | error _ => exact .refused
  | ok r =>
    refine Method.Sat.ofExcept_bind (fun _ _ => ?_) fun _ _ => .refused
    refine Method.sat_read_bind.mpr (Method.sat_bind.mpr (atDesk_sat.mono fun res e'' log h => ?_))
    obtain ⟨rfl, tools, budget, rfl⟩ := h
    cases res with
    | error _ => exact .toolRun (hr r rfl)
    | ok result => exact Method.sat_modify_bind.mpr (Method.sat_pure.mpr (.toolRun (hr r rfl)))

theorem loadDefinition_does (json : String) : Does codec (.loadDefinition json) e (loadDefinition codec json) := by
  refine Method.Sat.ofExcept_bind (fun d hd => ?_) fun _ _ => .refused
  exact Method.sat_modify_bind.mpr (Method.sat_pure.mpr (.loaded hd))

theorem clearDefinition_does : Does codec .clearDefinition e clearDefinition :=
  Method.sat_read_bind.mpr (Method.sat_modify_bind.mpr (Method.sat_pure.mpr .cleared))

theorem setLimits_does (limits : RuntimeLimitsV1) : Does codec (.setLimits limits) e (setLimits limits) := by
  refine Method.Sat.ofExcept_bind (fun _ _ => ?_) fun _ _ => .refused
  refine Method.Sat.ofExcept_bind (fun _ _ => ?_) fun _ _ => .refused
  exact Method.sat_modify.mpr .limited

/-- Dropping what an operation returns does nothing. -/
theorem Does.drop {c : Call} {p : EngineM α} (h : Does codec c e p) :
    Does codec c e (do let _ ← p) := by
  refine Method.sat_bind.mpr (h.mono fun res e' log ht => ?_)
  cases res with
  | ok _ => exact Method.sat_pure.mpr (by simpa using ht)
  | error _ => exact ht

/-- **A call does nothing else.** -/
theorem perform_transition (c : Call) : Does codec c e (c.perform codec) := by
  cases c with
  | loadDefinition json => exact (loadDefinition_does json).drop
  | clearDefinition => exact clearDefinition_does.drop
  | setLimits limits => exact setLimits_does limits
  | startExecution k state => exact (startExecution_does state).drop
  | startWithBudget k state n => exact (startWithBudget_does state n).drop
  | acceptHandoff k envelope state parent => exact (acceptHandoff_does envelope state parent).drop
  | step k n => exact (step_does n).drop
  | resume k => exact resume_does.drop
  | injectEffectAndResume k effect value => exact (injectEffectAndResume_does effect value).drop
  | runToolForPending k => exact runToolForPending_does.drop

end Knolo.Icp
