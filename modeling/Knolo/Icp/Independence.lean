import Knolo.Icp.Frame
import Knolo.Library.Relational

/-!
# Executions do not depend on each other

The executions of a canister share an engine: its definition and limits, one map of records, one store of
checkpoints, one budget. For the operations on executions, what is shared does not carry anything from one
execution to another. Take any group of executions and leave out every operation on the others: what the engine
keeps of the group, the runs of the scheduler for it and what every operation on it returns are the same. Only
the room for new executions is shared: an operation that starts one has to find some.

* `Restricts` — an engine keeps of a group of executions what another does, and no other executions.
* `perform_matched` — an operation on the group does the same in both.
* `executions_independent` — any run, restricted to the operations on the group.
-/

namespace Knolo.Icp

open Core Library Library.Fallible Library.Prog Library.Method Host Knolo.Runtime

/-- `f` keeps of the executions of the group `K` what `e` does, and no others. -/
structure Restricts (K : String → Bool) (e f : AgentEngine) : Prop where
  definition : f.definition = e.definition
  limits : f.limits = e.limits
  kept : ∀ k, K k = true → Kept k e f
  within : ∀ k, K k = false → f.executions[k]? = none

variable {codec : Codec} {K : String → Bool} {e f : AgentEngine} {k : String}

/-! ### What the engines share -/

namespace Restricts

variable (h : Restricts K e f)
include h

theorem loaded : f.loaded = e.loaded := by rw [AgentEngine.loaded, AgentEngine.loaded, h.definition]

theorem applyEventCap : f.applyEventCap = e.applyEventCap := by
  unfold AgentEngine.applyEventCap
  rw [h.limits]

theorem synthesizeSuspendCheckpoint (r : ExecutionRecord) :
    f.synthesizeSuspendCheckpoint codec k r = e.synthesizeSuspendCheckpoint codec k r := by
  unfold AgentEngine.synthesizeSuspendCheckpoint
  rw [h.loaded]

theorem pendingResumeOf (r : ExecutionRecord) (last : Option CheckpointV1) :
    f.pendingResumeOf codec k r last = e.pendingResumeOf codec k r last := by
  unfold AgentEngine.pendingResumeOf
  rw [h.synthesizeSuspendCheckpoint]

variable (hk : K k = true)
include hk

theorem record : f.executions[k]? = e.executions[k]? := (h.kept k hk).record

theorem contains : f.executions.contains k = e.executions.contains k := by
  rw [← Std.ExtTreeMap.isSome_getElem?_eq_contains, ← Std.ExtTreeMap.isSome_getElem?_eq_contains, h.record hk]

/-- The identifier of an execution, and what the stores have of it. -/
theorem identified {α : Type} (x : ExecutionId → Option CheckpointV1 → Except Abort α) :
    (liftError (executionIdFrom codec k) >>= fun id => x id (f.store.load id)) =
      liftError (executionIdFrom codec k) >>= fun id => x id (e.store.load id) := by
  cases hid : executionIdFrom codec k with
  | error err => rfl
  | ok id =>
    have hload := (h.kept k hk).checkpoint id (executionIdFrom_eq_ok.mp hid)
    simp only [liftError, ok_bind, hload]

theorem recordFromReport (report : ExecutionReportV1) (cache : Std.ExtTreeMap String Json) :
    f.recordFromReport codec k report cache = e.recordFromReport codec k report cache := by
  unfold AgentEngine.recordFromReport
  simp only [h.pendingResumeOf, h.applyEventCap]
  exact h.identified hk fun _ last => do
    let pendingResume ← e.pendingResumeOf codec k (draft codec k report cache none) last
    return e.applyEventCap
      { draft codec k report cache none with lastCheckpoint := last.or pendingResume, pendingResume }

theorem mergeStepReport (r : ExecutionRecord) (report : ExecutionReportV1) :
    f.mergeStepReport codec k r report = e.mergeStepReport codec k r report := by
  unfold AgentEngine.mergeStepReport
  simp only [h.pendingResumeOf, h.applyEventCap]
  exact h.identified hk fun _ stored => do
    let last := stored.or r.lastCheckpoint
    let pendingResume ← e.pendingResumeOf codec k (draft codec k report r.effectCache r.handoffId) last
    let events ← mergeEvents r.events report.events
    return e.applyEventCap
      { draft codec k report r.effectCache r.handoffId with
        events, lastCheckpoint := last.or pendingResume, pendingResume }

theorem checkpointFor (r : ExecutionRecord) : f.checkpointFor codec r k = e.checkpointFor codec r k := by
  have hload : (Identifier.new k).toOption.bind f.store.load = (Identifier.new k).toOption.bind e.store.load := by
    cases hid : Identifier.new k with
    | error err => rfl
    | ok id =>
      have hfrom : executionIdFrom codec k = .ok id := by
        rw [executionIdFrom, hid]
        rfl
      exact (h.kept k hk).checkpoint id (executionIdFrom_eq_ok.mp hfrom)
  unfold AgentEngine.checkpointFor
  rw [hload]
  simp only [h.synthesizeSuspendCheckpoint]

theorem resumeCheckpoint (r : ExecutionRecord) : f.resumeCheckpoint codec r k = e.resumeCheckpoint codec r k := by
  unfold AgentEngine.resumeCheckpoint AgentEngine.checkpointForHitlResume
  rw [h.checkpointFor hk]

end Restricts

/-! ### What operations change -/

/-- The same record, in its place. -/
theorem Restricts.put (h : Restricts K e f) (hk : K k = true) (r : ExecutionRecord) :
    Restricts K (e.put k r) (f.put k r) where
  definition := h.definition
  limits := h.limits
  kept k' hk' := by
    refine ⟨?_, (h.kept k' hk').checkpoint⟩
    by_cases hkk : k = k'
    · subst hkk
      rw [put_get, put_get]
    · rw [put_get_ne _ _ hkk, put_get_ne _ _ hkk, (h.kept k' hk').record]
  within k' hk' := by
    rw [put_get_ne _ _ fun hkk => by simp [← hkk, hk] at hk', h.within k' hk']

/-- Whatever the budgets, the tools, the handoffs and the pack are. -/
theorem Restricts.rest (h : Restricts K e f) (b b' : HostBudgetTracker) (t t' : ToolRegistry HostTool)
    (hs hs' : Std.ExtTreeMap String HandoffRecordV1) (p p' : Option PackMetaV1) :
    Restricts K { e with budget := b, tools := t, handoffs := hs, packMeta := p }
      { f with budget := b', tools := t', handoffs := hs', packMeta := p' } :=
  ⟨h.definition, h.limits, fun k hk => ⟨h.record hk, (h.kept k hk).checkpoint⟩, h.within⟩

/-- Without any execution. -/
theorem Restricts.drop (h : f.limits = e.limits) (d : Option LoadedDefinition) :
    Restricts K { e with definition := d, executions := ∅, store := .empty }
      { f with definition := d, executions := ∅, store := .empty } :=
  ⟨rfl, h, fun _ _ => ⟨rfl, fun _ _ => rfl⟩, fun _ _ => by simp⟩

/-- What a run does not read is the store. -/
theorem store_unread {X α : Type} (exec : Executor X) (cancelled : Bool) (now : ℕ) (p : Run α) {w w' : World X}
    (h : w'.executor = w.executor) :
    (p.run (surroundings exec cancelled now) w').1 = (p.run (surroundings exec cancelled now) w).1 ∧
      p.trace (surroundings exec cancelled now) w' = p.trace (surroundings exec cancelled now) w := by
  induction p generalizing w w' with
  | ret a => exact ⟨rfl, rfl⟩
  | throw err => exact ⟨rfl, rfl⟩
  | call c next ih =>
    have hanswer : (surroundings exec cancelled now c w').1 = (surroundings exec cancelled now c w).1 := by
      cases c <;> simp [surroundings, h]
    have hafter : (surroundings exec cancelled now c w').2.executor = (surroundings exec cancelled now c w).2.executor := by
      cases c <;> simp [surroundings, h]
    obtain ⟨hrun, htrace⟩ := ih (surroundings exec cancelled now c w).1 hafter
    rw [run_call, run_call, trace_call, trace_call, hanswer]
    exact ⟨hrun, congrArg _ htrace⟩

theorem load_saveAll_congr {s t : InMemoryCheckpointStore} {id : ExecutionId} (h : t.load id = s.load id)
    (cps : List CheckpointV1) : (t.saveAll cps).load id = (s.saveAll cps).load id := by
  induction cps generalizing s t with
  | nil => exact h
  | cons cp cps ih =>
    refine ih ?_
    by_cases hid : cp.executionId = id
    · simp [InMemoryCheckpointStore.load, InMemoryCheckpointStore.save, hid]
    · simpa [InMemoryCheckpointStore.load, InMemoryCheckpointStore.save, Std.ExtTreeMap.getElem?_insert, hid] using h

/-! ### Operations -/

section Operations

variable (h : Restricts K e f)
include h

/-- A slice runs alike. -/
theorem schedule_matched (d : LoadedDefinition) (x : DeterministicExecutor) (call : Invocation) :
    Matched (Restricts K) (schedule d x call e) (schedule d x call f) := by
  have hexecutor : (f.world x).executor = (e.world x).executor := rfl
  obtain ⟨hrun, htrace⟩ := store_unread DeterministicExecutor.execute false deterministicNowMs
    (call.program d.scheduler) hexecutor
  have hstore : Restricts K
      { e with store := ((call.program d.scheduler).run sliceHost (e.world x)).2.store }
      { f with store := ((call.program d.scheduler).run sliceHost (f.world x)).2.store } := by
    simp only [sliceHost, store_run, htrace]
    exact ⟨h.definition, h.limits, fun k hk => ⟨h.record hk, fun id hid =>
      load_saveAll_congr ((h.kept k hk).checkpoint id hid) _⟩, h.within⟩
  have hrun' : ((call.program d.scheduler).run sliceHost (f.world x)).1 =
      ((call.program d.scheduler).run sliceHost (e.world x)).1 := hrun
  have htrace' : (call.program d.scheduler).trace sliceHost (f.world x) =
      (call.program d.scheduler).trace sliceHost (e.world x) := htrace
  unfold schedule
  simp only [hrun', htrace']
  generalize ((call.program d.scheduler).run sliceHost (e.world x)).1 = out
  cases out with
  | ok report => exact .returned hstore
  | error a =>
    cases a with
    | error err => exact .returned hstore
    | _ => exact .aborted _

theorem consult_matched {α : Type} {x y : Except Abort α} (hxy : x = y) :
    Matched (Restricts K) (consult x e) (consult y f) := by
  subst hxy
  cases x with
  | ok a => exact .returned h
  | error a =>
    cases a with
    | error err => exact .returned h
    | _ => exact .aborted _

/-- A slice from the loaded definition. -/
theorem sliced_matched (x : LoadedDefinition → DeterministicExecutor) (call : Invocation) :
    Matched (Restricts K)
      ((do let e ← Method.read
           let d ← Method.ofExcept e.loaded
           schedule d (x d) call : EngineM ExecutionReportV1) e)
      ((do let e ← Method.read
           let d ← Method.ofExcept e.loaded
           schedule d (x d) call : EngineM ExecutionReportV1) f) :=
  matched_read_bind (matched_ofExcept_bind h.loaded.symm h fun d _ => schedule_matched h d (x d) call)

variable (hk : K k = true)
include hk

theorem install_matched (r : ExecutionRecord) : Matched (Restricts K) (install k r e) (install k r f) :=
  matched_modify (h.put hk r)

theorem account_matched (r : ExecutionRecord) : Matched (Restricts K) (account k r e) (account k r f) :=
  matched_modify_bind (install_matched (h.rest _ _ _ _ _ _ _ _) hk r)

theorem existing_matched : Matched (Restricts K) (existing k e) (existing k f) := by
  refine matched_read_bind ?_
  rw [h.record hk]
  cases e.executions[k]? with
  | none => exact matched_ofExcept rfl h
  | some r => exact matched_pure r h

theorem launch_matched (stateJson : String) (budget : Option ℕ) :
    Matched (Restricts K) (launch codec k stateJson budget e) (launch codec k stateJson budget f) := by
  refine matched_ofExcept_bind rfl h fun state _ => matched_ofExcept_bind rfl h fun id _ => ?_
  refine (sliced_matched h (executorFor · budget false ∅) (.run id state)).bind fun report e' f' h' => ?_
  exact matched_read_bind (consult_matched h' (h'.recordFromReport hk report ∅).symm)

theorem proceed_matched (r : ExecutionRecord) (cp : CheckpointV1) (budget : Option ℕ) (hitl : Bool) :
    Matched (Restricts K) (proceed codec k r cp budget hitl e) (proceed codec k r cp budget hitl f) := by
  refine matched_ofExcept_bind rfl h fun id _ => ?_
  refine (sliced_matched h (executorFor · budget hitl r.effectCache) (.resume cp)).bind fun report e' f' h' => ?_
  exact matched_read_bind (consult_matched h' (h'.mergeStepReport hk r report).symm)

theorem step_matched (n : ℕ) : Matched (Restricts K) (step codec k n e) (step codec k n f) := by
  refine (existing_matched h hk).bind fun r e₁ f₁ h₁ => matched_ofExcept_bind rfl h₁ fun _ _ => ?_
  refine matched_read_bind ((consult_matched h₁ (h₁.checkpointFor hk r).symm).bind fun cp e₂ f₂ h₂ => ?_)
  refine (proceed_matched h₂ hk r cp _ _).bind fun record e₃ f₃ h₃ => ?_
  exact (account_matched h₃ hk record).bind fun _ _ _ h₄ => matched_pure record h₄

theorem resume_matched : Matched (Restricts K) (resume codec k e) (resume codec k f) := by
  refine (existing_matched h hk).bind fun r e₁ f₁ h₁ => ?_
  refine matched_read_bind ((consult_matched h₁ (h₁.resumeCheckpoint hk r).symm).bind fun cp e₂ f₂ h₂ => ?_)
  refine (proceed_matched h₂ hk r cp _ _).bind fun record e₃ f₃ h₃ => ?_
  exact (account_matched h₃ hk _).bind fun _ _ _ h₄ => matched_pure _ h₄

theorem injectEffectAndResume_matched (effect : String) (value : Json) :
    Matched (Restricts K) (injectEffectAndResume codec k effect value e)
      (injectEffectAndResume codec k effect value f) := by
  refine (existing_matched h hk).bind fun r e₁ f₁ h₁ => matched_ofExcept_bind rfl h₁ fun _ _ => ?_
  refine matched_ofExcept_bind rfl h₁ fun expected _ => matched_ofExcept_bind rfl h₁ fun _ _ => ?_
  exact (install_matched h₁ hk _).bind fun _ _ _ h₂ => resume_matched h₂ hk

end Operations

/-! ### Starting an execution -/

/-- A map whose keys another has is no larger. -/
theorem size_le_of_keys {V W : Type} {m : Std.ExtTreeMap String V} {n : Std.ExtTreeMap String W}
    (h : ∀ k, k ∈ m → k ∈ n) : m.size ≤ n.size := by
  rw [← Std.ExtTreeMap.length_keys, ← Std.ExtTreeMap.length_keys]
  refine (List.subperm_of_subset Std.ExtTreeMap.nodup_keys fun k hk => ?_).length_le
  exact Std.ExtTreeMap.mem_keys.mpr (h k (Std.ExtTreeMap.mem_keys.mp hk))

theorem Restricts.size_le (h : Restricts K e f) : f.executions.size ≤ e.executions.size := by
  refine size_le_of_keys fun k hk => ?_
  have hk' : f.executions.contains k = true := Std.ExtTreeMap.mem_iff_contains.mp hk
  cases hK : K k with
  | true => exact Std.ExtTreeMap.mem_iff_contains.mpr (h.contains hK ▸ hk')
  | false =>
    rw [← Std.ExtTreeMap.isSome_getElem?_eq_contains, h.within k hK] at hk'
    cases hk'

/-- There is room for one more execution. -/
def AgentEngine.HasRoom (e : AgentEngine) : Prop := e.executions.size < e.limits.maxConcurrentExecutions

instance : DecidablePred AgentEngine.HasRoom := fun _ => inferInstanceAs (Decidable (_ < _))

theorem checkCapacity_of_lt {l : RuntimeLimitsV1} {n : ℕ} (h : n < l.maxConcurrentExecutions) :
    l.checkCapacity n = .ok () := ensure_eq_ok.mpr (by simpa using h)

section Starting

variable (h : Restricts K e f) (hk : K k = true)
include h hk

/-- Where there is room, the checks of a new execution come to the same. -/
theorem Restricts.guardNewExecution (hroom : e.HasRoom) (stateJson : String) :
    f.guardNewExecution k stateJson = e.guardNewExecution k stateJson := by
  have hroom' : f.executions.size < e.limits.maxConcurrentExecutions := lt_of_le_of_lt h.size_le hroom
  unfold AgentEngine.guardNewExecution
  rw [h.limits, h.contains hk, checkCapacity_of_lt hroom, checkCapacity_of_lt hroom']

theorem startExecution_matched (hroom : e.HasRoom) (stateJson : String) :
    Matched (Restricts K) (startExecution codec k stateJson e) (startExecution codec k stateJson f) := by
  refine matched_read_bind (matched_ofExcept_bind (h.guardNewExecution hk hroom stateJson).symm h fun _ _ => ?_)
  refine (launch_matched h hk stateJson none).bind fun record e₁ f₁ h₁ => ?_
  rw [h.applyEventCap]
  exact (account_matched h₁ hk _).bind fun _ _ _ h₂ => matched_pure _ h₂

theorem startWithBudget_matched (hroom : e.HasRoom) (stateJson : String) (n : ℕ) :
    Matched (Restricts K) (startWithBudget codec k stateJson n e) (startWithBudget codec k stateJson n f) := by
  refine matched_read_bind (matched_ofExcept_bind (h.guardNewExecution hk hroom stateJson).symm h fun _ _ => ?_)
  refine (launch_matched h hk stateJson _).bind fun record e₁ f₁ h₁ => ?_
  rw [h.applyEventCap]
  exact (install_matched h₁ hk _).bind fun _ _ _ h₂ => matched_pure _ h₂

theorem acceptHandoff_matched (hroom : e.HasRoom) (envelopeJson stateJson parentJson : String) :
    Matched (Restricts K) (acceptHandoff codec k envelopeJson stateJson parentJson e)
      (acceptHandoff codec k envelopeJson stateJson parentJson f) := by
  refine matched_read_bind (matched_ofExcept_bind (h.guardNewExecution hk hroom stateJson).symm h fun _ _ => ?_)
  refine matched_ofExcept_bind h.loaded.symm h fun d _ => matched_ofExcept_bind rfl h fun parent _ => ?_
  refine matched_ofExcept_bind (by rw [h.limits]) h fun envelope _ => matched_ofExcept_bind rfl h fun _ _ => ?_
  refine (launch_matched h hk stateJson none).bind fun record e₁ f₁ h₁ => ?_
  rw [h.applyEventCap]
  refine (account_matched h₁ hk _).bind fun _ e₂ f₂ h₂ => matched_modify_bind ?_
  exact matched_pure _ (h₂.rest _ _ _ _ _ _ _ _)

end Starting

/-! ### Calls -/

/-- The call starts an execution. -/
def Call.starts : Call → Bool
  | .startExecution .. | .startWithBudget .. | .acceptHandoff .. => true
  | _ => false

/-- The call is one on an execution of the group, or on the engine as a whole. Running a tool is not among these:
it uses up what all executions may use. -/
def Call.concerns (K : String → Bool) : Call → Bool
  | .runToolForPending _ => false
  | c => c.target.all K

theorem setLimits_matched (h : Restricts K e f) (limits : RuntimeLimitsV1) :
    Matched (Restricts K) (setLimits limits e) (setLimits limits f) := by
  refine matched_ofExcept_bind rfl h fun _ _ => matched_ofExcept_bind rfl h fun _ _ => matched_modify ?_
  exact ⟨h.definition, rfl, fun k hk => ⟨h.record hk, (h.kept k hk).checkpoint⟩, h.within⟩

theorem loadDefinition_matched (h : Restricts K e f) (json : String) :
    Matched (Restricts K) (loadDefinition codec json e) (loadDefinition codec json f) := by
  refine matched_ofExcept_bind rfl h fun d _ => matched_modify_bind (matched_pure _ ?_)
  exact (Restricts.drop h.limits (some d)).rest _ _ _ _ _ _ _ _

theorem clearDefinition_matched (h : Restricts K e f) :
    Matched (Restricts K) (clearDefinition e) (clearDefinition f) := by
  refine matched_read_bind (matched_modify_bind ?_)
  rw [h.definition]
  exact matched_pure _ ((Restricts.drop h.limits none).rest _ _ _ _ _ _ _ _)

/-- **A call that concerns the group does the same in both engines**, if it finds room where it needs some. -/
theorem perform_matched (h : Restricts K e f) {c : Call} (hc : c.concerns K = true)
    (hroom : c.starts = true → e.HasRoom) :
    Matched (Restricts K) (c.perform codec e) (c.perform codec f) := by
  have hdrop : ∀ {α : Type} {p : EngineM α}, Matched (Restricts K) (p e) (p f) →
      Matched (Restricts K) ((do let _ ← p : EngineM Unit) e) ((do let _ ← p : EngineM Unit) f) :=
    fun hp => hp.bind fun _ _ _ h' => matched_pure _ h'
  cases c with
  | loadDefinition json => exact hdrop (loadDefinition_matched h json)
  | clearDefinition => exact hdrop (clearDefinition_matched h)
  | setLimits limits => exact setLimits_matched h limits
  | startExecution k state => exact hdrop (startExecution_matched h hc (hroom rfl) state)
  | startWithBudget k state n =>
    exact hdrop (startWithBudget_matched h hc (hroom rfl) state n)
  | acceptHandoff k envelope state parent =>
    exact hdrop (acceptHandoff_matched h hc (hroom rfl) envelope state parent)
  | step k n => exact hdrop (step_matched h hc n)
  | resume k => exact hdrop (resume_matched h hc)
  | injectEffectAndResume k effect value =>
    exact hdrop (injectEffectAndResume_matched h hc effect value)
  | runToolForPending k => cases hc

/-- A call on an execution keeps the definition and the limits. -/
theorem Transition.shared {c : Call} {log : List SchedulerRun} (h : Transition codec e c f log)
    (ht : c.target ≠ none) : f.definition = e.definition ∧ f.limits = e.limits := by
  have hgo : ∀ {k : String} {r : ExecutionRecord} {e₁ : AgentEngine} {cp : CheckpointV1} {budget : Option ℕ}
      {hitl : Bool}, Going codec e c k r e₁ cp budget hitl →
        e₁.definition = e.definition ∧ e₁.limits = e.limits := by
    intro k r e₁ cp budget hitl h
    cases h <;> exact ⟨rfl, rfl⟩
  cases h with
  | refused => exact ⟨rfl, rfl⟩
  | loaded _ => exact absurd rfl ht
  | cleared => exact absurd rfl ht
  | limited => exact absurd rfl ht
  | toolRun _ => exact ⟨rfl, rfl⟩
  | startFailed _ _ _ _ _ _ => exact ⟨rfl, rfl⟩
  | started _ _ _ _ _ _ _ _ => exact ⟨rfl, rfl⟩
  | injected _ _ _ => exact ⟨rfl, rfl⟩
  | advanceFailed h _ _ _ =>
    have hshared := hgo h
    exact hshared
  | advanced h _ _ _ _ =>
    have hshared := hgo h
    exact hshared

/-- Nothing runs for a tool, and the executions stay as they are. -/
theorem Transition.tool {log : List SchedulerRun} (h : Transition codec e (.runToolForPending k) f log) :
    log = [] ∧ f.executions = e.executions ∧ f.store = e.store := by
  cases h with
  | refused => exact ⟨rfl, rfl, rfl⟩
  | toolRun _ => exact ⟨rfl, rfl, rfl⟩
  | startFailed hc _ _ _ _ _ => cases hc
  | started hc _ _ _ _ _ _ _ => cases hc
  | advanceFailed hgo _ _ _ => cases hgo
  | advanced hgo _ _ _ _ => cases hgo

/-- A call that concerns the group, on an execution, is on one of the group. -/
theorem mem_of_concerns {c : Call} (hc : c.concerns K = true) (ht : c.target = some k) : K k = true := by
  cases c with
  | runToolForPending _ => cases hc
  | loadDefinition _ | clearDefinition | setLimits _ => cases ht
  | _ =>
    cases ht
    exact hc

/-- A call that does not concern the group runs a tool, or is on another execution. -/
theorem of_not_concerns {c : Call} (hc : c.concerns K = false) :
    (∃ k, c = .runToolForPending k) ∨ ∃ k, c.target = some k ∧ K k = false ∧ c.resets = false := by
  cases c with
  | runToolForPending k => exact .inl ⟨k, rfl⟩
  | loadDefinition _ | clearDefinition | setLimits _ => cases hc
  | _ => exact .inr ⟨_, rfl, hc, rfl⟩

/-- A call that does not concern the group keeps what the engine has of it, and runs nothing for it. -/
theorem Transition.unseen {c : Call} {log : List SchedulerRun} (h : Transition codec e c f log) (ho : Owned e)
    (hc : c.concerns K = false) :
    f.definition = e.definition ∧ f.limits = e.limits ∧ (∀ k, K k = true → Kept k e f) ∧
      ∀ run ∈ log, K run.call.id.text = false := by
  rcases of_not_concerns hc with ⟨j, rfl⟩ | ⟨j, ht, hj, hresets⟩
  · obtain ⟨hdefinition, hlimits⟩ := h.shared (by rintro ⟨⟩)
    obtain ⟨rfl, hexecutions, hstore⟩ := h.tool
    exact ⟨hdefinition, hlimits, fun k _ => ⟨by rw [hexecutions], fun _ _ => by rw [hstore]⟩, by simp⟩
  · obtain ⟨hdefinition, hlimits⟩ := h.shared (by rw [ht]; exact Option.some_ne_none j)
    obtain ⟨-, hown, hkept⟩ := h.frame ho
    refine ⟨hdefinition, hlimits, fun k hk => hkept hresets k fun hjk => ?_, fun run hrun => ?_⟩
    · rw [ht, Option.some.injEq] at hjk
      rw [← hjk, hj] at hk
      cases hk
    · rw [← Option.some.inj (ht.symm.trans (hown run hrun)), hj]

/-! ### Runs -/

/-- A new engine, after calls. -/
def engineAfter (codec : Codec) (cs : List Call) : EngineSession :=
  (sessionFrom .default).run (Call.perform codec) cs

/-- Every call that starts an execution of the group finds room for it. -/
def Roomy (codec : Codec) (K : String → Bool) (cs : List Call) : Prop :=
  ∀ i, ∀ hi : i < cs.length, cs[i].starts = true → cs[i].concerns K = true →
    (engineAfter codec (cs.take i)).state.HasRoom

instance {cs : List Call} : Decidable (Roomy codec K cs) := Nat.decidableBallLT _ _

section Runs

variable {cs : List Call} (hroom : Roomy codec K cs) {pre post : List Call} {c : Call} (hcs : cs = pre ++ c :: post)
include hroom hcs

theorem Roomy.hasRoom (hc : c.concerns K = true) (hstarts : c.starts = true) :
    (engineAfter codec pre).state.HasRoom := by
  subst hcs
  simpa [hstarts, hc] using hroom pre.length (by simp)

/-- The group sees the calls that concern it. -/
theorem Roomy.seen (hc : c.concerns K = true) :
    Session.Seen (Restricts K) (fun run => K run.call.id.text) (Call.perform codec) (engineAfter codec pre).state c where
  matched _ hy := perform_matched hy hc (hroom.hasRoom hcs hc)
  shown run hrun :=
    have hframe := (after_transition codec (engineAfter codec pre) c).frame (Reachable.owned ⟨pre, rfl⟩)
    mem_of_concerns hc (hframe.2.1 run hrun)

omit hroom hcs in
/-- It does not see the others. -/
theorem unseen_of_not_concerns (hc : c.concerns K = false) :
    Session.Unseen (Restricts K) (fun run => K run.call.id.text) (Call.perform codec) (engineAfter codec pre) c := by
  obtain ⟨hdefinition, hlimits, hkept, hhidden⟩ :=
    (after_transition codec (engineAfter codec pre) c).unseen (Reachable.owned ⟨pre, rfl⟩) hc
  refine ⟨fun y hy => ⟨hy.definition.trans hdefinition.symm, hy.limits.trans hlimits.symm, fun k hk => ?_, hy.within⟩,
    hhidden⟩
  exact ⟨(hy.record hk).trans (hkept k hk).record.symm, fun id hid =>
    ((hy.kept k hk).checkpoint id hid).trans ((hkept k hk).checkpoint id hid).symm⟩

omit hcs in
/-- A run restricts to the calls that concern the group. -/
theorem Roomy.restricts :
    Restricts K (engineAfter codec cs).state (engineAfter codec (cs.filter (·.concerns K))).state ∧
      (engineAfter codec (cs.filter (·.concerns K))).log =
        (engineAfter codec cs).log.filter (fun run => K run.call.id.text) := by
  have hfresh : Restricts K (sessionFrom .default).state (sessionFrom .default).state :=
    ⟨rfl, rfl, fun k _ => .refl k _, fun k _ => by simp [sessionFrom, AgentEngine.default]⟩
  exact Session.run_filter hfresh rfl cs (fun _ _ _ h hc => hroom.seen h hc)
    fun _ _ _ _ hc => unseen_of_not_concerns hc

omit hcs in
/-- The calls before one find room as well. -/
theorem Roomy.of_append {rest : List Call} (h : cs = pre ++ rest) : Roomy codec K pre := by
  subst h
  intro i hi hstarts hc
  have hroom' := hroom i (by rw [List.length_append]; omega)
  rw [List.getElem_append_left hi, List.take_append_of_le_length hi.le] at hroom'
  exact hroom' hstarts hc

end Runs

/-- **Executions do not depend on each other.** After any calls, the records and the checkpoints of the executions
of a group are those that the calls concerning the group alone lead to; the scheduler has run for them as it does
then; and each of these calls has returned the same. -/
theorem executions_independent (codec : Codec) (K : String → Bool) (cs : List Call) (hroom : Roomy codec K cs) :
    Restricts K (engineAfter codec cs).state (engineAfter codec (cs.filter (·.concerns K))).state ∧
      (engineAfter codec (cs.filter (·.concerns K))).log =
        (engineAfter codec cs).log.filter (fun run => K run.call.id.text) ∧
      ∀ pre c post, cs = pre ++ c :: post → c.concerns K = true →
        Session.reply (Call.perform codec) (engineAfter codec (pre.filter (·.concerns K))).state c =
          Session.reply (Call.perform codec) (engineAfter codec pre).state c := by
  obtain ⟨hstate, hlog⟩ := hroom.restricts
  refine ⟨hstate, hlog, fun pre c post hcs hc => ?_⟩
  obtain ⟨hpre, -⟩ := (hroom.of_append hcs).restricts
  exact (Session.after_of_matched hpre ((hroom.seen hcs hc).matched _ hpre)).2.2

/-- Two review loops, in turns. -/
def reviewsInTurn : List Call :=
  [.loadDefinition reviewSample.text, .startExecution "e" (Sample.stateText phaseValue),
    .startExecution "f" (Sample.stateText phaseValue), .resume "e", .resume "f"]

/-- One of them, alone. -/
def reviewAlone : List Call :=
  [.loadDefinition reviewSample.text, .startExecution "f" (Sample.stateText phaseValue), .resume "f"]

/-- The second one does not notice the first. -/
theorem executions_independent_reviews :
    Restricts (· == "f") (engineAfter reviewCodec reviewsInTurn).state (engineAfter reviewCodec reviewAlone).state ∧
      (engineAfter reviewCodec reviewAlone).log =
        (engineAfter reviewCodec reviewsInTurn).log.filter (fun run => run.call.id.text == "f") ∧
      (engineAfter reviewCodec reviewsInTurn).log.length = 4 := by
  obtain ⟨hstate, hlog, -⟩ := executions_independent reviewCodec (· == "f") reviewsInTurn (by decide +kernel)
  exact ⟨hstate, hlog, by decide +kernel⟩

end Knolo.Icp
