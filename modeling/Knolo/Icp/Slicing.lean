import Knolo.Icp.Calls
import Knolo.Icp.Frame
import Knolo.Runtime.Slices
import Mathlib.Data.PNat.Defs

/-!
# Executions in slices

An execution is started with a budget of node executions, and continued by `step` and `resume` until it
is over. Where no node is visited twice and none suspends, a slice ends as the whole execution does, or it
is paused at one of its heads.

* `runSliced` — an execution in slices.
* `Halted` — the record of an execution that is paused.
* `slicing_same` — in slices of any sizes, an execution comes to what it comes to at once.
-/

namespace Knolo.Icp

open Core Library Library.Fallible Library.Prog Knolo.Runtime

/-! ### Slices -/

/-- How an execution is continued. -/
inductive SliceCall where
  | step (maxNodeSteps : ℕ+)
  | resume

/-- The next slice. -/
def SliceCall.perform (codec : Codec) (k : String) : SliceCall → EngineM ExecutionRecord
  | .step n => Icp.step codec k n
  | .resume => Icp.resume codec k

/-- Continue an execution until it is over, or nothing is left of the slices. -/
def continueSliced (codec : Codec) (k : String) (r : ExecutionRecord) : List SliceCall → EngineM ExecutionRecord
  | [] => pure r
  | c :: cs =>
    if isTerminal r.statusKind then pure r
    else do
      let r ← c.perform codec k
      continueSliced codec k r cs

/-- An execution in slices. -/
def runSliced (codec : Codec) (k stateJson : String) (first : ℕ+) (cs : List SliceCall) :
    EngineM ExecutionRecord := do
  let r ← startWithBudget codec k stateJson first
  continueSliced codec k r cs

/-- Two records have the same result. -/
structure SameResult (r r' : ExecutionRecord) : Prop where
  statusKind : r.statusKind = r'.statusKind
  statusDetail : r.statusDetail = r'.statusDetail
  state : r.state = r'.state
  steps : r.steps = r'.steps
  tokens : r.tokens = r'.tokens
  costMicros : r.costMicros = r'.costMicros

/-- The implementation of a definition, before anything was injected or approved. -/
def LoadedDefinition.implementation (d : LoadedDefinition) : NodeRequest → Except CoreError NodeExecutionV1 :=
  (executorFor d none false ∅).implementation

variable {codec : Codec} {k : String} {d : LoadedDefinition} {e : AgentEngine} {r r' : ExecutionRecord}
  {report : ExecutionReportV1}

/-- The executor of the canister has a budget. -/
theorem budgeted (d : LoadedDefinition) : Budgeted DeterministicExecutor.execute d.implementation "step_slice"
    fun left => executorFor d left false ∅ where
  free _ := rfl
  spend _ _ := rfl
  ended _ := rfl

/-! ### Records -/

/-- The record is that of a report, as far as the result goes. -/
structure Reports (codec : Codec) (report : ExecutionReportV1) (r : ExecutionRecord) : Prop where
  status : (r.statusKind, r.statusDetail) = statusParts codec report.status
  state : r.state = report.state
  steps : r.steps = report.steps
  tokens : r.tokens = report.tokens
  costMicros : r.costMicros = report.costMicros

theorem Reports.same (h : Reports codec report r) (h' : Reports codec report r') : SameResult r r' where
  statusKind := (Prod.mk.inj (h.status.trans h'.status.symm)).1
  statusDetail := (Prod.mk.inj (h.status.trans h'.status.symm)).2
  state := h.state.trans h'.state.symm
  steps := h.steps.trans h'.steps.symm
  tokens := h.tokens.trans h'.tokens.symm
  costMicros := h.costMicros.trans h'.costMicros.symm

theorem pendingResumeOf_eq (codec : Codec) (e : AgentEngine) (k : String) (r : ExecutionRecord)
    {last : Option CheckpointV1} (h : r.awaitsHost = true → last ≠ none) :
    e.pendingResumeOf codec k r last = .ok (if r.awaitsHost then last else none) := by
  unfold AgentEngine.pendingResumeOf
  by_cases hw : r.awaitsHost = true
  · obtain ⟨cp, rfl⟩ := Option.ne_none_iff_exists'.mp (h hw)
    rw [if_pos hw, if_pos hw]
  · rw [if_neg hw, if_neg hw]

theorem lastSequence_truncate (l : RuntimeLimitsV1) (events : List ExecutionEventV1) :
    lastSequence (l.truncateEventsIfNeeded events) ≤ lastSequence events := by
  unfold lastSequence RuntimeLimitsV1.truncateEventsIfNeeded
  rw [List.getLast?_drop]
  split_ifs
  · exact Nat.zero_le _
  · exact le_rfl

/-- The draft of a report waits for the host. -/
def Waits (codec : Codec) (report : ExecutionReportV1) : Prop :=
  (draft codec "" report ∅ none).awaitsHost = true

instance : Decidable (Waits codec report) := inferInstanceAs (Decidable (_ = true))

theorem recordFromReport_eq (e : AgentEngine) (id : ExecutionId) (h : Waits codec report → e.store.load id ≠ none) :
    ∃ r, e.recordFromReport codec id.text report ∅ = .ok r ∧ Reports codec report r ∧ r.effectCache = ∅ ∧
      (Waits codec report → r.pendingResume = e.store.load id) ∧
      lastSequence r.events ≤ lastSequence report.events := by
  have hpending := pendingResumeOf_eq codec e id.text (draft codec id.text report ∅ none) h
  have hrecord : e.recordFromReport codec id.text report ∅ = .ok (e.applyEventCap
      { draft codec id.text report ∅ none with
        lastCheckpoint := (e.store.load id).or (if Waits codec report then e.store.load id else none)
        pendingResume := if Waits codec report then e.store.load id else none }) := by
    rw [AgentEngine.recordFromReport, executionIdFrom_eq_ok.mpr rfl]
    simp only [liftError, ok_bind, hpending]
    rfl
  exact ⟨_, hrecord, ⟨rfl, rfl, rfl, rfl, rfl⟩, rfl, fun hw => if_pos hw, lastSequence_truncate _ _⟩

/-! ### Merged events -/

theorem resequence_eq {base : ℕ} (hbase : 2 * base + 1 ≤ u64Max) (ev : ExecutionEventV1) :
    ∃ ev', resequence base ev = .ok ev' ∧ (base < ev.sequence → ev'.sequence = ev.sequence) := by
  unfold resequence
  by_cases h : ev.sequence ≤ base
  · have hsum : base + satAdd ev.sequence 1 ≤ u64Max := by
      unfold satAdd
      omega
    refine ⟨_, by rw [if_pos h, checkedAdd, if_pos hsum]; rfl, fun h' => absurd h (Nat.not_le.mpr h')⟩
  · exact ⟨ev, if_neg h, fun _ => rfl⟩

theorem mergeEvents_eq {events : List ExecutionEventV1} (new : List ExecutionEventV1)
    (hbase : 2 * lastSequence events + 1 ≤ u64Max) :
    ∃ merged, mergeEvents events new = .ok merged ∧
      ∀ ev, new.getLast? = some ev → lastSequence events < ev.sequence → lastSequence merged = ev.sequence := by
  have hmap : ∃ new', new.mapM (resequence (lastSequence events)) = .ok new' ∧
      ∀ ev, new.getLast? = some ev → ∃ ev', new'.getLast? = some ev' ∧
        (lastSequence events < ev.sequence → ev'.sequence = ev.sequence) := by
    induction new with
    | nil => exact ⟨[], rfl, nofun⟩
    | cons x xs ih =>
      obtain ⟨x', hx, hseq⟩ := resequence_eq hbase x
      obtain ⟨xs', hxs, hlast⟩ := ih
      refine ⟨x' :: xs', by rw [List.mapM_cons, hx, ok_bind, hxs]; rfl, fun ev hev => ?_⟩
      cases xs with
      | nil =>
        cases hxs
        cases hev
        exact ⟨x', rfl, hseq⟩
      | cons y ys =>
        rw [List.getLast?_cons_cons] at hev
        obtain ⟨ev', hev', hsame⟩ := hlast ev hev
        refine ⟨ev', ?_, hsame⟩
        cases xs' with
        | nil => cases hev'
        | cons y' ys' => rwa [List.getLast?_cons_cons]
  obtain ⟨new', hnew, hlast⟩ := hmap
  refine ⟨events ++ new', by rw [mergeEvents, hnew]; rfl, fun ev hev hlt => ?_⟩
  obtain ⟨ev', hev', hsame⟩ := hlast ev hev
  rw [← hsame hlt]
  unfold lastSequence
  rw [List.getLast?_append, hev']
  rfl

theorem mergeStepReport_eq {id : ExecutionId} (hbase : 2 * lastSequence r.events + 1 ≤ u64Max)
    (hcache : r.effectCache = ∅) (h : Waits codec report → e.store.load id ≠ none) :
    ∃ r', e.mergeStepReport codec id.text r report = .ok r' ∧ Reports codec report r' ∧ r'.effectCache = ∅ ∧
      (Waits codec report → r'.pendingResume = e.store.load id) ∧
      ∀ ev, report.events.getLast? = some ev → lastSequence r.events < ev.sequence →
        lastSequence r'.events ≤ ev.sequence := by
  obtain ⟨merged, hmerged, hlast⟩ := mergeEvents_eq report.events hbase
  have hload : Waits codec report → (e.store.load id).or r.lastCheckpoint = e.store.load id := by
    intro hw
    obtain ⟨cp, hcp⟩ := Option.ne_none_iff_exists'.mp (h hw)
    rw [hcp]
    rfl
  have hpending := pendingResumeOf_eq codec e id.text (draft codec id.text report r.effectCache r.handoffId)
    (fun hw => (hload hw).symm ▸ h hw : _ → (e.store.load id).or r.lastCheckpoint ≠ none)
  have hrecord : e.mergeStepReport codec id.text r report = .ok (e.applyEventCap
      { draft codec id.text report r.effectCache r.handoffId with
        events := merged
        lastCheckpoint := ((e.store.load id).or r.lastCheckpoint).or
          (if Waits codec report then (e.store.load id).or r.lastCheckpoint else none)
        pendingResume := if Waits codec report then (e.store.load id).or r.lastCheckpoint else none }) := by
    rw [AgentEngine.mergeStepReport, executionIdFrom_eq_ok.mpr rfl]
    simp only [liftError, ok_bind, hpending, hmerged]
    rfl
  exact ⟨_, hrecord, ⟨rfl, rfl, rfl, rfl, rfl⟩, hcache, fun hw => (if_pos hw).trans (hload hw),
    fun ev hev hlt => (lastSequence_truncate _ _).trans (hlast ev hev hlt).le⟩

/-! ### Paused executions -/

/-- The record of an execution that is paused at head `u`. -/
structure Halted (d : LoadedDefinition) (call : Invocation) (r : ExecutionRecord) (u : RunState) : Prop where
  kind : r.statusKind = "suspended"
  detail : r.statusDetail = "step_slice"
  cache : r.effectCache = ∅
  resumed : ∃ cp, r.pendingResume = some cp ∧
    Runtime.Resumed d.scheduler call d.implementation deterministicNowMs cp u
  last : lastSequence r.events ≤ u.seq + 2

/-- What a slice comes to: the result of the whole execution, or a head from `least` steps on. -/
inductive Came (codec : Codec) (d : LoadedDefinition) (call : Invocation) (report : ExecutionReportV1) (least : ℕ)
    (r : ExecutionRecord) : Prop
  /-- The execution is over. -/
  | ended : Reports codec report r → Came codec d call report least r
  /-- It is paused. -/
  | halted {u : RunState} : Halted d call r u → least ≤ u.steps → Came codec d call report least r

section Slices

variable {call : Invocation} {u : RunState}

theorem waits_pausedAt (id : ExecutionId) (u : RunState) :
    Waits codec ((Scheduler.pausedAt id "step_slice" deterministicNowMs u).report (.suspended "step_slice")) := by
  show (decide _ && _) = true
  rfl

theorem getLast?_pausedAt (id : ExecutionId) (u : RunState) : ∃ ev,
    ((Scheduler.pausedAt id "step_slice" deterministicNowMs u).report (.suspended "step_slice")).events.getLast? =
      some ev ∧ ev.sequence = u.seq + 2 := by
  refine ⟨_, List.getLast?_concat .., rfl⟩

/-- A run that nothing suspends is not waited for. -/
theorem not_waits (h : ∀ reason, report.status ≠ .suspended reason) : ¬ Waits codec report := by
  intro hw
  unfold Waits ExecutionRecord.awaitsHost draft at hw
  cases hs : report.status with
  | suspended reason => exact h reason hs
  | _ => simp [hs, statusParts] at hw

/-- What is over is terminal. -/
theorem Reports.terminal (h : Reports codec report r) (hs : ∀ reason, report.status ≠ .suspended reason) :
    isTerminal r.statusKind = true := by
  have hkind : r.statusKind = (statusParts codec report.status).1 := congrArg Prod.fst h.status
  rw [hkind]
  cases hstatus : report.status with
  | suspended reason => exact absurd hstatus (hs reason)
  | _ => rfl

theorem Halted.not_terminal (h : Halted d call r u) : isTerminal r.statusKind = false := by
  rw [h.kind]
  rfl

/-- A slice runs the scheduler. -/
theorem schedule_eq {x : DeterministicExecutor}
    (h : ((call.program d.scheduler).run sliceHost (e.world x)).1 = .ok report) :
    ∃ log, schedule d x call e = .ok
      { result := .ok report
        state := { e with store := ((call.program d.scheduler).run sliceHost (e.world x)).2.store }, log } := by
  unfold schedule
  simp only [h]
  exact ⟨_, rfl⟩

/-- A slice of definition `d` that reports. -/
theorem sliced_achieves (he : e.definition = some d) {x : LoadedDefinition → DeterministicExecutor}
    (h : ((call.program d.scheduler).run sliceHost (e.world (x d))).1 = .ok report) :
    (do let e ← Method.read
        let d ← Method.ofExcept e.loaded
        schedule d (x d) call : EngineM ExecutionReportV1).Achieves e fun a e' => a = report ∧
      e' = { e with store := ((call.program d.scheduler).run sliceHost (e.world (x d))).2.store } := by
  obtain ⟨log, hlog⟩ := schedule_eq h
  exact Method.achieves_read_bind (Method.achieves_ofExcept_bind (loaded_eq_ok.mpr he) ⟨_, _, log, hlog, rfl, rfl⟩)

theorem achieves_consult {α : Type} {x : Except Abort α} {a : α} {Q : α → AgentEngine → Prop} (hx : x = .ok a)
    (h : Q a e) : (consult x).Achieves e Q := by
  subst hx
  exact ⟨a, e, [], rfl, h⟩

/-! ### The next slice -/

variable {id : ExecutionId} {state : StateSnapshot} {left : Option ℕ}

/-- There is room for the events of a slice's end, and for renumbering. -/
theorem reaches_bounds (ha : Acyclic d.compiled) (hu : (Invocation.run id state).Reaches d.scheduler d.implementation
    deterministicNowMs u) : u.steps ≤ d.compiled.definition.nodes.length ∧ u.seq ≤ 1 + 4 * u.steps := by
  have hsteps := hu.steps_le ha
  have hseq := hu.seq_le rfl
  simp only [Invocation.initial, RunState.initial, Nat.zero_add, Nat.sub_zero] at hsteps hseq
  exact ⟨hsteps, hseq.2.2⟩

/-- What a definition and an execution of it have to satisfy. -/
structure Smooth (d : LoadedDefinition) (call : Invocation) (report : ExecutionReportV1) : Prop where
  small : d.compiled.definition.nodes.length ≤ maxDefinitionBytes
  acyclic : Acyclic d.compiled
  ends : (call.program d.scheduler).eval (answers d.implementation deterministicNowMs) = .ok report
  straight : ∀ reason, report.status ≠ .suspended reason

theorem Smooth.roomy (h : Smooth d (.run id state) report) (u : RunState)
    (hu : (Invocation.run id state).Reaches d.scheduler d.implementation deterministicNowMs u) :
    Scheduler.Roomy u := by
  obtain ⟨hsteps, hseq⟩ := reaches_bounds h.acyclic hu
  have hsmall := h.small
  have hbytes : maxDefinitionBytes = 2097152 := rfl
  have hmax : u64Max = 18446744073709551615 := rfl
  constructor <;> omega

theorem Halted.proceed (codec : Codec) (left : Option ℕ) (hs : Smooth d (.run id state) report)
    (h : Halted d (.run id state) r u) (he : e.definition = some d) (hleft : left ≠ some 0) :
    ∃ cp, r.pendingResume = some cp ∧
      (proceed codec id.text r cp left false).Achieves e fun r' e' => e'.definition = some d ∧
        Came codec d (.run id state) report (u.steps + 1) r' := by
  obtain ⟨cp, hcp, hresumed⟩ := h.resumed
  refine ⟨cp, hcp, Method.achieves_ofExcept_bind (executionIdFrom_eq_ok.mpr rfl) ?_⟩
  obtain ⟨hsteps, hseq⟩ := reaches_bounds hs.acyclic hresumed.reaches
  have hlast := h.last
  have hbase : 2 * lastSequence r.events + 1 ≤ u64Max := by
    have hsmall := hs.small
    have hbytes : maxDefinitionBytes = 2097152 := rfl
    have hmax : u64Max = 18446744073709551615 := rfl
    omega
  rw [h.cache]
  rcases hresumed.sliced hs.acyclic (budgeted d) rfl (w := e.world (executorFor d left false ∅)) rfl hleft hs.ends
    hs.roomy with hover | ⟨n, b, cp', hn, hb, hbseq, hresumed', hpaused, hstore⟩
  · refine (sliced_achieves he (x := (executorFor · left false ∅)) hover).bind ?_
    rintro _ _ ⟨rfl, rfl⟩
    refine Method.achieves_read_bind ?_
    have hquiet : ¬ Waits codec (report.after cp.eventCursor) := not_waits hs.straight
    obtain ⟨r', hr', hreports, -⟩ := mergeStepReport_eq (e := { e with store := _ }) hbase h.cache
      fun hw => absurd hw hquiet
    exact achieves_consult hr' ⟨he, .ended ⟨hreports.status, hreports.state, hreports.steps, hreports.tokens,
      hreports.costMicros⟩⟩
  · refine (sliced_achieves he (x := (executorFor · left false ∅)) hpaused).bind ?_
    rintro _ _ ⟨rfl, rfl⟩
    refine Method.achieves_read_bind ?_
    have hn0 : n ≠ 0 := fun h0 => hleft (by rw [hn, h0])
    obtain ⟨r', hr', hreports, hcache, hpending, hend⟩ := mergeStepReport_eq (e := { e with store := _ }) hbase
      h.cache fun _ => (hstore ▸ Option.some_ne_none cp' : _ ≠ none)
    obtain ⟨ev, hev, hseq'⟩ := getLast?_pausedAt id b
    refine achieves_consult hr' ⟨he, .halted ⟨?_, ?_, hcache, ⟨cp', ?_, hresumed'⟩, ?_⟩ ?_⟩
    · exact congrArg Prod.fst hreports.status
    · exact congrArg Prod.snd hreports.status
    · exact (hpending (waits_pausedAt id b)).trans hstore
    · have := hend ev hev (by omega)
      show _ ≤ b.seq + 2
      omega
    · show _ ≤ b.steps
      omega

/-- Neither the cap on events nor the timer matters. -/
theorem Came.capped {least : ℕ} (h : Came codec d call report least r) :
    Came codec d call report least (e.applyEventCap r) := by
  cases h with
  | ended h => exact .ended ⟨h.status, h.state, h.steps, h.tokens, h.costMicros⟩
  | halted h hleast =>
    exact .halted ⟨h.kind, h.detail, h.cache, h.resumed, (lastSequence_truncate _ _).trans h.last⟩ hleast

theorem Came.untimed {least : ℕ} (h : Came codec d call report least r) :
    Came codec d call report least { r with timerScheduled := false } := by
  cases h with
  | ended h => exact .ended ⟨h.status, h.state, h.steps, h.tokens, h.costMicros⟩
  | halted h hleast => exact .halted ⟨h.kind, h.detail, h.cache, h.resumed, h.last⟩ hleast

theorem existing_achieves (h : e.executions[k]? = some r) : (existing k).Achieves e fun a e' => a = r ∧ e' = e := by
  refine Method.achieves_read_bind ?_
  rw [h]
  exact Method.achieves_pure ⟨rfl, rfl⟩

theorem account_achieves : (account k r).Achieves e fun _ e' =>
    e'.definition = e.definition ∧ e'.executions[k]? = some r := by
  refine (Method.achieves_modify ⟨rfl, rfl⟩ : Method.Achieves _ e fun _ e' =>
    e'.definition = e.definition ∧ e'.executions = e.executions).bind ?_
  rintro _ e' ⟨hd, -⟩
  exact Method.achieves_modify ⟨hd, Std.ExtTreeMap.getElem?_insert_self⟩

theorem Halted.guard (h : Halted d call r u) (n : ℕ) : r.stepGuard k n = .ok () := by
  refine check_bind_eq_ok.mpr ⟨?_, check_bind_eq_ok.mpr ⟨?_, ?_⟩⟩ <;>
  · rw [ensure_eq_ok, h.kind]
    simp [h.detail, isTerminal, isHostEffectSuspend]

/-- **The next slice** of a paused execution ends it, or pauses it further on. -/
theorem Halted.perform (hs : Smooth d (.run id state) report) (h : Halted d (.run id state) r u)
    (he : e.definition = some d) (hheld : e.executions[id.text]? = some r) (c : SliceCall) :
    (c.perform codec id.text).Achieves e fun r' e' => e'.definition = some d ∧ e'.executions[id.text]? = some r' ∧
      Came codec d (.run id state) report (u.steps + 1) r' := by
  have hcheckpoint : ∀ cp, r.pendingResume = some cp → e.checkpointFor codec r id.text = .ok cp := by
    intro cp hcp
    unfold AgentEngine.checkpointFor
    rw [hcp]
    rfl
  have hhuman : r.awaitsHuman = false := by simp [ExecutionRecord.awaitsHuman, h.detail]
  cases c with
  | step n =>
    have hbudget : stepBudget n = some n.val := if_neg n.ne_zero
    obtain ⟨cp, hcp, hproceed⟩ := h.proceed codec (some n.val) hs he (by simp)
    refine (existing_achieves hheld).bind ?_
    rintro _ e ⟨rfl, rfl⟩
    refine Method.achieves_ofExcept_bind (h.guard n) (Method.achieves_read_bind ?_)
    refine (achieves_consult (hcheckpoint cp hcp) ⟨rfl, rfl⟩ :
      Method.Achieves _ _ fun a e' => a = cp ∧ e' = e).bind ?_
    rintro _ _ ⟨rfl, rfl⟩
    rw [hbudget]
    refine hproceed.bind fun r' e' hcame => account_achieves.bind ?_
    rintro _ e'' ⟨hd, hput⟩
    exact Method.achieves_pure ⟨hd.trans hcame.1, hput, hcame.2⟩
  | resume =>
    obtain ⟨cp, hcp, hproceed⟩ := h.proceed codec none hs he (by simp)
    have hresume : e.resumeCheckpoint codec r id.text = .ok cp := by
      unfold AgentEngine.resumeCheckpoint
      rw [hhuman]
      exact hcheckpoint cp hcp
    refine (existing_achieves hheld).bind ?_
    rintro _ e ⟨rfl, rfl⟩
    refine Method.achieves_read_bind ?_
    refine (achieves_consult hresume ⟨rfl, rfl⟩ : Method.Achieves _ _ fun a e' => a = cp ∧ e' = e).bind ?_
    rintro _ _ ⟨rfl, rfl⟩
    rw [hhuman]
    refine hproceed.bind fun r' e' hcame => account_achieves.bind ?_
    rintro _ e'' ⟨hd, hput⟩
    exact Method.achieves_pure ⟨hd.trans hcame.1, hput, hcame.2.untimed⟩

/-- **Any more slices** of a paused execution. -/
theorem Halted.continueSliced (hs : Smooth d (.run id state) report) (cs : List SliceCall) :
    ∀ {e r u}, Halted d (.run id state) r u → e.definition = some d → e.executions[id.text]? = some r →
      (continueSliced codec id.text r cs).Achieves e fun r' _ =>
        Came codec d (.run id state) report (u.steps + cs.length) r' := by
  induction cs with
  | nil => exact fun h _ _ => Method.achieves_pure (.halted h le_rfl)
  | cons c cs ih =>
    intro e r u h he hheld
    rw [Icp.continueSliced, if_neg (by simp [h.not_terminal])]
    refine (h.perform hs he hheld c).bind ?_
    rintro r' e' ⟨hd, hheld', hcame⟩
    cases hcame with
    | ended hover =>
      cases cs with
      | nil => exact Method.achieves_pure (.ended hover)
      | cons c' cs =>
        rw [Icp.continueSliced, if_pos (hover.terminal hs.straight)]
        exact Method.achieves_pure (.ended hover)
    | halted h' hleast =>
      refine (ih h' hd hheld').mono fun r'' _ hcame => ?_
      cases hcame with
      | ended hover => exact .ended hover
      | halted h'' hleast' =>
        refine .halted h'' ?_
        rw [List.length_cons]
        omega

/-! ### The whole execution -/

/-- What an execution that is started, and is not sliced, has passed and come to. -/
structure Started (codec : Codec) (d : LoadedDefinition) (k stateJson : String) (e : AgentEngine)
    (r : ExecutionRecord) (id : ExecutionId) (state : StateSnapshot) (report : ExecutionReportV1) : Prop where
  guard : e.guardNewExecution k stateJson = .ok ()
  parsed : parseState codec stateJson = .ok state
  named : id.text = k
  ends : ((Invocation.run id state).program d.scheduler).eval (answers d.implementation deterministicNowMs) = .ok report
  reports : Reports codec report r

/-- What is not sliced comes to what the scheduler evaluates to. -/
theorem Slice.eval_eq {run : SchedulerRun} (h : Slice d (executorFor d none false ∅) e run) :
    (run.call.program d.scheduler).eval (answers d.implementation deterministicNowMs) = liftError run.outcome := by
  have hfree : (e.world (executorFor d none false ∅)).executor =
    (fun left => executorFor d left false ∅) none := rfl
  obtain ⟨heval, -⟩ := run_budgeted deterministicNowMs (budgeted d) (run.call.program d.scheduler) hfree (by simp)
  exact heval.symm.trans h.outcome

theorem startExecution_started (he : e.definition = some d) {stateJson : String} {e' : AgentEngine}
    {log : List SchedulerRun} (h : startExecution codec k stateJson e = .ok { result := .ok r, state := e', log }) :
    ∃ id state report, Started codec d k stateJson e r id state report := by
  have hsat : (startExecution codec k stateJson).Sat e fun res _ _ =>
      ∀ r, res = .ok r → ∃ id state report, Started codec d k stateJson e r id state report := by
    refine Method.sat_read_bind.mpr (Method.Sat.ofExcept_bind (fun _ hg => ?_) fun _ _ => nofun)
    refine Method.Sat.bind (P := fun res _ _ => ∀ r, res = .ok r → ∃ id state report,
      Started codec d k stateJson e r id state report) ?_ ?_ fun _ _ _ _ => nofun
    · refine Method.Sat.ofExcept_bind (fun state hparsed => ?_) fun _ _ => nofun
      refine Method.Sat.ofExcept_bind (fun id hid => ?_) fun _ _ => nofun
      refine (runFromStart_sat id state none ∅).bind (fun report e₁ l hsliced => ?_) fun _ _ _ _ => nofun
      generalize hres : (Except.ok report : Except CoreError ExecutionReportV1) = res at hsliced
      cases hsliced with
      | refused => cases hres
      | @ran d' run hrun hcall =>
        obtain rfl : d' = d := Option.some.inj (hrun.definition.symm.trans he)
        have hends := hrun.eval_eq
        rw [hcall, ← hres] at hends
        obtain rfl := executionIdFrom_eq_ok.mp hid
        refine Method.sat_read_bind.mpr (sat_consult.mpr ⟨fun r hr r' hr' => ?_, fun _ _ => nofun⟩)
        cases hr'
        obtain ⟨pending, -, rfl⟩ := recordFromReport_eq_ok rfl hr
        exact ⟨id, state, report, hg, hparsed, rfl, hends, rfl, rfl, rfl, rfl, rfl⟩
    · rintro r₁ e₁ l hstarted
      obtain ⟨id, state, report, h₁⟩ := hstarted r₁ rfl
      refine (account_sat _).bind (fun _ _ _ _ => Method.sat_pure.mpr fun r' hr' => ?_) fun _ _ _ _ => nofun
      cases hr'
      have hr := h₁.reports
      exact ⟨id, state, report, h₁.guard, h₁.parsed, h₁.named, h₁.ends, hr.status, hr.state, hr.steps,
        hr.tokens, hr.costMicros⟩
  exact hsat _ h r rfl

theorem startWithBudget_came {stateJson : String} (he : e.definition = some d)
    (hstarted : Started codec d k stateJson e r id state report) (hs : Smooth d (.run id state) report) (first : ℕ+) :
    (startWithBudget codec k stateJson first).Achieves e fun r' e' => e'.definition = some d ∧
      e'.executions[k]? = some r' ∧ Came codec d (.run id state) report first r' := by
  obtain rfl := hstarted.named
  have hbudget : stepBudget first = some first.val := if_neg first.ne_zero
  refine Method.achieves_read_bind (Method.achieves_ofExcept_bind hstarted.guard ?_)
  have hlaunch : (launch codec id.text stateJson (stepBudget first)).Achieves e fun r' e' => e'.definition = some d ∧
      Came codec d (.run id state) report first r' := by
    rw [hbudget]
    refine Method.achieves_ofExcept_bind hstarted.parsed ?_
    refine Method.achieves_ofExcept_bind (executionIdFrom_eq_ok.mpr rfl) ?_
    rcases call_sliced (budgeted d) rfl (w := e.world (executorFor d (some first.val) false ∅)) rfl (by simp) hs.ends
      hs.roomy with hover | ⟨n, s, u, hn, hp, hsteps, hpauses⟩
    · refine (sliced_achieves he (x := (executorFor · (some first.val) false ∅)) hover).bind ?_
      rintro _ _ ⟨rfl, rfl⟩
      refine Method.achieves_read_bind ?_
      obtain ⟨r', hr', hreports, -⟩ := recordFromReport_eq { e with store := _ } id
        fun hw => absurd hw (not_waits hs.straight)
      exact achieves_consult hr' ⟨he, .ended hreports⟩
    · refine (sliced_achieves he (x := (executorFor · (some first.val) false ∅)) hpauses.report).bind ?_
      rintro _ _ ⟨rfl, rfl⟩
      refine Method.achieves_read_bind ?_
      obtain ⟨cp, hcp, hmarks⟩ := hpauses.checkpoint
      obtain ⟨r', hr', hreports, hcache, hpending, hend⟩ := recordFromReport_eq { e with store := _ } id
        fun _ => (hcp ▸ Option.some_ne_none cp : _ ≠ none)
      obtain ⟨ev, hev, hseq⟩ := getLast?_pausedAt id u
      have hlast : lastSequence ((Scheduler.pausedAt id "step_slice" deterministicNowMs u).report
          (.suspended "step_slice")).events = u.seq + 2 := by
        unfold lastSequence
        rw [hev]
        exact hseq
      refine achieves_consult hr' ⟨he, .halted (u := u) ⟨?_, ?_, hcache, ⟨cp, ?_, ?_⟩, ?_⟩ ?_⟩
      · exact congrArg Prod.fst hreports.status
      · exact congrArg Prod.snd hreports.status
      · exact (hpending (waits_pausedAt id u)).trans hcp
      · exact hmarks.resumed ⟨s, hp, hpauses.passes⟩
      · exact hlast ▸ hend
      · cases hn
        rw [hpauses.steps, hsteps]
        exact Nat.le_add_left _ _
  refine hlaunch.bind ?_
  rintro r' e' ⟨hd, hcame⟩
  refine (Method.achieves_modify ⟨hd, Std.ExtTreeMap.getElem?_insert_self⟩ : Method.Achieves _ e' fun _ e'' =>
    e''.definition = some d ∧ e''.executions[id.text]? = some (e.applyEventCap r')).bind ?_
  rintro _ e'' ⟨hd', hheld⟩
  exact Method.achieves_pure ⟨hd', hheld, hcame.capped⟩

end Slices

/-- The definition of an engine that has loaded one. -/
theorem load_of_loaded {e₀ : AgentEngine} {json message : String} {log : List SchedulerRun}
    (h : loadDefinition codec json e₀ = .ok { result := .ok message, state := e, log }) (hd : e.definition = some d) :
    AgentDefinitionBundleV1.load codec json = .ok d := by
  have hsat : (loadDefinition codec json).Sat e₀ fun res e _ =>
      ∀ m, res = .ok m → ∀ d, e.definition = some d → AgentDefinitionBundleV1.load codec json = .ok d := by
    refine Method.Sat.ofExcept_bind (fun d hload => ?_) fun _ _ => nofun
    refine Method.sat_modify_bind.mpr (Method.sat_pure.mpr fun _ _ d' hd' => ?_)
    cases hd'
    exact hload
  exact hsat _ h message rfl d hd

/-- What is loaded is the bundle of the text, whose size is bounded. -/
theorem load_bundle {json : String} (h : AgentDefinitionBundleV1.load codec json = .ok d) :
    json.utf8ByteSize ≤ maxDefinitionBytes ∧ codec.parseBundle json = .ok d.bundle := by
  obtain ⟨bundle, hparse, hbundle⟩ := bind_eq_ok.mp h
  have hsame : d.bundle = bundle := by
    split at hbundle
    · cases hbundle
    · obtain ⟨policy, -, hbundle⟩ := bind_eq_ok.mp hbundle
      cases hbundle
      rfl
  obtain ⟨-, hparse⟩ := check_bind_eq_ok.mp hparse
  obtain ⟨hbytes, hparse⟩ := check_bind_eq_ok.mp hparse
  obtain ⟨b, hb, hparse⟩ := bind_eq_ok.mp hparse
  have hread : codec.parseBundle json = .ok b := by
    cases hread : codec.parseBundle json <;> rw [hread] at hb <;> cases hb
    rfl
  obtain ⟨-, hparse⟩ := check_bind_eq_ok.mp hparse
  obtain ⟨-, hparse⟩ := check_bind_eq_ok.mp hparse
  obtain ⟨-, hparse⟩ := check_bind_eq_ok.mp hparse
  cases hparse
  exact ⟨ensure_eq_ok.mp hbytes, hsame ▸ hread⟩

/-- A definition has no more nodes than the text has bytes. -/
theorem loaded_small (hcodec : ∀ t b, codec.parseBundle t = .ok b → b.graph.nodes.length ≤ t.utf8ByteSize)
    {json : String} (h : AgentDefinitionBundleV1.load codec json = .ok d) :
    d.compiled.definition.nodes.length ≤ maxDefinitionBytes := by
  obtain ⟨hbytes, hread⟩ := load_bundle h
  rw [d.graph_eq]
  exact (hcodec json d.bundle hread).trans hbytes

/-- **Slicing does not change the result.** Where the graph has no cycles and no node suspends, an execution
that succeeds at once does so in slices of any positive sizes, with the same result; and with as many slices
as the graph has nodes, after the first one, it is over. -/
theorem slicing_same {codec : Codec}
    (hcodec : ∀ t b, codec.parseBundle t = .ok b → b.graph.nodes.length ≤ t.utf8ByteSize)
    {e₀ e : AgentEngine} {json message : String} {log : List SchedulerRun}
    (hload : loadDefinition codec json e₀ = .ok { result := .ok message, state := e, log })
    {d : LoadedDefinition} (hd : e.definition = some d) (hacyclic : Acyclic d.compiled)
    (hsuspends : NeverSuspends d.compiled d.implementation)
    {k stateJson : String} {r : ExecutionRecord} {e' : AgentEngine} {log' : List SchedulerRun}
    (hstart : startExecution codec k stateJson e = .ok { result := .ok r, state := e', log := log' })
    (first : ℕ+) (cs : List SliceCall) :
    (runSliced codec k stateJson first cs).Achieves e fun r' _ =>
      (isTerminal r'.statusKind = true → SameResult r r') ∧
        (d.compiled.definition.nodes.length ≤ cs.length → isTerminal r'.statusKind = true) := by
  have hsmall := loaded_small hcodec (load_of_loaded hload hd)
  obtain ⟨id, state, report, hstarted⟩ := startExecution_started hd hstart
  obtain rfl := hstarted.named
  have hs : Smooth d (.run id state) report :=
    ⟨hsmall, hacyclic, hstarted.ends, fun reason => not_suspended hsuspends hstarted.ends⟩
  have hend : ∀ {least : ℕ} {r' : ExecutionRecord}, Came codec d (.run id state) report least r' →
      (isTerminal r'.statusKind = true → SameResult r r') ∧
        (d.compiled.definition.nodes.length < least → isTerminal r'.statusKind = true) := by
    intro least r' hcame
    cases hcame with
    | ended hover => exact ⟨fun _ => hstarted.reports.same hover, fun _ => hover.terminal hs.straight⟩
    | halted hhalted hleast =>
      refine ⟨fun hterminal => absurd hterminal (by simp [hhalted.not_terminal]), fun hlt => ?_⟩
      obtain ⟨cp, -, hresumed⟩ := hhalted.resumed
      have := (reaches_bounds hacyclic hresumed.reaches).1
      omega
  refine (startWithBudget_came hd hstarted hs first).bind ?_
  rintro r₁ e₁ ⟨hd₁, hheld, hcame⟩
  have hfirst := first.pos
  cases hcame with
  | ended hover =>
    have hterminal := hover.terminal hs.straight
    have hkept : (continueSliced codec id.text r₁ cs).Achieves e₁ fun r' _ => r' = r₁ := by
      cases cs with
      | nil => exact Method.achieves_pure rfl
      | cons c cs =>
        rw [continueSliced, if_pos hterminal]
        exact Method.achieves_pure rfl
    refine hkept.mono ?_
    rintro _ _ rfl
    exact ⟨fun _ => hstarted.reports.same hover, fun _ => hterminal⟩
  | halted hhalted hleast =>
    refine (hhalted.continueSliced hs cs hd₁ hheld).mono fun r' _ hcame => ?_
    obtain ⟨hsame, hover⟩ := hend hcame
    exact ⟨hsame, fun hlength => hover (by omega)⟩

/-- The text layer of a sample reads its bundle from its text. -/
theorem abCodec_reads {t : String} {b : AgentDefinitionBundleV1} (h : abCodec.parseBundle t = .ok b) :
    t = abSample.text ∧ b = abSample.bundle := by
  change (if t = abSample.text then Except.ok abSample.bundle else .error Sample.unexpected) = .ok b at h
  split at h
  · cases h
    exact ⟨‹_›, rfl⟩
  · cases h

theorem abCodec_nodes (t : String) (b : AgentDefinitionBundleV1) (h : abCodec.parseBundle t = .ok b) :
    b.graph.nodes.length ≤ t.utf8ByteSize := by
  obtain ⟨rfl, rfl⟩ := abCodec_reads h
  decide +kernel

theorem abSample_acyclic (h : d.bundle = abSample.bundle) : Acyclic d.compiled := by
  have hnext : ∀ a b, d.compiled.Next a b → a = builtinId "a" ∧ b = builtinId "b" := by
    rintro a b ⟨t, ht, rfl, rfl⟩
    rw [d.graph_eq, h] at ht
    obtain rfl := List.mem_singleton.mp ht
    exact ⟨rfl, rfl⟩
  intro n hn
  obtain ⟨b, -, hb⟩ := Relation.TransGen.tail'_iff.mp hn
  obtain ⟨a, ha, -⟩ := Relation.TransGen.head'_iff.mp hn
  have hne : builtinId "a" ≠ builtinId "b" := by decide
  exact hne ((hnext n a ha).1.symm.trans (hnext b n hb).2)

theorem abSample_straight (h : d.bundle = abSample.bundle) : NeverSuspends d.compiled d.implementation := by
  intro q y _ hy reason patch hsuspend
  have hid : d.bundle.implementationId = "a-b-terminate-v1" := by rw [h]; rfl
  have hrun : aBTerminate q = .ok y := by
    rw [← hy, LoadedDefinition.implementation, DeterministicExecutor.implementation, executorFor, hid]
    rfl
  unfold aBTerminate at hrun
  split at hrun <;> cases hrun <;> cases hsuspend

/-- An execution of two nodes, in slices of one. -/
theorem slicing_same_ab : ∃ e message log r e' log',
    loadDefinition abCodec abSample.text .default = .ok { result := .ok message, state := e, log } ∧
      startExecution abCodec "e" (Sample.stateText abValue) e = .ok { result := .ok r, state := e', log := log' } ∧
      (runSliced abCodec "e" (Sample.stateText abValue) 1 [.step 1, .resume]).Achieves e fun r' _ =>
        SameResult r r' := by
  have h : ((loadDefinition abCodec abSample.text .default).toOption.bind fun x => x.result.toOption.bind fun _ =>
      (startExecution abCodec "e" (Sample.stateText abValue) x.state).toOption.bind fun y => y.result.toOption.bind
        fun _ => x.state.definition.map fun d => decide (d.compiled.definition.nodes.length = 2)) = some true := by
    decide +kernel
  obtain ⟨⟨res, e, log⟩, hload, h⟩ := Option.bind_eq_some_iff.mp h
  obtain ⟨message, hres, h⟩ := Option.bind_eq_some_iff.mp h
  obtain ⟨⟨res', e', log'⟩, hstart, h⟩ := Option.bind_eq_some_iff.mp h
  obtain ⟨r, hres', h⟩ := Option.bind_eq_some_iff.mp h
  obtain ⟨d, hd, hnodes⟩ := Option.map_eq_some_iff.mp h
  obtain rfl : res = .ok message := toOption_eq_some.mp hres
  obtain rfl : res' = .ok r := toOption_eq_some.mp hres'
  have hload := toOption_eq_some.mp hload
  have hstart := toOption_eq_some.mp hstart
  have hbundle : d.bundle = abSample.bundle := (abCodec_reads (load_bundle (load_of_loaded hload hd)).2).2
  refine ⟨e, message, log, r, e', log', hload, hstart, ?_⟩
  refine (slicing_same abCodec_nodes hload hd (abSample_acyclic hbundle) (abSample_straight hbundle) hstart 1
    [.step 1, .resume]).mono fun r' _ hr' => hr'.1 (hr'.2 ?_)
  rw [of_decide_eq_true hnodes]
  exact le_rfl

end Knolo.Icp
