import Knolo.Runtime.Invariant
import Knolo.Runtime.Surroundings

/-!
# Resuming from a checkpoint

A checkpoint holds the state, the pending node, the event cursor and the counters, but
not the visits counted so far: a resumed run counts visits from zero. With an executor
that is a function of its request, under a constant clock and without cancellation, a
resumed run is in step with what is left of the run that saved the checkpoint, as long
as the check of the visits does not see the difference.

* `RunState.lag` — a state of the whole run, from the state of the resumed run it is in
  step with: more events, and the visits from before.
* `iterate_lag` — one turn in step, where the check of the visits agrees.
* `resume_equivalent` — the resumed run ends as the whole run does, with the events after
  the cursor, exactly if the check agrees at every head after the checkpoint.
* `resume_restarts_cycle` — a run on a bounded cycle where it does not.
-/

namespace Knolo.Runtime

open Core Library Library.Fallible Library.Prog

/-! ### The lag -/

/-- The state of the whole run: the events `pre` and the visits `vis` came before. -/
def RunState.lag (pre : List ExecutionEventV1) (vis : NodeId → ℕ) (b : RunState) : RunState :=
  { b with events := pre ++ b.events, visits := fun n => vis n + b.visits n }

/-- The report of the whole run. -/
def ExecutionReportV1.prepend (pre : List ExecutionEventV1) (r : ExecutionReportV1) :
    ExecutionReportV1 := { r with events := pre ++ r.events }

section Lag

variable (pre : List ExecutionEventV1) (vis : NodeId → ℕ) (b : RunState)

@[simp] theorem RunState.lag_state : (b.lag pre vis).state = b.state := rfl
@[simp] theorem RunState.lag_node : (b.lag pre vis).node = b.node := rfl
@[simp] theorem RunState.lag_seq : (b.lag pre vis).seq = b.seq := rfl
@[simp] theorem RunState.lag_steps : (b.lag pre vis).steps = b.steps := rfl
@[simp] theorem RunState.lag_tokens : (b.lag pre vis).tokens = b.tokens := rfl
@[simp] theorem RunState.lag_cost : (b.lag pre vis).cost = b.cost := rfl

theorem RunState.lag_logged (e : ExecutionEventV1) :
    (b.lag pre vis).logged e = (b.logged e).lag pre vis := by
  simp [RunState.lag, RunState.logged]

theorem RunState.lag_visit : (b.lag pre vis).visit = b.visit.lag pre vis := by
  simp only [RunState.lag, RunState.visit, RunState.mk.injEq, true_and]
  funext n
  by_cases h : n = b.node
  · simp only [h, if_true]
    omega
  · simp only [h, if_false]

theorem RunState.lag_charge (x : NodeExecutionV1) :
    (b.lag pre vis).charge x = (b.charge x).lag pre vis := rfl

end Lag

/-! ### In step -/

section InStep

variable (sch : Scheduler) (id : ExecutionId) (pre : List ExecutionEventV1) (vis : NodeId → ℕ)

theorem event_lag (node : Option NodeId) (kind : EventKindV1) (b : RunState) :
    event id node kind (b.lag pre vis) = RunState.lag pre vis <$> event id node kind b := by
  simp only [event, map_bind, RunState.lag_logged, RunState.lag_seq, pure_def]
  rfl

theorem fail_lag (msg : String) (b : RunState) :
    fail id (b.lag pre vis) msg = ExecutionReportV1.prepend pre <$> fail id b msg := by
  simp only [fail, event_lag, RunState.lag_node, map_bind, bind_map_left]
  rfl

theorem record_lag (kind : Option EventKindV1) (b : RunState) :
    record id kind (b.lag pre vis) = RunState.lag pre vis <$> record id kind b := by
  cases kind with
  | none => rfl
  | some kind => exact event_lag ..

namespace Scheduler

theorem commit_lag (d : NodeDefinitionV1) (p : Option StatePatch) (b : RunState) :
    sch.commit id d p (b.lag pre vis) = RunState.lag pre vis <$> sch.commit id d p b := by
  cases p with
  | none => rfl
  | some p =>
    have hpatch : sch.patch id d p (b.lag pre vis) = sch.patch id d p b := rfl
    simp only [commit, hpatch, map_bind]
    exact congrArg _ (funext fun state => event_lag (b := { b with state }) ..)

theorem checkpoint_lag (pending : NodeId) (b : RunState) :
    sch.checkpoint id pending (b.lag pre vis) = RunState.lag pre vis <$> sch.checkpoint id pending b := by
  simp only [checkpoint, event_lag, RunState.lag_node, RunState.lag_seq, map_bind, bind_map_left]
  rfl

theorem conclude_lag (d : NodeDefinitionV1) (dec : Decision) (b : RunState) :
    sch.conclude id d dec (b.lag pre vis) =
      Sum.map (RunState.lag pre vis) (ExecutionReportV1.prepend pre) <$> sch.conclude id d dec b := by
  simp only [conclude, commit_lag, record_lag, map_bind, bind_map_left]
  refine congrArg _ (funext fun v => congrArg _ (funext fun w => ?_))
  cases dec.status with
  | some status => rfl
  | none =>
    cases dec.next with
    | none => rfl
    | some pending =>
      simp only [checkpoint_lag, Functor.map_map]
      rfl

theorem settle_lag (d : NodeDefinitionV1) (x : NodeExecutionV1) (b : RunState) :
    sch.settle id d (b.lag pre vis) x =
      Sum.map (RunState.lag pre vis) (ExecutionReportV1.prepend pre) <$> sch.settle id d b x := by
  simp only [settle, RunState.lag_charge, RunState.lag_steps, RunState.lag_tokens, RunState.lag_cost,
    RunState.lag_node, fail_lag, conclude_lag, map_bind, apply_ite (Functor.map _), Functor.map_map]
  rfl

/-- The result of the retry loop, of the whole run. -/
def lagAttempted : (RunState × NodeExecutionV1) ⊕ ExecutionReportV1 →
    (RunState × NodeExecutionV1) ⊕ ExecutionReportV1 :=
  Sum.map (fun p => (p.1.lag pre vis, p.2)) (ExecutionReportV1.prepend pre)

theorem attempt_lag (p : ℕ × RunState) :
    sch.attempt id (p.1, p.2.lag pre vis) =
      Sum.map (fun p => (p.1, p.2.lag pre vis)) (lagAttempted pre vis) <$> sch.attempt id p := by
  simp only [attempt, event_lag, RunState.lag_node, map_bind, bind_map_left, RunState.lag_state]
  refine congrArg _ (funext fun n => congrArg _ (funext fun s => congrArg _ (funext fun answer =>
    congrArg _ (funext fun x => ?_))))
  cases x.outcome.retryableError with
  | none => rfl
  | some err =>
    simp only [fail_lag, apply_ite (Functor.map _), Functor.map_map, map_bind]
    rfl

theorem attempts_lag (b : RunState) :
    sch.attempts id (b.lag pre vis) = lagAttempted pre vis <$> sch.attempts id b := by
  unfold attempts
  exact loop_map (f := fun p => (p.1, p.2.lag pre vis)) (sch.attempt_lag id pre vis) _ (0, b)

theorem enter_lag (start : ℕ) (b : RunState)
    (h : b.steps < sch.graph.limits.maxSteps → sch.visitCheck (b.lag pre vis) = sch.visitCheck b) :
    sch.enter id start (b.lag pre vis) =
      Sum.map (fun p => (p.1.lag pre vis, p.2)) (ExecutionReportV1.prepend pre) <$>
        sch.enter id start b := by
  simp only [enter, event_lag, fail_lag, RunState.lag_node, RunState.lag_steps, map_bind,
    bind_map_left, apply_ite (Functor.map _), Functor.map_map, RunState.lag_visit]
  refine congrArg _ (funext fun cancelled => ?_)
  split
  · rfl
  split
  · rfl
  rename_i hsteps
  rw [h (by omega)]
  refine congrArg _ (funext fun now => ?_)
  split
  · rfl
  refine congrArg _ (funext fun exceeded => ?_)
  split
  · rfl
  cases sch.graph.node b.node <;> rfl

/-- **One turn in step**, where the check of the visits agrees or is not made. -/
theorem iterate_lag (start : ℕ) (b : RunState)
    (h : b.steps < sch.graph.limits.maxSteps → sch.visitCheck (b.lag pre vis) = sch.visitCheck b) :
    sch.iterate id start (b.lag pre vis) =
      Sum.map (RunState.lag pre vis) (ExecutionReportV1.prepend pre) <$> sch.iterate id start b := by
  simp only [iterate, sch.enter_lag id pre vis start b h, map_bind, bind_map_left]
  refine congrArg _ (funext fun a => ?_)
  rcases a with ⟨s, d⟩ | report
  · simp only [Sum.map_inl, attempts_lag, bind_map_left, map_bind]
    refine congrArg _ (funext fun a => ?_)
    rcases a with ⟨s, x⟩ | report
    · exact sch.settle_lag id pre vis d x s
    · rfl
  · rfl

end Scheduler

end InStep

/-! ### What a loop logs -/

namespace Scheduler

variable {sch : Scheduler} {id : ExecutionId}

/-- A turn appends what it emits to the log. -/
theorem Turn.log {s v : RunState} {obs : List Observation}
    (h : sch.Turn id s obs (.ok (.inl v))) : v.events = s.events ++ emissions obs := by
  cases h with
  | goesOn h _ _ => simp [RunState.noted_eq_after, h.completion.events]

theorem Turn.log_report {s : RunState} {obs : List Observation} {report : ExecutionReportV1}
    (h : sch.Turn id s obs (.ok (.inr report))) : report.events = s.events ++ emissions obs := by
  cases h with
  | refused hv _ => rcases hv with rfl | rfl <;> rfl
  | exhausted _ h => exact (h.quiet.2.2 ▸ rfl)
  | overBudget _ hx =>
    obtain rfl := hx.eq_after
    simp [RunState.report, RunState.noted_eq_after]
  | ended h _ => exact h.completion.events

theorem Turns.log {s u : RunState} {obs : List Observation} (h : sch.Turns id s obs u) :
    u.events = s.events ++ emissions obs := by
  induction h with
  | start => simp
  | step _ ht ih => simp [ht.log, ih]

/-- The loop appends what it emits to the log. -/
theorem runLoop_log (sch : Scheduler) (id : ExecutionId) (start : ℕ) (s : RunState) :
    (sch.runLoop id start s).Sat fun tr res =>
      ∀ report, res = .ok report → report.events = s.events ++ emissions (observe tr) := by
  refine (sch.runLoop_turns start s).mono fun tr res h report hr => ?_
  obtain ⟨obs, u, obs', hts, ht, hobs⟩ := h
  subst hr
  simp [Turn.log_report ht, hts.log, hobs]

/-- The first event is the start of the first attempt. -/
def StartsNode (es : List ExecutionEventV1) : Prop := es.head?.map (·.kind) = some (.nodeStarted 1)

/-- Retrying first records that the node was started; so does the attempt after it. -/
theorem Retried.first {s u : RunState} {n : ℕ} {obs : List Observation} {t : ℕ}
    {es : List ExecutionEventV1} (h : sch.Retried id s n obs u) :
    StartsNode (emissions obs ++ u.nodeEvent id (.nodeStarted (n + 1)) t :: es) := by
  induction h generalizing t es with
  | start => rfl
  | again _ _ _ ih => simpa using ih

/-- The retry loop first records that the node was started. -/
theorem Attempted.first {s : RunState} {obs : List Observation}
    {r : (RunState × NodeExecutionV1) ⊕ ExecutionReportV1} (h : sch.Attempted id s obs (.ok r)) :
    StartsNode (emissions obs) := by
  rcases r with ⟨u, x⟩ | report
  · cases h with
    | last h _ _ => simpa using h.first
  · obtain ⟨u, err, h, -⟩ := h
    cases h with
    | last h _ _ => simpa using h.first

theorem StartsNode.append {es : List ExecutionEventV1} (h : StartsNode es)
    (es' : List ExecutionEventV1) : StartsNode (es ++ es') := by
  cases es with
  | nil => simp [StartsNode] at h
  | cons e es => exact h

/-- A loop whose first turn is let run first records that the node was started. -/
theorem runLoop_starts {ans : (c : HostCall) → Answer c} {start : ℕ} {b s : RunState}
    {d : NodeDefinitionV1} {report : ExecutionReportV1}
    (ha : (sch.enter id start b).eval ans = .ok (.inl (s, d)))
    (hr : (sch.runLoop id start b).eval ans = .ok report) :
    ∃ es, report.events = b.events ++ es ∧ StartsNode es := by
  have hlog := sat_iff_runs.mp (runLoop_log sch id start b) _ _ (runs_calls ans _) report hr
  refine ⟨_, hlog, ?_⟩
  have henter := sat_iff_runs.mp (sch.enter_sat id start b) _ _ (runs_calls ans _)
  rw [ha] at henter
  have hatt := sat_iff_runs.mp (sch.attempts_sat id s) _ _ (runs_calls ans _)
  cases hx : (sch.attempts id s).eval ans with
  | error e => simp [runLoop, iterate, ha, hx] at hr
  | ok r =>
    rw [hx] at hatt
    simp only [runLoop, loop_succ, iterate, calls_bind, ha, hx, observe_append, emissions_append,
      List.append_assoc, henter.2.2, List.nil_append, eval_bind]
    exact hatt.first.append _

end Scheduler

/-! ### Deterministic surroundings -/

/-- The answers of an executor that is a function of its request, of a sink and a store
that accept everything, and of a constant clock; nothing is cancelled. -/
def answers (exec : NodeRequest → Except CoreError NodeExecutionV1) (now : ℕ) :
    (c : HostCall) → Answer c
  | .cancelled => false
  | .nowMs => now
  | .execute r => exec r
  | .emit _ => .ok ()
  | .save _ => .ok ()

theorem surroundings_answers (exec : NodeRequest → Except CoreError NodeExecutionV1) (now : ℕ)
    (c : HostCall) (w : World Unit) :
    (surroundings (stateless exec) false now c w).1 = answers exec now c := by
  cases c <;> rfl

/-! ### The heads of the whole run -/

open Scheduler

section Heads

variable (sch : Scheduler) (call : Invocation) (exec : NodeRequest → Except CoreError NodeExecutionV1)
  (now : ℕ)

/-- The loop of the call passes from head `v` to head `u`. -/
def Invocation.Passes (v u : RunState) : Prop :=
  Steps (answers exec now) (sch.iterate call.id now) v u

/-- The call passes through head `v`. -/
def Invocation.Reaches (v : RunState) : Prop :=
  ∃ s, (call.prepare sch).eval (answers exec now) = .ok (now, s) ∧ call.Passes sch exec now s v

end Heads

/-- The state a run resumed at head `v` starts in. -/
def RunState.restart (v : RunState) : RunState := { v with events := [], visits := fun _ => 0 }

/-- Head `u`, with only the visits counted since head `v`. -/
def RunState.since (u v : RunState) : RunState :=
  { u with visits := fun n => u.visits n - v.visits n }

/-- The events after the cursor. -/
def ExecutionReportV1.after (cursor : ℕ) (r : ExecutionReportV1) : ExecutionReportV1 :=
  { r with events := r.events.filter fun e => cursor < e.sequence }

theorem RunState.lag_restart (v : RunState) : v.restart.lag v.events v.visits = v := by
  simp [RunState.lag, RunState.restart]

variable {sch : Scheduler} {call : Invocation} {exec : NodeRequest → Except CoreError NodeExecutionV1}
  {now : ℕ}

/-- The check of the visits depends only on the pending node and its count. -/
theorem visitCheck_congr {a b : RunState} (hn : a.node = b.node) (hv : a.visits a.node = b.visits b.node) :
    sch.visitCheck a = sch.visitCheck b := by
  simp only [Scheduler.visitCheck, Scheduler.cycleExceeded, RunState.visit, if_true, hn]
  rw [hn] at hv
  rw [hv]

theorem visitCheck_since_lag (v b : RunState) :
    sch.visitCheck ((b.lag v.events v.visits).since v) = sch.visitCheck b :=
  visitCheck_congr rfl (by simp [RunState.since, RunState.lag])

/-- A turn of the loop that goes on comes closer to the step limit. -/
theorem iterate_measure (id : ExecutionId) (start : ℕ) (s : RunState) :
    (sch.iterate id start s).Sat fun _ res => ∀ v, res = .ok (.inl v) →
      sch.graph.limits.maxSteps - v.steps < sch.graph.limits.maxSteps - s.steps := by
  refine (sch.iterate_turn id start s).mono fun tr res h v hv => ?_
  subst hv
  have := h.steps
  omega

/-- From any head it passes through, what is left of a call is the loop from there. -/
theorem eval_program {v : RunState} (h : call.Reaches sch exec now v) :
    (call.program sch).eval (answers exec now) = (sch.runLoop call.id now v).eval (answers exec now) := by
  obtain ⟨s, hs, hp⟩ := h
  rw [Invocation.program_eq, eval_bind, hs]
  exact eval_loop_of_steps (fun u => sch.graph.limits.maxSteps - u.steps)
    (iterate_measure call.id now) hp

theorem Invocation.Reaches.head {v : RunState} (h : call.Reaches sch exec now v) :
    ∃ tr, call.Head sch tr v := by
  obtain ⟨s, hs, hp⟩ := h
  obtain ⟨tr, htr⟩ := heads_of_steps hp
  have hr := runs_calls (answers exec now) (call.prepare sch)
  rw [hs] at hr
  exact ⟨_, now, _, s, tr, hr, htr, rfl⟩

/-- A checkpoint is made of the head the turn that saves it goes on to. -/
theorem Scheduler.Turn.saved {id : ExecutionId} {s : RunState} {obs : List Observation}
    {res : Except Abort (RunState ⊕ ExecutionReportV1)} {cp : CheckpointV1}
    (h : sch.Turn id s obs res) (hcp : cp ∈ saves obs) :
    ∃ v, res = .ok (.inl v) ∧ RunState.ofCheckpoint cp = v.restart ∧ cp.executionId = id ∧
      (Invocation.resume cp).check sch = .ok () := by
  cases res with
  | error e => simp [h.aborting.2] at hcp
  | ok r =>
    cases h with
    | refused _ _ => simp at hcp
    | exhausted _ h => simp [h.quiet.1.saves] at hcp
    | overBudget _ hx => simp [hx.quiet.1.saves] at hcp
    | ended h _ => simp [h.completion.saves] at hcp
    | @goesOn obs w dec pending t h _ _ =>
      simp only [saves_append, h.completion.saves, saves_emitted, saves_saved, saves_nil,
        List.nil_append, List.mem_singleton] at hcp
      subst hcp
      exact ⟨_, rfl, rfl, rfl, by simp [Invocation.check, CheckpointV1.checkArtifacts, checkpointOf, ensure]⟩

/-- A loop starts at the time of the clock. -/
theorem prepare_start {t : ℕ} {s : RunState}
    (h : (call.prepare sch).eval (answers exec now) = .ok (t, s)) : t = now := by
  simp only [Invocation.prepare, Scheduler.begin, eval_bind, ask_bind, eval_call] at h
  obtain ⟨_, -, h⟩ := bind_eq_ok.mp h
  obtain ⟨_, -, h⟩ := bind_eq_ok.mp h
  obtain ⟨_, -, h⟩ := bind_eq_ok.mp h
  split at h
  · simp only [eval_bind] at h
    obtain ⟨_, -, h⟩ := bind_eq_ok.mp h
    cases h
    rfl
  · cases h
    rfl

/-- Every checkpoint a call saves is of a head it passes through. -/
theorem reaches_of_saved {cp : CheckpointV1}
    (hcp : cp ∈ saves (observe ((call.program sch).calls (answers exec now)))) :
    ∃ v, call.Reaches sch exec now v ∧ RunState.ofCheckpoint cp = v.restart ∧
      cp.executionId = call.id ∧ (Invocation.resume cp).check sch = .ok () := by
  rw [Invocation.program_eq, calls_bind, observe_append, saves_append, List.mem_append] at hcp
  have hprep := sat_iff_runs.mp (sch.prepare_sat call) _ _ (runs_calls (answers exec now) _)
  cases hp : (call.prepare sch).eval (answers exec now) with
  | error e =>
    rw [hp] at hprep hcp
    simp [hprep.2] at hcp
  | ok p =>
    obtain ⟨t, s⟩ := p
    obtain rfl := prepare_start hp
    rw [hp] at hprep hcp
    simp only [hprep.quiet.2, List.not_mem_nil, false_or] at hcp
    obtain ⟨c, hc, hco⟩ := mem_saves_observe.mp hcp
    obtain ⟨u, hu, hcu⟩ := mem_calls_loop rfl hc
    have hturn := sat_iff_runs.mp (sch.iterate_turn call.id t u) _ _ (runs_calls (answers exec t) _)
    obtain ⟨v, hv, hcp, hid, hcheck⟩ := hturn.saved (mem_saves_observe.mpr ⟨c, hcu, hco⟩)
    exact ⟨v, ⟨s, hp, hu.tail hv⟩, hcp, hid, hcheck⟩

/-- A run resumed from a checkpoint of head `v` starts its loop there, restarted. -/
theorem prepare_resume {v : RunState} {cp : CheckpointV1} (h : call.Reaches sch exec now v)
    (hcp : RunState.ofCheckpoint cp = v.restart) (hcheck : (Invocation.resume cp).check sch = .ok ()) :
    ((Invocation.resume cp).prepare sch).eval (answers exec now) = .ok (now, v.restart) := by
  obtain ⟨tr, hhead⟩ := h.head
  have hs := (head_invariant hhead).sound
  simp only [Invocation.prepare, Scheduler.begin, hcheck, Invocation.initial, Invocation.started, hcp,
    eval_bind, eval_ofExcept, ask_bind, eval_call]
  simp [RunState.restart, hs.valid, hs.schemaId, liftError, ensure, answers]

/-! ### In step, or not -/

/-- At every head the call passes after the checkpoint, the check of the visits, where it is
made, sees no difference between all visits and the visits since the checkpoint. -/
def VisitsForgotten (sch : Scheduler) (call : Invocation)
    (exec : NodeRequest → Except CoreError NodeExecutionV1) (now : ℕ) (cp : CheckpointV1) : Prop :=
  ∀ v u, call.Reaches sch exec now v → RunState.ofCheckpoint cp = v.restart →
    call.Passes sch exec now v u → u.steps < sch.graph.limits.maxSteps →
    sch.visitCheck u = sch.visitCheck (u.since v)

/-- The loop of the whole run and the loop of the resumed run, from states in step. -/
theorem loop_lag {v : RunState} (n : ℕ) : ∀ b : RunState,
    (∀ u, call.Passes sch exec now (b.lag v.events v.visits) u → u.steps < sch.graph.limits.maxSteps →
      sch.visitCheck u = sch.visitCheck (u.since v)) →
    (loop (.throw .stuck) (sch.iterate call.id now) n (b.lag v.events v.visits)).eval (answers exec now) =
      ((loop (.throw .stuck) (sch.iterate call.id now) n b).eval (answers exec now)).map
        (ExecutionReportV1.prepend v.events) := by
  induction n with
  | zero => intro b _; rfl
  | succ n ih =>
    intro b hagree
    have hlag := sch.iterate_lag call.id v.events v.visits now b fun hb => by
      rw [hagree _ .refl hb, visitCheck_since_lag]
    rw [loop_succ, loop_succ, hlag, eval_bind, eval_bind, eval_map]
    cases hb : (sch.iterate call.id now b).eval (answers exec now) with
    | error e => rfl
    | ok a =>
      cases a with
      | inr report => rfl
      | inl b' =>
        refine ih b' fun u hu => hagree u (.head ?_ hu)
        simp only [Step, hlag, eval_map, hb]
        rfl

/-- Events before the cursor, then events after it. -/
theorem ExecutionReportV1.after_prepend {cursor : ℕ} {pre : List ExecutionEventV1}
    {r : ExecutionReportV1} (hpre : ∀ e ∈ pre, e.sequence ≤ cursor)
    (hr : ∀ e ∈ r.events, cursor < e.sequence) : (r.prepend pre).after cursor = r := by
  have h1 : (pre.filter fun e => decide (cursor < e.sequence)) = [] :=
    List.filter_eq_nil_iff.mpr fun e he => by simpa using hpre e he
  have h2 : (r.events.filter fun e => decide (cursor < e.sequence)) = r.events :=
    List.filter_eq_self.mpr fun e he => by simpa using hr e he
  simp [ExecutionReportV1.after, ExecutionReportV1.prepend, h1, h2]

/-- Numbered events lie after their cursor, and not far. -/
theorem Numbered.bounds {cursor : ℕ} {es : List ExecutionEventV1} (h : Numbered cursor es)
    {e : ExecutionEventV1} (he : e ∈ es) :
    cursor < e.sequence ∧ e.sequence ≤ cursor + es.length := by
  have hmem : e.sequence ∈ List.range' (cursor + 1) es.length := by
    rw [← h]
    exact List.mem_map_of_mem he
  rw [List.mem_range'_1] at hmem
  omega

theorem eval_event (id : ExecutionId) (node : Option NodeId) (kind : EventKindV1) (s : RunState) :
    (event id node kind s).eval (answers exec now) =
      (checkedAdd u64Max s.seq 1).map fun _ => s.logged (s.eventAt id node kind now) := by
  simp only [event, eval_bind, eval_ofExcept, ask_bind, eval_call]
  cases h : checkedAdd u64Max s.seq 1 with
  | error e => rfl
  | ok seq =>
    obtain ⟨rfl, -⟩ := checkedAdd_eq_ok h
    rfl

/-- The checks at the head, where the steps are not used up. -/
theorem eval_enter {id : ExecutionId} {s : RunState} (h : s.steps < sch.graph.limits.maxSteps) :
    (sch.enter id now s).eval (answers exec now) = sch.visitCheck s >>= fun exceeded =>
      if exceeded then ((fail id s.visit "cycle limit exceeded").eval (answers exec now)).map .inr
      else match sch.graph.node s.node with
        | none => .error (.error (.invalidGraph "pending node missing"))
        | some d => .ok (.inl (s.visit, d)) := by
  simp only [Scheduler.enter, ask_bind, eval_call, answers, Bool.false_eq_true, if_false, Nat.not_le.mpr h,
    Nat.sub_self, Nat.not_lt_zero, eval_bind, eval_ofExcept, apply_ite (Prog.eval _), eval_map]
  refine congrArg _ (funext fun exceeded => ?_)
  cases sch.graph.node s.node <;> rfl

/-- A visit refused since the checkpoint is refused by the whole run. -/
theorem cycleExceeded_lag {pre : List ExecutionEventV1} {vis : NodeId → ℕ} {b : RunState}
    (h : sch.cycleExceeded b = true) : sch.cycleExceeded (b.lag pre vis) = true := by
  simp only [Scheduler.cycleExceeded, RunState.lag_node] at h ⊢
  cases hlim : sch.graph.cycleLimit b.node with
  | none => simp [hlim] at h
  | some max =>
    simp only [hlim, decide_eq_true_eq] at h
    exact decide_eq_true (h.trans_le (Nat.le_add_left ..))

/-- Where the check of the visits sees a difference and the whole run reports, it refuses
the visit, and the resumed run does not. -/
theorem visitCheck_differs {pre : List ExecutionEventV1} {vis : NodeId → ℕ} {b : RunState} {exceeded : Bool}
    (hfull : sch.visitCheck (b.lag pre vis) = .ok exceeded)
    (hcheck : sch.visitCheck (b.lag pre vis) ≠ sch.visitCheck b) :
    exceeded = true ∧ sch.visitCheck b = .ok false := by
  obtain ⟨n, hn, hex⟩ := bind_eq_ok.mp hfull
  obtain ⟨rfl, hmax⟩ := checkedAdd_eq_ok hn
  have hmax' : b.visits b.node + 1 ≤ u32Max := by
    simp only [RunState.lag] at hmax
    omega
  have hcb : sch.visitCheck b = .ok (sch.cycleExceeded b.visit) := by
    simp [Scheduler.visitCheck, checkedAdd, hmax']
  cases hex
  rw [RunState.lag_visit] at hfull ⊢
  rw [hfull, hcb] at hcheck
  cases hb : sch.cycleExceeded b.visit with
  | true => simp [hb, cycleExceeded_lag hb] at hcheck
  | false =>
    rw [hb] at hcheck
    exact ⟨by simpa using hcheck, hcb.trans (by rw [hb])⟩

/-- Where the check of the visits stops the whole run at a head and not the resumed one,
the resumed run does not report the same events. -/
theorem not_in_step {pre : List ExecutionEventV1} {vis : NodeId → ℕ} {b : RunState} {cursor : ℕ}
    {id : ExecutionId} {report : ExecutionReportV1} (hpre : ∀ e ∈ pre, e.sequence ≤ cursor)
    (hb : ∀ e ∈ b.events, cursor < e.sequence) (hseq : cursor ≤ b.seq)
    (hsteps : b.steps < sch.graph.limits.maxSteps)
    (hcheck : sch.visitCheck (b.lag pre vis) ≠ sch.visitCheck b)
    (hfull : (sch.runLoop id now (b.lag pre vis)).eval (answers exec now) = .ok report) :
    (sch.runLoop id now b).eval (answers exec now) ≠ .ok (report.after cursor) := by
  intro hres
  rw [Scheduler.runLoop, loop_succ, eval_bind, Scheduler.iterate, eval_bind,
    eval_enter (by simpa using hsteps)] at hfull
  cases hc : sch.visitCheck (b.lag pre vis) with
  | error e => simp [hc] at hfull
  | ok exceeded =>
    obtain ⟨rfl, hcb⟩ := visitCheck_differs hc hcheck
    cases hd : sch.graph.node b.node with
    | none =>
      rw [Scheduler.runLoop, loop_succ, eval_bind, Scheduler.iterate, eval_bind, eval_enter hsteps, hcb, hd] at hres
      cases hres
    | some d =>
      have henter : (sch.enter id now b).eval (answers exec now) = .ok (.inl (b.visit, d)) := by
        rw [eval_enter hsteps, hcb, hd]
        rfl
      obtain ⟨es, hes, hstart⟩ := Scheduler.runLoop_starts henter hres
      have hreport : report.events = pre ++ b.events ++
          [(b.lag pre vis).visit.eventAt id (some b.node) (.failed "cycle limit exceeded") now] := by
        rw [hc] at hfull
        simp only [ok_bind, if_true, fail, eval_bind, eval_event] at hfull
        cases hs : checkedAdd u64Max (b.lag pre vis).visit.seq 1 with
        | error e =>
          rw [hs] at hfull
          cases hfull
        | ok seq =>
          rw [hs] at hfull
          cases hfull
          rfl
      have hpre' : (pre.filter fun e => decide (cursor < e.sequence)) = [] :=
        List.filter_eq_nil_iff.mpr fun e he => by simpa using hpre e he
      have hb' : (b.events.filter fun e => decide (cursor < e.sequence)) = b.events :=
        List.filter_eq_self.mpr fun e he => by simpa using hb e he
      simp only [ExecutionReportV1.after, hreport, List.filter_append, hpre', hb', List.nil_append,
        List.append_cancel_left_eq] at hes
      have hlast : cursor < b.seq + 1 := by omega
      rw [← hes] at hstart
      simp [StartsNode, RunState.eventAt, hlast] at hstart

/-! ### Equivalence -/

/-- The result of a call in deterministic surroundings. -/
def outcome (sch : Scheduler) (call : Invocation) (exec : NodeRequest → Except CoreError NodeExecutionV1)
    (now : ℕ) (w : World Unit) : Except Abort ExecutionReportV1 :=
  ((call.program sch).run (surroundings (stateless exec) false now) w).1

/-- The checkpoints a call saves there. -/
def savedBy (sch : Scheduler) (call : Invocation) (exec : NodeRequest → Except CoreError NodeExecutionV1)
    (now : ℕ) (w : World Unit) : List CheckpointV1 :=
  saves (observe ((call.program sch).trace (surroundings (stateless exec) false now) w))

theorem outcome_eq_eval (w : World Unit) :
    outcome sch call exec now w = (call.program sch).eval (answers exec now) :=
  run_of_answers (surroundings_answers exec now) _ w

/-- The events of the resumed run lie after the cursor. -/
theorem resumed_events {cp : CheckpointV1} {report : ExecutionReportV1} {e : ExecutionEventV1}
    (hr : ((Invocation.resume cp).program sch).eval (answers exec now) = .ok report)
    (he : e ∈ report.events) : cp.eventCursor < e.sequence := by
  have hs := runs_sound (runs_calls (answers exec now) ((Invocation.resume cp).program sch))
  rw [hs.events report hr] at he
  exact (hs.numbered.bounds he).1

/-- A checkpoint of head `v` of a call. -/
structure Resumed (sch : Scheduler) (call : Invocation)
    (exec : NodeRequest → Except CoreError NodeExecutionV1) (now : ℕ) (cp : CheckpointV1)
    (v : RunState) : Prop where
  reaches : call.Reaches sch exec now v
  restart : RunState.ofCheckpoint cp = v.restart
  executionId : cp.executionId = call.id
  check : (Invocation.resume cp).check sch = .ok ()

namespace Resumed

variable {cp : CheckpointV1} {v : RunState} (h : Resumed sch call exec now cp v)
include h

theorem cursor : cp.eventCursor = v.seq := congrArg RunState.seq h.restart

theorem prepare : ((Invocation.resume cp).prepare sch).eval (answers exec now) = .ok (now, v.restart) :=
  prepare_resume h.reaches h.restart h.check

/-- The events of the checkpoint's head lie up to the cursor. -/
theorem before {e : ExecutionEventV1} (he : e ∈ v.events) : e.sequence ≤ cp.eventCursor := by
  obtain ⟨tr, hhead⟩ := h.reaches.head
  have hI := head_invariant hhead
  rw [hI.collected] at he
  have := (hI.numbered.bounds he).2
  rw [h.cursor, hI.cursor]
  exact this

theorem eval_resume : ((Invocation.resume cp).program sch).eval (answers exec now) =
    (sch.runLoop call.id now v.restart).eval (answers exec now) := by
  rw [Invocation.program_eq, eval_bind, h.prepare, ← h.executionId]
  rfl

/-- **In step**: where the check of the visits agrees at every head, the resumed run ends as
the whole run, with the events after the cursor. -/
theorem eval_eq (hagree : ∀ u, call.Passes sch exec now v u → u.steps < sch.graph.limits.maxSteps →
      sch.visitCheck u = sch.visitCheck (u.since v)) :
    ((Invocation.resume cp).program sch).eval (answers exec now) =
      ((call.program sch).eval (answers exec now)).map (ExecutionReportV1.after cp.eventCursor) := by
  have hlag : (sch.runLoop call.id now v).eval (answers exec now) =
      ((sch.runLoop call.id now v.restart).eval (answers exec now)).map
        (ExecutionReportV1.prepend v.events) := by
    have := loop_lag (v := v) (sch.graph.limits.maxSteps - v.steps + 1) v.restart
      (by rwa [RunState.lag_restart])
    rwa [RunState.lag_restart] at this
  rw [eval_program h.reaches, hlag, h.eval_resume]
  cases hr : (sch.runLoop call.id now v.restart).eval (answers exec now) with
  | error e => rfl
  | ok report =>
    have hlater : ∀ e ∈ report.events, cp.eventCursor < e.sequence := fun e he =>
      resumed_events (h.eval_resume.trans hr) he
    exact congrArg Except.ok (ExecutionReportV1.after_prepend (fun e he => h.before he) hlater).symm

/-- Where the results agree, so does the check at heads in step. -/
theorem agree {b : RunState} {report : ExecutionReportV1}
    (hfull : (call.program sch).eval (answers exec now) = .ok report)
    (hres : ((Invocation.resume cp).program sch).eval (answers exec now) =
      .ok (report.after cp.eventCursor))
    (hu : call.Passes sch exec now v (b.lag v.events v.visits))
    (hb : (Invocation.resume cp).Passes sch exec now v.restart b)
    (hsteps : b.steps < sch.graph.limits.maxSteps) :
    sch.visitCheck (b.lag v.events v.visits) = sch.visitCheck b := by
  by_contra hcheck
  obtain ⟨s, hs, hsv⟩ := h.reaches
  have hreach : (Invocation.resume cp).Reaches sch exec now b := ⟨_, h.prepare, hb⟩
  obtain ⟨tr, hhead⟩ := hreach.head
  have hI := head_invariant hhead
  refine not_in_step (fun e he => h.before he) (fun e he => ?_) ?_ hsteps
    hcheck ((eval_program ⟨s, hs, hsv.trans hu⟩).symm.trans hfull) ?_
  · rw [hI.collected] at he
    exact (hI.numbered.bounds he).1
  · rw [hI.cursor]
    exact Nat.le_add_right ..
  · rw [← hres, eval_program hreach, ← h.executionId]
    rfl

/-- Where the results agree, the resumed run is in step at every head. -/
theorem passes {u : RunState} {report : ExecutionReportV1}
    (hfull : (call.program sch).eval (answers exec now) = .ok report)
    (hres : ((Invocation.resume cp).program sch).eval (answers exec now) =
      .ok (report.after cp.eventCursor)) (hu : call.Passes sch exec now v u) :
    ∃ b, u = b.lag v.events v.visits ∧ (Invocation.resume cp).Passes sch exec now v.restart b := by
  induction hu with
  | refl => exact ⟨v.restart, v.lag_restart.symm, .refl⟩
  | @tail u w hu hstep ih =>
    obtain ⟨b, rfl, hb⟩ := ih
    have hlag := sch.iterate_lag call.id v.events v.visits now b fun hsteps =>
      h.agree hfull hres hu hb hsteps
    simp only [Step, hlag, eval_map] at hstep
    cases hi : (sch.iterate call.id now b).eval (answers exec now) with
    | error e => simp [hi, Except.map] at hstep
    | ok r =>
      cases r with
      | inr report => simp [hi, Except.map] at hstep
      | inl b' =>
        simp only [hi, Except.map, Sum.map_inl, Except.ok.injEq, Sum.inl.injEq] at hstep
        refine ⟨b', hstep.symm, hb.tail ?_⟩
        rw [← h.executionId] at hi
        exact hi

end Resumed

/-- **Resuming**: in deterministic surroundings, a run resumed from a checkpoint a call has
saved ends as the call does, with the events after the cursor, exactly if the check of
the visits sees no difference at any head after the checkpoint. -/
theorem resume_equivalent (sch : Scheduler) (call : Invocation)
    (exec : NodeRequest → Except CoreError NodeExecutionV1) (now : ℕ) (cp : CheckpointV1)
    (w w' : World Unit) (hcp : cp ∈ savedBy sch call exec now w) :
    (∀ report, outcome sch call exec now w = .ok report →
      (outcome sch (.resume cp) exec now w' = .ok (report.after cp.eventCursor) ↔
        VisitsForgotten sch call exec now cp)) ∧
    (VisitsForgotten sch call exec now cp → outcome sch (.resume cp) exec now w' =
      (outcome sch call exec now w).map (ExecutionReportV1.after cp.eventCursor)) := by
  simp only [outcome_eq_eval]
  rw [savedBy, trace_of_answers (surroundings_answers exec now)] at hcp
  obtain ⟨v, hv, hstart, hid, hcheck⟩ := reaches_of_saved hcp
  have hsuff : VisitsForgotten sch call exec now cp →
      ((Invocation.resume cp).program sch).eval (answers exec now) =
        ((call.program sch).eval (answers exec now)).map (ExecutionReportV1.after cp.eventCursor) :=
    fun hf => (Resumed.mk hv hstart hid hcheck).eval_eq fun u => hf v u hv hstart
  refine ⟨fun report hfull => ⟨fun hres v u hv hstart hu hsteps => ?_, fun hf => ?_⟩, hsuff⟩
  · have h : Resumed sch call exec now cp v := ⟨hv, hstart, hid, hcheck⟩
    obtain ⟨b, rfl, hb⟩ := h.passes hfull hres hu
    rw [visitCheck_since_lag]
    exact h.agree hfull hres hu hb hsteps
  · rw [hsuff hf, hfull]
    rfl

/-- The last checkpoint of a run round the cycle of the tests: both nodes were visited as
often as they may be. -/
def cycleCheckpoint : CheckpointV1 where
  version := 1
  executionId := testId "e"
  graphHash := "sha256:graph"
  packHash := "p"
  policyHash := "policy"
  nodeImplementationHash := "nodes"
  contractHash := "contracts"
  state :=
    { schemaId := testId "s", revision := 4, value := .object [("n", .number (.posInt 0))]
      provenance := some { executionId := testId "e", nodeId := testId "b", eventSequence := 12 } }
  pendingNode := testId "a"
  eventCursor := 13
  steps := 4
  tokens := 4
  costMicros := 4

theorem cycleCheckpoint_saved :
    cycleCheckpoint ∈
      savedBy (setup true) (.run (testId "e") setupState) proceed 1 (World.fresh ()) := by
  decide +kernel

/-- The run ends at the bound of the cycle after 4 steps; resumed, it makes 4 more. -/
theorem cycle_steps :
    (outcome (setup true) (.run (testId "e") setupState) proceed 1 (World.fresh ())).map (·.steps) =
        .ok 4 ∧
      (outcome (setup true) (.resume cycleCheckpoint) proceed 1 (World.fresh ())).map (·.steps) =
        .ok 8 := by
  decide +kernel

/-- **A resumed run starts the bound of a cycle again.** -/
theorem resume_restarts_cycle :
    ¬ ∀ (sch : Scheduler) (id : ExecutionId) (state : StateSnapshot)
      (exec : NodeRequest → Except CoreError NodeExecutionV1) (now : ℕ) (cp : CheckpointV1)
      (w w' : World Unit), cp ∈ savedBy sch (.run id state) exec now w →
      ∀ report, outcome sch (.run id state) exec now w = .ok report →
        outcome sch (.resume cp) exec now w' = .ok (report.after cp.eventCursor) := by
  intro h
  obtain ⟨hfull, hres⟩ := cycle_steps
  cases hr : outcome (setup true) (.run (testId "e") setupState) proceed 1 (World.fresh ()) with
  | error e => simp [hr, Except.map] at hfull
  | ok report =>
    rw [h _ _ _ _ _ _ _ (World.fresh ()) cycleCheckpoint_saved report hr] at hres
    simp only [hr, Except.map, Except.ok.injEq, ExecutionReportV1.after] at hfull hres
    omega

/-- What `resume_equivalent` says of that checkpoint. -/
theorem cycleCheckpoint_not_forgotten :
    ¬ VisitsForgotten (setup true) (.run (testId "e") setupState) proceed 1 cycleCheckpoint := by
  intro hf
  have h := (resume_equivalent _ _ _ _ _ (World.fresh ()) (World.fresh ()) cycleCheckpoint_saved).2 hf
  obtain ⟨hfull, hres⟩ := cycle_steps
  rw [h] at hres
  cases hr : outcome (setup true) (.run (testId "e") setupState) proceed 1 (World.fresh ()) with
  | error e => simp [hr, Except.map] at hfull
  | ok report =>
    simp only [hr, Except.map, Except.ok.injEq, ExecutionReportV1.after] at hfull hres
    omega

end Knolo.Runtime
