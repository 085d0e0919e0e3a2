import Knolo.Runtime.Turn

/-!
# Runs as sequences of turns

The two entry points behind one type, `Invocation`, and their runs taken apart: the
preparation (`prepare_sat`), turns that go on (`Turns`), and a last turn.

* `Invocation.Head` — the loop heads a run passes through, with the calls made so far.
* `head_turns` — every head is reached by turns.
* `runs_turns` — every run is a preparation that failed, or turns and a last turn.
-/

namespace Knolo.Runtime

open Core Library Library.Fallible Library.Prog

/-! ### Entry points -/

/-- A call of one of the two entry points. -/
inductive Invocation where
  /-- `Scheduler::run`. -/
  | run (id : ExecutionId) (state : StateSnapshot)
  /-- `Scheduler::resume`. -/
  | resume (cp : CheckpointV1)

namespace Invocation

/-- The execution a call is about. -/
def id : Invocation → ExecutionId
  | .run id _ => id
  | .resume cp => cp.executionId

/-- Does the call record the start of the execution? -/
def started : Invocation → Bool
  | .run _ _ => true
  | .resume _ => false

/-- The state the loop variables start in. -/
def initial (sch : Scheduler) : Invocation → RunState
  | .run _ state => .initial state sch.graph.definition.entry 0 0 0 0
  | .resume cp => .ofCheckpoint cp

/-- What is checked before the state is. -/
def check (sch : Scheduler) : Invocation → Except CoreError Unit
  | .run _ _ => .ok ()
  | .resume cp => cp.checkArtifacts sch.graph.hash sch.policy.packHash sch.policy.policyHash
      sch.policy.nodeImplementationHash sch.policy.contractHash

/-- The program of a call. -/
def program (sch : Scheduler) : Invocation → Run ExecutionReportV1
  | .run id state => sch.run id state
  | .resume cp => sch.resume cp

/-- What a call does before its loop. -/
def prepare (sch : Scheduler) (call : Invocation) : Run (ℕ × RunState) := do
  ofExcept (liftError (call.check sch))
  sch.begin call.id call.started (call.initial sch)

/-- A call prepares, and enters the loop. -/
theorem program_eq (sch : Scheduler) (call : Invocation) :
    call.program sch = call.prepare sch >>= fun p => sch.runLoop call.id p.1 p.2 := by
  cases call with
  | run id state => rfl
  | resume cp =>
    simp only [program, prepare, Scheduler.resume, Scheduler.runFrom, bind_assoc]
    rfl

/-- The loop heads a run of the call passes through, with the calls made so far. -/
def Head (sch : Scheduler) (call : Invocation) (tr : List (Answered HostCall Answer))
    (u : RunState) : Prop :=
  ∃ start tr₁ s tr₂, Runs (call.prepare sch) tr₁ (.ok (start, s)) ∧
    Heads (sch.iterate call.id start) s tr₂ u ∧ tr = tr₁ ++ tr₂

end Invocation

namespace Scheduler

variable (sch : Scheduler)

/-- The preparation of a call succeeded. -/
inductive Begun (call : Invocation) : List Observation → RunState → Prop
  /-- A new execution. -/
  | run {t : ℕ} : call.started = true → call.check sch = .ok () →
      sch.schema.validate (call.initial sch).state.value = .ok () →
      (call.initial sch).state.schemaId = sch.schema.id →
      Begun call [.emitted ((call.initial sch).eventAt call.id none .executionStarted t)]
        ((call.initial sch).logged ((call.initial sch).eventAt call.id none .executionStarted t))
  /-- A resumed execution. -/
  | resume : call.started = false → call.check sch = .ok () →
      sch.schema.validate (call.initial sch).state.value = .ok () →
      (call.initial sch).state.schemaId = sch.schema.id →
      Begun call [] (call.initial sch)

theorem prepare_sat (call : Invocation) :
    (call.prepare sch).Sat fun tr res =>
      match res with
      | .ok (_, s) => sch.Begun call (observe tr) s
      | .error e => e ≠ .stuck ∧ observe tr = [] := by
  refine Sat.ofExcept_bind (fun _ hc => ?_) fun e he => ⟨liftError_ne_stuck he, rfl⟩
  refine Sat.ofExcept_bind (fun _ hv => ?_) fun e he => ⟨liftError_ne_stuck he, rfl⟩
  refine Sat.ofExcept_bind (fun _ hid => ?_) fun e he => ⟨ensure_ne he (by simp), rfl⟩
  have hid := ensure_eq_ok.mp hid
  simp only [ask_bind, sat_call]
  intro start
  cases hs : call.started with
  | false => exact .resume hs (liftError_eq_ok.mp hc) (liftError_eq_ok.mp hv) hid
  | true =>
    refine (event_sat ..).bind (fun tr s h => ?_) fun tr e he => ⟨he.2, by simpa using he.1⟩
    obtain ⟨t, hobs, rfl⟩ := h
    simpa [hobs] using .run hs (liftError_eq_ok.mp hc) (liftError_eq_ok.mp hv) hid

variable {sch} in
/-- The preparation changes nothing but the log. -/
theorem Begun.eq_after {call : Invocation} {obs : List Observation} {s : RunState}
    (h : sch.Begun call obs s) : s = (call.initial sch).after obs := by
  cases h with
  | run _ _ _ _ => rfl
  | resume _ _ _ _ => simp

variable {sch} in
/-- The preparation neither calls the executor nor saves a checkpoint. -/
theorem Begun.quiet {call : Invocation} {obs : List Observation} {s : RunState}
    (h : sch.Begun call obs s) : executions obs = [] ∧ saves obs = [] := by
  cases h <;> exact ⟨rfl, rfl⟩

variable (id : ExecutionId)

/-- Turns that go on. -/
inductive Turns (s : RunState) : List Observation → RunState → Prop
  /-- None. -/
  | start : Turns s [] s
  /-- One more. -/
  | step {obs obs' : List Observation} {u v : RunState} :
      Turns s obs u → sch.Turn id u obs' (.ok (.inl v)) → Turns s (obs ++ obs') v

variable {sch id}

/-- A completed node is one step, within the limit. -/
theorem Completed.steps {s u : RunState} {obs : List Observation} {dec : Decision}
    (h : sch.Completed id s obs u dec) :
    u.steps = s.steps + 1 ∧ s.steps < sch.graph.limits.maxSteps := by
  cases h with
  | mk hd hx _ _ hv hw =>
    obtain ⟨state, rfl⟩ := hv.eq_after
    rw [hw.eq_after, hx.eq_after]
    exact ⟨rfl, hd.steps⟩

/-- A turn that goes on counts a step, within the limit. -/
theorem Turn.steps {s v : RunState} {obs : List Observation}
    (h : sch.Turn id s obs (.ok (.inl v))) :
    v.steps = s.steps + 1 ∧ s.steps < sch.graph.limits.maxSteps := by
  cases h with
  | goesOn h _ _ => exact h.steps

/-- A turn does not run out of fuel. -/
theorem Turn.ne_stuck {s : RunState} {obs : List Observation} {e : Abort}
    (h : sch.Turn id s obs (.error e)) : e ≠ .stuck := by
  cases h <;> assumption

/-- Turns, in one behaviour of the loop body. -/
theorem turns_of_heads {start : ℕ} {s u : RunState} {tr : List (Answered HostCall Answer)}
    (h : Heads (sch.iterate id start) s tr u) : sch.Turns id s (observe tr) u := by
  refine heads_inv (I := fun tr u => sch.Turns id s (observe tr) u) .start (fun tr u hI => ?_) h
  refine (sch.iterate_turn id start u).mono fun tr' res ht v hv => ?_
  subst hv
  simpa using Turns.step hI ht

variable (sch)

/-- The loop is turns and a last turn; its fuel does not run out. -/
theorem runLoop_turns (start : ℕ) (s : RunState) :
    (sch.runLoop id start s).Sat fun tr res => ∃ obs u obs', sch.Turns id s obs u ∧
      sch.Turn id u obs' (res.map .inr) ∧ observe tr = obs ++ obs' := by
  have hloop : (sch.runLoop id start s).Sat fun tr res => ∃ obs u obs', sch.Turns id s obs u ∧
      sch.Turn id u obs' (res.map .inr) ∧ observe ([] ++ tr) = obs ++ obs' := by
    refine loop_sat (I := fun tr u => sch.Turns id s (observe tr) u)
      (Q := fun tr res => ∃ obs u obs', sch.Turns id s obs u ∧
        sch.Turn id u obs' (res.map .inr) ∧ observe tr = obs ++ obs')
      (fun u => sch.graph.limits.maxSteps - u.steps) ?_ _ [] s .start (Nat.lt_succ_self _)
    intro tr u hu
    refine (sch.iterate_turn id start u).mono fun tr' res ht => ?_
    match res, ht with
    | .ok (.inl v), ht =>
      refine ⟨by simpa using hu.step ht, ?_⟩
      have := ht.steps
      omega
    | .ok (.inr report), ht => exact ⟨_, u, _, hu, ht, by simp⟩
    | .error e, ht => exact ⟨_, u, _, hu, ht, by simp⟩
  simpa using hloop

end Scheduler

open Scheduler

variable {sch : Scheduler} {call : Invocation}

/-- Every head is reached by turns. -/
theorem head_turns {tr : List (Answered HostCall Answer)} {u : RunState} (h : call.Head sch tr u) :
    ∃ obs s obs', sch.Begun call obs s ∧ sch.Turns call.id s obs' u ∧ observe tr = obs ++ obs' := by
  obtain ⟨start, tr₁, s, tr₂, hp, hh, rfl⟩ := h
  exact ⟨_, s, _, sat_iff_runs.mp (sch.prepare_sat call) _ _ hp, turns_of_heads hh, by simp⟩

/-- **Every run** is a preparation that failed and left nothing, or a preparation, turns
and a last turn. -/
theorem runs_turns {tr : List (Answered HostCall Answer)} {res : Except Abort ExecutionReportV1}
    (h : Runs (call.program sch) tr res) :
    (observe tr = [] ∧ ∃ e, res = .error e ∧ e ≠ .stuck) ∨
      ∃ obs s obs' u obs'', sch.Begun call obs s ∧ sch.Turns call.id s obs' u ∧
        sch.Turn call.id u obs'' (res.map .inr) ∧ observe tr = obs ++ obs' ++ obs'' := by
  rw [Invocation.program_eq] at h
  have key : (call.prepare sch >>= fun p => sch.runLoop call.id p.1 p.2).Sat fun tr res =>
      (observe tr = [] ∧ ∃ e, res = .error e ∧ e ≠ .stuck) ∨
      ∃ obs s obs' u obs'', sch.Begun call obs s ∧ sch.Turns call.id s obs' u ∧
        sch.Turn call.id u obs'' (res.map .inr) ∧ observe tr = obs ++ obs' ++ obs'' := by
    refine (sch.prepare_sat call).bind (fun tr p hp => ?_) fun tr e he => .inl ⟨he.2, e, rfl, he.1⟩
    refine (sch.runLoop_turns p.1 p.2).mono fun tr' res ht => .inr ?_
    obtain ⟨obs, u, obs', hts, ht, hobs⟩ := ht
    exact ⟨_, p.2, obs, u, obs', hp, hts, ht, by simp [hobs]⟩
  exact sat_iff_runs.mp key _ _ h

end Knolo.Runtime
