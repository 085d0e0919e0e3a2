import Knolo.Runtime.Trajectory

/-!
# The invariant of runs

What holds at every loop head of every run, started by `run` or by `resume`, whatever
the executor, the sink, the store and the clock do; and of the report, and of every
checkpoint on the way.

* `Sound` — a state and a step count agree with what the run left outside it: the state
  satisfies the schema, its revision counts the patches, its provenance names the event
  of the last one, and the steps count the completed nodes.
* `CheckpointSound` — a saved checkpoint is sound, names its own event, leads along a
  declared transition from the node just completed, and is within the limits.
* `Invariant` — the loop variables; `invariant_of_turns` carries it from turn to turn.
* `run_invariant` — the whole, of every run.
-/

namespace Knolo.Runtime

open Core Library Library.Fallible Library.Prog

/-! ### What the observations count -/

/-- Does an event record a patch? -/
def isPatch (e : ExecutionEventV1) : Bool :=
  match e.kind with
  | .statePatched _ => true
  | _ => false

/-- How many patches were recorded. -/
def patches (obs : List Observation) : ℕ := (emissions obs).countP isPatch

/-- The node a call of the executor completed, if it completed one. -/
def completion : NodeRequest × Except CoreError NodeExecutionV1 → Option NodeId
  | (r, .ok x) => if x.outcome.retryableError.isNone then some r.nodeId else none
  | (_, .error _) => none

/-- The nodes completed, in order. -/
def completions (obs : List Observation) : List NodeId := (executions obs).filterMap completion

section Counts

variable (obs obs' : List Observation) (e : ExecutionEventV1)

@[simp] theorem patches_nil : patches [] = 0 := rfl
@[simp] theorem patches_append : patches (obs ++ obs') = patches obs + patches obs' := by
  simp [patches]
@[simp] theorem patches_emitted :
    patches (.emitted e :: obs) = patches obs + (if isPatch e then 1 else 0) := by
  simp [patches, List.countP_cons]
@[simp] theorem patches_executed (r : NodeRequest) (a : Except CoreError NodeExecutionV1) :
    patches (.executed r a :: obs) = patches obs := rfl
@[simp] theorem patches_saved (cp : CheckpointV1) : patches (.saved cp :: obs) = patches obs := rfl

@[simp] theorem completions_nil : completions [] = [] := rfl
@[simp] theorem completions_append :
    completions (obs ++ obs') = completions obs ++ completions obs' := by
  simp [completions]
@[simp] theorem completions_emitted : completions (.emitted e :: obs) = completions obs := rfl
@[simp] theorem completions_saved (cp : CheckpointV1) :
    completions (.saved cp :: obs) = completions obs := rfl
@[simp] theorem completions_map (es : List ExecutionEventV1) :
    completions (es.map .emitted) = [] := by
  simp [completions]
@[simp] theorem completions_executed_retryable {r : NodeRequest} {x : NodeExecutionV1} {err : String}
    (h : x.outcome.retryableError = some err) :
    completions (.executed r (.ok x) :: obs) = completions obs := by
  simp [completions, completion, h]
@[simp] theorem completions_executed_done {r : NodeRequest} {x : NodeExecutionV1}
    (h : x.outcome.retryableError = none) :
    completions (.executed r (.ok x) :: obs) = r.nodeId :: completions obs := by
  simp [completions, completion, h]

end Counts

@[simp] theorem isPatch_nodeEvent (s : RunState) (id : ExecutionId) (kind : EventKindV1) (t : ℕ) :
    isPatch (s.nodeEvent id kind t) = match kind with | .statePatched _ => true | _ => false := rfl

namespace Scheduler

variable {sch : Scheduler} {id : ExecutionId}

/-! ### What each phase leaves -/

/-- A phase that numbers its events, records no patch and saves nothing. -/
structure Quiet (s : RunState) (obs : List Observation) : Prop where
  numbered : Numbered s.seq (emissions obs)
  patches : patches obs = 0
  saves : saves obs = []

theorem Retried.quiet {s u : RunState} {n : ℕ} {obs : List Observation}
    (h : sch.Retried id s n obs u) : Quiet s obs ∧ completions obs = [] := by
  induction h with
  | start => exact ⟨⟨rfl, rfl, rfl⟩, rfl⟩
  | again h hx _ ih =>
    obtain ⟨⟨hn, hp, hs⟩, hc⟩ := ih
    refine ⟨⟨?_, by simp [hp], by simp [hs]⟩, by simp [hc, hx]⟩
    simp [numbered_append, hn, h.eq_after, RunState.noted_eq_after, Nat.add_assoc]

theorem Executed.quiet {s u : RunState} {obs : List Observation} {x : NodeExecutionV1}
    (h : sch.Executed id s obs u x) : Quiet s obs ∧ completions obs = [s.node] := by
  cases h with
  | last h _ hx =>
    obtain ⟨⟨hn, hp, hs⟩, hc⟩ := h.quiet
    exact ⟨⟨by simp [numbered_append, hn, h.eq_after], by simp [hp], by simp [hs]⟩,
      by simp [hc, hx, RunState.request]⟩

theorem Exhausted.quiet {s u : RunState} {obs : List Observation} {err : String}
    (h : sch.Exhausted id s obs u err) :
    Quiet s obs ∧ completions obs = [] ∧ u = s.after obs := by
  cases h with
  | last h _ hx =>
    obtain ⟨⟨hn, hp, hs⟩, hc⟩ := h.quiet
    exact ⟨⟨by simp [numbered_append, hn, h.eq_after, RunState.noted_eq_after, Nat.add_assoc],
      by simp [hp], by simp [hs]⟩, by simp [hc, hx],
      by simp [h.eq_after, RunState.noted_eq_after, RunState.after, Nat.add_assoc]⟩

theorem Interrupted.quiet {s : RunState} {obs : List Observation}
    (h : sch.Interrupted id s obs) : Quiet s obs := by
  cases h with
  | between h _ => exact h.quiet.1
  | during h _ | before h _ =>
    obtain ⟨⟨hn, hp, hs⟩, -⟩ := h.quiet
    exact ⟨by simp [numbered_append, hn, h.eq_after], by simp [hp], by simp [hs]⟩

/-- The event of a decision records no patch. -/
theorem decision_event {g : CompiledGraphV1} {n : NodeId} {o : NodeOutcomeV1} {dec : Decision}
    (h : decision g n o = .ok dec) {kind : EventKindV1} (hk : dec.event = some kind) :
    ∀ r, kind ≠ .statePatched r := by
  rintro r rfl
  unfold decision at h
  split at h
  case h_2 => split at h <;> cases h; simp at hk
  all_goals cases h; simp at hk

/-- A decision goes on along a declared transition. -/
theorem decision_next {g : CompiledGraphV1} {n m : NodeId} {o : NodeOutcomeV1} {dec : Decision}
    (h : decision g n o = .ok dec) (hm : dec.next = some m) : g.Next n m := by
  unfold decision at h
  split at h
  case h_1 => cases h; exact g.next_of_route hm
  case h_2 route patch =>
    split at h
    · cases h
    · rename_i target ht
      cases h
      simp only [Option.some.injEq] at hm
      exact hm ▸ g.next_of_route ht
  all_goals cases h; simp at hm

theorem Recorded.quiet {s v : RunState} {kind : Option EventKindV1} {obs : List Observation}
    (h : Recorded id s kind obs v) (hk : ∀ k, kind = some k → ∀ r, k ≠ .statePatched r) :
    Quiet s obs ∧ completions obs = [] := by
  cases h with
  | without => exact ⟨⟨rfl, rfl, rfl⟩, rfl⟩
  | @noted kind t =>
    refine ⟨⟨by simp, ?_, rfl⟩, rfl⟩
    cases kind with
    | statePatched r => exact absurd rfl (hk _ rfl r)
    | _ => rfl

end Scheduler

/-! ### Soundness of a state -/

/-- The provenance of a state names the event that recorded its revision. -/
def Stamped (id : ExecutionId) (obs : List Observation) (state : StateSnapshot) : Prop :=
  ∃ e ∈ emissions obs, ∃ n, e.kind = .statePatched state.revision ∧ e.nodeId = some n ∧
    state.provenance = some { executionId := id, nodeId := n, eventSequence := e.sequence }

/-- A state and a step count agree with what a run left outside it. -/
structure Sound (sch : Scheduler) (call : Invocation) (obs : List Observation)
    (state : StateSnapshot) (steps : ℕ) : Prop where
  schemaId : state.schemaId = sch.schema.id
  /-- The document satisfies the schema. -/
  valid : sch.schema.validate state.value = .ok ()
  /-- The revision counts the recorded patches. -/
  revision : state.revision = (call.initial sch).state.revision + patches obs
  /-- The state is untouched, or stamped by the last patch. -/
  provenance : patches obs = 0 ∧ state = (call.initial sch).state ∨ Stamped call.id obs state
  /-- The steps count the completed nodes. -/
  steps : steps = (call.initial sch).steps + (completions obs).length

namespace Sound

variable {sch : Scheduler} {call : Invocation} {obs : List Observation} {state : StateSnapshot}
  {steps : ℕ}

/-- Observations without a patch keep a state sound. -/
theorem quiet (h : Sound sch call obs state steps) {obs' : List Observation}
    (hp : patches obs' = 0) :
    Sound sch call (obs ++ obs') state (steps + (completions obs').length) := by
  refine ⟨h.schemaId, h.valid, by simp [h.revision, hp], ?_, by simp [h.steps, Nat.add_assoc]⟩
  rcases h.provenance with ⟨h0, hs⟩ | ⟨e, he, n, h1, h2, h3⟩
  · exact .inl ⟨by simp [h0, hp], hs⟩
  · exact .inr ⟨e, by simp [he], n, h1, h2, h3⟩

end Sound

namespace Scheduler

variable {sch : Scheduler} {call : Invocation}

/-- A committed patch keeps the state sound. -/
theorem Committed.sound {d : NodeDefinitionV1} {s v : RunState} {p : Option StatePatch}
    {obs obs' : List Observation} (h : sch.Committed call.id d s p obs' v)
    (hs : Sound sch call obs s.state s.steps) : Sound sch call (obs ++ obs') v.state v.steps := by
  cases h with
  | without => simpa using hs
  | @applied p state t hp =>
    obtain ⟨seq, hseq, hr⟩ := bind_eq_ok.mp hp
    obtain ⟨rfl, -⟩ := checkedAdd_eq_ok hseq
    obtain ⟨-, -, hvalid, hid, hrev, -, hprov⟩ := StateSnapshot.apply_eq_ok hr
    exact
      { schemaId := hid.trans hs.schemaId
        valid := hvalid
        revision := by
          simp [RunState.noted_eq_after, hrev, hs.revision, Nat.add_assoc]
        provenance := .inr ⟨({ s with state } : RunState).nodeEvent call.id
          (.statePatched state.revision) t, by simp, s.node, rfl, rfl, hprov⟩
        steps := by simpa [RunState.noted_eq_after] using hs.steps }

/-- A completed node keeps the state sound, and leaves numbered events. -/
theorem Completed.sound {s w : RunState} {dec : Decision} {obs obs' : List Observation}
    (h : sch.Completed call.id s obs' w dec) (hs : Sound sch call obs s.state s.steps) :
    Sound sch call (obs ++ obs') w.state w.steps := by
  cases h with
  | @mk d obs₁ obs₂ obs₃ u v _ x _ hd hx _ hdec hv hw =>
    have hq := hw.quiet fun k hk => decision_event hdec hk
    have hu : Sound sch call (obs ++ obs₁) (u.charge x).state (u.charge x).steps := by
      simpa [hx.eq_after, hx.quiet.2] using hs.quiet hx.quiet.1.patches
    simpa [hw.eq_after, hq.2] using (hv.sound hu).quiet hq.1.patches

/-- What a completed node does to the loop variables, apart from the state. -/
structure Completion (sch : Scheduler) (s : RunState) (obs : List Observation) (w : RunState)
    (dec : Decision) : Prop where
  node : w.node = s.node
  seq : w.seq = s.seq + (emissions obs).length
  events : w.events = s.events ++ emissions obs
  visits : w.visits = s.visit.visits
  numbered : Numbered s.seq (emissions obs)
  saves : Runtime.saves obs = []
  completed : completions obs = [s.node]
  afforded : sch.Afforded w
  ranges : w.tokens ≤ u64Max ∧ w.cost ≤ u64Max
  next : ∀ m, dec.next = some m → sch.graph.Next s.node m

theorem Completed.completion {s w : RunState} {dec : Decision} {obs : List Observation}
    {id : ExecutionId} (h : sch.Completed id s obs w dec) : sch.Completion s obs w dec := by
  cases h with
  | @mk d obs₁ obs₂ obs₃ u v _ x _ hd hx ha hdec hv hw =>
    have hq := hw.quiet fun k hk => decision_event hdec hk
    obtain ⟨⟨hn, -, hs⟩, hc⟩ := hx.quiet
    obtain ⟨es, rfl, hnum, -⟩ := hv.numbered
    obtain ⟨state, rfl⟩ := hv.eq_after
    obtain ⟨hn', -, hs'⟩ := hq.1
    obtain rfl := hx.eq_after
    obtain rfl := hw.eq_after
    exact
      { node := by simp
        seq := by simp [Nat.add_assoc]
        events := by simp
        visits := by simp
        numbered := by
          simp only [emissions_append, numbered_append, emissions_map]
          refine ⟨⟨hn, hnum⟩, ?_⟩
          simpa [Nat.add_assoc] using hn'
        saves := by simp [hs, hs']
        completed := by simp [hc, hq.2]
        afforded := ⟨ha.tokens, ha.cost⟩
        ranges := by simp [satAdd]
        next := fun m hm => decision_next hdec hm }

end Scheduler

/-! ### Soundness of a checkpoint -/

/-- A checkpoint saved after `pre`: its own event comes just before it, it leads along a
declared transition from the node just completed, its state is sound, and it is within
the limits. -/
structure CheckpointSound (sch : Scheduler) (call : Invocation) (pre : List Observation)
    (cp : CheckpointV1) : Prop where
  /-- The last observation is the checkpoint's event, of the node just completed. -/
  event : ∃ pre' e n, pre = pre' ++ [.emitted e] ∧ e.kind = .checkpointed ∧ e.nodeId = some n ∧
    e.sequence = cp.eventCursor ∧ (completions pre).getLast? = some n ∧
    sch.graph.Next n cp.pendingNode
  executionId : cp.executionId = call.id
  sound : Sound sch call pre cp.state cp.steps
  steps : cp.steps ≤ sch.graph.limits.maxSteps
  tokens : cp.tokens ≤ sch.graph.limits.maxTokens
  cost : cp.costMicros ≤ sch.graph.limits.maxCostMicros
  ranges : cp.tokens ≤ u64Max ∧ cp.costMicros ≤ u64Max

/-- Every checkpoint among the observations is sound. -/
def SavesSound (sch : Scheduler) (call : Invocation) : List Observation → List Observation → Prop :=
  Each fun pre o => match o with
    | .saved cp => CheckpointSound sch call pre cp
    | _ => True

theorem savesSound_of_saves_nil {sch : Scheduler} {call : Invocation} {pre obs : List Observation}
    (h : saves obs = []) : SavesSound sch call pre obs := by
  refine each_of_forall fun o ho t => ?_
  cases o with
  | saved cp =>
    have : cp ∈ saves obs := List.mem_filterMap.mpr ⟨_, ho, rfl⟩
    simp [h] at this
  | _ => trivial

/-! ### The invariant -/

/-- What holds at a loop head, after the observations `obs`. -/
structure Invariant (sch : Scheduler) (call : Invocation) (obs : List Observation) (u : RunState) :
    Prop where
  /-- The events collected for the report are the events emitted. -/
  collected : u.events = emissions obs
  cursor : u.seq = (call.initial sch).seq + (emissions obs).length
  numbered : Numbered (call.initial sch).seq (emissions obs)
  sound : Sound sch call obs u.state u.steps
  saves : SavesSound sch call [] obs

namespace Scheduler

variable {sch : Scheduler} {call : Invocation}

theorem Begun.invariant {obs : List Observation} {s : RunState} (h : sch.Begun call obs s) :
    Invariant sch call obs s := by
  have he : (call.initial sch).events = [] := by cases call <;> rfl
  cases h with
  | run _ _ hv hid =>
    exact ⟨by simp [RunState.logged, he], rfl, by simp [RunState.eventAt],
      ⟨hid, hv, rfl, .inl ⟨rfl, rfl⟩, rfl⟩, savesSound_of_saves_nil rfl⟩
  | resume _ _ hv hid =>
    exact ⟨he, rfl, rfl, ⟨hid, hv, rfl, .inl ⟨rfl, rfl⟩, rfl⟩, trivial⟩

/-- **The step lemma**: a turn that goes on keeps the invariant. -/
theorem Turn.invariant {obs obs' : List Observation} {u v : RunState} (hI : Invariant sch call obs u)
    (h : sch.Turn call.id u obs' (.ok (.inl v))) : Invariant sch call (obs ++ obs') v := by
  cases h with
  | @goesOn obs' w dec pending t h hst hnext =>
    have hc := h.completion
    have hs := h.sound hI.sound
    have hp : patches [.emitted (w.nodeEvent call.id .checkpointed t)] = 0 := by simp
    have hq := hs.quiet hp
    have hw : w.seq = (call.initial sch).seq + (emissions obs ++ emissions obs').length := by
      rw [hc.seq, hI.cursor, List.length_append, Nat.add_assoc]
    have hnum : Numbered (call.initial sch).seq (emissions obs ++ emissions obs') :=
      (numbered_append ..).mpr ⟨hI.numbered, hI.cursor ▸ hc.numbered⟩
    refine ⟨?_, ?_, ?_, ?_, ?_⟩
    · simp [RunState.noted_eq_after, hc.events, hI.collected]
    · simp [RunState.noted_eq_after, hw, Nat.add_assoc]
    · simp only [emissions_append, ← List.append_assoc]
      exact (numbered_append ..).mpr ⟨hnum, by simp [hw]⟩
    · have hp' : patches [.saved (sch.checkpointOf call.id pending (w.seq + 1) w)] = 0 := by simp
      simpa [RunState.noted_eq_after] using hq.quiet hp'
    · refine (each_append ..).mpr ⟨hI.saves, (each_append ..).mpr
        ⟨savesSound_of_saves_nil hc.saves, trivial, ?_, trivial⟩⟩
      exact
        { event := ⟨_, _, u.node, rfl, rfl, by simp [hc.node], rfl, by simp [hc.completed],
            hc.next _ hnext⟩
          executionId := rfl
          sound := by simpa [checkpointOf] using hq
          steps := by
            have := h.steps
            simp only [checkpointOf]
            omega
          tokens := hc.afforded.tokens
          cost := hc.afforded.cost
          ranges := hc.ranges }

/-- **The run lemma**: turns keep the invariant. -/
theorem Turns.invariant {obs obs' : List Observation} {u v : RunState}
    (hI : Invariant sch call obs u) (h : sch.Turns call.id u obs' v) :
    Invariant sch call (obs ++ obs') v := by
  induction h with
  | start => simpa using hI
  | step _ ht ih => simpa using ht.invariant ih

/-- A turn that aborts emits numbered events and saves nothing. -/
theorem Turn.aborting {u : RunState} {obs : List Observation} {e : Abort} {id : ExecutionId}
    (h : sch.Turn id u obs (.error e)) : Numbered u.seq (emissions obs) ∧ saves obs = [] := by
  cases h with
  | abortedHead _ => exact ⟨rfl, rfl⟩
  | abortedAttempts _ _ h => exact ⟨h.quiet.numbered, h.quiet.saves⟩
  | abortedSettling _ _ hx hn =>
    refine ⟨?_, by simp [hx.quiet.1.saves]⟩
    simp only [emissions_append, emissions_map]
    exact (numbered_append ..).mpr ⟨hx.quiet.1.numbered, by simpa [hx.eq_after] using hn⟩

/-- A turn that ends the run emits numbered events, saves nothing, and reports the events
and a sound state. -/
theorem Turn.reporting {u : RunState} {obs obs' : List Observation} {report : ExecutionReportV1}
    (hs : Sound sch call obs u.state u.steps) (h : sch.Turn call.id u obs' (.ok (.inr report))) :
    Numbered u.seq (emissions obs') ∧ saves obs' = [] ∧
      report.events = u.events ++ emissions obs' ∧
      Sound sch call (obs ++ obs') report.state report.steps := by
  cases h with
  | @refused v kind status t hv hk =>
    have hp : patches [.emitted (v.nodeEvent call.id kind t)] = 0 := by
      rcases hk with ⟨rfl, -⟩ | ⟨msg, rfl, -⟩ <;> simp
    have hq := hs.quiet hp
    rcases hv with rfl | rfl
    · exact ⟨by simp, rfl, rfl, by simpa [RunState.noted_eq_after, RunState.report] using hq⟩
    · exact ⟨by simp, rfl, rfl, by simpa [RunState.noted_eq_after, RunState.report] using hq⟩
  | exhausted _ h =>
    obtain ⟨hq, hc, rfl⟩ := h.quiet
    exact ⟨hq.numbered, hq.saves, rfl, by simpa [RunState.report, hc] using hs.quiet hq.patches⟩
  | @overBudget _ obs' v x msg t _ hx =>
    obtain ⟨hq, hc⟩ := hx.quiet
    obtain rfl := hx.eq_after
    refine ⟨by simpa [numbered_append] using hq.numbered, by simp [hq.saves],
      by simp [RunState.report, RunState.noted_eq_after], ?_⟩
    have hp : patches (obs' ++
        [.emitted (((u.visit.after obs').charge x).nodeEvent call.id (.failed msg) t)]) = 0 := by
      simp [hq.patches]
    simpa [RunState.report, RunState.noted_eq_after, hc] using hs.quiet hp
  | ended h _ =>
    have hc := h.completion
    exact ⟨hc.numbered, hc.saves, hc.events, h.sound hs⟩

end Scheduler

/-! ### Every run -/

open Scheduler

variable {sch : Scheduler} {call : Invocation}

theorem head_invariant {tr : List (Answered HostCall Answer)} {u : RunState}
    (h : call.Head sch tr u) : Invariant sch call (observe tr) u := by
  obtain ⟨obs, s, obs', hb, ht, hobs⟩ := head_turns h
  exact hobs ▸ ht.invariant hb.invariant

/-- What holds of a whole run, however it ends. -/
structure RunSound (sch : Scheduler) (call : Invocation) (obs : List Observation)
    (res : Except Abort ExecutionReportV1) : Prop where
  numbered : Numbered (call.initial sch).seq (emissions obs)
  saves : SavesSound sch call [] obs
  events : ∀ report, res = .ok report → report.events = emissions obs
  report : ∀ report, res = .ok report → Sound sch call obs report.state report.steps

theorem runs_sound {tr : List (Answered HostCall Answer)} {res : Except Abort ExecutionReportV1}
    (h : Runs (call.program sch) tr res) : RunSound sch call (observe tr) res := by
  rcases runs_turns h with ⟨hobs, e, rfl, -⟩ | ⟨obs, s, obs', u, obs'', hb, ht, hl, hobs⟩
  · rw [hobs]
    exact ⟨rfl, trivial, by simp, by simp⟩
  · have hI := ht.invariant hb.invariant
    have key : Numbered u.seq (emissions obs'') ∧ saves obs'' = [] ∧
        ∀ report, res = .ok report → report.events = u.events ++ emissions obs'' ∧
          Sound sch call (obs ++ obs' ++ obs'') report.state report.steps := by
      cases res with
      | error e => exact ⟨hl.aborting.1, hl.aborting.2, by simp⟩
      | ok report =>
        obtain ⟨hn, hsv, he, hs⟩ := hl.reporting hI.sound
        refine ⟨hn, hsv, ?_⟩
        rintro _ ⟨rfl⟩
        exact ⟨he, hs⟩
    obtain ⟨hn, hsv, hr⟩ := key
    rw [hobs]
    exact
      { numbered := by
          rw [emissions_append]
          exact (numbered_append ..).mpr ⟨hI.numbered, hI.cursor ▸ hn⟩
        saves := (each_append ..).mpr ⟨hI.saves, savesSound_of_saves_nil hsv⟩
        events := fun report hrep => by simp [(hr report hrep).1, hI.collected]
        report := fun report hrep => (hr report hrep).2 }

/-- A saved checkpoint is sound, given what was observed before it. -/
theorem RunSound.checkpoint {obs pre post : List Observation} {cp : CheckpointV1}
    {res : Except Abort ExecutionReportV1} (h : RunSound sch call obs res)
    (hsplit : obs = pre ++ .saved cp :: post) : CheckpointSound sch call pre cp :=
  (each_iff_split [] _).mp h.saves pre _ post hsplit

/-- **The run invariant**: it holds at every loop head; and of a whole run, however it
ends, the events are numbered from the starting cursor and every saved checkpoint is
sound, and what it reports are exactly the events, a sound state and its steps. -/
theorem run_invariant (sch : Scheduler) (call : Invocation) :
    (∀ tr u, call.Head sch tr u → Invariant sch call (observe tr) u) ∧
      ∀ tr res, Runs (call.program sch) tr res →
        Numbered (call.initial sch).seq (emissions (observe tr)) ∧
        (∀ pre cp post, observe tr = pre ++ .saved cp :: post → CheckpointSound sch call pre cp) ∧
        ∀ report, res = .ok report → report.events = emissions (observe tr) ∧
          Sound sch call (observe tr) report.state report.steps := by
  refine ⟨fun tr u h => head_invariant h, fun tr res h => ?_⟩
  have hs := runs_sound h
  exact ⟨hs.numbered, fun pre cp post hsplit => hs.checkpoint hsplit,
    fun report hr => ⟨hs.events report hr, hs.report report hr⟩⟩

/-! ### Genuine calls -/

/-- A call that resumes only what an earlier call has saved. -/
def Invocation.Genuine (sch : Scheduler) : Invocation → Prop
  | .run _ _ => True
  | .resume cp => ∃ (call : Invocation) (tr : List (Answered HostCall Answer))
      (res : Except Abort ExecutionReportV1), Runs (call.program sch) tr res ∧ cp ∈ saves (observe tr)

/-- A genuine call starts within the budgets. -/
theorem Invocation.Genuine.afforded (h : call.Genuine sch) :
    sch.Afforded (call.initial sch) ∧ (call.initial sch).tokens ≤ u64Max ∧
      (call.initial sch).cost ≤ u64Max := by
  cases call with
  | run id state => exact ⟨⟨Nat.zero_le _, Nat.zero_le _⟩, Nat.zero_le _, Nat.zero_le _⟩
  | resume cp =>
    obtain ⟨call, tr, res, hr, hcp⟩ := h
    obtain ⟨o, ho, hsaved⟩ := List.mem_filterMap.mp hcp
    obtain ⟨pre, post, hsplit⟩ := List.append_of_mem ho
    obtain rfl : o = .saved cp := by
      cases o <;> simp at hsaved
      rw [hsaved]
    have hs := (runs_sound hr).checkpoint hsplit
    exact ⟨⟨hs.tokens, hs.cost⟩, hs.ranges⟩

end Knolo.Runtime
