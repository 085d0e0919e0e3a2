import Knolo.Library.History
import Knolo.Runtime.Scheduler

/-!
# What a run does to its surroundings

The part of a run that leaves a mark outside it: the events its sink accepted, the
calls of the executor, the checkpoints its store accepted. `observe` reads them off
the calls of a run, in order; `emissions`, `executions` and `saves` are the three kinds.

`Numbered` is the numbering of the events. `event_sat` and `fail_sat` say what the two
functions that emit events do.
-/

namespace Knolo.Runtime

open Core Library Library.Fallible Library.Prog

/-! ### Observations -/

/-- A mark left outside a run. -/
inductive Observation where
  /-- The sink accepted an event. -/
  | emitted (event : ExecutionEventV1)
  /-- The executor was called. -/
  | executed (request : NodeRequest) (answer : Except CoreError NodeExecutionV1)
  /-- The store accepted a checkpoint. -/
  | saved (checkpoint : CheckpointV1)

/-- What one call leaves. -/
def observation : Answered HostCall Answer → Option Observation
  | ⟨.emit e, answer⟩ => match answer with
    | .ok _ => some (.emitted e)
    | .error _ => none
  | ⟨.execute r, answer⟩ => some (.executed r answer)
  | ⟨.save cp, answer⟩ => match answer with
    | .ok _ => some (.saved cp)
    | .error _ => none
  | ⟨.cancelled, _⟩ | ⟨.nowMs, _⟩ => none

/-- What a run leaves. -/
def observe (tr : List (Answered HostCall Answer)) : List Observation := tr.filterMap observation

@[simp] theorem observe_nil : observe [] = [] := rfl

@[simp] theorem observe_append (tr tr' : List (Answered HostCall Answer)) :
    observe (tr ++ tr') = observe tr ++ observe tr' := List.filterMap_append

@[simp] theorem observe_cancelled (b : Bool) (tr : List (Answered HostCall Answer)) :
    observe (⟨.cancelled, b⟩ :: tr) = observe tr := rfl

@[simp] theorem observe_nowMs (t : ℕ) (tr : List (Answered HostCall Answer)) :
    observe (⟨.nowMs, t⟩ :: tr) = observe tr := rfl

@[simp] theorem observe_execute (r : NodeRequest) (a : Except CoreError NodeExecutionV1)
    (tr : List (Answered HostCall Answer)) :
    observe (⟨.execute r, a⟩ :: tr) = .executed r a :: observe tr := rfl

@[simp] theorem observe_emit_ok (e : ExecutionEventV1) (u : Unit)
    (tr : List (Answered HostCall Answer)) :
    observe (⟨.emit e, .ok u⟩ :: tr) = .emitted e :: observe tr := rfl

@[simp] theorem observe_emit_error (e : ExecutionEventV1) (err : CoreError)
    (tr : List (Answered HostCall Answer)) :
    observe (⟨.emit e, .error err⟩ :: tr) = observe tr := rfl

@[simp] theorem observe_save_ok (cp : CheckpointV1) (u : Unit)
    (tr : List (Answered HostCall Answer)) :
    observe (⟨.save cp, .ok u⟩ :: tr) = .saved cp :: observe tr := rfl

@[simp] theorem observe_save_error (cp : CheckpointV1) (err : CoreError)
    (tr : List (Answered HostCall Answer)) :
    observe (⟨.save cp, .error err⟩ :: tr) = observe tr := rfl

/-- The events among observations. -/
def emissions (obs : List Observation) : List ExecutionEventV1 :=
  obs.filterMap fun | .emitted e => some e | _ => none

/-- The calls of the executor among observations. -/
def executions (obs : List Observation) : List (NodeRequest × Except CoreError NodeExecutionV1) :=
  obs.filterMap fun | .executed r a => some (r, a) | _ => none

/-- The checkpoints among observations. -/
def saves (obs : List Observation) : List CheckpointV1 :=
  obs.filterMap fun | .saved cp => some cp | _ => none

theorem mem_saves_observe {tr : List (Answered HostCall Answer)} {cp : CheckpointV1} :
    cp ∈ saves (observe tr) ↔ ∃ c ∈ tr, observation c = some (.saved cp) := by
  simp only [saves, observe, List.mem_filterMap]
  constructor
  · rintro ⟨o, ⟨c, hc, hco⟩, ho⟩
    cases o <;> simp at ho
    exact ⟨c, hc, ho ▸ hco⟩
  · rintro ⟨c, hc, hco⟩
    exact ⟨_, ⟨c, hc, hco⟩, rfl⟩

theorem mem_executions_observe {tr : List (Answered HostCall Answer)}
    {x : NodeRequest × Except CoreError NodeExecutionV1} (h : x ∈ executions (observe tr)) :
    (⟨.execute x.1, x.2⟩ : Answered HostCall Answer) ∈ tr := by
  simp only [executions, observe, List.mem_filterMap] at h
  obtain ⟨o, ⟨c, hc, hco⟩, ho⟩ := h
  cases o with
  | executed r a =>
    cases ho
    obtain ⟨call, answer⟩ := c
    cases call with
    | execute q =>
      cases hco
      exact hc
    | emit e => cases answer <;> cases hco
    | save cp => cases answer <;> cases hco
    | _ => cases hco
  | _ => cases ho

section Projections

variable (obs obs' : List Observation) (e : ExecutionEventV1) (r : NodeRequest)
  (a : Except CoreError NodeExecutionV1) (cp : CheckpointV1)

@[simp] theorem emissions_nil : emissions [] = [] := rfl
@[simp] theorem emissions_append : emissions (obs ++ obs') = emissions obs ++ emissions obs' :=
  List.filterMap_append
@[simp] theorem emissions_emitted : emissions (.emitted e :: obs) = e :: emissions obs := rfl
@[simp] theorem emissions_executed : emissions (.executed r a :: obs) = emissions obs := rfl
@[simp] theorem emissions_saved : emissions (.saved cp :: obs) = emissions obs := rfl

@[simp] theorem executions_nil : executions [] = [] := rfl
@[simp] theorem executions_append : executions (obs ++ obs') = executions obs ++ executions obs' :=
  List.filterMap_append
@[simp] theorem executions_emitted : executions (.emitted e :: obs) = executions obs := rfl
@[simp] theorem executions_executed :
    executions (.executed r a :: obs) = (r, a) :: executions obs := rfl
@[simp] theorem executions_saved : executions (.saved cp :: obs) = executions obs := rfl

@[simp] theorem saves_nil : saves [] = [] := rfl
@[simp] theorem saves_append : saves (obs ++ obs') = saves obs ++ saves obs' :=
  List.filterMap_append
@[simp] theorem saves_emitted : saves (.emitted e :: obs) = saves obs := rfl
@[simp] theorem saves_executed : saves (.executed r a :: obs) = saves obs := rfl
@[simp] theorem saves_saved : saves (.saved cp :: obs) = cp :: saves obs := rfl

@[simp] theorem emissions_map (es : List ExecutionEventV1) : emissions (es.map .emitted) = es := by
  induction es with
  | nil => rfl
  | cons e es ih => simp [ih]

@[simp] theorem executions_map (es : List ExecutionEventV1) : executions (es.map .emitted) = [] := by
  induction es with
  | nil => rfl
  | cons e es ih => simp [ih]

@[simp] theorem saves_map (es : List ExecutionEventV1) : saves (es.map .emitted) = [] := by
  induction es with
  | nil => rfl
  | cons e es ih => simp [ih]

end Projections

/-! ### The numbering of events -/

/-- The events are numbered from the one after `cursor`, with no gap and no repeat. -/
def Numbered (cursor : ℕ) (es : List ExecutionEventV1) : Prop :=
  es.map (·.sequence) = List.range' (cursor + 1) es.length

@[simp] theorem numbered_nil (cursor : ℕ) : Numbered cursor [] := rfl

@[simp] theorem numbered_cons (cursor : ℕ) (e : ExecutionEventV1) (es : List ExecutionEventV1) :
    Numbered cursor (e :: es) ↔ e.sequence = cursor + 1 ∧ Numbered (cursor + 1) es := by
  simp [Numbered, List.range'_succ]

theorem numbered_append (cursor : ℕ) (es es' : List ExecutionEventV1) :
    Numbered cursor (es ++ es') ↔ Numbered cursor es ∧ Numbered (cursor + es.length) es' := by
  induction es generalizing cursor with
  | nil => simp
  | cons e es ih =>
    simp [ih, and_assoc, Nat.add_assoc, Nat.add_comm 1]

/-! ### Emitting -/

/-- The event a run in state `s` emits next. -/
def RunState.eventAt (s : RunState) (id : ExecutionId) (node : Option NodeId) (kind : EventKindV1)
    (now : ℕ) : ExecutionEventV1 :=
  { version := 1, sequence := s.seq + 1, executionId := id, nodeId := node, timestampMs := now, kind }

/-- The event of the pending node, of kind `kind`. -/
def RunState.nodeEvent (s : RunState) (id : ExecutionId) (kind : EventKindV1) (now : ℕ) :
    ExecutionEventV1 := s.eventAt id (some s.node) kind now

section NodeEvent

variable (s : RunState) (id : ExecutionId) (kind : EventKindV1) (now : ℕ)

@[simp] theorem RunState.nodeEvent_sequence : (s.nodeEvent id kind now).sequence = s.seq + 1 := rfl
@[simp] theorem RunState.nodeEvent_nodeId : (s.nodeEvent id kind now).nodeId = some s.node := rfl
@[simp] theorem RunState.nodeEvent_kind : (s.nodeEvent id kind now).kind = kind := rfl

end NodeEvent

/-- The state after an event of the pending node. -/
def RunState.noted (s : RunState) (id : ExecutionId) (kind : EventKindV1) (now : ℕ) : RunState :=
  s.logged (s.nodeEvent id kind now)

/-- The state after the events among `obs`: nothing but the log has changed. -/
def RunState.after (s : RunState) (obs : List Observation) : RunState :=
  { s with seq := s.seq + (emissions obs).length, events := s.events ++ emissions obs }

section After

variable (s : RunState) (obs obs' : List Observation)

@[simp] theorem RunState.after_state : (s.after obs).state = s.state := rfl
@[simp] theorem RunState.after_node : (s.after obs).node = s.node := rfl
@[simp] theorem RunState.after_seq : (s.after obs).seq = s.seq + (emissions obs).length := rfl
@[simp] theorem RunState.after_steps : (s.after obs).steps = s.steps := rfl
@[simp] theorem RunState.after_tokens : (s.after obs).tokens = s.tokens := rfl
@[simp] theorem RunState.after_cost : (s.after obs).cost = s.cost := rfl
@[simp] theorem RunState.after_events : (s.after obs).events = s.events ++ emissions obs := rfl
@[simp] theorem RunState.after_visits : (s.after obs).visits = s.visits := rfl

@[simp] theorem RunState.after_nil : s.after [] = s := by simp [RunState.after]

@[simp] theorem RunState.after_after : (s.after obs).after obs' = s.after (obs ++ obs') := by
  simp [RunState.after, Nat.add_assoc]

theorem RunState.noted_eq_after (id : ExecutionId) (kind : EventKindV1) (now : ℕ) :
    s.noted id kind now = s.after [.emitted (s.nodeEvent id kind now)] := rfl

end After

/-- `event` emits the next event, or leaves nothing. -/
theorem event_sat (id : ExecutionId) (node : Option NodeId) (kind : EventKindV1) (s : RunState) :
    (event id node kind s).Sat fun tr res =>
      match res with
      | .ok s' => ∃ now, observe tr = [.emitted (s.eventAt id node kind now)] ∧
          s' = s.logged (s.eventAt id node kind now)
      | .error e => observe tr = [] ∧ e ≠ .stuck := by
  refine Sat.ofExcept_bind (fun seq hseq => ?_) fun e he => ⟨rfl, checkedAdd_ne_stuck he⟩
  obtain ⟨rfl, -⟩ := checkedAdd_eq_ok hseq
  intro now answer
  cases answer with
  | ok u => exact ⟨now, rfl, rfl⟩
  | error e => exact ⟨rfl, by simp⟩

/-- `fail` emits a `Failed` event and reports it. -/
theorem fail_sat (id : ExecutionId) (s : RunState) (msg : String) :
    (fail id s msg).Sat fun tr res =>
      match res with
      | .ok report => ∃ now, observe tr = [.emitted (s.nodeEvent id (.failed msg) now)] ∧
          report = (s.noted id (.failed msg) now).report (.failed msg)
      | .error e => observe tr = [] ∧ e ≠ .stuck := by
  refine (event_sat ..).bind (fun tr s' h => ?_) fun tr e h => h
  obtain ⟨now, hobs, rfl⟩ := h
  exact ⟨now, by simp [hobs, RunState.nodeEvent], rfl⟩

end Knolo.Runtime
