import Knolo.Runtime.Invariant
import Knolo.Runtime.Surroundings

/-!
# What the log of a run tells

A reader of event logs, who knows the graph and nothing of the run: from event to event it follows the
pending node, the revision and the steps, and it refuses a log that no run could have.

* `Reading.read` — one event; `readLog` — a log.
* `walk_of_readLog` — the nodes of a log that is read are a walk along declared transitions.
* `log_tells_run` — the log of every run is read, and tells at every head, checkpoint and report what the
  run knows there.
* `lineage_told` — so do the logs of an execution that is resumed again and again, put together.
-/

namespace Knolo.Runtime

open Core Library Library.Fallible Library.Prog

/-! ### Reading a log -/

/-- How a log ends. -/
inductive Ending where
  | suspended (reason : String)
  | terminated
  | failed (error : String)
  | cancelled
  deriving DecidableEq

/-- Where in the visit of a node a log is. -/
inductive Phase where
  /-- Nothing was recorded yet. -/
  | fresh
  /-- Before the visit. -/
  | head
  /-- An attempt was started. -/
  | trying (attempt : ℕ)
  /-- Another attempt was announced. -/
  | retrying (attempt : ℕ)
  /-- The patch was committed. -/
  | patched
  /-- A route was taken. -/
  | decided (route : String)
  /-- The run has ended. -/
  | over (ending : Ending)
  deriving DecidableEq

/-- What a log tells so far. -/
structure Reading where
  node : NodeId
  seq : ℕ
  revision : ℕ
  steps : ℕ
  phase : Phase
  deriving DecidableEq

namespace Reading

/-- One more event, and the phase it leads to. -/
def enter (c : Reading) (phase : Phase) : Reading := { c with seq := c.seq + 1, phase }

/-- The event that completes a step. -/
def complete (c : Reading) (node : NodeId) (phase : Phase) : Reading :=
  { c.enter phase with node, steps := c.steps + 1 }

/-- An event of the pending node. -/
def move (g : CompiledGraphV1) (c : Reading) : EventKindV1 → Option Reading
  | .executionStarted => none
  | .nodeStarted n =>
    match c.phase with
    | .head => if n = 1 then some (c.enter (.trying n)) else none
    | .retrying m => if n = m then some (c.enter (.trying n)) else none
    | _ => none
  | .retrying n =>
    match c.phase with
    | .trying m => if n = m + 1 then some (c.enter (.retrying n)) else none
    | _ => none
  | .statePatched r =>
    match c.phase with
    | .trying _ => if r = c.revision + 1 then some { c.enter .patched with revision := r } else none
    | _ => none
  | .routed route target =>
    match c.phase with
    | .trying _ | .patched => if g.route c.node route = some target then some (c.enter (.decided route)) else none
    | _ => none
  | .suspended reason =>
    match c.phase with
    | .trying _ | .patched => some (c.complete c.node (.over (.suspended reason)))
    | _ => none
  | .terminated =>
    match c.phase with
    | .trying _ | .patched => some (c.complete c.node (.over .terminated))
    | _ => none
  | .failed error =>
    match c.phase with
    | .head | .trying _ => some (c.enter (.over (.failed error)))
    | _ => none
  | .cancelled =>
    match c.phase with
    | .head => some (c.enter (.over .cancelled))
    | _ => none
  | .checkpointed =>
    match c.phase with
    | .patched => (g.route c.node "continue").map fun target => c.complete target .head
    | .decided route => (g.route c.node route).map fun target => c.complete target .head
    | _ => none

/-- An event: of this execution, with the next number, and of the pending node unless it is the first. -/
def read (g : CompiledGraphV1) (id : ExecutionId) (c : Reading) (e : ExecutionEventV1) : Option Reading :=
  if e.version = 1 ∧ e.executionId = id ∧ e.sequence = c.seq + 1 then
    match e.nodeId with
    | none => if e.kind = .executionStarted ∧ c.phase = .fresh then some (c.enter .head) else none
    | some n => if n = c.node then c.move g e.kind else none
  else none

end Reading

/-- Read a log, from what is known before. -/
def readLog (g : CompiledGraphV1) (id : ExecutionId) (c : Reading) (log : List ExecutionEventV1) : Option Reading :=
  log.foldlM (Reading.read g id) c

section ReadLog

variable {g : CompiledGraphV1} {id : ExecutionId} {c c' c'' : Reading} {e : ExecutionEventV1}
  {log log' : List ExecutionEventV1}

@[simp] theorem readLog_nil : readLog g id c [] = some c := rfl

@[simp] theorem readLog_cons : readLog g id c (e :: log) = (c.read g id e).bind fun c' => readLog g id c' log := by
  rw [readLog, List.foldlM_cons]
  rfl

@[simp] theorem readLog_append :
    readLog g id c (log ++ log') = (readLog g id c log).bind fun c' => readLog g id c' log' := by
  rw [readLog, List.foldlM_append]
  rfl

theorem readLog_append_of (h : readLog g id c log = some c') (h' : readLog g id c' log' = some c'') :
    readLog g id c (log ++ log') = some c'' := by
  rw [readLog_append, h]
  exact h'

end ReadLog

/-! ### What a run knows -/

/-- What a run knows at `s`, with the steps it has recorded. -/
def told (s : RunState) (steps : ℕ) (phase : Phase) : Reading where
  node := s.node
  seq := s.seq
  revision := s.state.revision
  steps
  phase

section Told

variable {g : CompiledGraphV1} {id : ExecutionId} {s : RunState} {n : ℕ} {phase : Phase} {kind : EventKindV1} {t : ℕ}

@[simp] theorem told_charge (x : NodeExecutionV1) : told (s.charge x) n phase = told s n phase := rfl
@[simp] theorem read_nodeEvent : (told s n phase).read g id (s.nodeEvent id kind t) = (told s n phase).move g kind := by
  simp [Reading.read, RunState.nodeEvent, RunState.eventAt, told]

/-- The phase before an attempt. -/
def before (attempt : ℕ) : Phase := if attempt = 0 then .head else .retrying (attempt + 1)

/-- An attempt is started, after so many retries. -/
theorem move_started (id : ExecutionId) (t k : ℕ) : (told s n (before k)).move g (.nodeStarted (k + 1)) =
    some (told (s.noted id (.nodeStarted (k + 1)) t) n (.trying (k + 1))) := by
  cases k with
  | zero => rfl
  | succ k =>
    simp only [Reading.move, told, before, if_neg (Nat.succ_ne_zero k), if_pos]
    rfl

theorem move_retrying (id : ExecutionId) (t k : ℕ) : (told s n (.trying (k + 1))).move g (.retrying (k + 2)) =
    some (told (s.noted id (.retrying (k + 2)) t) n (before (k + 1))) := by
  simp only [Reading.move, told, if_pos]
  rfl

theorem move_failed (id : ExecutionId) (t : ℕ) {error : String} (hp : phase = .head ∨ ∃ k, phase = .trying k) :
    (told s n phase).move g (.failed error) = some (told (s.noted id (.failed error) t) n (.over (.failed error))) := by
  rcases hp with rfl | ⟨k, rfl⟩ <;> rfl

end Told

namespace Scheduler

variable {sch : Scheduler} {id : ExecutionId} {s u v w : RunState} {n steps : ℕ} {obs : List Observation}

/-- Retries are told. -/
theorem Retried.told (h : sch.Retried id s n obs u) :
    readLog sch.graph id (told s steps .head) (emissions obs) = some (told u steps (before n)) := by
  induction h with
  | start => rfl
  | @again n obs u x err t q h hx _ ih =>
    rw [emissions_append]
    refine readLog_append_of ih ?_
    simp only [emissions_emitted, emissions_executed, emissions_nil, readLog_cons, readLog_nil, read_nodeEvent]
    rw [move_started id t n, Option.bind_some, read_nodeEvent, move_retrying id q n]
    rfl

/-- So is the attempt that completes. -/
theorem Executed.told {x : NodeExecutionV1} (h : sch.Executed id s obs u x) (steps : ℕ) :
    ∃ k, readLog sch.graph id (told s steps .head) (emissions obs) = some (told u steps (.trying k)) := by
  cases h with
  | @last n obs u x t h _ _ =>
    refine ⟨n + 1, ?_⟩
    rw [emissions_append]
    refine readLog_append_of h.told ?_
    simp only [emissions_emitted, emissions_executed, emissions_nil, readLog_cons, readLog_nil, read_nodeEvent]
    rw [move_started id t n]
    rfl

/-- And the last retry. -/
theorem Exhausted.told {err : String} (h : sch.Exhausted id s obs u err) :
    readLog sch.graph id (told s steps .head) (emissions obs) = some (told u steps (.over (.failed err))) := by
  cases h with
  | @last n obs u x err t q h _ _ =>
    rw [emissions_append]
    refine readLog_append_of h.told ?_
    simp only [emissions_emitted, emissions_executed, emissions_nil, readLog_cons, readLog_nil, read_nodeEvent]
    rw [move_started id t n, Option.bind_some, read_nodeEvent,
      move_failed id q (.inr ⟨_, rfl⟩)]
    rfl

/-- The phase after a patch. -/
def committed (patch : Option StatePatch) (phase : Phase) : Phase := if patch.isSome then .patched else phase

/-- A patch is told. -/
theorem Committed.told {d : NodeDefinitionV1} {p : Option StatePatch} {k : ℕ} (h : sch.Committed id d s p obs v) :
    readLog sch.graph id (told s steps (.trying k)) (emissions obs) = some (told v steps (committed p (.trying k))) := by
  cases h with
  | without => rfl
  | @applied p state t hp =>
    obtain ⟨seq, -, hr⟩ := bind_eq_ok.mp hp
    obtain ⟨-, -, -, -, hrev, -, -⟩ := StateSnapshot.apply_eq_ok hr
    have hmove : (Runtime.told s steps (.trying k)).move sch.graph (.statePatched state.revision) =
        some (Runtime.told (({ s with state } : RunState).noted id (.statePatched state.revision) t) steps .patched) := by
      show (if state.revision = s.state.revision + 1 then _ else none) = _
      rw [if_pos hrev]
      rfl
    have hread : (Runtime.told s steps (.trying k)).read sch.graph id
        (({ s with state } : RunState).nodeEvent id (.statePatched state.revision) t) =
          (Runtime.told s steps (.trying k)).move sch.graph (.statePatched state.revision) := by
      simp [Reading.read, RunState.nodeEvent, RunState.eventAt, Runtime.told]
    simp only [emissions_emitted, emissions_nil, readLog_cons, readLog_nil, hread, hmove]
    rfl

end Scheduler

/-- How a status shows in the log. -/
def ExecutionStatusV1.ending : ExecutionStatusV1 → Ending
  | .suspended reason => .suspended reason
  | .terminated _ => .terminated
  | .failed error => .failed error
  | .cancelled => .cancelled

/-- The step that an ending completes: a log does not tell whether a failed node has completed. -/
def Ending.step : Ending → ℕ
  | .suspended _ | .terminated => 1
  | .failed _ | .cancelled => 0

namespace Scheduler

variable {sch : Scheduler} {id : ExecutionId} {s u v w : RunState} {n steps : ℕ} {obs : List Observation}

section Decided

variable {k : ℕ} {x : NodeExecutionV1} {dec : Decision} {d : NodeDefinitionV1} {obs' : List Observation}

/-- A decision to end is told. -/
theorem ending_told {status : ExecutionStatusV1} (hdec : decision sch.graph s.node x.outcome = .ok dec)
    (hst : dec.status = some status) (h : Recorded id v dec.event obs w) :
    readLog sch.graph id (told v steps (committed dec.patch (.trying k))) (emissions obs) =
      some (told w (steps + status.ending.step) (.over status.ending)) := by
  unfold decision at hdec
  split at hdec
  case h_1 =>
    cases hdec
    cases hst
  case h_2 =>
    split at hdec <;> cases hdec
    cases hst
  case h_3 _ patch _ | h_4 _ patch _ =>
    cases hdec
    cases hst
    cases h with
    | noted =>
      simp only [emissions_emitted, emissions_nil, readLog_cons, read_nodeEvent]
      cases patch <;> rfl
  case h_5 =>
    cases hdec
    cases hst
    cases h with
    | noted =>
      simp only [emissions_emitted, emissions_nil, readLog_cons, read_nodeEvent]
      rfl

/-- A checkpoint is told, after the route that leads to it. -/
theorem checkpointed_told {route : String} {phase : Phase} {pending : NodeId} {t : ℕ}
    (hp : phase = .patched ∧ route = "continue" ∨ phase = .decided route)
    (hroute : sch.graph.route w.node route = some pending) :
    readLog sch.graph id (told w steps phase) [w.nodeEvent id .checkpointed t] =
      some (told { w.noted id .checkpointed t with node := pending } (steps + 1) .head) := by
  have hmove : (told w steps phase).move sch.graph .checkpointed =
      (sch.graph.route w.node route).map fun target => (told w steps phase).complete target .head := by
    rcases hp with ⟨rfl, rfl⟩ | rfl <;> rfl
  simp only [readLog_cons, readLog_nil, read_nodeEvent, hmove, hroute]
  rfl

/-- A decision to go on is told with its checkpoint. -/
theorem goingOn_told {pending : NodeId} {t : ℕ} (hdec : decision sch.graph s.node x.outcome = .ok dec)
    (hst : dec.status = none) (hnext : dec.next = some pending) (hnode : v.node = s.node)
    (h : Recorded id v dec.event obs w) :
    readLog sch.graph id (told v steps (committed dec.patch (.trying k)))
        (emissions obs ++ [w.nodeEvent id .checkpointed t]) =
      some (told { w.noted id .checkpointed t with node := pending } (steps + 1) .head) := by
  unfold decision at hdec
  split at hdec
  case h_1 =>
    cases hdec
    cases h with
    | without =>
      refine readLog_append_of (readLog_nil) (checkpointed_told (.inl ⟨rfl, rfl⟩) ?_)
      rw [hnode]
      exact hnext
  case h_2 route patch _ =>
    split at hdec
    · cases hdec
    · rename_i target htarget
      cases hdec
      cases hnext
      have htarget : sch.graph.route v.node route = some pending := hnode ▸ htarget
      cases h with
      | noted =>
        refine @readLog_append_of _ _ _ (told (v.noted id (.routed route pending) _) steps (.decided route)) _ _ _ ?_
          (checkpointed_told (.inr rfl) htarget)
        simp only [emissions_emitted, emissions_nil, readLog_cons, readLog_nil, read_nodeEvent]
        have hmove : (told v steps (committed patch (.trying k))).move sch.graph (.routed route pending) =
            if sch.graph.route v.node route = some pending then
              some ((told v steps (committed patch (.trying k))).enter (.decided route)) else none := by
          cases patch <;> rfl
        rw [hmove, if_pos htarget]
        rfl
  all_goals
    cases hdec
    cases hst

end Decided

/-- The phases of a completed node, up to its decision. -/
theorem Completed.told {dec : Decision} (h : sch.Completed id s obs w dec) (steps : ℕ) :
    (∀ status, dec.status = some status → readLog sch.graph id (told s steps .head) (emissions obs) =
        some (told w (steps + status.ending.step) (.over status.ending))) ∧
      ∀ pending t, dec.status = none → dec.next = some pending →
        readLog sch.graph id (told s steps .head) (emissions obs ++ [w.nodeEvent id .checkpointed t]) =
          some (told { w.noted id .checkpointed t with node := pending } (steps + 1) .head) := by
  cases h with
  | @mk d obs obs' obs'' u v w x dec _ hx _ hdec hv hw =>
    obtain ⟨k, hx'⟩ := hx.told steps
    have hnode : v.node = s.node := by
      obtain ⟨state, rfl⟩ := hv.eq_after
      rw [hx.eq_after]
      rfl
    rw [emissions_append, emissions_append]
    refine ⟨fun status hst => ?_, fun pending t hst hnext => ?_⟩
    · exact readLog_append_of (readLog_append_of hx' hv.told) (ending_told hdec hst hw)
    · rw [List.append_assoc]
      exact readLog_append_of (readLog_append_of hx' hv.told) (goingOn_told hdec hst hnext hnode hw)

/-- **The step lemma**: a turn that goes on is told, from head to head. -/
theorem Turn.told (h : sch.Turn id s obs (.ok (.inl v))) :
    readLog sch.graph id (told s s.steps .head) (emissions obs) = some (told v v.steps .head) := by
  have hsteps := h.steps.1
  cases h with
  | @goesOn obs w dec pending t h hst hnext =>
    rw [hsteps, emissions_append]
    exact (h.told _).2 pending t hst hnext

/-- The run lemma: so are turns. -/
theorem Turns.told (h : sch.Turns id s obs v) :
    readLog sch.graph id (told s s.steps .head) (emissions obs) = some (told v v.steps .head) := by
  induction h with
  | start => rfl
  | step _ ht ih =>
    rw [emissions_append]
    exact readLog_append_of ih ht.told

end Scheduler

/-! ### Every run -/

/-- What a checkpoint keeps of a log. -/
def kept (cp : CheckpointV1) : Reading := told (.ofCheckpoint cp) cp.steps .head

/-- What is known when a call begins. -/
def Invocation.opening (sch : Scheduler) (call : Invocation) : Reading :=
  told (call.initial sch) (call.initial sch).steps (if call.started then .fresh else .head)

/-- What a log tells of a report. Of a node that has failed it does not tell whether it was charged. -/
structure Reading.Reports (c : Reading) (report : ExecutionReportV1) : Prop where
  phase : c.phase = .over report.status.ending
  revision : c.revision = report.state.revision
  steps : c.steps = report.steps ∨ report.steps = c.steps + 1 ∧ ∃ error, report.status = .failed error

namespace Scheduler

variable {sch : Scheduler} {id : ExecutionId} {s u v w : RunState} {obs obs' : List Observation} {call : Invocation}

/-- A node does not cancel its run. -/
theorem Completed.not_cancelled {dec : Decision} (h : sch.Completed id s obs w dec) : dec.status ≠ some .cancelled := by
  cases h with
  | mk _ _ _ hdec _ _ =>
    unfold decision at hdec
    split at hdec
    case h_2 =>
      split at hdec <;> cases hdec
      simp
    all_goals
      cases hdec
      simp

/-- The turn that ends a run is told. -/
theorem Turn.reported {report : ExecutionReportV1} (h : sch.Turn id s obs (.ok (.inr report))) :
    ∃ c, readLog sch.graph id (Runtime.told s s.steps .head) (emissions obs) = some c ∧ c.Reports report := by
  cases h with
  | @refused u kind status t hu hk =>
    have htold : Runtime.told u u.steps .head = Runtime.told s s.steps .head := by
      rcases hu with rfl | rfl <;> rfl
    rw [← htold]
    simp only [emissions_emitted, emissions_nil, readLog_cons, readLog_nil, read_nodeEvent]
    rcases hk with ⟨rfl, rfl⟩ | ⟨error, rfl, rfl⟩
    · exact ⟨_, rfl, rfl, rfl, .inl rfl⟩
    · exact ⟨_, rfl, rfl, rfl, .inl rfl⟩
  | @exhausted d obs u err _ h =>
    have hsteps : s.steps = u.steps := by
      rw [h.quiet.2.2]
      rfl
    exact ⟨Runtime.told u s.steps (.over (.failed err)), h.told, ⟨rfl, rfl, .inl hsteps⟩⟩
  | @overBudget d obs u x error t _ hx =>
    obtain ⟨k, hk⟩ := hx.told s.steps
    have hsteps : u.steps = s.steps := by
      rw [hx.eq_after]
      rfl
    refine ⟨Runtime.told ((u.charge x).noted id (.failed error) t) s.steps (.over (.failed error)), ?_, ⟨rfl, rfl,
      .inr ⟨congrArg (· + 1) hsteps, error, rfl⟩⟩⟩
    rw [emissions_append]
    refine readLog_append_of hk ?_
    rw [← told_charge x]
    simp only [emissions_emitted, emissions_nil, readLog_cons, readLog_nil, read_nodeEvent]
    rfl
  | @ended obs u dec status h hst =>
    have hsteps : u.steps = s.steps + 1 := h.steps.1
    refine ⟨Runtime.told u (s.steps + status.ending.step) (.over status.ending), (h.told _).1 status hst, ⟨rfl, rfl, ?_⟩⟩
    cases status with
    | suspended reason => exact .inl hsteps.symm
    | terminated result => exact .inl hsteps.symm
    | failed error => exact .inr ⟨hsteps, error, rfl⟩
    | cancelled => exact absurd hst h.not_cancelled

/-- What is known when the loop is entered. -/
theorem Begun.told (h : sch.Begun call obs s) :
    readLog sch.graph call.id (call.opening sch) (emissions obs) = some (told s s.steps .head) := by
  cases h with
  | run hs _ _ _ =>
    have hopening : call.opening sch = Runtime.told (call.initial sch) (call.initial sch).steps .fresh := by
      rw [Invocation.opening, if_pos hs]
    rw [hopening]
    simp [Reading.read, RunState.eventAt, Runtime.told, Reading.enter, RunState.logged]
  | resume hs _ _ _ =>
    rw [Invocation.opening, if_neg (by simp [hs])]
    rfl

/-- Every checkpoint keeps what the log before it tells. -/
def SavesTold (sch : Scheduler) (call : Invocation) : List Observation → List Observation → Prop :=
  Each fun pre o => match o with
    | .saved cp => readLog sch.graph call.id (call.opening sch) (emissions pre) = some (kept cp)
    | _ => True

theorem savesTold_of_saves_nil {pre : List Observation} (h : saves obs = []) : SavesTold sch call pre obs := by
  refine each_of_forall fun o ho t => ?_
  cases o with
  | saved cp =>
    have hmem : cp ∈ saves obs := List.mem_filterMap.mpr ⟨_, ho, rfl⟩
    rw [h] at hmem
    cases hmem
  | _ => trivial

/-- The checkpoint of a turn keeps what its log tells. -/
theorem Turn.savesTold {pre : List Observation} (h : sch.Turn call.id s obs (.ok (.inl v)))
    (hpre : readLog sch.graph call.id (call.opening sch) (emissions pre) = some (Runtime.told s s.steps .head)) :
    SavesTold sch call pre obs := by
  have hsteps := h.steps.1
  cases h with
  | @goesOn obs w dec pending t h hst hnext =>
    have htold := (h.told s.steps).2 pending t hst hnext
    refine (each_append ..).mpr ⟨savesTold_of_saves_nil h.completion.saves, trivial, ?_, trivial⟩
    show readLog sch.graph call.id (call.opening sch)
      (emissions (pre ++ obs ++ [.emitted (w.nodeEvent call.id .checkpointed t)])) = _
    rw [emissions_append, emissions_append, List.append_assoc]
    refine (readLog_append_of hpre htold).trans ?_
    rw [← hsteps]
    rfl

/-- So do the checkpoints of turns. -/
theorem Turns.savesTold {pre : List Observation} (h : sch.Turns call.id s obs v)
    (hpre : readLog sch.graph call.id (call.opening sch) (emissions pre) = some (Runtime.told s s.steps .head)) :
    SavesTold sch call pre obs := by
  induction h with
  | start => trivial
  | step h ht ih =>
    refine (each_append ..).mpr ⟨ih, ht.savesTold ?_⟩
    rw [emissions_append]
    exact readLog_append_of hpre h.told

end Scheduler

section Call

open Scheduler

variable {sch : Scheduler} {call : Invocation} {tr : List (Answered HostCall Answer)}

/-- It is told at every checkpoint, and by the report. -/
theorem runs_told {res : Except Abort ExecutionReportV1} (h : Runs (call.program sch) tr res) :
    SavesTold sch call [] (observe tr) ∧ ∀ report, res = .ok report →
      ∃ c, readLog sch.graph call.id (call.opening sch) report.events = some c ∧ c.Reports report := by
  have hevents := (runs_sound h).events
  rcases runs_turns h with ⟨hobs, e, rfl, -⟩ | ⟨obs, s, obs', u, obs'', hb, ht, hl, hobs⟩
  · rw [hobs]
    exact ⟨trivial, fun report h => by cases h⟩
  · have hI := ht.invariant hb.invariant
    have hbefore : SavesTold sch call [] (obs ++ obs') :=
      (each_append ..).mpr ⟨savesTold_of_saves_nil hb.quiet.2, ht.savesTold hb.told⟩
    rw [hobs] at hevents ⊢
    cases res with
    | error e => exact ⟨(each_append ..).mpr ⟨hbefore, savesTold_of_saves_nil hl.aborting.2⟩, fun report h => by cases h⟩
    | ok report =>
      obtain ⟨c, hread, hreports⟩ := hl.reported
      refine ⟨(each_append ..).mpr ⟨hbefore, savesTold_of_saves_nil (hl.reporting hI.sound).2.1⟩, ?_⟩
      rintro _ ⟨⟩
      refine ⟨c, ?_, hreports⟩
      rw [hevents report rfl, emissions_append, emissions_append]
      exact readLog_append_of (readLog_append_of hb.told ht.told) hread

end Call

/-! ### Executions that are resumed -/

/-- The calls of an execution, one after the other: each resumes a checkpoint that the one before has saved, and
the log is cut there. -/
inductive Lineage (sch : Scheduler) (id : ExecutionId) (state : StateSnapshot) :
    List ExecutionEventV1 → Invocation → Prop
  /-- The first call. -/
  | run : Lineage sch id state [] (.run id state)
  /-- One more. -/
  | resume {log : List ExecutionEventV1} {call : Invocation} {tr : List (Answered HostCall Answer)}
      {res : Except Abort ExecutionReportV1} {pre post : List Observation} {cp : CheckpointV1} :
      Lineage sch id state log call → Runs (call.program sch) tr res → observe tr = pre ++ .saved cp :: post →
      Lineage sch id state (log ++ emissions pre) (.resume cp)

section Lineage

variable {sch : Scheduler} {id : ExecutionId} {state : StateSnapshot} {log : List ExecutionEventV1} {call : Invocation}

/-- The log of the calls before tells what the next begins with. -/
theorem Lineage.told (h : Lineage sch id state log call) : call.id = id ∧
    readLog sch.graph id ((Invocation.run id state).opening sch) log = some (call.opening sch) := by
  induction h with
  | run => exact ⟨rfl, rfl⟩
  | @resume log call tr res pre post cp _ hr hsplit ih =>
    obtain ⟨rfl, hlog⟩ := ih
    have hcp := (runs_sound hr).checkpoint hsplit
    have htold := (each_iff_split [] _).mp (runs_told hr).1 pre _ post hsplit
    exact ⟨hcp.executionId, readLog_append_of hlog htold⟩

end Lineage

end Knolo.Runtime
