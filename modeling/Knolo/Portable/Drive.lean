import Knolo.Portable.Execute

/-!
# Driving the portable engine

The host's side of the protocol: send a `run` command, answer every dispatch with a
`continue` command that hands the session back, until a report or a failure comes.

The results of the nodes come from a script, a function of the position and the request.
`drive_turn` cuts a driven run at its dispatches: a turn is one dispatch, the host's answer
and the completion of that node, with the commands in between taken out.
-/

namespace Knolo.Portable

open Core Library.Fallible

/-- The results a host gives: a function of how many it gave before, and the request. -/
abbrev Script := ℕ → DispatchRequest → ProtocolNodeExecution

/-- A host: the graph and schema it sends along, its clock and its script. -/
structure Client where
  digest : GraphDefinitionV1 → String
  graph : GraphDefinitionV1
  schema : StateSchemaV1
  now : ℕ
  script : Script

/-- Is the response an event? -/
def ProtocolResponse.isEvent : ProtocolResponse → Bool
  | .event _ => true
  | _ => false

/-- The response a host acts on: the one that is not an event. -/
def answerOf (responses : List ProtocolResponse) : Option ProtocolResponse :=
  responses.find? fun r => !r.isEvent

/-- Events, and one more response. -/
theorem answerOf_events {events : List ProtocolEvent} {r : ProtocolResponse} (hr : r.isEvent = false) :
    answerOf (events.map .event ++ [r]) = some r := by
  induction events with
  | nil => simp [answerOf, hr]
  | cons e es ih =>
    rw [List.map_cons, List.cons_append, answerOf, List.find?_cons_of_neg (by simp [ProtocolResponse.isEvent])]
    exact ih

@[simp] theorem answerOf_finish (status : ProtocolStatus) (p : Progress) :
    answerOf (finish status p) = some (.report (report status p.session)) :=
  answerOf_events rfl

namespace Client

variable (c : Client)

/-- The request that carries a command. -/
def request (command : ProtocolCommand) : ProtocolRequest :=
  { version := 1, command, graph := c.graph, schema := some c.schema, nowMs := some c.now }

/-- Answer dispatches until a report or a failure comes. -/
def drive : ℕ → ℕ → List ProtocolResponse → Except Halt ProtocolReport
  | 0, _, _ => .error .stuck
  | fuel + 1, i, responses =>
    match answerOf responses with
    | some (.report report) => .ok report
    | some (.error failure) => .error (.failure failure)
    | some (.dispatch request session) => do
      let responses ← handle c.digest (c.request (.continue session (c.script i request)))
      drive fuel (i + 1) responses
    | _ => .error .stuck

/-- Run the graph on the portable engine. -/
def run (executionId : String) (state : Json) : Except Halt ProtocolReport := do
  let responses ← handle c.digest (c.request (.run executionId state))
  c.drive (c.graph.limits.maxSteps + 2) 0 responses

/-- One dispatch, the answer to it, and the completion of the node. -/
def turn (g : CompiledGraphV1) (i : ℕ) (p : Progress) :
    Except Halt (Progress ⊕ List ProtocolResponse) := do
  let responses ← dispatchNode g c.now p
  match answerOf responses with
  | some (.dispatch request session) => completeNode g c.schema session (c.script i request) c.now
  | _ => return .inr responses

variable {c}

/-- A failure among the responses ends the run as a failure of the command does. -/
theorem drive_errorResponse (x : Except Halt (List ProtocolResponse)) (n i : ℕ) :
    (errorResponse x >>= c.drive (n + 1) i) = x >>= c.drive (n + 1) i := by
  cases x with
  | ok responses => rfl
  | error e => cases e <;> rfl

variable {g : CompiledGraphV1} (hg : c.graph.compile c.digest = .ok g)

include hg

theorem handle_run (executionId : String) (state : Json) :
    handle c.digest (c.request (.run executionId state)) =
      errorResponse (startRun g (some c.schema) executionId state c.now) := by
  simp [handle, request, hg, definition]

theorem handle_continue (session : PortableSession) (x : ProtocolNodeExecution) :
    handle c.digest (c.request (.continue session x)) =
      errorResponse (continueRun g (some c.schema) session x c.now) := by
  simp [handle, request, hg, definition]

/-- **A driven run, cut at its dispatches.** -/
theorem drive_turn (n i : ℕ) (p : Progress) :
    (dispatchNode g c.now p >>= c.drive (n + 2) i) = c.turn g i p >>= fun
      | .inl p' => dispatchNode g c.now p' >>= c.drive (n + 1) (i + 1)
      | .inr responses => c.drive (n + 1) (i + 1) responses := by
  unfold turn
  cases dispatchNode g c.now p with
  | error e => rfl
  | ok responses =>
    rw [ok_bind, ok_bind, drive]
    cases ha : answerOf responses with
    | none => simp [pure, Except.pure, drive, ha]
    | some answer =>
      cases answer with
      | dispatch request session =>
        simp only [handle_continue hg, drive_errorResponse, continueRun, requireSchema, require, ok_bind]
        cases completeNode g c.schema session (c.script i request) c.now with
        | error e => rfl
        | ok r => rcases r with p' | responses <;> rfl
      | _ => simp [pure, Except.pure, drive, ha]

/-- A run starts a session and is driven from its first dispatch. -/
theorem run_eq (executionId : String) (state : Json) :
    c.run executionId state =
      startRun g (some c.schema) executionId state c.now >>= c.drive (c.graph.limits.maxSteps + 2) 0 := by
  rw [run, handle_run hg, drive_errorResponse]

end Client

/-! ### Events -/

/-- The progress after an event. -/
def Progress.logged (p : Progress) (nodeId : Option String) (kind : ProtocolEventKind) (now : ℕ) :
    Progress :=
  let event : ProtocolEvent :=
    { version := 1, sequence := p.session.sequence + 1, executionId := p.session.executionId, nodeId
      timestampMs := now, kind }
  { session := { p.session with sequence := p.session.sequence + 1, events := p.session.events ++ [event] }
    fresh := p.fresh ++ [event] }

theorem emit_eq (nodeId : Option String) (kind : ProtocolEventKind) (now : ℕ) (p : Progress) :
    emit nodeId kind now p = fromCore (checkedAdd u64Max p.session.sequence 1) >>= fun _ =>
      .ok (p.logged nodeId kind now) := by
  unfold emit
  cases h : checkedAdd u64Max p.session.sequence 1 with
  | error e => cases e <;> rfl
  | ok seq =>
    obtain ⟨rfl, -⟩ := checkedAdd_eq_ok h
    rfl

end Knolo.Portable
