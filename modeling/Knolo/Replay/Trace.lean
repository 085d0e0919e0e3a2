import Knolo.Replay.Engine

/-!
# Replay

`packages/agents/src/replay/index.ts` and `replayDeterministic` of `packages/agents/src/agent/index.ts`:
a recorded trace, its check, and its comparison with a fresh run.

A trace comes from anywhere. Its events and snapshots are objects with any members; of an event the
execution is a text.

* `replay_recorded`: what a run has recorded is replayed with success.
* `sound_iff`: where a replay succeeds, the events are those of the fresh run, and the snapshots are if
  and only if the trace hides nothing (`Faithful`).
-/

namespace Knolo.Replay

open Builder (Intrinsics)
open Script Library.Fallible

/-! ### Events and snapshots as objects -/

/-- An integer as a value. -/
def integer (n : ℕ) : Value := .number (some (.finite n))

/-- A text or `null`. -/
def optionalText (s : Option String) : Value := s.elim .null .string

/-- The kind of an event, as an object. -/
def EventKindV1.record : EventKindV1 → Record
  | .executionStarted => .of [("type", .string "execution_started")]
  | .nodeStarted attempt => .of [("type", .string "node_started"), ("attempt", integer attempt)]
  | .statePatched revision => .of [("type", .string "state_patched"), ("revision", integer revision)]
  | .routed route target => .of [("type", .string "routed"), ("route", .string route), ("to", .string target)]
  | .suspended reason => .of [("type", .string "suspended"), ("reason", .string reason)]
  | .terminated => .of [("type", .string "terminated")]
  | .failed error => .of [("type", .string "failed"), ("error", .string error)]
  | .cancelled => .of [("type", .string "cancelled")]
  | .checkpointed => .of [("type", .string "checkpointed")]

/-- An event, as an object. -/
def ExecutionEventV1.record (e : ExecutionEventV1) : Record := .of
  [("version", integer e.version), ("sequence", integer e.sequence), ("execution_id", .string e.executionId),
    ("node_id", optionalText e.nodeId), ("timestamp_ms", integer e.timestampMs), ("kind", e.kind.record.toValue)]

/-- Where a state comes from, as an object. -/
def ProvenanceV1.record (p : ProvenanceV1) : Record := .of
  [("execution_id", .string p.executionId), ("node_id", .string p.nodeId),
    ("event_sequence", integer p.eventSequence)]

/-- A snapshot, as an object. -/
def StateSnapshot.record (s : StateSnapshot) : Record := .of
  [("schema_id", .string s.schemaId), ("revision", integer s.revision), ("value", s.value),
    ("provenance", s.provenance.elim .null fun p => p.record.toValue)]

/-- An event of a trace. -/
structure ReplayEvent where
  record : Record
  executionId : String
  stated : record.get "execution_id" = .string executionId

/-- An event of a run, in a trace. -/
def ReplayEvent.of (e : ExecutionEventV1) : ReplayEvent := ⟨e.record, e.executionId, rfl⟩

/-- Ordered events, and the states after each of them. -/
structure ReplayTraceV1 where
  version : ℕ := 1
  events : List ReplayEvent
  snapshots : Option (List Record) := none

/-- The type of a status. -/
def ExecutionStatus.type : ExecutionStatus → String
  | .suspended _ => "suspended"
  | .terminated _ => "terminated"
  | .failed _ => "failed"
  | .cancelled => "cancelled"

/-! ### Recording, and checking a trace -/

/-- `recordReplayTrace`. -/
def recordReplayTrace (report : ExecutionReport) : ReplayTraceV1 where
  events := report.events.map .of
  snapshots := some ((report.snapshots.getD [report.state]).map (·.record))

/-- A value is this number. -/
def isInteger (v : Value) (n : ℕ) : Bool :=
  match v with
  | .number (some (.finite q)) => q = n
  | .number (some .negZero) => n = 0
  | _ => false

/-- One event, after the sequence number of the last one and the execution it was of. -/
def checkEvent (last : ℕ × Option String) (e : ReplayEvent) : Except String (ℕ × Option String) := do
  ensure (isInteger (e.record.get "version") 1 ∧ isInteger (e.record.get "sequence") (last.1 + 1))
    "replay events must be version 1 and contiguous"
  ensure (last.2.all fun id => id.isEmpty || e.executionId = id) "replay events must belong to one execution"
  return (last.1 + 1, some e.executionId)

/-- `validateReplayEvents`. -/
def validateReplayEvents (events : List ReplayEvent) : Except String Unit := do
  let _ ← events.foldlM checkEvent (0, none)

/-! ### Comparing -/

/-- `controlTrace`: events without their timestamps. -/
def controlTrace (events : List ReplayEvent) : Value :=
  .array (events.map fun e => (e.record.without "timestamp_ms").toValue)

/-- What is compared of a snapshot. -/
def snapshotEntry (r : Record) : Record := .of
  [("schema_id", r.get "schema_id"), ("revision", r.get "revision"), ("value", (r.get "value").canonicalize),
    ("provenance", r.get "provenance")]

/-- `snapshotTrace`. -/
def snapshotTrace (snapshots : List Record) : Value := .array (snapshots.map fun r => (snapshotEntry r).toValue)

/-- An event ends a run: its kind has the type `terminated`. -/
def ReplayEvent.terminates (e : ReplayEvent) : Except String Bool :=
  match e.record.get "kind" with
  | .undefined => .error "Cannot read properties of undefined (reading 'type')"
  | .null => .error "Cannot read properties of null (reading 'type')"
  | .object ks f =>
    match (Record.mk ks f).get "type" with
    | .string s => .ok (s = "terminated")
    | _ => .ok false
  | _ => .ok false

/-- Is there an event that ends the run? -/
def anyTerminates : List ReplayEvent → Except String Bool
  | [] => .ok false
  | e :: es => do if ← e.terminates then return true else anyTerminates es

/-- `assertReplayMatch`. -/
def assertReplayMatch (actual : ExecutionReport) (expected : ReplayTraceV1) : Except String Unit := do
  let diverged := "deterministic replay diverged from recorded control-plane events"
  ensure ((controlTrace (actual.events.map .of)).stringify = (controlTrace expected.events).stringify) diverged
  ensure ((← anyTerminates expected.events) → actual.status.type = "terminated") diverged
  match expected.snapshots with
  | none => .ok ()
  | some snapshots =>
    let actualSnapshots := (actual.snapshots.getD []).map (·.record)
    ensure ((snapshotTrace actualSnapshots).stringify = (snapshotTrace snapshots).stringify)
      "deterministic replay diverged from recorded state snapshots"

/-- What a replay is given: events, or a trace. -/
inductive Expected where
  | events (events : List ReplayEvent)
  | trace (trace : ReplayTraceV1)

/-- The trace to compare with. What is not a trace is taken for events, which a trace of another version
is not. -/
def Expected.resolve : Expected → Except String ReplayTraceV1
  | .events es => .ok { events := es }
  | .trace t => do
    ensure (t.version = 1) "events is not iterable"
    return t

/-- `replayDeterministic`. -/
def replayDeterministic (I : Intrinsics) (a : Agent) (initial : Value) (expected : Expected) (w : Surroundings) :
    Except String ExecutionReport := do
  let trace ← expected.resolve
  validateReplayEvents trace.events
  validateState I a.definition.schema initial
  let report ← a.run I initial { executionId := trace.events.head?.map (·.executionId) } w
  assertReplayMatch report trace
  return report

/-! ### What a run has recorded -/

section Recording

variable {f : Frame} {I : Intrinsics} {a : Agent} {s s' : RunState}

/-- The events are numbered from one on, are of the execution, and none of them has ended it. -/
structure Logged (f : Frame) (s : RunState) : Prop where
  numbered : (s.events.map ReplayEvent.of).foldlM checkEvent (0, none) = .ok (s.sequence, some f.executionId)
  owned : ∀ e ∈ s.events, e.executionId = f.executionId
  running : ∀ e ∈ s.events, e.kind ≠ .terminated

/-- A report that can be replayed. -/
structure Reported (f : Frame) (r : ExecutionReport) : Prop where
  numbered : ∃ n, (r.events.map ReplayEvent.of).foldlM checkEvent (0, none) = .ok (n, some f.executionId)
  head : ∃ e, r.events.head? = some e ∧ e.executionId = f.executionId
  ended : ∀ e ∈ r.events, e.kind = .terminated → r.status.type = "terminated"
  snapshots : ∃ ss, r.snapshots = some ss

theorem isInteger_integer (n : ℕ) : isInteger (integer n) n = true := by
  simp [isInteger, integer]

theorem checkEvent_of {last : ℕ × Option String} {e : ExecutionEventV1} (hversion : e.version = 1)
    (hsequence : e.sequence = last.1 + 1) (hid : ∀ id, last.2 = some id → e.executionId = id) :
    checkEvent last (.of e) = .ok (last.1 + 1, some e.executionId) := by
  have h1 : isInteger ((ReplayEvent.of e).record.get "version") 1 = true := hversion ▸ isInteger_integer e.version
  have h2 : isInteger ((ReplayEvent.of e).record.get "sequence") (last.1 + 1) = true :=
    hsequence ▸ isInteger_integer e.sequence
  have h3 : (last.2.all fun id => id.isEmpty || (ReplayEvent.of e).executionId = id) = true := by
    rw [Option.all_eq_true]
    intro id hlast
    rw [show (ReplayEvent.of e).executionId = id from hid id hlast, decide_eq_true rfl, Bool.or_true]
  rw [checkEvent, ensure, if_pos ⟨h1, h2⟩, ok_bind, ensure, if_pos h3]
  rfl

theorem numbered_emit {last : ℕ × Option String} {kind : EventKindV1} {nodeId : Option String}
    (hlast : last.1 = s.sequence) (hid : ∀ id, last.2 = some id → f.executionId = id)
    (h : (s.events.map ReplayEvent.of).foldlM checkEvent (0, none) = .ok last) :
    ((emit f kind nodeId s).events.map ReplayEvent.of).foldlM checkEvent (0, none) =
      .ok (s.sequence + 1, some f.executionId) := by
  rw [emit, List.map_append, List.foldlM_append, h, ok_bind, List.map_singleton, List.foldlM_cons,
    checkEvent_of rfl (by rw [hlast]) hid, hlast]
  rfl

theorem mem_emit {kind : EventKindV1} {nodeId : Option String} {e : ExecutionEventV1}
    (h : e ∈ (emit f kind nodeId s).events) : e ∈ s.events ∨ e.executionId = f.executionId ∧ e.kind = kind := by
  rcases List.mem_append.mp h with h | h
  · exact .inl h
  · obtain rfl := List.mem_singleton.mp h
    exact .inr ⟨rfl, rfl⟩

/-- Only the events and their number count. -/
theorem Logged.congr (h : Logged f s) (hevents : s'.events = s.events) (hsequence : s'.sequence = s.sequence) :
    Logged f s' := by
  refine ⟨?_, ?_, ?_⟩
  · rw [hevents, hsequence]
    exact h.numbered
  · rw [hevents]
    exact h.owned
  · rw [hevents]
    exact h.running

theorem Logged.emit (h : Logged f s) {kind : EventKindV1} (hkind : kind ≠ .terminated) (nodeId : Option String) :
    Logged f (emit f kind nodeId s) := by
  refine ⟨numbered_emit rfl (fun id hid => Option.some.inj hid) h.numbered, fun e he => ?_, fun e he => ?_⟩
  · rcases mem_emit he with he | ⟨hid, -⟩
    · exact h.owned e he
    · exact hid
  · rcases mem_emit he with he | ⟨-, rfl⟩
    · exact h.running e he
    · exact hkind

/-- What a run records when it ends. -/
theorem Logged.stop (h : Logged f s) {kind : EventKindV1} {status : ExecutionStatus}
    (hkind : kind = .terminated → status.type = "terminated") : Reported f (stop f kind status s) := by
  refine ⟨⟨_, numbered_emit rfl (fun id hid => Option.some.inj hid) h.numbered⟩, ?_, fun e he hterminated => ?_,
    ⟨_, rfl⟩⟩
  · have hne : (Replay.emit f kind (some s.current) s).events ≠ [] := by simp [Replay.emit]
    obtain ⟨e, es, hes⟩ := List.exists_cons_of_ne_nil hne
    refine ⟨e, congrArg List.head? hes, ?_⟩
    rcases mem_emit (hes ▸ List.mem_cons_self ..) with he | ⟨hid, -⟩
    · exact h.owned e he
    · exact hid
  · rcases mem_emit he with he | ⟨-, rfl⟩
    · exact absurd hterminated (h.running e he)
    · exact hkind hterminated

theorem Logged.fail (h : Logged f s) (error : String) : Reported f (fail f error s) := h.stop nofun

/-- What holds of where a turn leads to. -/
def Led (f : Frame) : ExecutionReport ⊕ RunState → Prop := Sum.elim (Reported f) (Logged f)

theorem Logged.commit {patch : Option StateUpdate} (h : Logged f s) (hcommit : commit f I a patch s = .ok s') :
    Logged f s' := by
  cases patch with
  | none =>
    cases hcommit
    exact h
  | some patch =>
    obtain ⟨update, -, hcommit⟩ := bind_eq_ok.mp hcommit
    obtain ⟨-, hcommit⟩ := check_bind_eq_ok.mp hcommit
    obtain ⟨-, hcommit⟩ := check_bind_eq_ok.mp hcommit
    cases hcommit
    apply Logged.emit
    · exact h.congr rfl rfl
    · nofun

theorem Logged.follow {route : String} {routed : Bool} (h : Logged f s)
    (hfollow : follow f a route routed s = .ok s') : Logged f s' := by
  unfold Replay.follow at hfollow
  split at hfollow
  · cases hfollow
  · rename_i edge _
    cases hfollow
    have hcheckpoint : ∀ {u : RunState}, Logged f u → Logged f (Replay.emit f .checkpointed (some u.current) u) :=
      fun hu => hu.emit (by nofun) _
    cases routed with
    | false => exact (hcheckpoint h).congr rfl rfl
    | true =>
      have hrouted : Logged f (Replay.emit f (.routed route edge.target) (some s.current) s) := h.emit (by nofun) _
      exact (hcheckpoint hrouted).congr rfl rfl

theorem Logged.proceed {outcome : NodeOutcome} {out : ExecutionReport ⊕ RunState} (h : Logged f s)
    (hproceed : proceed f a outcome s = .ok out) : Led f out := by
  have hfollow : ∀ route routed, (Replay.follow f a route routed s).map Sum.inr = .ok out → Led f out := by
    intro route routed hmap
    cases hnext : Replay.follow f a route routed s with
    | error e =>
      rw [hnext] at hmap
      cases hmap
    | ok s' =>
      rw [hnext] at hmap
      cases hmap
      exact h.follow hnext
  cases outcome with
  | «continue» patch => exact hfollow _ _ hproceed
  | route route patch => exact hfollow _ _ hproceed
  | suspend reason patch =>
    cases hproceed
    exact h.stop nofun
  | terminate result patch =>
    cases hproceed
    exact h.stop fun _ => rfl
  | fail error retryable =>
    cases hproceed
    exact h.fail error

theorem Logged.complete {execution : NodeExecution} {out : ExecutionReport ⊕ RunState} (h : Logged f s)
    (hcomplete : complete f I a execution s = .ok out) : Led f out := by
  have hcharge : Logged f (charge execution s) := h.congr rfl rfl
  unfold Replay.complete at hcomplete
  dsimp only at hcomplete
  split at hcomplete
  · cases hcomplete
    exact hcharge.fail _
  · obtain ⟨s', hcommit, hproceed⟩ := bind_eq_ok.mp hcomplete
    exact (hcharge.commit hcommit).proceed hproceed

/-- One turn keeps the log in order. -/
theorem Logged.turn {out : ExecutionReport ⊕ RunState} (h : Logged f s) (hturn : turn f I a s = .ok out) :
    Led f out := by
  have hread : Logged f { s with readings := s.readings + 1 } := h.congr rfl rfl
  have hvisit : Logged f (visit { s with readings := s.readings + 1 }) := h.congr rfl rfl
  simp only [Replay.turn] at hturn
  generalize visit { s with readings := s.readings + 1 } = u at hturn hvisit
  by_cases hlate : late f a s = true
  · rw [if_pos hlate] at hturn
    cases hturn
    exact hread.fail _
  rw [if_neg hlate] at hturn
  by_cases hcycle : cycleExceeded a u = true
  · rw [if_pos hcycle] at hturn
    cases hturn
    exact hvisit.fail _
  rw [if_neg hcycle] at hturn
  have hstarted : Logged f (Replay.emit f (.nodeStarted 1) (some u.current) u) := hvisit.emit (by rintro ⟨⟩) _
  split at hturn
  · cases hturn
  · split at hturn
    · cases hturn
      exact hstarted.fail _
    · exact hstarted.complete hturn

/-- **What a run has recorded is in order.** -/
theorem Logged.runFrom {remaining : ℕ} {r : ExecutionReport} (h : Logged f s)
    (hrun : runFrom f I a remaining s = .ok r) : Reported f r := by
  induction remaining generalizing s with
  | zero =>
    unfold Replay.runFrom at hrun
    cases hrun
    split_ifs
    · exact h.stop (by rintro ⟨⟩)
    · exact h.fail _
  | succ remaining ih =>
    unfold Replay.runFrom at hrun
    split_ifs at hrun with habort
    · cases hrun
      exact h.stop (by rintro ⟨⟩)
    · cases hturn : Replay.turn f I a s with
      | error e =>
        rw [hturn] at hrun
        cases hrun
      | ok out =>
        rw [hturn] at hrun
        have hled := h.turn hturn
        cases out with
        | inl r' =>
          cases hrun
          exact hled
        | inr s' => exact ih hled hrun

theorem logged_firstState (f : Frame) (a : Agent) (initial : Value) : Logged f (firstState a f initial) := by
  refine ⟨numbered_emit (show ((0, none) : ℕ × Option String).1 = 0 from rfl) nofun rfl, fun e he => ?_,
    fun e he => ?_⟩
  · rcases mem_emit he with he | ⟨hid, -⟩
    · cases he
    · exact hid
  · rcases mem_emit he with he | ⟨-, hkind⟩
    · cases he
    · rw [hkind]
      nofun

end Recording

/-! ### The recorded trace is replayed -/

section Complete

variable {f : Frame} {r r' : ExecutionReport}

/-- The sequence check accepts what a run has recorded. -/
theorem Reported.valid (h : Reported f r) : validateReplayEvents (recordReplayTrace r).events = .ok () := by
  obtain ⟨n, hn⟩ := h.numbered
  rw [validateReplayEvents, recordReplayTrace, hn]
  rfl

theorem terminates_of (e : ExecutionEventV1) :
    (ReplayEvent.of e).terminates = .ok (decide (e.kind = .terminated)) := by
  obtain ⟨version, sequence, executionId, nodeId, timestampMs, kind⟩ := e
  cases kind <;> rfl

theorem anyTerminates_of (es : List ExecutionEventV1) :
    anyTerminates (es.map .of) = .ok (decide (∃ e ∈ es, e.kind = .terminated)) := by
  induction es with
  | nil => rfl
  | cons e es ih =>
    rw [List.map_cons, anyTerminates, terminates_of, ok_bind, ih]
    by_cases h : e.kind = .terminated
    · simp only [h, decide_true, if_true, List.mem_cons, exists_eq_or_imp, true_or]
      rfl
    · simp [h]

/-- Objects with the same texts under their names have the same text. -/
theorem stringify_congr {ks : List String} {g g' : String → Value}
    (h : ∀ k ∈ ks, (g k).stringify = (g' k).stringify) :
    (Value.object ks g).stringify = (Value.object ks g').stringify := by
  rw [Value.stringify, Value.stringify]
  refine congrArg (some ∘ JsValue.object) (List.filterMap_congr fun k hk => ?_)
  rw [h k (mem_enumerated.mp hk)]

/-- What is compared of an event leaves out its timestamp. -/
theorem stringify_control (e : ExecutionEventV1) :
    ((ReplayEvent.of e).record.without "timestamp_ms").toValue.stringify =
      ((ReplayEvent.of e.untimed).record.without "timestamp_ms").toValue.stringify := by
  refine stringify_congr fun k hk => ?_
  have hne : (k == "timestamp_ms") = false := beq_eq_false_iff_ne.mpr (of_decide_eq_true (List.mem_filter.mp hk).2)
  have hvalue : e.record.value k = e.untimed.record.value k := by
    simp only [ExecutionEventV1.record, Record.of, List.lookup_cons, hne]
    rfl
  exact congrArg Value.stringify hvalue

theorem stringify_controlTrace (es : List ExecutionEventV1) :
    (controlTrace (es.map .of)).stringify = (controlTrace ((es.map (·.untimed)).map .of)).stringify := by
  simp only [controlTrace, Value.stringify, Value.stringifyItems_eq_map, List.map_map]
  refine congrArg (some ∘ JsValue.array) (List.map_congr_left fun e _ => ?_)
  exact congrArg (Option.getD · .null) (stringify_control e)

/-- A report matches the trace that was recorded from the same report, but for its timestamps. -/
theorem Reported.matches (h : Reported f r) (heq : r'.untimed = r.untimed) :
    assertReplayMatch r' (recordReplayTrace r) = .ok () := by
  obtain ⟨ss, hss⟩ := h.snapshots
  have hevents : r'.events.map (·.untimed) = r.events.map (·.untimed) := congrArg ExecutionReport.events heq
  have hsnapshots : r'.snapshots = some ss := (congrArg ExecutionReport.snapshots heq).trans hss
  have hstatus : r'.untimed.status = r.untimed.status := congrArg ExecutionReport.status heq
  have htexts : (controlTrace (r'.events.map .of)).stringify =
      (controlTrace (recordReplayTrace r).events).stringify := by
    rw [recordReplayTrace, stringify_controlTrace, hevents, ← stringify_controlTrace]
  have hended : (∃ e ∈ r.events, e.kind = .terminated) → r'.status.type = "terminated" := by
    rintro ⟨e, he, hkind⟩
    rw [show r'.status = r.status from hstatus]
    exact h.ended e he hkind
  refine check_bind_eq_ok.mpr ⟨ensure_eq_ok.mpr htexts, bind_eq_ok.mpr ⟨_, anyTerminates_of r.events, ?_⟩⟩
  refine check_bind_eq_ok.mpr ⟨ensure_eq_ok.mpr fun hany => hended (of_decide_eq_true hany), ?_⟩
  simp only [recordReplayTrace, hss, hsnapshots, Option.getD_some, ensure_eq_ok]

variable {I : Intrinsics} {a : Agent}

/-- A run in which nothing is aborted and no check finds it late. -/
def Agent.Ordinary (I : Intrinsics) (a : Agent) (initial : Value) (options : RunOptions) (w : Surroundings) : Prop :=
  Undisturbed (options.frame w) I a (maxSteps a.definition.graph) (firstState a (options.frame w) initial)

/-- **Two ordinary runs of one execution report the same, but for their timestamps.** -/
theorem run_untimed {initial : Value} {options options' : RunOptions} {w w' : Surroundings}
    (hid : (options.frame w).executionId = (options'.frame w').executionId)
    (hinput : options.resumeInput = options'.resumeInput)
    (h : a.Ordinary I initial options w) (h' : a.Ordinary I initial options' w') :
    (·.untimed) <$> a.run I initial options w = (·.untimed) <$> a.run I initial options' w' := by
  have hstill : (options.frame w).still = (options'.frame w').still := by
    unfold Frame.still
    rw [hid]
    simp only [RunOptions.frame, hinput]
  have hfirst : ∀ f : Frame, (firstState a f initial).untimed = firstState a f.still initial := fun f =>
    emit_untimed _ _
  simp only [Agent.run, map_bind]
  refine bind_congr fun _ => ?_
  rw [runFrom_untimed h, runFrom_untimed h', hfirst, hfirst, hstill]

/-- **What an ordinary run has recorded is replayed with success.** -/
theorem replay_recorded {initial : Value} {options : RunOptions} {w w' : Surroundings} {report : ExecutionReport}
    (hrun : a.run I initial options w = .ok report) (hinput : options.resumeInput = .undefined)
    (h : a.Ordinary I initial options w)
    (h' : a.Ordinary I initial { executionId := some (options.frame w).executionId } w') :
    ∃ report', replayDeterministic I a initial (.trace (recordReplayTrace report)) w' = .ok report' := by
  obtain ⟨hstate, hloop⟩ := check_bind_eq_ok.mp hrun
  have hreported : Reported (options.frame w) report := (logged_firstState _ a initial).runFrom hloop
  obtain ⟨e, hhead, hid⟩ := hreported.head
  have hfirst : (recordReplayTrace report).events.head?.map (·.executionId) = some (options.frame w).executionId := by
    rw [recordReplayTrace, List.head?_map, hhead, Option.map_some, Option.map_some, ← hid]
    rfl
  have hsame := run_untimed (by rfl) hinput h h'
  rw [hrun] at hsame
  cases hrun' : a.run I initial { executionId := some (options.frame w).executionId } w' with
  | error e =>
    rw [hrun'] at hsame
    cases hsame
  | ok report' =>
    rw [hrun'] at hsame
    refine ⟨report', bind_eq_ok.mpr ⟨recordReplayTrace report, rfl, ?_⟩⟩
    refine check_bind_eq_ok.mpr ⟨hreported.valid, check_bind_eq_ok.mpr ⟨hstate, ?_⟩⟩
    rw [hfirst, hrun', ok_bind]
    exact check_bind_eq_ok.mpr ⟨hreported.matches (Except.ok.inj hsame).symm, rfl⟩

end Complete

/-! ### What a successful replay says -/

section Sound

variable {report : ExecutionReport} {trace : ReplayTraceV1}

/-- The snapshots of a report, as objects. -/
def ExecutionReport.snapshotRecords (r : ExecutionReport) : List Record := (r.snapshots.getD []).map (·.record)

/-- Snapshots as a value. -/
def snapshotsValue (snapshots : List Record) : Value := .array (snapshots.map (·.toValue))

/-- The events of the trace, without timestamps, and its snapshots are those of the report, as JSON values. -/
structure Sound (report : ExecutionReport) (trace : ReplayTraceV1) : Prop where
  events : (controlTrace trace.events).json = (controlTrace (report.events.map .of)).json
  snapshots : ∀ ss, trace.snapshots = some ss → (snapshotsValue ss).json = (snapshotsValue report.snapshotRecords).json

/-- The names of what a snapshot has. -/
def snapshotKeys : List String := ["schema_id", "revision", "value", "provenance"]

/-- A snapshot of a trace hides nothing from the comparison: it has no more than a snapshot has, and of its
state the same members are `undefined` as of the state it is compared with. -/
structure HidesNothing (actual expected : Record) : Prop where
  keys : ∀ k ∉ snapshotKeys, expected.get k = .undefined
  gaps : (expected.get "value").SameGaps (actual.get "value")

/-- No snapshot of the trace hides anything. -/
def Faithful (report : ExecutionReport) (trace : ReplayTraceV1) : Prop :=
  ∀ ss, trace.snapshots = some ss → ∀ p ∈ report.snapshotRecords.zip ss, HidesNothing p.1 p.2

theorem json_toValue (r : Record) : r.toValue.json = some (.object fun k => (r.get k).json) := by
  rw [Record.toValue, Value.json_object]
  refine congrArg (some ∘ JsonValue.object) (funext fun k => ?_)
  unfold Record.get
  split_ifs <;> rfl

theorem json_eq_iff_members {r r' : Record} :
    r.toValue.json = r'.toValue.json ↔ ∀ k, (r.get k).json = (r'.get k).json := by
  rw [json_toValue, json_toValue, Option.some_inj, JsonValue.object.injEq, funext_iff]

/-- Arrays of objects mean the same if the objects do, one by one. -/
theorem json_eq_iff_records {rs rs' : List Record} :
    (snapshotsValue rs).json = (snapshotsValue rs').json ↔
      List.Forall₂ (fun r r' : Record => r.toValue.json = r'.toValue.json) rs rs' := by
  rw [snapshotsValue, snapshotsValue, Value.json_array, Value.json_array, Option.some_inj,
    JsonValue.array.injEq, List.map_map, List.map_map, ← List.forall₂_eq_eq_eq, List.forall₂_map_left_iff, List.forall₂_map_right_iff]
  have hitem : ∀ r r' : Record, r.toValue.json.getD .null = r'.toValue.json.getD .null ↔
      r.toValue.json = r'.toValue.json := by
    intro r r'
    rw [json_toValue, json_toValue, Option.getD_some, Option.getD_some, Option.some_inj]
  exact ⟨fun h => h.imp fun r r' => (hitem r r').mp, fun h => h.imp fun r r' => (hitem r r').mpr⟩

/-- What the comparison of two snapshots says. -/
theorem entry_members {r r' : Record} (h : (snapshotEntry r).toValue.json = (snapshotEntry r').toValue.json) :
    (r.get "value").filled = (r'.get "value").filled ∧
      ∀ k ∈ snapshotKeys, k ≠ "value" → (r.get k).json = (r'.get k).json := by
  have hmembers := json_eq_iff_members.mp h
  constructor
  · have hvalue : (r.get "value").canonicalize.json = (r'.get "value").canonicalize.json := hmembers "value"
    rwa [Value.json_canonicalize, Value.json_canonicalize, Option.some_inj] at hvalue
  · intro k hk hne
    simp only [snapshotKeys, List.mem_cons, List.not_mem_nil, or_false] at hk
    rcases hk with rfl | rfl | rfl | rfl
    · exact hmembers "schema_id"
    · exact hmembers "revision"
    · exact absurd rfl hne
    · exact hmembers "provenance"

/-- **Snapshots that compare equal are equal exactly where nothing is hidden.** -/
theorem snapshot_eq_iff {s r : Record} (hkeys : ∀ k ∉ snapshotKeys, s.get k = .undefined)
    (h : (snapshotEntry s).toValue.json = (snapshotEntry r).toValue.json) :
    r.toValue.json = s.toValue.json ↔ HidesNothing s r := by
  obtain ⟨hfilled, hothers⟩ := entry_members h
  have hvalue := Value.json_eq_iff (r.get "value") hfilled.symm
  rw [json_eq_iff_members]
  constructor
  · intro hmembers
    refine ⟨fun k hk => ?_, hvalue.mp (hmembers "value")⟩
    rw [← Value.json_eq_none_iff, hmembers k, hkeys k hk]
    rfl
  · intro hides k
    by_cases hk : k ∈ snapshotKeys
    · by_cases hne : k = "value"
      · rw [hne]
        exact hvalue.mpr hides.gaps
      · exact (hothers k hk hne).symm
    · rw [hides.keys k hk, hkeys k hk]

theorem get_snapshotRecord (s : StateSnapshot) : ∀ k ∉ snapshotKeys, s.record.get k = .undefined :=
  fun _ hk => if_neg hk

theorem snapshotTrace_eq (rs : List Record) : snapshotTrace rs = snapshotsValue (rs.map snapshotEntry) := by
  rw [snapshotTrace, snapshotsValue, List.map_map]
  rfl

/-- **Where a report matches a trace, the events of the trace are those of the report, and its snapshots are
if and only if they hide nothing.** -/
theorem sound_iff (h : assertReplayMatch report trace = .ok ()) : Sound report trace ↔ Faithful report trace := by
  obtain ⟨hevents, h⟩ := check_bind_eq_ok.mp h
  obtain ⟨any, -, h⟩ := bind_eq_ok.mp h
  obtain ⟨-, h⟩ := check_bind_eq_ok.mp h
  have hcontrol : (controlTrace trace.events).json = (controlTrace (report.events.map .of)).json :=
    congrArg (Option.map meaning) (ensure_eq_ok.mp hevents).symm
  have hsnapshots : ∀ ss, trace.snapshots = some ss →
      ((snapshotsValue ss).json = (snapshotsValue report.snapshotRecords).json ↔
        ∀ p ∈ report.snapshotRecords.zip ss, HidesNothing p.1 p.2) := by
    intro ss hss
    rw [hss] at h
    have htexts : (snapshotTrace report.snapshotRecords).json = (snapshotTrace ss).json :=
      congrArg (Option.map meaning) (ensure_eq_ok.mp h)
    rw [snapshotTrace_eq, snapshotTrace_eq, json_eq_iff_records, List.forall₂_map_left_iff,
      List.forall₂_map_right_iff] at htexts
    obtain ⟨hlength, hentries⟩ := List.forall₂_iff_zip.mp htexts
    have hpair : ∀ p ∈ report.snapshotRecords.zip ss,
        (p.2.toValue.json = p.1.toValue.json ↔ HidesNothing p.1 p.2) := by
      rintro ⟨actual, expected⟩ hp
      obtain ⟨s, -, rfl⟩ := List.mem_map.mp (List.of_mem_zip hp).1
      exact snapshot_eq_iff (get_snapshotRecord s) (hentries hp)
    rw [eq_comm, json_eq_iff_records, List.forall₂_iff_zip]
    constructor
    · rintro ⟨-, hall⟩ p hp
      exact (hpair p hp).mp (hall hp).symm
    · intro hall
      exact ⟨hlength, fun hp => ((hpair _ hp).mpr (hall _ hp)).symm⟩
  constructor
  · intro hsound ss hss
    exact (hsnapshots ss hss).mp (hsound.snapshots ss hss)
  · intro hfaithful
    exact ⟨hcontrol, fun ss hss => (hsnapshots ss hss).mpr (hfaithful ss hss)⟩

/-- What a successful replay has compared. -/
theorem matches_of_replay {I : Intrinsics} {a : Agent} {initial : Value} {expected : Expected} {w : Surroundings}
    (hresolve : expected.resolve = .ok trace) (h : replayDeterministic I a initial expected w = .ok report) :
    assertReplayMatch report trace = .ok () := by
  rw [replayDeterministic, hresolve, ok_bind] at h
  obtain ⟨-, h⟩ := check_bind_eq_ok.mp h
  obtain ⟨-, h⟩ := check_bind_eq_ok.mp h
  obtain ⟨report', -, h⟩ := bind_eq_ok.mp h
  obtain ⟨hmatch, h⟩ := check_bind_eq_ok.mp h
  cases h
  exact hmatch

end Sound

/-- **What an ordinary run has recorded is replayed with success; and where a replay succeeds, events and
snapshots of the trace are those of the fresh run, as JSON values, if and only if the trace hides nothing.** -/
theorem replay_iff (I : Intrinsics) (a : Agent) (initial : Value) :
    (∀ (signal : Option (ℕ → Bool)) (executionId : Option String) (w w' : Surroundings) (report : ExecutionReport),
      a.run I initial { signal := signal, executionId := executionId } w = .ok report →
      a.Ordinary I initial { signal := signal, executionId := executionId } w →
      a.Ordinary I initial { executionId := some (executionId.getD w.randomId) } w' →
        ∃ report', replayDeterministic I a initial (.trace (recordReplayTrace report)) w' = .ok report') ∧
    ∀ (expected : Expected) (trace : ReplayTraceV1) (w : Surroundings) (report : ExecutionReport),
      expected.resolve = .ok trace → replayDeterministic I a initial expected w = .ok report →
        (Sound report trace ↔ Faithful report trace) :=
  ⟨fun _ _ _ _ _ hrun h h' => replay_recorded hrun rfl h h',
    fun _ _ _ _ hresolve h => sound_iff (matches_of_replay hresolve h)⟩

/-! ### A member that is undefined -/

/-- An agent that counts, if it is given a count. -/
def counter : Agent where
  definition :=
    { graph :=
        { version := { whole := 1 }, id := "counter", stateSchema := "count-state", entry := "finish"
          nodes := [⟨"finish", true, [], []⟩], transitions := [], cycles := []
          limits := ⟨{ whole := 2 }, { whole := 10 }, { whole := 10 }, { whole := 1000 }⟩ }
      schema := { id := "count-state", paths := [("/count", .number)], required := [] }
      handlers := fun _ => some fun _ => .ok { outcome := .terminate .null none }
      capabilities := ["state"] }
  valid := by decide +kernel
  capable := by decide +kernel

/-- A state without a count. -/
def uncounted : Value := (Record.of [("count", .undefined)]).toValue

/-- A clock that stands still. -/
def noon : Surroundings := ⟨fun _ => 12, "ts-1"⟩

/-- A trace of the agent, in which the count is `null`. -/
def nullTrace : ReplayTraceV1 where
  events := [.of ⟨1, 1, "ts-1", none, 5, .executionStarted⟩, .of ⟨1, 2, "ts-1", some "finish", 5, .nodeStarted 1⟩,
    .of ⟨1, 3, "ts-1", some "finish", 5, .terminated⟩]
  snapshots := some [StateSnapshot.record ⟨"count-state", 0, (Record.of [("count", .null)]).toValue, none⟩]

/-- The one snapshot has a count that is `undefined`. -/
def lacksCount (r : ExecutionReport) : Bool :=
  match r.snapshotRecords with
  | [s] =>
    match s.get "value" with
    | .object ks f => decide ("count" ∈ ks) && (match f "count" with | .undefined => true | _ => false)
    | _ => false
  | _ => false

theorem gap_of_lacksCount {r : ExecutionReport} (h : lacksCount r = true) :
    ∃ s, r.snapshotRecords = [s] ∧ Value.Gap [.key "count"] (s.get "value") := by
  unfold lacksCount at h
  split at h
  · rename_i s hs
    refine ⟨s, hs, ?_⟩
    split at h
    · rename_i ks f hvalue
      obtain ⟨hmem, hundefined⟩ := Bool.and_eq_true_iff.mp h
      rw [hvalue]
      refine ⟨of_decide_eq_true hmem, ?_⟩
      split at hundefined
      · rename_i hcount
        rw [hcount]
        trivial
      · cases hundefined
    · cases h
  · cases h

/-- A trace with `null` where the fresh state has `undefined` is accepted. -/
theorem undefined_accepted : ¬ ∀ (I : Intrinsics) (a : Agent) (initial : Value) (expected : Expected)
    (trace : ReplayTraceV1) (w : Surroundings) (report : ExecutionReport), expected.resolve = .ok trace →
    replayDeterministic I a initial expected w = .ok report → Sound report trace := by
  intro h
  have hrun : (replayDeterministic Builder.bareIntrinsics counter uncounted (.trace nullTrace) noon).toOption.any
      lacksCount = true := by decide +kernel
  obtain ⟨report, hreport, hlacks⟩ := (Option.any_eq_true _ _).mp hrun
  have hok := toOption_eq_some.mp hreport
  have hfaithful := (sound_iff (matches_of_replay rfl hok)).mp (h _ _ _ _ _ _ _ rfl hok)
  obtain ⟨s, hs, hgap⟩ := gap_of_lacksCount hlacks
  have hhides := hfaithful _ rfl (s, _) (by rw [hs]; exact List.mem_cons_self ..)
  exact ((hhides.gaps [.key "count"]).mpr hgap).2

/-- The run of the counting agent is over after one turn. -/
theorem ordinary_counter : counter.Ordinary Builder.bareIntrinsics uncounted {} noon := by
  have hsteps : maxSteps counter.definition.graph = 2 := by decide +kernel
  have hturn : (turn (RunOptions.frame {} noon) Builder.bareIntrinsics counter
      (firstState counter (RunOptions.frame {} noon) uncounted)).toOption.any Sum.isLeft = true := by
    decide +kernel
  unfold Agent.Ordinary
  rw [hsteps]
  refine ⟨rfl, by decide +kernel, fun s' hs' => ?_⟩
  rw [hs'] at hturn
  cases hturn

/-- The counting agent, run and replayed. -/
theorem replay_iff_counter : ∃ report report', counter.run Builder.bareIntrinsics uncounted {} noon = .ok report ∧
    replayDeterministic Builder.bareIntrinsics counter uncounted (.trace (recordReplayTrace report)) noon =
      .ok report' := by
  have hrun : (counter.run Builder.bareIntrinsics uncounted {} noon).toOption.any (fun _ => true) = true := by
    decide +kernel
  obtain ⟨report, hreport, -⟩ := (Option.any_eq_true _ _).mp hrun
  have hok := toOption_eq_some.mp hreport
  obtain ⟨report', hreplay⟩ := (replay_iff Builder.bareIntrinsics counter uncounted).1 none none noon noon report hok
    ordinary_counter ordinary_counter
  exact ⟨report, report', hok, hreplay⟩

end Knolo.Replay
