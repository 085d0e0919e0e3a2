import Knolo.Portable.Wire
import Knolo.Runtime.Turn

/-!
# The scheduler and the portable engine in step

The scheduler runs a graph in one loop, the portable engine in messages. Played one script,
they are in step: after every turn one session agrees with one state of the loop in all but
the revision, which the scheduler also counts up for a patch with no operations.

* `InStep` — the relation, with the number `k` of such patches so far. While `k` is zero
  the events agree too.
* `InStep.event`, `InStep.commit`, `InStep.record`, `InStep.checkpoint` — each part of a turn
  keeps it, or fails on both sides.
* `InStep.dispatch`, `InStep.settle` — the two halves of a turn.
* `EmptyCommit` — the turns that count for the scheduler only.
-/

namespace Knolo.Portable

open Core Library Library.Fallible Library.Prog Knolo.Runtime

/-! ### In step -/

section InStep

variable (sch : Scheduler) (id : ExecutionId) (now k : ℕ)

/-- The scheduler in state `s` and the portable engine with session `p` have come equally
far, but for the `k` patches with no operations the scheduler has committed. -/
structure InStep (s : RunState) (p : PortableSession) : Prop where
  version : p.version = 1
  executionId : p.executionId = id.text
  graphHash : p.graphHash = sch.graph.hash
  value : p.state.value = s.state.value
  schemaId : p.state.schemaId = s.state.schemaId
  revision : s.state.revision = p.state.revision + k
  node : p.currentNode = s.node.text
  seq : p.sequence = s.seq
  steps : p.steps = s.steps
  tokens : p.tokens = s.tokens
  cost : p.costMicros = s.cost
  visits : ∀ n : NodeId, p.visits n.text = s.visits n
  start : p.startMs = now
  events : k = 0 → p.events = s.events.map wireEvent
  valid : sch.schema.validate s.state.value = .ok ()
  revision_le : s.state.revision ≤ s.steps

/-- Two reports of runs that have come equally far. -/
structure Ends (r : ExecutionReportV1) (q : ProtocolReport) : Prop where
  status : q.status = wireStatus r.status
  value : q.state.value = r.state.value
  revision : r.state.revision = q.state.revision + k
  events : k = 0 → q.events = r.events.map wireEvent
  steps : q.steps = r.steps
  tokens : q.tokens = r.tokens
  cost : q.costMicros = r.costMicros

variable {sch id now k} {s : RunState} {p : Progress}

/-- The same event, recorded by both. -/
theorem InStep.logged (h : InStep sch id now k s p.session) (node : Option NodeId) (kind : EventKindV1)
    {kind' : ProtocolEventKind} (hkind : k = 0 → kind' = wireKind kind) :
    InStep sch id now k (s.logged (s.eventAt id node kind now))
      (p.logged (node.map (·.text)) kind' now).session where
  version := h.version
  executionId := h.executionId
  graphHash := h.graphHash
  value := h.value
  schemaId := h.schemaId
  revision := h.revision
  node := h.node
  seq := congrArg (· + 1) h.seq
  steps := h.steps
  tokens := h.tokens
  cost := h.cost
  visits := h.visits
  start := h.start
  events hk := by
    simp [Progress.logged, RunState.logged, h.events hk, wireEvent, RunState.eventAt, h.seq, h.executionId,
      hkind hk]
  valid := h.valid
  revision_le := h.revision_le

/-- Both record the same event, or neither does. -/
theorem InStep.event (h : InStep sch id now k s p.session) (script : Script) (i : ℕ)
    (node : Option NodeId) (kind : EventKindV1) {kind' : ProtocolEventKind}
    (hkind : k = 0 → kind' = wireKind kind) :
    Lockstep NotStuck
      (fun a p' => a = (s.logged (s.eventAt id node kind now), i) ∧
        p' = p.logged (node.map (·.text)) kind' now ∧ InStep sch id now k a.1 p'.session)
      ((Runtime.event id node kind s).play (scripted script now) i)
      (emit (node.map (·.text)) kind' now p) := by
  rw [Runtime.event, play_ofExcept_bind, emit_eq, h.seq]
  refine (lockstep_checkedAdd ..).bind fun seq _ hseq => ?_
  obtain ⟨rfl, -⟩ := hseq
  exact .ok ⟨rfl, rfl, h.logged node kind hkind⟩

theorem InStep.report (h : InStep sch id now k s p.session) (status : ExecutionStatusV1) :
    Ends k (s.report status) (report (wireStatus status) p.session) where
  status := rfl
  value := h.value
  revision := h.revision
  events := h.events
  steps := h.steps
  tokens := h.tokens
  cost := h.cost

/-- The responses bring a report that agrees with the scheduler's. -/
def Reports (k : ℕ) (r : ExecutionReportV1) (responses : List ProtocolResponse) : Prop :=
  ∃ q, answerOf responses = some (.report q) ∧ Ends k r q

/-- Both fail with the same message. -/
theorem InStep.fail (h : InStep sch id now k s p.session) (script : Script) (i : ℕ) (msg : String) :
    Lockstep NotStuck (fun a responses => a.2 = i ∧ Reports k a.1 responses)
      ((Runtime.fail id s msg).play (scripted script now) i) (failReport s.node now msg p) := by
  rw [Runtime.fail, play_bind]
  refine (h.event script i (some s.node) (.failed msg) fun _ => rfl).bind fun a p' ha => ?_
  obtain ⟨rfl, -, h'⟩ := ha
  exact .ok ⟨rfl, _, answerOf_finish .., h'.report _⟩

/-- The visit is counted by both, with the same outcome of the check. -/
theorem InStep.visit (h : InStep sch id now k s p.session) :
    Lockstep NotStuck
      (fun exceeded session => sch.visitCheck s = .ok exceeded ∧ InStep sch id now k s.visit session ∧
        exceeded = cycleExceeded sch.graph s.node session)
      (sch.visitCheck s) (countVisit p.session) := by
  have hcount : p.session.visits p.session.currentNode = s.visits s.node := by
    rw [h.node, h.visits]
  rw [Scheduler.visitCheck, countVisit, hcount]
  refine (lockstep_fromCore fun e he => checkedAdd_ne_stuck he).bind fun a b hab => ?_
  obtain ⟨rfl, ha⟩ := hab
  obtain ⟨rfl, -⟩ := checkedAdd_eq_ok ha
  have hvisits : ∀ n : NodeId,
      (if n.text = p.session.currentNode then s.visits s.node + 1 else p.session.visits n.text) =
        s.visit.visits n := by
    intro n
    rw [h.node, h.visits]
    by_cases hn : n = s.node
    · rw [if_pos (congrArg _ hn), hn]
      exact (if_pos rfl).symm
    · rw [if_neg fun hc => hn (Identifier.ext hc)]
      exact (if_neg hn).symm
  refine .ok ⟨by rw [ha]; rfl, { h with visits := hvisits }, ?_⟩
  simp only [Scheduler.cycleExceeded, cycleExceeded, RunState.visit_node]
  cases sch.graph.cycleLimit s.node with
  | none => rfl
  | some max => simp [RunState.visit]

/-! ### Dispatch -/

variable (sch id) in
/-- The part of a turn up to the result of the node. -/
def dispatched (start : ℕ) (s : RunState) :
    Run ((RunState × NodeDefinitionV1 × NodeExecutionV1) ⊕ ExecutionReportV1) := do
  match ← sch.enter id start s with
  | .inr report => return .inr report
  | .inl (s, d) =>
    match ← sch.attempts id s with
    | .inr report => return .inr report
    | .inl (s, x) => return .inl (s, d, x)

variable (sch id) in
theorem iterate_eq (start : ℕ) (s : RunState) :
    sch.iterate id start s = dispatched sch id start s >>= fun
      | .inl (s, d, x) => sch.settle id d s x
      | .inr report => .ret (.inr report) := by
  rw [Scheduler.iterate, dispatched, Prog.bind_assoc]
  refine congrArg _ (funext fun a => ?_)
  rcases a with ⟨s, d⟩ | report
  · show _ = (sch.attempts id s >>= _) >>= _
    rw [Prog.bind_assoc]
    refine congrArg (Bind.bind _) (funext fun a => ?_)
    rcases a with ⟨s, x⟩ | report <;> rfl
  · rfl

/-- The result the script gives for the pending node. -/
def scriptedResult (script : Script) (i : ℕ) (s : RunState) : ProtocolNodeExecution :=
  script i (wireRequest { nodeId := s.node, state := s.state, attempt := 1 })

/-- The checks at the head, under a constant clock. -/
theorem play_enter (script : Script) (i : ℕ) (s : RunState) :
    (sch.enter id now s).play (scripted script now) i =
      if sch.graph.limits.maxSteps ≤ s.steps then
        (Sum.inr <$> Runtime.fail id s "step budget exceeded").play (scripted script now) i
      else sch.visitCheck s >>= fun exceeded =>
        if exceeded then
          (Sum.inr <$> Runtime.fail id s.visit "cycle limit exceeded").play (scripted script now) i
        else match sch.graph.node s.node with
          | none => .error (.error (.invalidGraph "pending node missing"))
          | some d => .ok (.inl (s.visit, d), i) := by
  have hnow : ¬ sch.graph.limits.timeoutMs < (scripted script now .nowMs i).1 - now := by simp [scripted]
  simp only [Scheduler.enter, ask_bind, play_call, scripted, Bool.false_eq_true, if_false]
  by_cases hsteps : sch.graph.limits.maxSteps ≤ s.steps
  · simp only [if_pos hsteps]
  · simp only [if_neg hsteps, play_call, if_neg hnow, play_ofExcept_bind]
    refine congrArg _ (funext fun exceeded => ?_)
    cases exceeded with
    | true => rfl
    | false => cases sch.graph.node s.node <;> rfl

/-- One attempt is made, where no failure may be retried. -/
theorem play_attempts {script : Script} (hscript : ∀ i r, (script i r).outcome.Expressible)
    (hretries : sch.policy.maxRetries = 0) (i : ℕ) (s : RunState) :
    (sch.attempts id s).play (scripted script now) i =
      (Runtime.event id (some s.node) (.nodeStarted 1) s).play (scripted script now) i >>= fun a =>
        .ok (.inl (a.1, (scriptedResult script a.2 a.1).native a.1.state.revision), a.2 + 1) := by
  have h1 : checkedAdd u32Max 0 1 = .ok 1 := rfl
  simp only [Scheduler.attempts, hretries, loop_succ, Scheduler.attempt, h1, ofExcept_ok, ret_bind,
    Prog.bind_assoc, ask_bind, play_bind]
  refine congrArg _ (funext fun a => ?_)
  simp only [play_call, scripted, player, liftError, ofExcept_ok, ret_bind]
  have hx := hscript a.2 (wireRequest { nodeId := a.1.node, state := a.1.state, attempt := 1 })
  simp only [ProtocolNodeExecution.native, hx.not_retried]
  rfl

/-- The node is dispatched at head `s`. -/
def Dispatches (sch : Scheduler) (s : RunState) : Prop :=
  s.steps < sch.graph.limits.maxSteps ∧ sch.visitCheck s = .ok false

/-- What both have come to: the same refusal of the node, or the same request. -/
inductive Arrived (sch : Scheduler) (id : ExecutionId) (now k : ℕ) (script : Script) (i : ℕ) (s : RunState) :
    ((RunState × NodeDefinitionV1 × NodeExecutionV1) ⊕ ExecutionReportV1) × ℕ →
      List ProtocolResponse → Prop
  /-- The node is refused. -/
  | refused {r : ExecutionReportV1} {responses : List ProtocolResponse} :
      ¬ Dispatches sch s → Reports k r responses → Arrived sch id now k script i s (.inr r, i) responses
  /-- The node was run, and its result is asked for. -/
  | asked {e : ExecutionEventV1} {d : NodeDefinitionV1} {p : PortableSession}
      {responses : List ProtocolResponse} :
      Dispatches sch s → sch.graph.node s.node = some d →
      InStep sch id now k (s.visit.logged e) p →
      answerOf responses = some (.dispatch
        (wireRequest { nodeId := s.node, state := s.state, attempt := 1 }) (p.await s.node)) →
      Arrived sch id now k script i s
        (.inl (s.visit.logged e, d, (scriptedResult script i s).native s.state.revision), i + 1) responses

/-- Both refuse the node with the same report, or both ask for the same result. -/
theorem InStep.dispatch (h : InStep sch id now k s p.session) {script : Script}
    (hscript : ∀ i r, (script i r).outcome.Expressible) (hretries : sch.policy.maxRetries = 0) (i : ℕ) :
    Lockstep NotStuck (Arrived sch id now k script i s)
      ((dispatched sch id now s).play (scripted script now) i) (dispatchNode sch.graph now p) := by
  have hnow : ¬ sch.graph.limits.timeoutMs < now - now := by simp
  rw [dispatched, play_bind, play_enter]
  simp only [dispatchNode, h.node, h.steps, h.start, Identifier.new_text, definition, ok_bind, if_neg hnow]
  by_cases hsteps : sch.graph.limits.maxSteps ≤ s.steps
  · rw [if_pos hsteps, if_pos hsteps, play_map, LawfulMonad.bind_assoc]
    refine (h.fail script i _).bind_left fun a b hab => ?_
    obtain ⟨rfl, hr⟩ := hab
    exact .ok (.refused (fun hd => absurd hd.1 (Nat.not_lt.mpr hsteps)) hr)
  · rw [if_neg hsteps, if_neg hsteps, LawfulMonad.bind_assoc]
    refine h.visit.bind fun exceeded session hv => ?_
    obtain ⟨hcheck, hv, rfl⟩ := hv
    cases hex : cycleExceeded sch.graph s.node session with
    | true =>
      rw [if_pos rfl, play_map, LawfulMonad.bind_assoc]
      refine (hv.fail (p := { p with session }) script i _).bind_left fun a b hab => ?_
      obtain ⟨rfl, hr⟩ := hab
      exact .ok (.refused (fun hd => by simp [Dispatches, hcheck, hex] at hd) hr)
    | false =>
      cases hd : sch.graph.node s.node with
      | none => exact .error ⟨by simp, by simp⟩
      | some d =>
        show Lockstep NotStuck _ ((sch.attempts id s.visit >>= _).play (scripted script now) i)
          (emit (some s.node.text) (.nodeStarted 1) now { p with session } >>= _)
        rw [play_bind, play_attempts hscript hretries, LawfulMonad.bind_assoc]
        refine (hv.event (p := { p with session }) script i (some s.node) (.nodeStarted 1)
          fun _ => rfl).bind fun a p' ha => ?_
        obtain ⟨rfl, rfl, h'⟩ := ha
        have hdis : Dispatches sch s := ⟨Nat.not_le.mp hsteps, by rw [hcheck, hex]⟩
        have hvalue : session.state.value = s.state.value := hv.value
        refine .ok (.asked hdis hd h' ?_)
        rw [answerOf_events rfl]
        simp only [wireRequest, Progress.logged, hvalue]

/-! ### Patches -/

/-- One patch, applied to two snapshots of one document. -/
theorem apply_of_value {s t : StateSnapshot} {operations : Std.ExtTreeMap String PatchOperation}
    {allowed : Std.ExtTreeSet String} {schema : StateSchemaV1} (prov : ProvenanceV1) {prov' : ProvenanceV1}
    (hvalue : t.value = s.value) (hs : s.revision + 1 ≤ u64Max) (ht : t.revision + 1 ≤ u64Max) :
    t.apply { baseRevision := t.revision, operations } allowed schema prov' =
      (s.apply { baseRevision := s.revision, operations } allowed schema prov).map fun u =>
        { u with schemaId := t.schemaId, revision := t.revision + 1, provenance := some prov' } := by
  simp only [StateSnapshot.apply, ensure, checkedAdd, if_pos hs, if_pos ht, if_true, hvalue, applyOperations]
  cases operations.toList.foldlM (applyDeclared allowed) s.value with
  | error e => rfl
  | ok v =>
    simp only [liftError, ok_bind]
    cases schema.validate v <;> rfl

/-- A patch with no operations only counts a revision. -/
theorem apply_empty {s : StateSnapshot} {allowed : Std.ExtTreeSet String} {schema : StateSchemaV1}
    {prov : ProvenanceV1} (hvalid : schema.validate s.value = .ok ()) (hs : s.revision + 1 ≤ u64Max) :
    s.apply { baseRevision := s.revision, operations := ∅ } allowed schema prov =
      .ok { s with revision := s.revision + 1, provenance := some prov } := by
  have hempty : (∅ : Std.ExtTreeMap String PatchOperation).toList = [] := rfl
  simp only [StateSnapshot.apply, ensure, checkedAdd, if_pos hs, if_true, applyOperations, hempty, List.foldlM_nil]
  simp [hvalid, liftError, pure, Except.pure]

/-- A patch with a nameless field is refused by both. -/
theorem commit_nameless {members : Members} {m : String × Json} (hm : m ∈ members) (hname : m.1.isEmpty = true) (d : NodeDefinitionV1)
    (script : Script) (i : ℕ) {R : RunState × ℕ → Progress → Prop} :
    Lockstep NotStuck R
      ((sch.commit id d (some (nativePatch s.state.revision (.object members))) s).play (scripted script now) i)
      (commit d s.node sch.schema now (some (.object members)) p) := by
  obtain ⟨f, hf⟩ := fold_patchMember_error hm hname ∅
  have hportable : Portable.commit d s.node sch.schema now (some (.object members)) p = .error (.failure f) := by
    simp only [Portable.commit, applyPatch, Json.asObject, require, ok_bind, patchOperations, hf]
    rfl
  have hslash : "/" ∈ setOperations members := mem_setOperations.mpr ⟨m, hm, by rw [String.isEmpty_iff.mp hname]; rfl⟩
  obtain ⟨e, he⟩ := applyOperations_slash d.writes s.state.value
    (show "/" ∈ (nativePatch s.state.revision (.object members)).operations from hslash)
  rw [hportable, Scheduler.commit, play_ofExcept_bind]
  cases hpatch : sch.patch id d (nativePatch s.state.revision (.object members)) s with
  | error e => exact .error ⟨Scheduler.patch_ne_stuck hpatch, by simp⟩
  | ok state =>
    obtain ⟨_, -, hpatch⟩ := bind_eq_ok.mp hpatch
    rw [(StateSnapshot.apply_eq_ok hpatch).2.1] at he
    cases he

/-- A patch with no operations is a revision and an event of the scheduler's, and only an
event of the portable engine's. -/
theorem InStep.commit_empty (h : InStep sch id now k s p.session) (hrev : s.state.revision < s.steps)
    (hmax : s.steps ≤ u64Max) (d : NodeDefinitionV1) (script : Script) (i : ℕ) :
    Lockstep NotStuck
      (fun a p' => a.2 = i ∧ a.1.node = s.node ∧ a.1.steps = s.steps ∧ InStep sch id now (k + 1) a.1 p'.session)
      ((sch.commit id d (some (nativePatch s.state.revision (.object []))) s).play (scripted script now) i)
      (commit d s.node sch.schema now (some (.object [])) p) := by
  have hrev' : s.state.revision + 1 ≤ u64Max := by omega
  have hportable : Portable.commit d s.node sch.schema now (some (.object [])) p =
      emit (some s.node.text) (.statePatched p.session.state.revision) now p := rfl
  rw [hportable, Scheduler.commit, play_ofExcept_bind, Scheduler.patch]
  cases hseq : checkedAdd u64Max s.seq 1 with
  | error e =>
    rw [emit_eq, h.seq, hseq]
    cases e with
    | stuck => exact absurd rfl (checkedAdd_ne_stuck hseq)
    | _ => exact .error ⟨by simp, by simp⟩
  | ok seq =>
    have happly : reduce s.state (nativePatch s.state.revision (.object [])) d.writes sch.schema
        { executionId := id, nodeId := s.node, eventSequence := seq } =
        .ok { s.state with
              revision := s.state.revision + 1
              provenance := some { executionId := id, nodeId := s.node, eventSequence := seq } } :=
      apply_empty h.valid hrev'
    rw [ok_bind, happly, ok_bind]
    have h' : InStep sch id now (k + 1)
        { s with
          state := { s.state with
                     revision := s.state.revision + 1
                     provenance := some { executionId := id, nodeId := s.node, eventSequence := seq } } }
        p.session :=
      { h with
        revision := congrArg (· + 1) h.revision
        events := fun hk => by simp at hk
        revision_le := hrev }
    refine (h'.event script i (some s.node) (.statePatched _) fun hk => by simp at hk).mono fun a p' ha => ?_
    obtain ⟨rfl, -, ha⟩ := ha
    exact ⟨rfl, rfl, rfl, ha⟩

/-- A patch of named fields is applied by both, or by neither. -/
theorem InStep.commit_fields (h : InStep sch id now k s p.session) (hrev : s.state.revision < s.steps)
    (hmax : s.steps ≤ u64Max) {members : Members} (hne : members ≠ [])
    (htop : ∀ m ∈ members, '/' ∉ m.1.toList) (hnames : ∀ m ∈ members, m.1.isEmpty = false)
    (d : NodeDefinitionV1) (script : Script) (i : ℕ) :
    Lockstep NotStuck
      (fun a p' => a.2 = i ∧ a.1.node = s.node ∧ a.1.steps = s.steps ∧ InStep sch id now k a.1 p'.session)
      ((sch.commit id d (some (nativePatch s.state.revision (.object members))) s).play (scripted script now) i)
      (commit d s.node sch.schema now (some (.object members)) p) := by
  have hops : (setOperations members).isEmpty = false := by
    rw [setOperations_isEmpty]
    simpa using hne
  rw [Scheduler.commit, play_ofExcept_bind, Scheduler.patch, Portable.commit, applyPatch]
  simp only [Json.asObject, require, ok_bind, patchOperations_eq htop hnames, hops, h.executionId,
    Identifier.new_text, definition, LawfulMonad.bind_assoc, Bool.false_eq_true, if_false, h.seq]
  refine (lockstep_checkedAdd ..).bind fun seq seq' hseq => ?_
  obtain ⟨rfl, rfl⟩ := hseq
  have hp : p.session.state.revision + 1 ≤ u64Max := by
    have := h.revision
    omega
  rw [apply_of_value { executionId := id, nodeId := s.node, eventSequence := s.seq + 1 } h.value (by omega) hp]
  show Lockstep NotStuck _ (s.state.apply { baseRevision := s.state.revision, operations := setOperations members }
    d.writes sch.schema { executionId := id, nodeId := s.node, eventSequence := s.seq + 1 } >>= _) _
  cases happly : s.state.apply { baseRevision := s.state.revision, operations := setOperations members } d.writes
      sch.schema { executionId := id, nodeId := s.node, eventSequence := s.seq + 1 } with
  | error e =>
    have he : e ≠ .stuck := StateSnapshot.apply_ne_stuck happly
    cases e with
    | stuck => exact absurd rfl he
    | error err => exact .error ⟨by simp, by simp⟩
    | overflow => exact .error ⟨by simp, by simp⟩
  | ok state =>
    obtain ⟨-, -, hvalid, hschema, hrevision, -, -⟩ := StateSnapshot.apply_eq_ok happly
    have hnext : InStep sch id now k { s with state }
        (p.session.patched
          { state with
            schemaId := p.session.state.schemaId
            revision := p.session.state.revision + 1
            provenance := some { executionId := id, nodeId := s.node, eventSequence := s.seq + 1 } }) :=
      { h with
        value := rfl
        schemaId := h.schemaId.trans hschema.symm
        revision := by rw [hrevision, h.revision]; exact Nat.add_right_comm ..
        valid := hvalid
        revision_le := hrevision.trans_le hrev }
    refine (hnext.event (p := { p with session := p.session.patched _ }) script i (some s.node) (.statePatched state.revision) fun hk => ?_).mono fun a p' ha => ?_
    · show ProtocolEventKind.statePatched (p.session.state.revision + 1) = .statePatched state.revision
      rw [hrevision, h.revision, hk, Nat.add_zero]
    · obtain ⟨rfl, -, ha⟩ := ha
      exact ⟨rfl, rfl, rfl, ha⟩

/-- Both commit the patch, or neither does. A patch with no operations counts for the
scheduler only. -/
theorem InStep.commit (h : InStep sch id now k s p.session) (hrev : s.state.revision < s.steps)
    (hmax : s.steps ≤ u64Max) {patch : Option Json} (htop : ∀ v ∈ patch, TopLevel v)
    (d : NodeDefinitionV1) (script : Script) (i : ℕ) :
    Lockstep NotStuck
      (fun a p' => a.2 = i ∧ a.1.node = s.node ∧ a.1.steps = s.steps ∧
        InStep sch id now (k + if patch = some (.object []) then 1 else 0) a.1 p'.session)
      ((sch.commit id d (patch.map (nativePatch s.state.revision)) s).play (scripted script now) i)
      (commit d s.node sch.schema now patch p) := by
  cases patch with
  | none => exact .ok ⟨rfl, rfl, rfl, h⟩
  | some v =>
    obtain ⟨members, rfl, hfields⟩ := htop v rfl
    by_cases hnames : ∀ m ∈ members, m.1.isEmpty = false
    · by_cases hne : members = []
      · subst hne
        simpa using h.commit_empty hrev hmax d script i
      · simpa [hne] using h.commit_fields hrev hmax hne hfields hnames d script i
    · push Not at hnames
      obtain ⟨m, hm, hname⟩ := hnames
      exact commit_nameless hm (by simpa using hname) d script i

/-! ### The result of a node -/

/-- Both record the decision. -/
theorem InStep.record (h : InStep sch id now k s p.session) (script : Script) (i : ℕ)
    (kind : Option EventKindV1) :
    Lockstep NotStuck
      (fun a p' => a.2 = i ∧ a.1.node = s.node ∧ a.1.steps = s.steps ∧ InStep sch id now k a.1 p'.session)
      ((Runtime.record id kind s).play (scripted script now) i)
      (record s.node now (kind.map wireKind) p) := by
  cases kind with
  | none => exact .ok ⟨rfl, rfl, rfl, h⟩
  | some kind =>
    refine (h.event script i (some s.node) kind fun _ => rfl).mono fun a p' ha => ?_
    obtain ⟨rfl, -, ha⟩ := ha
    exact ⟨rfl, rfl, rfl, ha⟩

/-- Both record the checkpoint, and go on with the next node. -/
theorem InStep.checkpoint (h : InStep sch id now k s p.session) (script : Script) (i : ℕ) (pending : NodeId) :
    Lockstep NotStuck
      (fun a p' => a.2 = i ∧ a.1.steps = s.steps ∧
        InStep sch id now k a.1 { p'.session with currentNode := pending.text })
      ((sch.checkpoint id pending s).play (scripted script now) i)
      (emit (some s.node.text) .checkpointed now p) := by
  rw [Scheduler.checkpoint, play_ofExcept_bind]
  cases hseq : checkedAdd u64Max s.seq 1 with
  | error e =>
    rw [emit_eq, h.seq, hseq]
    cases e with
    | stuck => exact absurd rfl (checkedAdd_ne_stuck hseq)
    | _ => exact .error ⟨by simp, by simp⟩
  | ok cursor =>
    rw [ok_bind, play_bind]
    refine (h.event script i (some s.node) .checkpointed fun _ => rfl).bind_left fun a p' ha => ?_
    obtain ⟨rfl, -, h'⟩ := ha
    exact .ok ⟨rfl, rfl, { h' with node := rfl }⟩

/-- One decision, in both forms. -/
structure Alike (revision : ℕ) (dec : Decision) (dec' : PortableDecision) : Prop where
  patch : dec.patch = dec'.patch.map (nativePatch revision)
  next : dec'.next = dec.next
  status : dec'.status = dec.status.map wireStatus
  event : dec'.event = dec.event.map wireKind

/-- What both have concluded: they go on in step, or report the same. -/
inductive Concluded (sch : Scheduler) (id : ExecutionId) (now k i steps : ℕ) :
    (RunState ⊕ ExecutionReportV1) × ℕ → Progress ⊕ List ProtocolResponse → Prop
  /-- They go on. -/
  | goesOn {v : RunState} {p : Progress} : v.steps = steps → InStep sch id now k v p.session →
      Concluded sch id now k i steps (.inl v, i) (.inl p)
  /-- They report. -/
  | ended {r : ExecutionReportV1} {responses : List ProtocolResponse} : Reports k r responses →
      Concluded sch id now k i steps (.inr r, i) (.inr responses)

/-- The revisions a patch counts for the scheduler only. -/
def unmatched (patch : Option Json) : ℕ := if patch = some (.object []) then 1 else 0

theorem unmatched_eq_zero {patch : Option Json} : unmatched patch = 0 ↔ ¬ patch = some (.object []) := by
  unfold unmatched
  split <;> simp_all

/-- Both carry out the decision. -/
theorem InStep.conclude (h : InStep sch id now k s p.session) (hrev : s.state.revision < s.steps)
    (hmax : s.steps ≤ u64Max) {dec : Decision} {dec' : PortableDecision}
    (hdec : Alike s.state.revision dec dec') (htop : ∀ v ∈ dec'.patch, TopLevel v)
    (d : NodeDefinitionV1) (script : Script) (i : ℕ) :
    Lockstep NotStuck (Concluded sch id now (k + unmatched dec'.patch) i s.steps)
      ((sch.conclude id d dec s).play (scripted script now) i)
      (conclude d s.node sch.schema now dec' p) := by
  rw [Scheduler.conclude, play_bind, hdec.patch, Portable.conclude]
  refine (h.commit hrev hmax htop d script i).bind fun a p₁ h₁ => ?_
  obtain ⟨v, j⟩ := a
  obtain ⟨rfl, hn₁, hs₁, h₁⟩ := h₁
  rw [play_bind, hdec.event, ← hn₁]
  refine (h₁.record script j dec.event).bind fun a p₂ h₂ => ?_
  obtain ⟨w, i⟩ := a
  obtain ⟨rfl, hn₂, hs₂, h₂⟩ := h₂
  rw [hdec.status, hdec.next, ← hn₂]
  cases dec.status with
  | some status => exact .ok (.ended ⟨_, answerOf_finish .., h₂.report status⟩)
  | none =>
    cases dec.next with
    | none => exact .error ⟨by simp, by simp⟩
    | some pending =>
      show Lockstep NotStuck _ ((Sum.inl <$> sch.checkpoint id pending w).play (scripted script now) i)
        (emit (some w.node.text) .checkpointed now p₂ >>= _)
      rw [play_map]
      refine (h₂.checkpoint script i pending).bind fun a p₃ h₃ => ?_
      obtain ⟨u, l⟩ := a
      obtain ⟨rfl, hs₃, h₃⟩ := h₃
      exact .ok (.goesOn (hs₃.trans (hs₂.trans hs₁)) h₃)

variable (sch id now) in
/-- With no route to go on with, the scheduler ends in an error. -/
theorem conclude_lost (d : NodeDefinitionV1) (patch : Option StatePatch) (script : Script) (i : ℕ)
    (s : RunState) :
    ∃ e, (sch.conclude id d { patch, next := none, status := none, event := none } s).play
      (scripted script now) i = .error e ∧ e ≠ .stuck := by
  rw [Scheduler.conclude, play_bind]
  cases hc : (sch.commit id d patch s).play (scripted script now) i with
  | ok a => exact ⟨_, rfl, by simp⟩
  | error e => exact ⟨e, rfl, ((sch.commit_sat id d patch s).play_error hc).1⟩

/-- Both decide about the outcome and carry the decision out. -/
theorem InStep.decide (h : InStep sch id now k s p.session) (hrev : s.state.revision < s.steps)
    (hmax : s.steps ≤ u64Max) {o : ProtocolOutcome} (ho : o.Expressible) (d : NodeDefinitionV1)
    (script : Script) (i : ℕ) :
    Lockstep NotStuck (Concluded sch id now (k + unmatched o.patch) i s.steps)
      ((Prog.ofExcept (liftError (Runtime.decision sch.graph s.node (o.native s.state.revision))) >>= fun dec =>
        sch.conclude id d dec s).play (scripted script now) i)
      (decision sch.graph s.node o >>= fun dec => Portable.conclude d s.node sch.schema now dec p) := by
  rw [play_ofExcept_bind]
  have hconclude : ∀ {dec : Decision} {dec' : PortableDecision}, Alike s.state.revision dec dec' →
      dec'.patch = o.patch →
      Lockstep NotStuck (Concluded sch id now (k + unmatched o.patch) i s.steps)
        ((sch.conclude id d dec s).play (scripted script now) i)
        (Portable.conclude d s.node sch.schema now dec' p) := by
    intro dec dec' hdec hpatch
    rw [← hpatch]
    exact h.conclude hrev hmax hdec (hpatch ▸ ho.topLevel) d script i
  cases o with
  | «continue» patch =>
    obtain ⟨v, rfl, hv⟩ := ho
    cases hroute : sch.graph.route s.node "continue" with
    | none =>
      obtain ⟨e, he, hne⟩ := conclude_lost sch id now d
        (some (nativePatch s.state.revision v)) script i s
      simp only [Runtime.decision, ProtocolOutcome.native, Portable.decision, hroute, liftError, ok_bind,
        Option.getD_some, he]
      exact .error ⟨hne, by simp⟩
    | some target =>
      simp only [Runtime.decision, ProtocolOutcome.native, Portable.decision, hroute, liftError, ok_bind, require]
      exact hconclude ⟨rfl, rfl, rfl, rfl⟩ (by rfl)
  | route name patch =>
    simp only [Runtime.decision, ProtocolOutcome.native, Portable.decision]
    cases hroute : sch.graph.route s.node name with
    | none => exact .error ⟨by simp, by simp⟩
    | some target => exact hconclude ⟨rfl, rfl, rfl, rfl⟩ (by rfl)
  | suspend reason patch => exact hconclude ⟨rfl, rfl, rfl, rfl⟩ (by rfl)
  | terminate result patch => exact hconclude ⟨rfl, rfl, rfl, rfl⟩ (by rfl)
  | fail error retryable =>
    simp only [Runtime.decision, ProtocolOutcome.native, Portable.decision, liftError, ok_bind]
    exact hconclude ⟨rfl, rfl, rfl, rfl⟩ (by rfl)

/-- The turn from head `s` commits a patch with no operations: the node is dispatched, its
result has such a patch, and it is within the budgets. -/
def EmptyCommit (sch : Scheduler) (script : Script) (i : ℕ) (s : RunState) : Prop :=
  let x := scriptedResult script i s
  Dispatches sch s ∧ x.outcome.patch = some (.object []) ∧
    satAdd s.tokens (x.tokens.getD 0) ≤ sch.graph.limits.maxTokens ∧
    satAdd s.cost (x.costMicros.getD 0) ≤ sch.graph.limits.maxCostMicros

/-- Both finish the node. -/
theorem InStep.settle {s₀ : RunState} {e : ExecutionEventV1} {p : PortableSession}
    (h : InStep sch id now k (s₀.visit.logged e) p) (hdis : Dispatches sch s₀)
    (hmax : sch.graph.limits.maxSteps ≤ u64Max) {d : NodeDefinitionV1}
    (hd : sch.graph.node s₀.node = some d) {script : Script}
    (hscript : ∀ i r, (script i r).outcome.Expressible) (i j : ℕ) :
    Lockstep NotStuck
      (fun a b => ∃ e, Concluded sch id now (k + e) j (s₀.steps + 1) a b ∧ (e = 0 ↔ ¬ EmptyCommit sch script i s₀))
      ((sch.settle id d (s₀.visit.logged e) ((scriptedResult script i s₀).native s₀.state.revision)).play
        (scripted script now) j)
      (completeNode sch.graph sch.schema (p.await s₀.node) (scriptedResult script i s₀) now) := by
  have hsteps : s₀.steps + 1 ≤ u64Max := by
    have := hdis.1
    omega
  have hadd : checkedAdd u64Max s₀.steps 1 = .ok (s₀.steps + 1) := by simp [checkedAdd, hsteps]
  have hcheck : check ((p.await s₀.node).version = 1 ∧ (p.await s₀.node).graphHash = sch.graph.hash)
      "session graph hash mismatch" = .ok () := if_pos ⟨h.version, h.graphHash⟩
  have hname : (p.await s₀.node).awaitingNode.isEmpty = false := s₀.node.text_isEmpty
  have hparse : Identifier.new (p.await s₀.node).awaitingNode = .ok s₀.node := s₀.node.new_text
  let x := scriptedResult script i s₀
  let s := (s₀.visit.logged e).charge (x.native s₀.state.revision)
  let q : Progress := { session := (p.await s₀.node).charge x, fresh := [] }
  have hq : InStep sch id now k s q.session :=
    { h with
      steps := by
        show satAdd p.steps 1 = s₀.steps + 1
        rw [h.steps]
        exact Nat.min_eq_left hsteps
      tokens := congrArg (satAdd · (x.tokens.getD 0)) h.tokens
      cost := congrArg (satAdd · (x.costMicros.getD 0)) h.cost
      revision_le := Nat.le_succ_of_le h.revision_le }
  have hrefused : ∀ msg, ¬ EmptyCommit sch script i s₀ → Lockstep NotStuck
      (fun a b => ∃ e, Concluded sch id now (k + e) j (s₀.steps + 1) a b ∧ (e = 0 ↔ ¬ EmptyCommit sch script i s₀))
      ((Sum.inr <$> Runtime.fail id s msg).play (scripted script now) j)
      (Sum.inr <$> failReport s₀.node now msg q) := by
    intro msg hnot
    rw [play_map, map_eq_pure_bind]
    refine (hq.fail script j msg).bind fun a responses ha => ?_
    obtain ⟨rfl, hr⟩ := ha
    exact .ok ⟨0, .ended hr, by simpa using hnot⟩
  rw [Scheduler.settle, play_ofExcept_bind]
  simp only [completeNode, hcheck, ok_bind, hname, Bool.false_eq_true, if_false, hparse, definition, hd, require]
  show Lockstep NotStuck _ (checkedAdd u64Max s₀.steps 1 >>= fun _ => Prog.play (scripted script now)
      (if sch.graph.limits.maxTokens < s.tokens then Sum.inr <$> Runtime.fail id s "token budget exceeded"
      else if sch.graph.limits.maxCostMicros < s.cost then Sum.inr <$> Runtime.fail id s "cost budget exceeded"
      else Prog.ofExcept (liftError (Runtime.decision sch.graph s.node (x.outcome.native s.state.revision))) >>=
        fun dec => sch.conclude id d dec s) j)
    (if sch.graph.limits.maxTokens < q.session.tokens then
      Sum.inr <$> failReport s₀.node now "token budget exceeded" q
    else if sch.graph.limits.maxCostMicros < q.session.costMicros then
      Sum.inr <$> failReport s₀.node now "cost budget exceeded" q
    else decision sch.graph s₀.node x.outcome >>= fun dec => Portable.conclude d s₀.node sch.schema now dec q)
  rw [hadd, ok_bind, show q.session.tokens = s.tokens from hq.tokens, show q.session.costMicros = s.cost from hq.cost]
  by_cases ht : sch.graph.limits.maxTokens < s.tokens
  · rw [if_pos ht, if_pos ht]
    exact hrefused _ fun hc => absurd hc.2.2.1 (Nat.not_le.mpr ht)
  rw [if_neg ht, if_neg ht]
  by_cases hc : sch.graph.limits.maxCostMicros < s.cost
  · rw [if_pos hc, if_pos hc]
    exact hrefused _ fun hcommit => absurd hcommit.2.2.2 (Nat.not_le.mpr hc)
  rw [if_neg hc, if_neg hc]
  have hrev : s.state.revision < s.steps := Nat.lt_succ_of_le h.revision_le
  refine (hq.decide hrev hsteps (hscript ..) d script j).mono fun a b hab => ⟨_, hab, ?_⟩
  have hwithin : EmptyCommit sch script i s₀ ↔ x.outcome.patch = some (.object []) :=
    ⟨fun hcommit => hcommit.2.1, fun hpatch => ⟨hdis, hpatch, Nat.not_lt.mp ht, Nat.not_lt.mp hc⟩⟩
  rw [hwithin]
  exact unmatched_eq_zero

end InStep

end Knolo.Portable
