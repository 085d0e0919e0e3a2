import Knolo.Portable.InStep

/-!
# The portable engine against the scheduler

Whole runs of one script: the portable protocol, driven until it reports, against
`Scheduler::run` with the executor that plays the script.

* `portable_agrees` — an error of the scheduler is an error of the portable engine; reports
  agree exactly if the schema is the graph's and no turn commits a patch with no operations.
* `empty_patch_disagrees` — such a patch counts a revision in the scheduler only, though both
  record that the state was patched.
-/

namespace Knolo.Portable

open Core Library Library.Fallible Library.Prog Knolo.Runtime

section Runs

variable {sch : Scheduler} {id : ExecutionId} {k : ℕ} {s : RunState} {p : Progress}

/-! ### Runs -/

/-- What a turn of both has come to. -/
inductive Turned (sch : Scheduler) (id : ExecutionId) (now k : ℕ) (script : Script) (i : ℕ) (s : RunState) :
    (RunState ⊕ ExecutionReportV1) × ℕ → Progress ⊕ List ProtocolResponse → Prop
  /-- They go on. -/
  | goesOn {e : ℕ} {v : RunState} {p : Progress} : s.steps < sch.graph.limits.maxSteps →
      v.steps = s.steps + 1 → InStep sch id now (k + e) v p.session → (e = 0 ↔ ¬ EmptyCommit sch script i s) →
      Turned sch id now k script i s (.inl v, i + 1) (.inl p)
  /-- They report. -/
  | ended {e j : ℕ} {r : ExecutionReportV1} {responses : List ProtocolResponse} : Reports (k + e) r responses →
      (e = 0 ↔ ¬ EmptyCommit sch script i s) →
      Turned sch id now k script i s (.inr r, j) (.inr responses)

/-- One turn of both. -/
theorem InStep.turn {c : Client} (hschema : c.schema = sch.schema)
    (h : InStep sch id c.now k s p.session) (hmax : sch.graph.limits.maxSteps ≤ u64Max)
    (hscript : ∀ i r, (c.script i r).outcome.Expressible) (hretries : sch.policy.maxRetries = 0) (i : ℕ) :
    Lockstep NotStuck (Turned sch id c.now k c.script i s)
      ((sch.iterate id c.now s).play (scripted c.script c.now) i) (c.turn sch.graph i p) := by
  rw [iterate_eq, play_bind, Client.turn, hschema]
  refine (h.dispatch hscript hretries i).bind fun a responses ha => ?_
  cases ha with
  | refused hdis hr =>
    obtain ⟨q, hq, hends⟩ := hr
    rw [hq]
    exact .ok (.ended (e := 0) ⟨q, hq, hends⟩ (by simpa using fun hc => hdis hc.1))
  | asked hdis hd h' hanswer =>
    rw [hanswer]
    refine (h'.settle hdis hmax hd hscript i (i + 1)).mono fun a b hab => ?_
    obtain ⟨e, hab, he⟩ := hab
    cases hab with
    | goesOn hv hp => exact .goesOn hdis.1 hv hp he
    | ended hr => exact .ended hr he

/-- The heads a played run passes through, with the positions in the script. -/
def Passes (sch : Scheduler) (id : ExecutionId) (now : ℕ) (script : Script) : RunState × ℕ → RunState × ℕ → Prop :=
  Relation.ReflTransGen fun a b =>
    (sch.iterate id now a.1).play (scripted script now) a.2 = .ok (.inl b.1, b.2)

/-- The loop of the scheduler, and the messages of the portable engine. -/
theorem InStep.loop {c : Client} (hschema : c.schema = sch.schema)
    (hg : c.graph.compile c.digest = .ok sch.graph) (hmax : sch.graph.limits.maxSteps ≤ u64Max)
    (hscript : ∀ i r, (c.script i r).outcome.Expressible) (hretries : sch.policy.maxRetries = 0) (n : ℕ) :
    ∀ {k i : ℕ} {s : RunState} {p : Progress}, InStep sch id c.now k s p.session →
      sch.graph.limits.maxSteps - s.steps < n →
      Lockstep NotStuck
        (fun a q => ∃ e, Ends (k + e) a.1 q ∧
          (e = 0 ↔ ∀ u, Passes sch id c.now c.script (s, i) u → ¬ EmptyCommit sch c.script u.2 u.1))
        ((Prog.loop (.throw .stuck) (sch.iterate id c.now) n s).play (scripted c.script c.now) i)
        (dispatchNode sch.graph c.now p >>= c.drive (n + 1) i) := by
  induction n with
  | zero => intro k i s p _ hn; omega
  | succ n ih =>
    intro k i s p h hn
    rw [loop_succ, play_bind, Client.drive_turn hg]
    refine (h.turn hschema hmax hscript hretries i).returned.bind fun a b hab => ?_
    obtain ⟨hab, hplay⟩ := hab
    cases hab with
    | @goesOn e v p' hsteps hv h' he =>
      refine (ih h' (by omega)).mono fun a q haq => ?_
      obtain ⟨e', hends, he'⟩ := haq
      refine ⟨e + e', by rwa [← Nat.add_assoc], ?_⟩
      rw [Passes, forall_reach_step (b := (v, i + 1)) fun c => ?_, ← Passes, ← he, ← he', Nat.add_eq_zero_iff]
      simp [hplay, Prod.ext_iff, eq_comm]
    | @ended e j r responses hr he =>
      obtain ⟨q, hq, hends⟩ := hr
      show Lockstep NotStuck _ _ (c.drive (n + 1) (i + 1) responses)
      rw [Client.drive, hq]
      refine .ok ⟨e, hends, ?_⟩
      rw [Passes, forall_reach_final fun c => by simp [hplay], he]

end Runs

/-! ### Agreement -/

/-- The snapshot a run starts with. -/
def initialSnapshot (sch : Scheduler) (state : Json) : StateSnapshot :=
  { schemaId := sch.schema.id, revision := 0, value := state, provenance := none }

/-- `Scheduler::run`, played the script. -/
def nativeRun (sch : Scheduler) (id : ExecutionId) (state : Json) (script : Script) (now : ℕ) (w : World ℕ) :
    Except Abort ExecutionReportV1 :=
  ((sch.run id (initialSnapshot sch state)).run (surroundings (player script) false now) w).1

/-- The host of the portable engine that runs the same graph. -/
def client (sch : Scheduler) (digest : GraphDefinitionV1 → String) (now : ℕ) (script : Script) : Client :=
  { digest, graph := sch.graph.definition, schema := sch.schema, now, script }

/-- The heads the run passes through, with the positions in the script. -/
def Reaches (sch : Scheduler) (id : ExecutionId) (state : Json) (script : Script) (now : ℕ)
    (u : RunState × ℕ) : Prop :=
  ∃ s, (sch.begin id true (.initial (initialSnapshot sch state) sch.graph.definition.entry 0 0 0 0)).play
    (scripted script now) 0 = .ok ((now, s), 0) ∧ Passes sch id now script (s, 0) u

/-- What two events have in common: sequence number, node and kind. -/
def shape (e : ProtocolEvent) : ℕ × Option String × ProtocolEventKind := (e.sequence, e.nodeId, e.kind)

/-- Two reports agree. -/
def Agree (r : ExecutionReportV1) (q : ProtocolReport) : Prop :=
  q.status = wireStatus r.status ∧ q.state.value = r.state.value ∧ q.state.revision = r.state.revision ∧
    q.events.map shape = (r.events.map wireEvent).map shape ∧
    q.steps = r.steps ∧ q.tokens = r.tokens ∧ q.costMicros = r.costMicros

instance (r : ExecutionReportV1) (q : ProtocolReport) : Decidable (Agree r q) :=
  inferInstanceAs (Decidable (_ ∧ _ ∧ _ ∧ _ ∧ _ ∧ _ ∧ _))

theorem Ends.agree {k : ℕ} {r : ExecutionReportV1} {q : ProtocolReport} (h : Ends k r q) :
    Agree r q ↔ k = 0 := by
  constructor
  · rintro ⟨-, -, hrev, -⟩
    have := h.revision
    omega
  · intro hk
    refine ⟨h.status, h.value, ?_, by rw [h.events hk], h.steps, h.tokens, h.cost⟩
    have := h.revision
    omega

section Agreement

variable (sch : Scheduler) (digest : GraphDefinitionV1 → String) (id : ExecutionId) (state : Json)
  (script : Script) (now : ℕ)

/-- The state of the scheduler's first head. -/
def firstState : RunState :=
  let s : RunState := .initial (initialSnapshot sch state) sch.graph.definition.entry 0 0 0 0
  s.logged (s.eventAt id none .executionStarted now)

/-- The scheduler checks the state, and begins. -/
theorem play_begin :
    (sch.begin id true (.initial (initialSnapshot sch state) sch.graph.definition.entry 0 0 0 0)).play
      (scripted script now) 0 =
      liftError (sch.schema.validate state) >>= fun _ => .ok ((now, firstState sch id state now), 0) := by
  rw [Scheduler.begin, play_ofExcept_bind]
  refine congrArg _ (funext fun _ => ?_)
  rw [play_ofExcept_bind]
  simp [initialSnapshot, RunState.initial, ensure, scripted]
  rfl

/-- With the schema of the graph, both run in step. -/
theorem run_lockstep (hid : sch.schema.id = sch.graph.definition.stateSchema)
    (hhash : sch.graph.hash = digest sch.graph.definition) (hmax : sch.graph.limits.maxSteps ≤ u64Max)
    (hscript : ∀ i r, (script i r).outcome.Expressible) (hretries : sch.policy.maxRetries = 0) :
    Lockstep NotStuck
      (fun a q => ∃ e, Ends e a.1 q ∧
        (e = 0 ↔ ∀ u, Reaches sch id state script now u → ¬ EmptyCommit sch script u.2 u.1))
      ((sch.run id (initialSnapshot sch state)).play (scripted script now) 0)
      ((client sch digest now script).run id.text state) := by
  have hg := CompiledGraphV1.compile_definition hhash
  rw [Client.run_eq (c := client sch digest now script) hg, Scheduler.run, Scheduler.runFrom, play_bind,
    play_begin, startRun]
  have hreaches : ∀ {P : RunState × ℕ → Prop}, sch.schema.validate state = .ok () →
      ((∀ u, Reaches sch id state script now u → P u) ↔
        ∀ u, Passes sch id now script (firstState sch id state now, 0) u → P u) := by
    intro P hvalid
    have hbegin := play_begin sch id state script now
    rw [hvalid] at hbegin
    constructor
    · intro hall u hu
      exact hall u ⟨_, hbegin, hu⟩
    · rintro hall u ⟨s, hs, hu⟩
      rw [hbegin] at hs
      cases hs
      exact hall u hu
  cases hvalid : sch.schema.validate state with
  | error e =>
    simp only [client, requireSchema, require, ok_bind, hvalid, definition]
    exact .error ⟨by simp, by simp⟩
  | ok u =>
    let p : Progress := { session := newSession sch.graph id.text (initialSnapshot sch state) now, fresh := [] }
    have h₀ : InStep sch id now 0 (.initial (initialSnapshot sch state) sch.graph.definition.entry 0 0 0 0)
        p.session :=
      { version := rfl, executionId := rfl, graphHash := rfl, value := rfl, schemaId := rfl, revision := rfl
        node := rfl, seq := rfl, steps := rfl, tokens := rfl, cost := rfl, visits := fun _ => rfl, start := rfl
        events := fun _ => rfl, valid := hvalid, revision_le := le_rfl }
    have hp : InStep sch id now 0 (firstState sch id state now) (p.logged none .executionStarted now).session :=
      h₀.logged none .executionStarted fun _ => rfl
    simp only [client, requireSchema, require, ok_bind, hvalid, definition, check, if_pos hid, liftError]
    have hloop := hp.loop (c := client sch digest now script) (i := 0) rfl hg hmax hscript hretries _ (Nat.lt_succ_self _)
    refine hloop.mono fun a q haq => ?_
    obtain ⟨e, hends, he⟩ := haq
    exact ⟨e, by rwa [Nat.zero_add] at hends, he.trans (hreaches hvalid).symm⟩

/-- With another schema, the portable engine fails. -/
theorem run_mismatched (hid : sch.schema.id ≠ sch.graph.definition.stateSchema)
    (hhash : sch.graph.hash = digest sch.graph.definition) :
    ∃ f, (client sch digest now script).run id.text state = .error (.failure f) := by
  have hg := CompiledGraphV1.compile_definition hhash
  rw [Client.run_eq (c := client sch digest now script) hg, startRun]
  simp only [client, requireSchema, require, ok_bind, check, if_neg hid]
  cases sch.schema.validate state with
  | error e => exact ⟨_, rfl⟩
  | ok u => exact ⟨_, rfl⟩

end Agreement

/-- **The portable engine and the scheduler**, playing one script: where the scheduler ends
in an error, so does the portable engine. Where the scheduler reports, they agree exactly if
the schema is the graph's and no turn commits a patch with no operations. -/
theorem portable_agrees (sch : Scheduler) (digest : GraphDefinitionV1 → String) (id : ExecutionId)
    (state : Json) (script : Script) (now : ℕ) (w : World ℕ) (hw : w.executor = 0)
    (hhash : sch.graph.hash = digest sch.graph.definition) (hmax : sch.graph.limits.maxSteps ≤ u64Max)
    (hscript : ∀ i r, (script i r).outcome.Expressible) (hretries : sch.policy.maxRetries = 0) :
    (∀ e, nativeRun sch id state script now w = .error e →
      ∃ e', (client sch digest now script).run id.text state = .error e' ∧ e' ≠ .stuck) ∧
    ∀ r, nativeRun sch id state script now w = .ok r →
      ((∃ q, (client sch digest now script).run id.text state = .ok q ∧ Agree r q) ↔
        sch.schema.id = sch.graph.definition.stateSchema ∧
          ∀ u, Reaches sch id state script now u → ¬ EmptyCommit sch script u.2 u.1) := by
  have hnative : nativeRun sch id state script now w =
      ((sch.run id (initialSnapshot sch state)).play (scripted script now) 0).map Prod.fst := by
    rw [nativeRun, run_player, hw, run_fst]
  by_cases hid : sch.schema.id = sch.graph.definition.stateSchema
  · have hrun := run_lockstep sch digest id state script now hid hhash hmax hscript hretries
    cases hplay : (sch.run id (initialSnapshot sch state)).play (scripted script now) 0 with
    | error e =>
      obtain ⟨e', he', hne⟩ := hrun.error_left hplay
      rw [hnative, hplay]
      exact ⟨fun _ _ => ⟨e', he', hne.2⟩, fun r hr => by cases hr⟩
    | ok a =>
      obtain ⟨q, hq, e, hends, he⟩ := hrun.ok_left hplay
      rw [hnative, hplay]
      refine ⟨fun e he => (by cases he), fun r hr => ?_⟩
      cases hr
      simp only [hq, Except.ok.injEq, exists_eq_left', hends.agree, he, hid, true_and]
  · obtain ⟨f, hf⟩ := run_mismatched sch digest id state script now hid hhash
    rw [hf]
    exact ⟨fun _ _ => ⟨_, rfl, by simp⟩, fun r _ => by simp [hid]⟩

/-- The scheduler of the tests, without retries. -/
def setupOnce : Scheduler :=
  { setup false with policy := { setupPolicy with maxRetries := 0 } }

/-- A script for it: `a` continues with the patch, `b` terminates. -/
def setupScript (patch : Members) : Script := fun _ r =>
  { outcome := if r.nodeId = "a" then .continue (some (.object patch)) else .terminate .null none
    tokens := some 1, costMicros := none }

theorem setupScript_expressible {patch : Members} (h : ∀ m ∈ patch, '/' ∉ m.1.toList) (i : ℕ)
    (r : DispatchRequest) : (setupScript patch i r).outcome.Expressible := by
  unfold setupScript
  by_cases ha : r.nodeId = "a"
  · rw [if_pos ha]
    exact ⟨_, rfl, _, rfl, h⟩
  · rw [if_neg ha]
    intro v hv
    cases hv

/-- The revisions the two engines report. -/
theorem empty_revisions :
    (nativeRun setupOnce (testId "e") setupState.value (setupScript []) 1 (World.fresh 0)).map
        (·.state.revision) = .ok 1 ∧
      ((client setupOnce (fun _ => "sha256:graph") 1 (setupScript [])).run "e" setupState.value).map
        (·.state.revision) = .ok 0 := by
  decide +kernel

/-- **The engines disagree about a patch with no operations.** -/
theorem empty_patch_disagrees :
    ¬ ∀ (sch : Scheduler) (digest : GraphDefinitionV1 → String) (id : ExecutionId) (state : Json)
      (script : Script) (now : ℕ) (w : World ℕ), w.executor = 0 →
      sch.graph.hash = digest sch.graph.definition → sch.graph.limits.maxSteps ≤ u64Max →
      (∀ i r, (script i r).outcome.Expressible) → sch.policy.maxRetries = 0 →
      ((∃ e, nativeRun sch id state script now w = .error e) ↔
        ∃ e, (client sch digest now script).run id.text state = .error e) ∧
      ∀ r q, nativeRun sch id state script now w = .ok r →
        (client sch digest now script).run id.text state = .ok q → Agree r q := by
  intro h
  have hagree := (h setupOnce (fun _ => "sha256:graph") (testId "e") setupState.value (setupScript []) 1
    (World.fresh 0) rfl rfl (by decide) (setupScript_expressible (by simp)) rfl).2
  obtain ⟨hnative, hportable⟩ := empty_revisions
  cases hr : nativeRun setupOnce (testId "e") setupState.value (setupScript []) 1 (World.fresh 0) with
  | error e => simp [hr, Except.map] at hnative
  | ok r =>
    cases hq : (client setupOnce (fun _ => "sha256:graph") 1 (setupScript [])).run "e" setupState.value with
    | error e => simp [hq, Except.map] at hportable
    | ok q =>
      have hrev := (hagree r q hr hq).2.2.1
      simp only [hr, hq, Except.map, Except.ok.injEq] at hnative hportable
      omega

/-- The script that sets a field. -/
def fieldScript : Script := setupScript [("n", .number (.posInt 1))]

theorem field_reports :
    ∃ r q, nativeRun setupOnce (testId "e") setupState.value fieldScript 1 (World.fresh 0) = .ok r ∧
      (client setupOnce (fun _ => "sha256:graph") 1 fieldScript).run "e" setupState.value = .ok q ∧
      decide (Agree r q) = true :=
  exists_of_test (by decide +kernel)

/-- What `portable_agrees` says of that script: every turn counts for both. -/
theorem fieldScript_no_emptyCommit :
    setupOnce.schema.id = setupOnce.graph.definition.stateSchema ∧
      ∀ u, Reaches setupOnce (testId "e") setupState.value fieldScript 1 u →
        ¬ EmptyCommit setupOnce fieldScript u.2 u.1 := by
  obtain ⟨r, q, hr, hq, hagree⟩ := field_reports
  have hscript : ∀ m ∈ [("n", Json.number (.posInt 1))], '/' ∉ m.1.toList := by decide
  exact ((portable_agrees setupOnce (fun _ => "sha256:graph") (testId "e") setupState.value fieldScript 1
    (World.fresh 0) rfl rfl (by decide) (setupScript_expressible hscript) rfl).2 r hr).mp ⟨q, hq, of_decide_eq_true hagree⟩

end Knolo.Portable
