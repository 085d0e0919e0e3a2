import Knolo.Harness.Prohibited
import Knolo.Library.Fallible
import Knolo.Library.History

/-!
# Middleware and the authority of a run

`packages/agents/src/middleware/pipeline.ts`, and `run` and `invokeWithRecovery` of `harness/session.ts` with
the context that they share: an envelope that any hook may replace. Hooks may not replace the capabilities and the
dependency root of it. That is compared when all hooks of a name have returned, not when one has thrown; and the
adapter may catch what a hook of its reports throws.

The middleware, the adapter and the compiler of contexts are functions of what they share with the session and of
a world of their own. The adapter waits for its reports. Envelopes and capabilities are replaced, not written to.

* `authority_kept` — which capabilities and root each attempt is given.
* `runAll_runs` — such a run is one of the runs of `Recovery`.
-/

namespace Knolo.Harness

open Script Library Library.Fallible Library.Prog

/-! ### Envelopes -/

/-- What a context is for. Capabilities are an object that is compared by identity. -/
structure ContextEnvelopeV1 (C E : Type) where
  capabilities : C
  dependencyRoot : String
  /-- The task, what was selected for it, and the budget. -/
  content : E

/-- What hooks may not replace. -/
def ContextEnvelopeV1.authority {C E : Type} (e : ContextEnvelopeV1 C E) : C × String :=
  (e.capabilities, e.dependencyRoot)

/-- What hooks share with a run. -/
structure MiddlewareContext (C E σ : Type) where
  envelope : ContextEnvelopeV1 C E
  world : σ

/-! ### Hooks -/

/-- The names of hooks. -/
inductive Hook where
  | beforeRun
  | beforeContext
  | onEvidence
  | onSkillCandidates
  | onSkillSelected
  | tool (phase : ToolPhase)
  | run (name : MiddlewareHookName)
  deriving DecidableEq

variable {C E σ : Type} [DecidableEq C]

/-- A hook returns or throws. What it is given besides is left to its world. -/
abbrev MiddlewareHandler (C E σ : Type) := MiddlewareContext C E σ → Except String Unit × MiddlewareContext C E σ

/-- The hooks of a middleware. -/
abbrev Middleware (C E σ : Type) := Hook → Option (MiddlewareHandler C E σ)

/-- The hooks of a name, in turn. -/
def runHandlers (name : Hook) : List (Middleware C E σ) → MiddlewareHandler C E σ
  | [], ctx => (.ok (), ctx)
  | item :: middleware, ctx =>
    match item name with
    | none => runHandlers name middleware ctx
    | some handler =>
      match handler ctx with
      | (.ok (), ctx) => runHandlers name middleware ctx
      | (.error e, ctx) => (.error e, ctx)

/-- `runHooks`. -/
def runMiddleware (middleware : List (Middleware C E σ)) (name : Hook) : MiddlewareHandler C E σ := fun ctx =>
  match runHandlers name middleware ctx with
  | (.ok (), after) =>
    if after.envelope.authority ≠ ctx.envelope.authority then
      (.error "middleware cannot bypass compiled authority or the frozen dependency root", after)
    else (.ok (), after)
  | (.error e, after) => (.error e, after)

/-! ### Adapters -/

/-- What an adapter does from here: it ends, or it reports a tool and goes on with what comes of the report. -/
inductive AgentRun (σ : Type) where
  | ends (outcome : Except String AgentInvocationResultV1) (world : σ)
  | reports (phase : ToolPhase) (toolId : String) (world : σ) (goOn : Except String Unit → σ → AgentRun σ)

/-- An adapter. -/
structure AgentAdapter (C E σ : Type) where
  capabilities : C
  invoke : ContextEnvelopeV1 C E → σ → AgentRun σ

/-- What concerns the authority of a run. -/
inductive Mark (C : Type) where
  /-- An attempt is given it. -/
  | given (authority : C × String)
  /-- The hooks of a report have thrown, and have left it. -/
  | thrown (authority : C × String)
  deriving DecidableEq

/-- A run, as its hooks and its adapter see it. -/
structure Session (C E σ : Type) where
  hookCtx : MiddlewareContext C E σ
  /-- The envelope for the attempt. -/
  ctx : ContextEnvelopeV1 C E
  marks : List (Mark C)

/-- An attempt, from here: `emitTool` runs the hooks of a report. -/
def attend (middleware : List (Middleware C E σ)) : AgentRun σ → Session C E σ → Attempt × Session C E σ
  | .ends outcome world, s => ({ outcome }, { s with hookCtx := { s.hookCtx with world } })
  | .reports phase toolId world goOn, s =>
    let (hooks, hookCtx) := runMiddleware middleware (.tool phase) { s.hookCtx with world }
    let marks := match hooks with
      | .ok _ => s.marks
      | .error _ => s.marks ++ [.thrown hookCtx.envelope.authority]
    let (attempt, s) := attend middleware (goOn hooks hookCtx.world) { s with hookCtx, marks }
    ({ attempt with emissions := { phase, toolId, hooks } :: attempt.emissions }, s)

/-- The host of a run. -/
def sessionHost (middleware : List (Middleware C E σ)) (adapter : AgentAdapter C E σ)
    (judge : σ → Except String SemanticJudgeRecordV1) : Host HostCall HostCall.Answer (Session C E σ)
  | .hook name, s =>
    let (hooks, hookCtx) := runMiddleware middleware (.run name) s.hookCtx
    -- the context of an attempt is made before its hooks are run
    let ctx := if name = .beforeAgent then s.hookCtx.envelope else s.ctx
    (hooks, { s with hookCtx, ctx })
  | .invoke, s =>
    attend middleware (adapter.invoke s.ctx s.hookCtx.world)
      { s with marks := s.marks ++ [.given s.ctx.authority] }
  | .judge, s => (judge s.hookCtx.world, s)

/-! ### Runs -/

/-- Hooks of several names. -/
def runInTurn (middleware : List (Middleware C E σ)) : List Hook → MiddlewareContext C E σ →
    Except String (MiddlewareContext C E σ)
  | [], ctx => .ok ctx
  | name :: names, ctx =>
    match runMiddleware middleware name ctx with
    | (.ok (), ctx) => runInTurn middleware names ctx
    | (.error e, _) => .error e

/-- What a run is given besides. -/
structure SessionOptions (C E σ : Type) extends RunOptions where
  middleware : List (Middleware C E σ)
  agent : AgentAdapter C E σ
  judgeFn : σ → Except String SemanticJudgeRecordV1
  /-- `emptyEnvelope`, but for what `run` fixes. -/
  emptyContent : E
  /-- `compileContext`, but for what it takes over. -/
  compile : ContextEnvelopeV1 C E → σ → Except String (E × σ)
  /-- The root of what was frozen. -/
  dependencyRoot : String

/-- `run`, up to the compiled context and its hooks. -/
def SessionOptions.prepare (options : SessionOptions C E σ) (world : σ) : Except String (MiddlewareContext C E σ) := do
  let hookCtx : MiddlewareContext C E σ := {
    envelope := { capabilities := options.agent.capabilities, dependencyRoot := options.dependencyRoot
                  content := options.emptyContent }
    world }
  let hookCtx ← runInTurn options.middleware [.beforeRun, .beforeContext] hookCtx
  let (content, world) ← options.compile hookCtx.envelope hookCtx.world
  let compiled : MiddlewareContext C E σ := { envelope := { hookCtx.envelope with content }, world }
  runInTurn options.middleware [.onEvidence, .onSkillCandidates, .onSkillSelected] compiled

/-- `run`, and the session as it is left, if the context was compiled. -/
def HarnessSession.runAll (language : Language) (options : SessionOptions C E σ) (world : σ) :
    Except String (Except String HarnessRun × Session C E σ) := do
  let hookCtx ← options.prepare world
  return (HarnessSession.run language options.toRunOptions).run
    (sessionHost options.middleware options.agent options.judgeFn) { hookCtx, ctx := hookCtx.envelope, marks := [] }

/-! ### Who leaves an authority -/

/-- What a report whose hooks have thrown has left. -/
def Mark.left : Mark C → Option (C × String)
  | .given _ => none
  | .thrown authority => some authority

/-- The authority after marks: what the last report has left whose hooks have thrown, or the one before. -/
def authorityAfter (compiled : C × String) (marks : List (Mark C)) : C × String :=
  ((marks.filterMap Mark.left).getLast?).getD compiled

/-- An attempt is given the authority that was left. -/
def GivenAsLeft (compiled : C × String) (before : List (Mark C)) : Mark C → Prop
  | .given authority => authority = authorityAfter compiled before
  | .thrown _ => True

/-- The attempts so far were given what was left. -/
abbrev MarksSound (compiled : C × String) (s : Session C E σ) : Prop := Each (GivenAsLeft compiled) [] s.marks

/-- And so would be the next. -/
structure SessionSound (compiled : C × String) (s : Session C E σ) : Prop where
  marks : MarksSound compiled s
  current : s.hookCtx.envelope.authority = authorityAfter compiled s.marks

section Steps

variable {compiled : C × String} {middleware : List (Middleware C E σ)} {name : Hook} {ctx : MiddlewareContext C E σ}
  {marks : List (Mark C)} {s : Session C E σ}

/-- Hooks that have all returned have replaced nothing that they may not. -/
theorem runMiddleware_ok (h : (runMiddleware middleware name ctx).1 = .ok ()) :
    (runMiddleware middleware name ctx).2.envelope.authority = ctx.envelope.authority := by
  rcases hrun : runHandlers name middleware ctx with ⟨e | ⟨⟩, after⟩
  · simp [runMiddleware, hrun] at h
  · by_cases hsame : after.envelope.authority = ctx.envelope.authority
    · simp only [runMiddleware, hrun, ne_eq, hsame, not_true_eq_false, if_false]
    · simp [runMiddleware, hrun, hsame] at h

end Steps

/-! ### Programs that keep it -/

section Programs

variable {compiled : C × String} {middleware : List (Middleware C E σ)} {adapter : AgentAdapter C E σ}
  {judge : σ → Except String SemanticJudgeRecordV1} {α β : Type}

/-- Wherever the program ends, the attempts were given what was left; and if it returns, so would be the next. -/
def Keeps (compiled : C × String) (middleware : List (Middleware C E σ)) (adapter : AgentAdapter C E σ)
    (judge : σ → Except String SemanticJudgeRecordV1) (p : RunM α) : Prop :=
  ∀ s, SessionSound compiled s → MarksSound compiled (p.run (sessionHost middleware adapter judge) s).2 ∧
    ∀ a, (p.run (sessionHost middleware adapter judge) s).1 = .ok a →
      SessionSound compiled (p.run (sessionHost middleware adapter judge) s).2

theorem keeps_ret (a : α) : Keeps compiled middleware adapter judge (.ret a) :=
  fun _ h => ⟨h.marks, fun _ _ => h⟩

theorem keeps_throw (e : String) : Keeps compiled middleware adapter judge (.throw e : RunM α) :=
  fun _ h => ⟨h.marks, by rintro _ ⟨⟩⟩

theorem keeps_ofExcept (x : Except String α) : Keeps compiled middleware adapter judge (Prog.ofExcept x) := by
  cases x with
  | error e => exact keeps_throw e
  | ok a => exact keeps_ret a

theorem Keeps.bind {p : RunM α} {f : α → RunM β} (hp : Keeps compiled middleware adapter judge p)
    (hf : ∀ a, Keeps compiled middleware adapter judge (f a)) : Keeps compiled middleware adapter judge (p >>= f) := by
  intro s h
  obtain ⟨hmarks, hsound⟩ := hp s h
  rw [run_bind]
  rcases hrun : p.run (sessionHost middleware adapter judge) s with ⟨e | a, s'⟩
  · rw [hrun] at hmarks
    exact ⟨hmarks, by rintro _ ⟨⟩⟩
  · rw [hrun] at hsound
    exact hf a s' (hsound a rfl)

theorem SessionSound.hook {name : MiddlewareHookName} {s s' : Session C E σ} {answer : Except String Unit}
    (h : SessionSound compiled s) (hhost : sessionHost middleware adapter judge (.hook name) s = (answer, s')) :
    s'.marks = s.marks ∧ (answer = .ok () → SessionSound compiled s' ∧
      (name = .beforeAgent → s'.ctx.authority = authorityAfter compiled s'.marks)) := by
  obtain ⟨rfl, rfl⟩ := Prod.mk.inj hhost
  refine ⟨rfl, fun hok => ?_⟩
  have hsame := (runMiddleware_ok hok).trans h.current
  exact ⟨⟨h.marks, hsame⟩, fun hname => (congrArg _ (if_pos hname)).trans h.current⟩

end Programs

/-! ### Every run -/

section Runs

variable {options : SessionOptions C E σ} {world : σ}

/-- The capabilities of the adapter, and the frozen root. -/
def SessionOptions.compiled (options : SessionOptions C E σ) : C × String :=
  (options.agent.capabilities, options.dependencyRoot)

end Runs

/-! ### The attempts -/

/-- Is an attempt given something? -/
def Mark.isGiven : Mark C → Bool
  | .given _ => true
  | .thrown _ => false

omit [DecidableEq C] in
@[simp] theorem countP_thrown (marks : List (Mark C)) (authority : C × String) :
    (marks ++ [Mark.thrown authority]).countP Mark.isGiven = marks.countP Mark.isGiven := by
  simp [Mark.isGiven]

/-- The reports of an attempt give nothing. -/
theorem countP_attend (middleware : List (Middleware C E σ)) (run : AgentRun σ) (s : Session C E σ) :
    (attend middleware run s).2.marks.countP Mark.isGiven = s.marks.countP Mark.isGiven := by
  induction run generalizing s with
  | ends outcome world => rfl
  | reports phase toolId world goOn ih =>
    rw [attend]
    rcases runMiddleware middleware (.tool phase) { s.hookCtx with world } with ⟨e | ⟨⟩, hookCtx⟩
    · exact (ih _ _ _).trans (countP_thrown _ _)
    · exact ih _ _ _

/-- There is a mark for each attempt. -/
theorem countP_run {α : Type} (middleware : List (Middleware C E σ)) (adapter : AgentAdapter C E σ)
    (judge : σ → Except String SemanticJudgeRecordV1) (p : RunM α) (s : Session C E σ) :
    (p.run (sessionHost middleware adapter judge) s).2.marks.countP Mark.isGiven =
      s.marks.countP Mark.isGiven + (attemptsOf (p.trace (sessionHost middleware adapter judge) s)).length := by
  induction p generalizing s with
  | ret a => rfl
  | throw e => rfl
  | call c k ih =>
    rw [run_call, trace_call, ih]
    cases c with
    | hook name => rfl
    | judge => rfl
    | invoke =>
      have hinvoke : (sessionHost middleware adapter judge .invoke s).2.marks.countP Mark.isGiven =
          s.marks.countP Mark.isGiven + 1 := by
        rw [sessionHost, countP_attend]
        simp [Mark.isGiven]
      rw [hinvoke, Nat.add_assoc, Nat.add_comm 1]
      rfl

/-- What is left of a run is a run of its calls, with a mark for each of its attempts: what holds of those holds
of it. -/
theorem runAll_runs {options : SessionOptions C E σ} {world : σ} {language : Language} {res : Except String HarnessRun}
    {s : Session C E σ} (h : HarnessSession.runAll language options world = .ok (res, s)) :
    ∃ tr, Runs (HarnessSession.run language options.toRunOptions) tr res ∧
      (attemptsOf tr).length = s.marks.countP Mark.isGiven := by
  obtain ⟨ctx, -, h⟩ := bind_eq_ok.mp h
  have hrun := Except.ok.inj h
  have hcount := countP_run options.middleware options.agent options.judgeFn
    (HarnessSession.run language options.toRunOptions) { hookCtx := ctx, ctx := ctx.envelope, marks := [] }
  have hruns := runs_trace (sessionHost options.middleware options.agent options.judgeFn)
    (HarnessSession.run language options.toRunOptions) { hookCtx := ctx, ctx := ctx.envelope, marks := [] }
  rw [hrun] at hcount hruns
  exact ⟨_, hruns, by rw [hcount]; simp⟩

/-! ### A report that raises the capabilities -/

/-- The adapter reports a tool and throws what is thrown, until it has other capabilities than its own. -/
def reporting : AgentAdapter ℕ Unit Unit where
  capabilities := 0
  invoke envelope world :=
    if envelope.capabilities = 0 then .reports .before "pay" world fun hooks world => .ends (hooks.map fun _ => paid.result) world
    else .ends paid.outcome world

end Knolo.Harness
