import Knolo.Harness.Evaluation
import Knolo.Library.Interaction

/-!
# Invocation with recovery

`packages/agents/src/recovery` and `invokeWithRecovery` and the second half of `run` in
`harness/session.ts`: an agent is invoked, and invoked again while it fails and a strategy is left;
what it returned last is evaluated.

The agent, the middleware and the judge are the host. A hook may throw. An attempt is what the agent
reports through `emitTool`, in order, with what the hooks of each report do, and how it ends.
-/

namespace Knolo.Harness

open Script Library

/-! ### Policies -/

/-- The classes of failures. -/
inductive FailureClassV1 where
  | tool
  | retrieval
  | schema
  | timeout
  | policy
  | model
  | unknown
  deriving DecidableEq

/-- The strategies of recovery. -/
inductive RecoveryStrategyV1 where
  | retry
  | alternatePlan
  | fallbackSkill
  | alternateTool
  | narrowedChild
  | hitl
  | gracefulPartial
  deriving DecidableEq

/-- `DEFAULT_RECOVERY_STRATEGIES`, with their texts. -/
def RecoveryStrategyV1.texts : List (String × RecoveryStrategyV1) :=
  [("retry", .retry), ("alternate-plan", .alternatePlan), ("fallback-skill", .fallbackSkill),
    ("alternate-tool", .alternateTool), ("narrowed-child", .narrowedChild), ("hitl", .hitl),
    ("graceful-partial", .gracefulPartial)]

def defaultRecoveryStrategies : List RecoveryStrategyV1 := RecoveryStrategyV1.texts.map Prod.snd

/-- A policy. Of the fallback skill and the alternate tool it counts whether there is one. -/
structure RecoveryPolicyV1 where
  enabled : Bool
  maxRetries : ℕ
  strategies : List RecoveryStrategyV1
  fallbackSkill : Bool := false
  alternateTool : Bool := false

/-- Does a value count as true? -/
def truthy : JsValue → Bool
  | .null | .bool false | .number (.finite 0) | .number .negZero | .string "" => false
  | _ => true

/-- A property that is neither missing nor `null`. -/
def definedProperty (record : List (String × JsValue)) (key : String) : Option JsValue :=
  (record.lookup key).filter fun v => match v with
    | .null => false
    | _ => true

/-- The strategies of a policy. -/
def parseStrategies : JsValue → Except String (List RecoveryStrategyV1)
  | .array items =>
    let strategy : JsValue → Option RecoveryStrategyV1
      | .string s => RecoveryStrategyV1.texts.lookup s
      | _ => none
    (items.mapM strategy).elim (.error "recovery.strategies contains an unknown strategy") .ok
  | _ => .error "recovery.strategies contains an unknown strategy"

/-- `parseRecoveryPolicy`; `none` is `undefined`. -/
def parseRecoveryPolicy : Option JsValue → Except String RecoveryPolicyV1
  | none | some .null | some (.bool true) =>
    .ok { enabled := true, maxRetries := 1, strategies := defaultRecoveryStrategies }
  | some (.bool false) => .ok { enabled := false, maxRetries := 0, strategies := [] }
  | some (.object record) => do
    let maxRetries ← match definedProperty record "maxRetries" with
      | none => .ok 1
      | some (.number x) =>
        match x.safeInteger with
        | some z =>
          if 0 ≤ z then .ok z.toNat else .error "recovery.maxRetries must be a non-negative integer"
        | none => .error "recovery.maxRetries must be a non-negative integer"
      | some _ => .error "recovery.maxRetries must be a non-negative integer"
    let strategies ← match definedProperty record "strategies" with
      | none => .ok defaultRecoveryStrategies
      | some v => parseStrategies v
    return {
      enabled := match record.lookup "enabled" with
        | some (.bool false) => false
        | _ => true
      maxRetries := maxRetries
      strategies := strategies
      fallbackSkill := (record.lookup "fallbackSkill").any truthy
      alternateTool := (record.lookup "alternateTool").any truthy }
  | some _ => .error "recovery must be a policy object, true, or false"

section Classes

variable (language : Language)

/-- `classifyFailure`. -/
def classifyFailure (result : AgentInvocationResultV1) : FailureClassV1 :=
  let output := (stringifyOutput language result.output).getD "undefined"
  let error := result.error.getD ""
  let text := language.toLowerCase s!"{error} {output}"
  let any := fun words : List String => words.any (includes text)
  if any ["timeout", "etimedout", "timed out", "tool_timeout"] then .timeout
  else if any ["prohibited", "denied", "authority", "policy", "escalation"] then .policy
  else if any ["schema", "outputschema", "parse json", "invalid json"] then .schema
  else if any ["retriev", "evidence", "knowledge image"] then .retrieval
  else if any ["tool"] then .tool
  else if any ["model", "llm", "completion"] then .model
  else .unknown

/-- `needsRecovery`. -/
def needsRecovery (result : AgentInvocationResultV1) : Bool := result.status = .failed

end Classes

/-- Can a strategy be used, after those that were? -/
def usable (policy : RecoveryPolicyV1) (used : List RecoveryStrategyV1) : RecoveryStrategyV1 → Bool
  | .retry => used.count .retry < policy.maxRetries
  | .fallbackSkill => !used.contains .fallbackSkill && policy.fallbackSkill
  | .alternateTool => !used.contains .alternateTool && policy.alternateTool
  | .hitl | .narrowedChild => false
  | strategy => !used.contains strategy

/-- `nextStrategy`. -/
def nextStrategy (policy : RecoveryPolicyV1) (failureClass : FailureClassV1) (used : List RecoveryStrategyV1) :
    Option RecoveryStrategyV1 :=
  if policy.enabled = false then none
  else if failureClass = .policy then none
  else policy.strategies.find? (usable policy used)

/-! ### Strategies run out -/

/-- How many strategies are left at most: retries, and the strategies that are used once. -/
def strategiesLeft (policy : RecoveryPolicyV1) (used : List RecoveryStrategyV1) : ℕ :=
  (policy.maxRetries - used.count .retry) + (defaultRecoveryStrategies.filter (!used.contains ·)).length

theorem nextStrategy_usable {policy : RecoveryPolicyV1} {failureClass : FailureClassV1}
    {used : List RecoveryStrategyV1} {s : RecoveryStrategyV1}
    (h : nextStrategy policy failureClass used = some s) : usable policy used s = true := by
  unfold nextStrategy at h
  split_ifs at h
  exact List.find?_some h

/-- A strategy that is used is one less. -/
theorem strategiesLeft_lt {policy : RecoveryPolicyV1} {used : List RecoveryStrategyV1} {s : RecoveryStrategyV1}
    (h : usable policy used s = true) : strategiesLeft policy (used ++ [s]) < strategiesLeft policy used := by
  have hfilter : defaultRecoveryStrategies.filter (!(used ++ [s]).contains ·) =
      (defaultRecoveryStrategies.filter (!used.contains ·)).filter (· ≠ s) := by
    rw [List.filter_filter]
    refine List.filter_congr fun t _ => ?_
    simp [Bool.and_comm]
  have hle : (defaultRecoveryStrategies.filter (!(used ++ [s]).contains ·)).length ≤
      (defaultRecoveryStrategies.filter (!used.contains ·)).length := by
    rw [hfilter]
    exact List.length_filter_le ..
  have hlt : s ∉ used → (defaultRecoveryStrategies.filter (!(used ++ [s]).contains ·)).length <
      (defaultRecoveryStrategies.filter (!used.contains ·)).length := by
    intro hs
    rw [hfilter, List.length_filter_lt_length_iff_exists]
    refine ⟨s, List.mem_filter.mpr ⟨?_, by simpa using hs⟩, by simp⟩
    cases s <;> decide
  have hcount : used.count .retry ≤ (used ++ [s]).count .retry := by
    rw [List.count_append]
    omega
  unfold strategiesLeft
  by_cases hretry : s = .retry
  · subst hretry
    have hmore : used.count RecoveryStrategyV1.retry < policy.maxRetries := by simpa [usable] using h
    have hnext : (used ++ [RecoveryStrategyV1.retry]).count .retry = used.count .retry + 1 := by simp
    omega
  · have hs : s ∉ used := by
      cases s <;> simp_all [usable]
    have := hlt hs
    omega

/-! ### The host -/

/-- The hooks of the middleware that are run here. -/
inductive MiddlewareHookName where
  | beforeAgent
  | onError
  | onRecovery
  | beforeComplete
  | afterComplete
  deriving DecidableEq

/-- The phases of a tool's use. -/
inductive ToolPhase where
  | before
  | after
  deriving DecidableEq

/-- A report of an agent through `emitTool`, and what the hooks that are run for it do. -/
structure Emission where
  phase : ToolPhase
  toolId : String
  hooks : Except String Unit := .ok ()

/-- An attempt: what the agent reports, and how it ends. -/
structure Attempt where
  emissions : List Emission := []
  outcome : Except String AgentInvocationResultV1

/-- What is asked of the host. -/
inductive HostCall where
  | hook (name : MiddlewareHookName)
  | invoke
  | judge
  deriving DecidableEq

/-- What the host answers. -/
def HostCall.Answer : HostCall → Type
  | .hook _ => Except String Unit
  | .invoke => Attempt
  | .judge => Except String SemanticJudgeRecordV1

/-- A part of a run. -/
abbrev RunM := Prog HostCall HostCall.Answer String

/-- `runHooks`. -/
def runHooks (name : MiddlewareHookName) : RunM Unit := .call (.hook name) fun answer => Prog.ofExcept answer

/-- `adapter.invoke`, with what the agent reports. -/
def invokeAdapter : RunM Attempt := Prog.ask HostCall.invoke

/-- The tools an attempt leaves in the buffer of receipts. -/
def Attempt.toolReceipts (a : Attempt) : List String :=
  (a.emissions.filter fun e => e.phase = .after && e.hooks.isOk).map (·.toolId)

/-- What an attempt returns; one that throws has failed. -/
def Attempt.result (a : Attempt) : AgentInvocationResultV1 :=
  match a.outcome with
  | .ok result => result
  | .error message => { status := .failed, output := some .null, error := some message }

/-- `invokeOnce`: what was returned, and the buffer of receipts. -/
def invokeOnce : RunM (AgentInvocationResultV1 × List String) := do
  runHooks .beforeAgent
  let attempt ← invokeAdapter
  match attempt.outcome with
  | .ok _ => return (attempt.result, attempt.toolReceipts)
  | .error _ => do
    runHooks .onError
    return (attempt.result, attempt.toolReceipts)

/-- How a strategy went. -/
inductive RecoveryEventStatus where
  | applied
  | exhausted
  deriving DecidableEq

/-- An event of the recovery. -/
structure RecoveryEventV1 where
  failureClass : FailureClassV1
  strategy : RecoveryStrategyV1
  attempt : ℕ
  status : RecoveryEventStatus
  detail : Option String := none
  deriving DecidableEq

/-- The strategies that were applied, in order. -/
def applied (events : List RecoveryEventV1) : List RecoveryStrategyV1 :=
  (events.filter (·.status = .applied)).map (·.strategy)

/-- What the invocation leaves. -/
structure Invoked where
  result : AgentInvocationResultV1
  toolReceipts : List String
  events : List RecoveryEventV1

/-- A value that is neither `undefined` nor `null`. -/
def defined (v : Option JsValue) : Option JsValue :=
  match v with
  | none | some .null => none
  | some v => some v

/-- A failure that is passed off as a partial result. -/
def gracefulPartial (result : AgentInvocationResultV1) : AgentInvocationResultV1 :=
  { result with
    status := .partialResult
    output := some ((defined result.output).getD (.string (result.error.getD "partial"))) }

section Invoke

variable (language : Language) (policy : RecoveryPolicyV1)

/-- The loop of `invokeWithRecovery`, with the strategies that were used. -/
def recover (used : List RecoveryStrategyV1) (attempt : ℕ) (invoked : Invoked) : RunM Invoked :=
  let failureClass := classifyFailure language invoked.result
  let exhausted : Invoked :=
    if needsRecovery invoked.result ∧ used ≠ [] then
      { invoked with events := invoked.events ++ [{
          failureClass := failureClass, strategy := .gracefulPartial, attempt := attempt + 1
          status := .exhausted, detail := some "no remaining strategy" }] }
    else invoked
  if needsRecovery invoked.result then
    match _h : nextStrategy policy failureClass used with
    | none => return exhausted
    | some strategy => do
      runHooks .onRecovery
      if strategy = .gracefulPartial then
        return {
          result := gracefulPartial invoked.result
          toolReceipts := invoked.toolReceipts
          events := invoked.events ++ [{
            failureClass := failureClass, strategy := strategy, attempt := attempt + 1, status := .applied
            detail := some "graceful-partial" }] }
      else
        let events := invoked.events ++ [{
          failureClass := failureClass, strategy := strategy, attempt := attempt + 1, status := .applied }]
        let (result, toolReceipts) ← invokeOnce
        recover (used ++ [strategy]) (attempt + 1) { result := result, toolReceipts := toolReceipts, events := events }
  else return exhausted
termination_by strategiesLeft policy used
decreasing_by exact strategiesLeft_lt (nextStrategy_usable ‹_›)

section Steps

variable {language policy} {used : List RecoveryStrategyV1} {attempt : ℕ} {invoked : Invoked} {s : RecoveryStrategyV1}

/-- The loop ends when nothing has failed. -/
theorem recover_done (h : needsRecovery invoked.result = false) :
    recover language policy used attempt invoked = return invoked := by
  rw [recover, if_neg (by rw [h]; decide)]
  simp [h]

/-- The loop ends when no strategy is left. -/
theorem recover_exhausted (h : needsRecovery invoked.result = true)
    (hs : nextStrategy policy (classifyFailure language invoked.result) used = none) :
    ∃ events, applied events = applied invoked.events ∧
      recover language policy used attempt invoked = return { invoked with events := events } := by
  rw [recover, if_pos h]
  split
  · split_ifs
    · exact ⟨_, by simp [applied], rfl⟩
    · exact ⟨invoked.events, rfl, rfl⟩
  · rename_i hsome
    rw [hs] at hsome
    cases hsome

/-- The loop ends when the failure is passed off as a partial result. -/
theorem recover_graceful (h : needsRecovery invoked.result = true)
    (hs : nextStrategy policy (classifyFailure language invoked.result) used = some .gracefulPartial) :
    ∃ events, applied events = applied invoked.events ++ [.gracefulPartial] ∧
      recover language policy used attempt invoked = (do
        runHooks .onRecovery
        return { invoked with result := gracefulPartial invoked.result, events := events }) := by
  rw [recover, if_pos h]
  split
  · rename_i hnone
    rw [hs] at hnone
    cases hnone
  · rename_i hsome
    rw [hs] at hsome
    cases hsome
    exact ⟨_, by simp [applied], rfl⟩

/-- The loop goes on with another attempt. -/
theorem recover_again (h : needsRecovery invoked.result = true)
    (hs : nextStrategy policy (classifyFailure language invoked.result) used = some s) (hg : s ≠ .gracefulPartial) :
    ∃ events, applied events = applied invoked.events ++ [s] ∧
      recover language policy used attempt invoked = (do
        runHooks .onRecovery
        let (result, toolReceipts) ← invokeOnce
        recover language policy (used ++ [s]) (attempt + 1)
          { result := result, toolReceipts := toolReceipts, events := events }) := by
  rw [recover, if_pos h]
  split
  · rename_i hnone
    rw [hs] at hnone
    cases hnone
  · rename_i hsome
    rw [hs] at hsome
    cases hsome
    refine ⟨invoked.events ++ [⟨_, s, attempt + 1, .applied, none⟩], ?_, by rw [if_neg hg]⟩
    simp [applied]

end Steps

/-- `invokeWithRecovery`. -/
def invokeWithRecovery : RunM Invoked := do
  let (result, toolReceipts) ← invokeOnce
  recover language policy [] 0 { result := result, toolReceipts := toolReceipts, events := [] }

end Invoke

/-! ### A run -/

/-- What a run says of itself, after its context was compiled. -/
structure HarnessRunReceiptV1 where
  toolReceipts : List String
  evaluationReceipt : EvaluationReceiptV1
  recoveryEvents : List RecoveryEventV1
  finalStatus : InvocationStatusV1
  output : Option JsValue

/-- What a run returns. -/
structure HarnessRun where
  result : AgentInvocationResultV1
  receipt : HarnessRunReceiptV1

/-- The tools a run is judged by: those its result lists, or else the buffer of receipts. -/
def Invoked.toolCalls (invoked : Invoked) : List String := invoked.result.toolCalls.getD invoked.toolReceipts

/-- What a run returns, from its invocation and its evaluation. -/
def HarnessRun.of (invoked : Invoked) (evaluation : EvaluationReceiptV1) : HarnessRun :=
  let result := invoked.result
  let receipt : HarnessRunReceiptV1 := {
    toolReceipts := invoked.toolCalls
    evaluationReceipt := evaluation
    recoveryEvents := invoked.events
    finalStatus := if evaluation.prohibitedViolations ≠ [] then .failed else result.status
    output := result.output }
  { result := { result with status := receipt.finalStatus }, receipt := receipt }

/-- What a run is given. -/
structure RunOptions where
  task : TaskV1
  recovery : Option JsValue := none
  judge : Bool := false
  context : EvaluationContext

/-- `evaluateRun`. -/
def evaluateRun (language : Language) (options : RunOptions) (result : AgentInvocationResultV1)
    (toolCalls : List String) : RunM EvaluationReceiptV1 := do
  let (taskEval, checks) ← Prog.ofExcept (deterministicChecks language options.task result toolCalls options.context)
  if options.judge then .call .judge fun answer => do
    let record ← Prog.ofExcept answer
    return evaluationReceipt result taskEval checks (some record)
  else return evaluationReceipt result taskEval checks none

/-- `run`, from the compiled context on. -/
def HarnessSession.run (language : Language) (options : RunOptions) : RunM HarnessRun := do
  let recoveryPolicy ← Prog.ofExcept (parseRecoveryPolicy options.recovery)
  let invoked ← invokeWithRecovery language recoveryPolicy
  runHooks .beforeComplete
  let evaluation ← evaluateRun language options invoked.result invoked.toolCalls
  runHooks .afterComplete
  return .of invoked evaluation

end Knolo.Harness
