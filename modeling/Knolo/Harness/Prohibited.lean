import Knolo.Harness.Recovery
import Knolo.Library.Traverse

/-!
# Prohibited actions

A run is judged by its last attempt: by the tools its result lists, or else by those it has reported,
and by the text of its output. The tools of earlier attempts are forgotten, and so are those that the
last attempt has reported, when its result lists tools.

* `endsGracefully` — a run whose last failure is passed off as a partial result.
* `run_judged` — what a run that completes says of its attempts.
* `prohibited_fails_iff` — a run fails for every prohibited tool that was used exactly when its last
  attempt shows each.
-/

namespace Knolo.Harness

open Script Library Library.Fallible Library.Traverse

/-! ### What an evaluation finds -/

section Evaluation

variable {language : Language}

/-- What of a tool an evaluation sees: it is among the tools, or the text of the output mentions it. -/
def Seen (language : Language) (toolCalls : List String) (output : Option JsValue) (tool : String) : Prop :=
  tool ∈ toolCalls ∨ ∃ text, stringifyOutput language output = some text ∧ mentions language text tool = true

/-- The violations an evaluation finds. -/
theorem mem_violations {task : TaskV1} {status : InvocationStatusV1} {output : Option JsValue} {toolCalls : List String}
    {receipt : EvaluationReceiptV1} (h : evaluateInvocation language task status output toolCalls = .ok receipt)
    (tool : String) : tool ∈ receipt.prohibitedViolations ↔
      tool ∈ task.prohibitedActions.getD [] ∧ Seen language toolCalls output tool := by
  obtain ⟨_, hmatched, h⟩ := bind_eq_ok.mp h
  obtain ⟨violations, hviolations, h⟩ := bind_eq_ok.mp h
  cases h
  rw [mem_filterM hviolations]
  refine and_congr_right fun htool => ?_
  unfold contains
  cases htext : stringifyOutput language output with
  | none =>
    -- There would be no receipt: the check of the tool throws.
    obtain ⟨_, haux, -⟩ := bind_eq_ok.mp hviolations
    obtain ⟨b, hb⟩ := filterAuxM_total haux tool htool
    rw [htext] at hb
    cases hb
  | some text => simp [Seen, htext, or_comm]

end Evaluation

/-! ### What a run does -/

/-- The attempt of an answered call, if it is an invocation. -/
def attemptOf : Answered HostCall HostCall.Answer → Option Attempt
  | ⟨.invoke, attempt⟩ => some attempt
  | _ => none

/-- The attempts of a run. -/
def attemptsOf (tr : List (Answered HostCall HostCall.Answer)) : List Attempt := tr.filterMap attemptOf

@[simp] theorem attemptsOf_append (tr tr' : List (Answered HostCall HostCall.Answer)) :
    attemptsOf (tr ++ tr') = attemptsOf tr ++ attemptsOf tr' := List.filterMap_append ..

@[simp] theorem attemptsOf_invoke (a : Attempt) (tr : List (Answered HostCall HostCall.Answer)) :
    attemptsOf (⟨.invoke, a⟩ :: tr) = a :: attemptsOf tr := rfl

@[simp] theorem attemptsOf_nil : attemptsOf [] = [] := rfl

section Runs

variable {language : Language} {policy : RecoveryPolicyV1}

/-- Hooks make no attempt. -/
theorem runHooks_sat (name : MiddlewareHookName) : (runHooks name).Sat fun tr _ => attemptsOf tr = [] := by
  intro answer
  cases answer <;> rfl

/-- An invocation is an attempt, unless a hook throws. -/
theorem invokeOnce_sat : invokeOnce.Sat fun tr res => ∀ x, res = .ok x →
    ∃ a, attemptsOf tr = [a] ∧ x = (a.result, a.toolReceipts) := by
  refine (runHooks_sat .beforeAgent).bind (fun tr _ htr => ?_) (fun _ _ _ _ h => by cases h)
  rintro ⟨emissions, outcome⟩
  cases outcome with
  | ok result =>
    rintro x ⟨⟩
    refine ⟨⟨emissions, .ok result⟩, ?_, rfl⟩
    rw [attemptsOf_append, htr]
    rfl
  | error e =>
    refine (runHooks_sat .onError).bind (fun tr' _ htr' => ?_) (fun _ _ _ _ h => by cases h)
    rintro x ⟨⟩
    refine ⟨⟨emissions, .error e⟩, ?_, rfl⟩
    rw [List.append_nil, attemptsOf_append, htr]
    exact congrArg (List.cons _) htr'

variable (language policy)

/-- Does a run end by passing off its last failure as a partial result? The strategies that were used
before its attempts are given. -/
def endsGracefully (used : List RecoveryStrategyV1) : List Attempt → Bool
  | [] => false
  | [a] => needsRecovery a.result &&
      nextStrategy policy (classifyFailure language a.result) used = some .gracefulPartial
  | a :: rest =>
    match nextStrategy policy (classifyFailure language a.result) used with
    | some strategy => endsGracefully (used ++ [strategy]) rest
    | none => false

/-- The result of the last attempt, as the run has it. -/
def lastResult (used : List RecoveryStrategyV1) (attempts : List Attempt) (last : Attempt) : AgentInvocationResultV1 :=
  if endsGracefully language policy used attempts then gracefulPartial last.result else last.result

theorem lastResult_toolCalls (used : List RecoveryStrategyV1) (attempts : List Attempt) (last : Attempt) :
    (lastResult language policy used attempts last).toolCalls = last.result.toolCalls := by
  unfold lastResult
  split_ifs <;> rfl

variable {language policy}

/-- What the loop leaves is of the last attempt. -/
theorem recover_sat (n : ℕ) : ∀ (used : List RecoveryStrategyV1) (attempt : ℕ) (a : Attempt) (events : List RecoveryEventV1),
    strategiesLeft policy used = n →
    (recover language policy used attempt ⟨a.result, a.toolReceipts, events⟩).Sat fun tr res => ∀ x, res = .ok x →
      ∃ last, (a :: attemptsOf tr).getLast? = some last ∧ x.toolReceipts = last.toolReceipts ∧
        x.result = lastResult language policy used (a :: attemptsOf tr) last := by
  induction n using Nat.strong_induction_on with
  | _ n ih =>
    intro used attempt a events hn
    by_cases hneeds : needsRecovery a.result = true
    · cases hs : nextStrategy policy (classifyFailure language a.result) used with
      | none =>
        obtain ⟨events', -, heq⟩ := @recover_exhausted _ _ _ attempt ⟨a.result, a.toolReceipts, events⟩ hneeds hs
        rw [heq]
        rintro x ⟨⟩
        refine ⟨a, rfl, rfl, ?_⟩
        simp [lastResult, endsGracefully, hs]
      | some strategy =>
        by_cases hgraceful : strategy = .gracefulPartial
        · subst hgraceful
          obtain ⟨events', -, heq⟩ := @recover_graceful _ _ _ attempt ⟨a.result, a.toolReceipts, events⟩ hneeds hs
          rw [heq]
          refine (runHooks_sat .onRecovery).bind (fun tr _ htr => ?_) (fun _ _ _ _ h => nomatch h)
          rintro x ⟨⟩
          refine ⟨a, ?_, rfl, ?_⟩
          · simp [htr]
          · simp [htr, lastResult, endsGracefully, hneeds, hs]
        · obtain ⟨events', -, heq⟩ := @recover_again _ _ _ attempt ⟨a.result, a.toolReceipts, events⟩ _
            hneeds hs hgraceful
          rw [heq]
          refine (runHooks_sat .onRecovery).bind (fun tr _ htr => ?_) (fun _ _ _ _ h => nomatch h)
          refine invokeOnce_sat.bind (fun tr' x hx => ?_) (fun _ _ _ _ h => nomatch h)
          obtain ⟨b, htr', rfl⟩ := hx x rfl
          have hlt : strategiesLeft policy (used ++ [strategy]) < n := hn ▸ strategiesLeft_lt (nextStrategy_usable hs)
          refine (ih _ hlt (used ++ [strategy]) (attempt + 1) b _ rfl).mono fun tr'' res h x hx => ?_
          obtain ⟨last, hlast, hreceipts, hresult⟩ := h x hx
          refine ⟨last, ?_, hreceipts, ?_⟩
          · simpa [htr, htr'] using hlast
          · simpa [htr, htr', lastResult, endsGracefully, hs] using hresult
    · rw [recover_done (by simpa using hneeds)]
      rintro x ⟨⟩
      refine ⟨a, rfl, rfl, ?_⟩
      simp [hneeds, lastResult, endsGracefully]

theorem invokeWithRecovery_sat : (invokeWithRecovery language policy).Sat fun tr res => ∀ x, res = .ok x →
    ∃ last, (attemptsOf tr).getLast? = some last ∧ x.toolReceipts = last.toolReceipts ∧
      x.result = lastResult language policy [] (attemptsOf tr) last := by
  refine invokeOnce_sat.bind (fun tr x hx => ?_) (fun _ _ _ _ h => nomatch h)
  obtain ⟨a, htr, rfl⟩ := hx x rfl
  refine (recover_sat _ [] 0 a [] rfl).mono fun tr' res h x hx => ?_
  simpa [htr] using h x hx

/-- What `evaluateRun` finds. -/
theorem evaluateRun_sat (options : RunOptions) (result : AgentInvocationResultV1) (toolCalls : List String) :
    (evaluateRun language options result toolCalls).Sat fun tr res => attemptsOf tr = [] ∧ ∀ receipt, res = .ok receipt →
      ∀ tool, tool ∈ receipt.prohibitedViolations ↔
        tool ∈ options.task.prohibitedActions.getD [] ∧ Seen language toolCalls result.output tool := by
  refine Prog.Sat.ofExcept_bind (fun checked hchecked => ?_) (fun _ _ => ⟨rfl, fun _ h => nomatch h⟩)
  obtain ⟨taskEval, checks⟩ := checked
  obtain ⟨_, htask, h⟩ := bind_eq_ok.mp hchecked
  obtain ⟨_, -, h⟩ := bind_eq_ok.mp h
  cases h
  split_ifs
  · intro answer
    refine Prog.Sat.ofExcept_bind (fun record _ => ?_) (fun _ _ => ⟨rfl, fun _ h => nomatch h⟩)
    refine ⟨rfl, ?_⟩
    rintro receipt ⟨⟩
    have hviolations := mem_violations htask
    exact hviolations
  · refine ⟨rfl, ?_⟩
    rintro receipt ⟨⟩
    have hviolations := mem_violations htask
    exact hviolations

/-- The tools a run is judged by: those of the last result, or else those its attempt has reported. -/
def Attempt.judgedTools (last : Attempt) : List String := last.result.toolCalls.getD last.toolReceipts

/-- What of a tool the last attempt of a run shows. -/
def Shows (language : Language) (policy : RecoveryPolicyV1) (attempts : List Attempt) (tool : String) : Prop :=
  ∃ last, attempts.getLast? = some last ∧
    Seen language last.judgedTools (lastResult language policy [] attempts last).output tool

/-- **What a run finds.** The violations of a run that completes are the prohibited tools that its last
attempt shows, and it fails when there are any. -/
theorem run_judged (options : RunOptions) : (HarnessSession.run language options).Sat fun tr res => ∀ run, res = .ok run →
    ∃ policy, parseRecoveryPolicy options.recovery = .ok policy ∧
      (∀ tool, tool ∈ run.receipt.evaluationReceipt.prohibitedViolations ↔
        tool ∈ options.task.prohibitedActions.getD [] ∧ Shows language policy (attemptsOf tr) tool) ∧
      (run.receipt.evaluationReceipt.prohibitedViolations ≠ [] → run.receipt.finalStatus = .failed) := by
  refine Prog.Sat.ofExcept_bind (fun policy hpolicy => ?_) (fun _ _ _ h => nomatch h)
  refine invokeWithRecovery_sat.bind (fun tr invoked hinvoked => ?_) (fun _ _ _ _ h => nomatch h)
  obtain ⟨last, hlast, hreceipts, hresult⟩ := hinvoked invoked rfl
  refine (runHooks_sat .beforeComplete).bind (fun tr₁ _ htr₁ => ?_) (fun _ _ _ _ h => nomatch h)
  refine (evaluateRun_sat options _ _).bind (fun tr₂ evaluation h => ?_) (fun _ _ _ _ h => nomatch h)
  obtain ⟨htr₂, hviolations⟩ := h
  refine (runHooks_sat .afterComplete).bind (fun tr₃ _ htr₃ => ?_) (fun _ _ _ _ h => nomatch h)
  rintro run ⟨⟩
  refine ⟨policy, hpolicy, fun tool => ?_, fun h => if_pos h⟩
  show tool ∈ evaluation.prohibitedViolations ↔ _
  have htools : invoked.toolCalls = last.judgedTools := by
    rw [Invoked.toolCalls, hresult, hreceipts, lastResult_toolCalls]
    rfl
  rw [hviolations evaluation rfl tool, htools, hresult]
  refine and_congr_right fun _ => ?_
  have hattempts : attemptsOf (tr ++ (tr₁ ++ (tr₂ ++ (tr₃ ++ [])))) = attemptsOf tr := by
    simp [htr₁, htr₂, htr₃]
  simp only [Shows, hattempts, hlast, Option.some.injEq, exists_eq_left']

/-- An attempt reports the use of a tool: through `emitTool`, or in its result. -/
def Attempt.Uses (a : Attempt) (tool : String) : Prop :=
  (∃ e ∈ a.emissions, e.phase = .after ∧ e.toolId = tool) ∨
    ∃ result calls, a.outcome = .ok result ∧ result.toolCalls = some calls ∧ tool ∈ calls

/-- A run fails for every prohibited tool that was used. -/
def ProhibitedFails (options : RunOptions) (attempts : List Attempt) (run : HarnessRun) : Prop :=
  ∀ tool ∈ options.task.prohibitedActions.getD [], (∃ a ∈ attempts, a.Uses tool) →
    run.receipt.finalStatus = .failed ∧ tool ∈ run.receipt.evaluationReceipt.prohibitedViolations

/-- **When a run fails for every prohibited tool that was used**: when its last attempt shows each. -/
theorem prohibited_fails_iff (language : Language) (options : RunOptions) (policy : RecoveryPolicyV1)
    (hpolicy : parseRecoveryPolicy options.recovery = .ok policy) (tr : List (Answered HostCall HostCall.Answer))
    (run : HarnessRun) (hrun : Prog.Runs (HarnessSession.run language options) tr (.ok run)) :
    ProhibitedFails options (attemptsOf tr) run ↔
      ∀ tool ∈ options.task.prohibitedActions.getD [], (∃ a ∈ attemptsOf tr, a.Uses tool) →
        Shows language policy (attemptsOf tr) tool := by
  obtain ⟨policy', hpolicy', hviolations, hfailed⟩ := Prog.sat_iff_runs.mp (run_judged options) tr _ hrun run rfl
  rw [hpolicy] at hpolicy'
  cases hpolicy'
  refine forall₂_congr fun tool htool => imp_congr_right fun _ => ?_
  constructor
  · rintro ⟨-, hmem⟩
    exact ((hviolations tool).mp hmem).2
  · intro hshows
    have hmem := (hviolations tool).mpr ⟨htool, hshows⟩
    exact ⟨hfailed (List.ne_nil_of_mem hmem), hmem⟩

end Runs

/-! ### A prohibited transfer -/

/-- The language on texts of the letters `a` to `z` and `A` to `Z`. -/
def sampleLanguage : Language where
  toLowerCase s := s.toLower
  stringify _ := ""
  numberText _ := ""

/-- A task that prohibits a tool. -/
def sampleOptions : RunOptions where
  task := { successCriteria := ["paid"], prohibitedActions := some ["wire_transfer"] }
  context := { evidence := [], dependencyRoot := "", dependencies := "", evidenceReceipts := [] }

/-- The tool is used, and then the agent times out. -/
def transfer : Attempt where
  emissions := [{ phase := .after, toolId := "wire_transfer" }]
  outcome := .error "timeout"

/-- The agent succeeds. -/
def paid : Attempt where
  outcome := .ok { status := .succeeded, output := some (.string "paid") }

/-- The policy of a run that is given none. -/
def defaultPolicy : RecoveryPolicyV1 := { enabled := true, maxRetries := 1, strategies := defaultRecoveryStrategies }

/-- The calls of an invocation whose hooks do nothing. -/
def invocation (a : Attempt) : List (Answered HostCall HostCall.Answer) := [⟨.hook .beforeAgent, .ok ()⟩, ⟨.invoke, a⟩]

theorem runs_hook (name : MiddlewareHookName) : Prog.Runs (runHooks name) [⟨.hook name, .ok ()⟩] (.ok ()) := .call .ret

theorem invoke_paid : Prog.Runs invokeOnce (invocation paid) (.ok (paid.result, paid.toolReceipts)) := .call (.call .ret)

theorem invoke_transfer : Prog.Runs invokeOnce (invocation transfer ++ [⟨.hook .onError, .ok ()⟩])
    (.ok (transfer.result, transfer.toolReceipts)) := .call (.call (.call .ret))

/-- The agent is invoked again after it has timed out. -/
theorem recover_transfer : ∃ events, Prog.Runs (invokeWithRecovery sampleLanguage defaultPolicy)
    (invocation transfer ++ [⟨.hook .onError, .ok ()⟩] ++ ⟨.hook .onRecovery, .ok ()⟩ :: invocation paid)
    (.ok ⟨paid.result, paid.toolReceipts, events⟩) := by
  obtain ⟨events, -, heq⟩ := @recover_again sampleLanguage defaultPolicy [] 0
    ⟨transfer.result, transfer.toolReceipts, []⟩ .retry (by decide) (by decide +kernel) (by decide)
  refine ⟨events, invoke_transfer.bind ?_⟩
  show Prog.Runs (recover sampleLanguage defaultPolicy [] 0 ⟨transfer.result, transfer.toolReceipts, []⟩) _ _
  rw [heq]
  refine @Prog.Runs.bind _ _ _ _ _ _ _ _ (invocation paid) _ _ (runs_hook .onRecovery) ?_
  refine @Prog.Runs.bind _ _ _ _ _ _ _ _ [] _ _ invoke_paid ?_
  show Prog.Runs (recover sampleLanguage defaultPolicy [.retry] 1 ⟨paid.result, paid.toolReceipts, events⟩) _ _
  rw [recover_done (by rfl)]
  exact .ret

/-- A run completes when its invocation and its evaluation do. -/
theorem runs_run {language : Language} {options : RunOptions} {policy : RecoveryPolicyV1} {invoked : Invoked}
    {evaluation : EvaluationReceiptV1} {tr tr' : List (Answered HostCall HostCall.Answer)}
    (hpolicy : parseRecoveryPolicy options.recovery = .ok policy)
    (hinvoke : Prog.Runs (invokeWithRecovery language policy) tr (.ok invoked))
    (hevaluate : Prog.Runs (evaluateRun language options invoked.result invoked.toolCalls) tr' (.ok evaluation)) :
    Prog.Runs (HarnessSession.run language options)
      (tr ++ ([⟨.hook .beforeComplete, .ok ()⟩] ++ (tr' ++ ([⟨.hook .afterComplete, .ok ()⟩] ++ []))))
      (.ok (.of invoked evaluation)) := by
  unfold HarnessSession.run
  rw [hpolicy]
  refine hinvoke.bind ?_
  refine (runs_hook .beforeComplete).bind ?_
  refine hevaluate.bind ?_
  exact (runs_hook .afterComplete).bind .ret

/-- An evaluation of a result of the sample's agent. -/
theorem evaluates {result : AgentInvocationResultV1} {toolCalls : List String}
    (h : (deterministicChecks sampleLanguage sampleOptions.task result toolCalls sampleOptions.context).toOption.isSome = true) :
    ∃ evaluation, Prog.Runs (evaluateRun sampleLanguage sampleOptions result toolCalls) [] (.ok evaluation) := by
  obtain ⟨⟨taskEval, checks⟩, hchecks⟩ := Option.isSome_iff_exists.mp h
  refine ⟨evaluationReceipt result taskEval checks none, ?_⟩
  unfold evaluateRun
  rw [toOption_eq_some.mp hchecks]
  exact .ret

/-- The tool is used in an attempt that fails, and the next attempt succeeds: the run does not fail for it. -/
theorem prohibited_transfer_forgotten :
    ¬ ∀ language options tr run, Prog.Runs (HarnessSession.run language options) tr (.ok run) →
      ProhibitedFails options (attemptsOf tr) run := by
  intro h
  obtain ⟨events, hinvoke⟩ := recover_transfer
  obtain ⟨evaluation, hevaluate⟩ := @evaluates paid.result [] (by decide +kernel)
  have hrun := @runs_run _ sampleOptions _ _ _ _ _ rfl hinvoke hevaluate
  obtain ⟨-, hmem⟩ := h _ _ _ _ hrun "wire_transfer" (by decide) ⟨transfer, by simp [attemptsOf, attemptOf, invocation], .inl
    ⟨_, List.mem_singleton_self _, rfl, rfl⟩⟩
  obtain ⟨policy, -, hviolations, -⟩ := Prog.sat_iff_runs.mp (run_judged sampleOptions) _ _ hrun _ rfl
  obtain ⟨-, last, hlast, hseen⟩ := (hviolations _).mp hmem
  obtain rfl : paid = last := Option.some.inj hlast
  rcases hseen with hseen | ⟨text, htext, hmentions⟩
  · cases hseen
  · have houtput : ∀ attempts, (lastResult sampleLanguage policy [] attempts paid).output = some (.string "paid") := by
      intro attempts
      unfold lastResult
      split_ifs <;> rfl
    rw [houtput] at htext
    cases htext
    exact absurd hmentions (by decide +kernel)

/-- The tool is used, and the result lists it. -/
def listed : Attempt where
  outcome := .ok { status := .succeeded, output := some (.string "paid"), toolCalls := some ["wire_transfer"] }

/-- A run whose result lists the tool fails. -/
theorem prohibited_fails_listed : ∃ tr run, Prog.Runs (HarnessSession.run sampleLanguage sampleOptions) tr (.ok run) ∧
    attemptsOf tr = [listed] ∧ run.receipt.finalStatus = .failed ∧
      "wire_transfer" ∈ run.receipt.evaluationReceipt.prohibitedViolations := by
  have hinvoke : Prog.Runs (invokeWithRecovery sampleLanguage defaultPolicy) (invocation listed)
      (.ok ⟨listed.result, listed.toolReceipts, []⟩) := by
    have hlisted : Prog.Runs invokeOnce (invocation listed) (.ok (listed.result, listed.toolReceipts)) := .call (.call .ret)
    refine hlisted.bind ?_
    show Prog.Runs (recover sampleLanguage defaultPolicy [] 0 ⟨listed.result, listed.toolReceipts, []⟩) _ _
    rw [recover_done (by rfl)]
    exact .ret
  obtain ⟨evaluation, hevaluate⟩ := @evaluates listed.result ["wire_transfer"] (by decide +kernel)
  have hrun := @runs_run _ sampleOptions _ _ _ _ _ rfl hinvoke hevaluate
  refine ⟨_, _, hrun, rfl, (prohibited_fails_iff _ _ defaultPolicy rfl _ _ hrun).mpr ?_ "wire_transfer" (by decide)
    ⟨listed, by simp [attemptsOf, attemptOf, invocation], .inr ⟨_, _, rfl, rfl, List.mem_singleton_self _⟩⟩⟩
  rintro tool htool -
  obtain rfl : tool = "wire_transfer" := by simpa [sampleOptions] using htool
  exact ⟨listed, rfl, .inl (List.mem_singleton_self _)⟩

end Knolo.Harness
