import Knolo.Script.Documents

/-!
# The evaluation of a run

`packages/agents/src/evaluation/suite.ts` and `evaluateInvocation` of `harness/lifecycle.ts`: what an
agent has returned is checked against its task. An output is a value of the language, or `undefined`,
of which `contains` throws.

What the language does with text, `toLowerCase`, `JSON.stringify` and `String` of a number, is a
parameter (`Language`).
-/

namespace Knolo.Harness

open Script

/-- What the language provides. -/
structure Language where
  toLowerCase : String → String
  stringify : JsValue → String
  numberText : JsNumber → String

/-- `a <= b` on numbers. -/
def numberLe : JsNumber → JsNumber → Bool
  | .infinite true, _ | _, .infinite false => true
  | .infinite false, _ | _, .infinite true => false
  | .finite a, .finite b => a ≤ b
  | .finite a, .negZero => a ≤ 0
  | .negZero, .finite b => 0 ≤ b
  | .negZero, .negZero => true

/-! ### Tasks and results -/

/-- What is asked of an agent. -/
structure TaskV1 where
  successCriteria : List String
  prohibitedActions : Option (List String) := none
  maxTokens : Option JsNumber := none
  outputSchema : Option JsValue := none
  evidenceRequirements : Option (List String) := none

/-- How an invocation ends. -/
inductive InvocationStatusV1 where
  | succeeded
  | partialResult
  | failed
  | suspended
  deriving DecidableEq

/-- The text of a status. -/
def InvocationStatusV1.text : InvocationStatusV1 → String
  | .succeeded => "succeeded"
  | .partialResult => "partial"
  | .failed => "failed"
  | .suspended => "suspended"

/-- What an agent returns; an output that is `none` is `undefined`. -/
structure AgentInvocationResultV1 where
  status : InvocationStatusV1
  output : Option JsValue
  error : Option String := none
  toolCalls : Option (List String) := none
  tokens : Option JsNumber := none

/-! ### Text -/

section Text

variable (language : Language)

/-- `stringifyOutput`; the text of `undefined` is `undefined`. -/
def stringifyOutput : Option JsValue → Option String
  | none => none
  | some (.string s) => some s
  | some v => some (language.stringify v)

/-- `haystack.includes(needle)`. -/
def includes (haystack needle : String) : Bool := needle.toList <:+: haystack.toList

/-- `contains`, on a text. -/
def mentions (haystack needle : String) : Bool :=
  includes (language.toLowerCase haystack) (language.toLowerCase needle)

/-- `contains`. -/
def contains (haystack : Option String) (needle : String) : Except String Bool :=
  match haystack with
  | none => .error "Cannot read properties of undefined (reading 'toLowerCase')"
  | some text => .ok (mentions language text needle)

end Text

/-! ### Receipts -/

/-- The phase of a check. -/
inductive EvaluationPhaseV1 where
  | contract
  | artifact
  | task
  | judge
  deriving DecidableEq

/-- A check. -/
structure EvaluationCheckV1 where
  phase : EvaluationPhaseV1
  id : String
  passed : Bool
  detail : String
  deriving DecidableEq

/-- What a judge has said. -/
structure SemanticJudgeRecordV1 where
  passed : Bool
  notes : Option String := none
  deriving DecidableEq

/-- What an evaluation has found. -/
structure EvaluationReceiptV1 where
  status : InvocationStatusV1
  successCriteriaMatched : List String
  prohibitedViolations : List String
  passed : Bool
  checks : List EvaluationCheckV1
  judge : Option SemanticJudgeRecordV1
  deriving DecidableEq

section Evaluation

variable (language : Language)

/-- `a || b` on texts. -/
def orText (a b : String) : String := if a.isEmpty then b else a

/-- `evaluateInvocation`. -/
def evaluateInvocation (task : TaskV1) (status : InvocationStatusV1) (output : Option JsValue)
    (toolCalls : List String) : Except String EvaluationReceiptV1 := do
  let text := stringifyOutput language output
  let matched ← task.successCriteria.filterM (contains language text)
  let prohibited := task.prohibitedActions.getD []
  let violations ← prohibited.filterM fun action => do
    return (← contains language text action) || toolCalls.contains action
  return {
    status := if violations ≠ [] then .failed else status
    successCriteriaMatched := matched
    prohibitedViolations := violations
    passed := violations = [] && status ≠ .failed
    checks := [
      { phase := .contract, id := "policy", passed := violations = []
        detail := orText (",".intercalate violations) "ok" },
      { phase := .task, id := "successCriteria", passed := matched.length = task.successCriteria.length
        detail := s!"{matched.length}/{task.successCriteria.length}" }]
    judge := none }

/-- `withinBudget`. -/
def withinBudget (tokens maxTokens : Option JsNumber) : Bool :=
  match maxTokens, tokens with
  | some maxTokens, some tokens => numberLe tokens maxTokens
  | _, _ => true

/-- `matchesSchema`. -/
def matchesSchema (output : Option JsValue) : Option JsValue → Bool
  | none => true
  | some (.object schema) =>
    match schema.lookup "type" with
    | some (.string "object") => output.any fun v => match v with | .object _ => true | _ => false
    | some (.string "array") => output.any fun v => match v with | .array _ => true | _ => false
    | some (.string "string") => output.any fun v => match v with | .string _ => true | _ => false
    | some (.string "number") => output.any fun v => match v with | .number _ => true | _ => false
    | _ => output.isSome
  | some _ => output.isSome

/-- `toolsPass`. -/
def toolsPass (used expected prohibited : List String) : Bool :=
  !(used.any prohibited.contains) && expected.all used.contains

/-- The task of a suite for the agent capability score. -/
structure AcsTask where
  requiredEvidence : Option (List String) := none
  expectedTools : Option (List String) := none
  prohibitedActions : Option (List String) := none
  targetTokens : Option JsNumber := none

/-- A suite, with its task if it has one. -/
structure Suite where
  task : Option AcsTask := none
  expectedTools : Option (List String) := none
  requiredEvidence : Option (List String) := none

/-- What the evaluation of a run looks at besides the task and what was returned. -/
structure EvaluationContext where
  /-- The evidence of the envelope. -/
  evidence : List JsValue
  /-- The dependency root of the envelope. -/
  dependencyRoot : String
  /-- The frozen dependency root. -/
  dependencies : String
  evidenceReceipts : List String
  suite : Option Suite := none

/-- The checks of a run but the judge's, and what the task's evaluation has found. -/
def deterministicChecks (task : TaskV1) (result : AgentInvocationResultV1) (toolCalls : List String)
    (ctx : EvaluationContext) : Except String (EvaluationReceiptV1 × List EvaluationCheckV1) := do
  let taskEval ← evaluateInvocation language task result.status result.output toolCalls
  let output := stringifyOutput language result.output
  let suiteTask := ctx.suite.bind (·.task)
  let expectedTools := ((suiteTask.bind (·.expectedTools)).or (ctx.suite.bind (·.expectedTools))).getD []
  let requiredEvidence := task.evidenceRequirements.getD [] ++
    (suiteTask.bind (·.requiredEvidence)).getD [] ++ (ctx.suite.bind (·.requiredEvidence)).getD []
  let envelopeText := language.stringify (.array ctx.evidence)
  let maxTokens := task.maxTokens.or (suiteTask.bind (·.targetTokens))
  let prohibited := (task.prohibitedActions.or (suiteTask.bind (·.prohibitedActions))).getD []
  let evidenced ← requiredEvidence.allM fun item => do
    return (← contains language output item) || mentions language envelopeText item
  return (taskEval, [
    { phase := .contract, id := "policy", passed := taskEval.prohibitedViolations = []
      detail := orText (",".intercalate taskEval.prohibitedViolations) "ok" },
    { phase := .contract, id := "terminal", passed := true, detail := result.status.text },
    { phase := .contract, id := "budget", passed := withinBudget result.tokens maxTokens
      detail := language.numberText (result.tokens.getD (.finite 0)) },
    { phase := .contract, id := "schema", passed := matchesSchema result.output task.outputSchema, detail := "output" },
    { phase := .artifact, id := "dependencyRoot"
      passed := ctx.dependencies ≠ "" && ctx.dependencies = ctx.dependencyRoot, detail := ctx.dependencies },
    { phase := .artifact, id := "evidenceReceipt", passed := ctx.evidenceReceipts ≠ []
      detail := s!"{ctx.evidenceReceipts.length}" },
    { phase := .artifact, id := "tools", passed := toolsPass toolCalls expectedTools prohibited
      detail := ",".intercalate toolCalls },
    { phase := .task, id := "successCriteria"
      passed := taskEval.successCriteriaMatched.length = task.successCriteria.length
      detail := s!"{taskEval.successCriteriaMatched.length}/{task.successCriteria.length}" },
    { phase := .task, id := "evidence", passed := evidenced, detail := ",".intercalate requiredEvidence }])

/-- What `evaluateRun` returns, from the checks and what the judge has said. -/
def evaluationReceipt (result : AgentInvocationResultV1) (taskEval : EvaluationReceiptV1)
    (deterministic : List EvaluationCheckV1) (judge : Option SemanticJudgeRecordV1) : EvaluationReceiptV1 where
  status := if taskEval.prohibitedViolations ≠ [] then .failed else result.status
  successCriteriaMatched := taskEval.successCriteriaMatched
  prohibitedViolations := taskEval.prohibitedViolations
  passed := deterministic.all (·.passed)
  checks := deterministic ++ judge.toList.map fun record =>
    { phase := .judge, id := "semantic", passed := record.passed, detail := record.notes.getD "external-effect" }
  judge := judge

end Evaluation

end Knolo.Harness
