import Knolo.Skills.Resolver
import Knolo.Skills.Context
import Mathlib.Data.PNat.Defs

/-!
# Lessons and their promotion

`packages/agents/src/experience/promote.ts`, and the values of `types.ts`: the pattern that a run
belongs to, what makes an experience useful, the lesson that useful experiences of one pattern give,
the skill that is drafted from a lesson, and the gates before it is promoted.
-/

namespace Knolo.Experience

open Script Harness Skills Library.Fallible Library.StableSort

/-! ### The values -/

/-- How skills are promoted. -/
inductive ExperiencePromoteModeV1 where
  | disabled
  | requireApproval
  | autoApproved
  deriving DecidableEq

/-- What a run has left behind. The text is given by its code units. -/
structure ExperienceRecordV1 where
  id : String
  runId : String
  sequence : ℕ
  patternKey : String
  objective : String
  successCriteria : List String
  status : InvocationStatusV1
  useful : Bool
  text : List ℕ
  skillIds : List String
  requiredCapabilities : List String
  evidenceIds : List String
  dependencyRoot : String
  successCriteriaMatched : List String
  prohibitedViolations : List String
  labels : List String
  deriving DecidableEq

/-- What the useful experiences of a pattern teach. -/
structure LessonCandidateV1 where
  id : String
  patternKey : String
  objective : String
  successCriteria : List String
  experienceIds : List String
  usefulness : ℕ
  skillIds : List String
  requiredCapabilities : List String
  /-- The runs of its provenance. -/
  runIds : List String
  deriving DecidableEq

/-- The gates before a promotion. -/
structure PromotionGatesV1 where
  usefulness : Bool
  evaluation : Bool
  provenance : Bool
  approval : Bool
  deriving DecidableEq

/-- How far a candidate has come. -/
inductive CandidateStatus where
  | candidate
  | promoted
  | rejected
  deriving DecidableEq

/-- A skill that is drafted from a lesson. -/
structure SkillCandidateV1 where
  id : String
  lessonId : String
  skill : SkillDefinitionInputV1
  gates : PromotionGatesV1
  status : CandidateStatus

/-- What recording an experience reports. -/
structure ExperienceReceiptV1 where
  recorded : Bool
  experienceId : Option String
  lessonId : Option String
  candidateId : Option String
  promoted : Bool
  gates : Option PromotionGatesV1
  deriving DecidableEq

/-- A run as it is recorded. A list that is missing counts as empty. -/
structure RecordExperienceInput where
  runId : String
  task : Skills.TaskV1
  status : InvocationStatusV1
  output : Option JsValue
  successCriteriaMatched : List String
  prohibitedViolations : List String
  skillIds : List String := []
  evidenceIds : List String := []
  dependencyRoot : String
  labels : List String := []

/-! ### Patterns -/

/-- `sort`, without a comparison. -/
def sorted (values : List String) : List String := sortBy (fun a b => compare (codeUnits a) (codeUnits b)) values

/-- `patternKey`. -/
def patternKey (p : Platform) (task : Skills.TaskV1) : String :=
  "experience-pattern:" ++ p.sha256Hex (.object [
    ("objective", .string (normalizeText p.toLanguage task.objective)),
    ("successCriteria", texts (sorted (task.successCriteria.map (normalizeText p.toLanguage))))])

/-- A pattern key without its label. -/
def patternHex (key : String) : List Char :=
  if "experience-pattern:".toList.isPrefixOf key.toList then key.toList.drop 19 else key.toList

/-- The id of a pattern's lesson. -/
def lessonId (key : String) : String := "lesson/" ++ String.ofList ((patternHex key).take 24)

/-- The id of a pattern's skill. -/
def learnedId (key : String) : String := "learned/" ++ String.ofList ((patternHex key).take 16)

/-! ### Experiences -/

/-- `isUsefulExperience`. -/
def isUsefulExperience (status : InvocationStatusV1)
    (successCriteria successCriteriaMatched prohibitedViolations : List String) : Bool :=
  status = .succeeded && prohibitedViolations.length = 0 && 0 < successCriteria.length &&
    successCriteriaMatched.length = successCriteria.length

/-- `boundExperienceText`: what is missing is joined as an empty text. -/
def boundExperienceText (p : Platform) (task : Skills.TaskV1) (output : Option JsValue) (skillIds : List String) :
    List ℕ :=
  let text := "\n".intercalate
    (task.objective :: task.successCriteria ++ skillIds ++ [(stringifyOutput p.toLanguage output).getD ""])
  (codeUnits text).take 2000

/-! ### Lessons -/

/-- `intersect`. -/
def intersect : List (List String) → List String
  | [] => []
  | first :: rest => uniqueSorted (first.filter fun item => rest.all fun list => list.contains item)

/-- `lessonFromUseful`. -/
def lessonFromUseful (records : List ExperienceRecordV1) : Option LessonCandidateV1 :=
  match records.filter (·.useful) with
  | [] => none
  | first :: rest =>
    let useful := first :: rest
    some {
      id := lessonId first.patternKey
      patternKey := first.patternKey
      objective := first.objective
      successCriteria := first.successCriteria
      experienceIds := useful.map (·.id)
      usefulness := useful.length
      skillIds := uniqueSorted (useful.flatMap (·.skillIds))
      requiredCapabilities := intersect (useful.map fun item =>
        item.requiredCapabilities.filter fun cap => !adapterCapabilities.contains cap)
      runIds := uniqueSorted (useful.map (·.runId)) }

/-- `draftSkillFromLesson`. -/
def draftSkillFromLesson (p : Platform) (lesson : LessonCandidateV1) (authorityCapabilities : List String) :
    SkillDefinitionInputV1 where
  id := learnedId lesson.patternKey
  skillVersion := "1.0.0"
  name := some "Learned local pattern"
  triggers := (uniqueSorted ((tokenize p.toLanguage lesson.objective ++
    lesson.successCriteria.flatMap (tokenize p.toLanguage)).map String.ofList)).take 16
  domains := ["learned"]
  instructions := s!"Verified local pattern. Objective: {lesson.objective}. Success criteria: " ++
    "; ".intercalate lesson.successCriteria ++
    ". Repeat the successful approach. Do not perform prohibited actions."
  requiredCapabilities := (uniqueSorted lesson.requiredCapabilities).filter fun item =>
    !adapterCapabilities.contains item && (authorityCapabilities.isEmpty || authorityCapabilities.contains item)
  requiredTools := []
  knowledgeRefs := []
  provenance := { packId := "local-experience" }

/-! ### Gates -/

/-- `evaluateGates`. -/
def evaluateGates (lesson : LessonCandidateV1) (minUsefulness : ℕ+) (approved autoApproved : Bool) :
    PromotionGatesV1 where
  usefulness := (minUsefulness : ℕ) ≤ lesson.usefulness
  evaluation := 0 < lesson.usefulness
  provenance := 0 < lesson.runIds.length
  approval := autoApproved || approved

/-- `gatesPass`. -/
def gatesPass (gates : PromotionGatesV1) : Bool :=
  gates.usefulness && gates.evaluation && gates.provenance && gates.approval

/-- What passes the gates is useful enough, and approved. -/
theorem gatesPass_evaluateGates {lesson : LessonCandidateV1} {minUsefulness : ℕ+} {approved autoApproved : Bool}
    (h : gatesPass (evaluateGates lesson minUsefulness approved autoApproved) = true) :
    (minUsefulness : ℕ) ≤ lesson.usefulness ∧ (autoApproved = true ∨ approved = true) := by
  simp only [gatesPass, evaluateGates, Bool.and_eq_true, Bool.or_eq_true, decide_eq_true_eq] at h
  exact ⟨h.1.1.1, h.2⟩

/-- A lesson from records of one pattern is a lesson of this pattern, and counts those that are
useful. -/
theorem lessonFromUseful_spec {records : List ExperienceRecordV1} {lesson : LessonCandidateV1} {key : String}
    (hkey : ∀ r ∈ records, r.patternKey = key) (h : lessonFromUseful records = some lesson) :
    lesson.patternKey = key ∧ lesson.id = lessonId key ∧ lesson.usefulness = records.countP (·.useful) := by
  unfold lessonFromUseful at h
  split at h
  · cases h
  · rename_i first rest huseful
    cases h
    have hfirst : first ∈ records := List.mem_of_mem_filter (huseful ▸ List.mem_cons_self)
    have hk := hkey first hfirst
    refine ⟨hk, by rw [← hk], ?_⟩
    rw [List.countP_eq_length_filter, huseful]

end Knolo.Experience
