import Knolo.Experience.Promotion
import Knolo.Library.Method
import Mathlib.Data.List.DropRight

/-!
# The experience store

`packages/agents/src/experience/store.ts`: what a store remembers of runs, the lessons it draws and
the skills it promotes, under any sequence of `record` and `approve`. A store keeps the last
`maxRecords` experiences only; lessons and candidates stay when what they were drawn from is gone.

The callback `remember` may throw, and a drafted skill may be refused; what a call has done to the
store before stays done.

* `promotion_sound` — every promoted skill has had enough useful experiences of its pattern, retained
  together, and an approval; it is promoted once, by its own approval, and for good.
-/

namespace Knolo.Experience

open Script Harness Skills Library Library.Fallible

/-! ### Policies -/

/-- What is configured of learning. -/
structure ExperiencePolicyV1 where
  enabled : Option Bool := none
  promote : Option ExperiencePromoteModeV1 := none
  minUsefulness : Option JsNumber := none
  maxRecords : Option JsNumber := none

/-- A policy without gaps. -/
structure NormalizedPolicy where
  enabled : Bool
  promote : ExperiencePromoteModeV1
  minUsefulness : ℕ+
  maxRecords : ℕ+
  deriving DecidableEq

/-- A count that is configured, or the default. -/
def countOption (x : Option JsNumber) (fallback : ℕ+) (message : String) : Except String ℕ+ :=
  match x.map JsNumber.safeInteger with
  | none => .ok fallback
  | some (some z) => if h : 0 < z.toNat then .ok ⟨z.toNat, h⟩ else .error message
  | some none => .error message

/-- `normalizeExperiencePolicy`. That publishing is disabled is the only thing that may be said of it. -/
def normalizeExperiencePolicy (experience : ExperiencePolicyV1) (memoryOn : Bool) :
    Except String NormalizedPolicy := do
  let minUsefulness ← countOption experience.minUsefulness 2 "experience.minUsefulness must be a positive integer"
  let maxRecords ← countOption experience.maxRecords 64 "experience.maxRecords must be a positive integer"
  return {
    enabled := experience.enabled.getD memoryOn
    promote := experience.promote.getD .requireApproval
    minUsefulness := minUsefulness
    maxRecords := maxRecords }

/-! ### The store -/

/-- A store: how it is configured, and what it has learned. -/
structure LocalExperience where
  policy : NormalizedPolicy
  authorityCapabilities : List String
  records : List ExperienceRecordV1 := []
  lessonsByKey : List (String × LessonCandidateV1) := []
  candidatesByLesson : List (String × SkillCandidateV1) := []
  promotedSkills : List SkillDefinitionV1 := []
  approvals : List String := []

/-- `localExperience`; is there a memory that is on? -/
def localExperience (options : ExperiencePolicyV1) (authorityCapabilities : List String) (memoryOn : Bool) :
    Except String LocalExperience := do
  return { policy := ← normalizeExperiencePolicy options memoryOn, authorityCapabilities := authorityCapabilities }

/-- An operation of the store: it may throw. -/
abbrev StoreM := Method LocalExperience Empty String Empty

namespace LocalExperience

def addRecord (s : LocalExperience) (r : ExperienceRecordV1) : LocalExperience :=
  { s with records := (s.records ++ [r]).rtake s.policy.maxRecords }

def setLesson (s : LocalExperience) (key : String) (lesson : LessonCandidateV1) : LocalExperience :=
  { s with lessonsByKey := setProperty key lesson s.lessonsByKey }

def setCandidate (s : LocalExperience) (id : String) (c : SkillCandidateV1) : LocalExperience :=
  { s with candidatesByLesson := setProperty id c s.candidatesByLesson }

def addPromoted (s : LocalExperience) (skill : SkillDefinitionV1) : LocalExperience :=
  if s.promotedSkills.any (·.id = skill.id) then s else { s with promotedSkills := s.promotedSkills ++ [skill] }

def addApproval (s : LocalExperience) (id : String) : LocalExperience :=
  { s with approvals := if s.approvals.contains id then s.approvals else s.approvals ++ [id] }

/-- The candidate that a lesson gives when nothing of it is promoted. -/
def draft (p : Platform) (s : LocalExperience) (lesson : LessonCandidateV1) (gates : PromotionGatesV1) :
    SkillCandidateV1 :=
  let skill := draftSkillFromLesson p lesson s.authorityCapabilities
  { id := skill.id
    lessonId := lesson.id
    skill := skill
    gates := gates
    status :=
      if s.policy.promote = .disabled then .rejected else if gatesPass gates then .promoted else .candidate }

end LocalExperience

open LocalExperience

section Operations

variable (p : Platform)

/-- `syncCandidate`. -/
def syncCandidate (lesson : LessonCandidateV1) : StoreM SkillCandidateV1 := do
  let s ← Method.read
  let gates := evaluateGates lesson s.policy.minUsefulness (s.approvals.contains lesson.id)
    (s.policy.promote = .autoApproved)
  match (s.candidatesByLesson.lookup lesson.id).filter (·.status = .promoted) with
  | some existing => do
    let kept := { existing with gates := gates }
    Method.modify fun s => s.setCandidate lesson.id kept
    return kept
  | none => do
    let candidate := s.draft p lesson gates
    Method.modify fun s => s.setCandidate lesson.id candidate
    if candidate.status = .promoted then
      let normalized ← Method.ofExcept (normalizeSkillDefinition p candidate.skill.toSkillBodyV1.value)
      Method.modify fun s => s.addPromoted normalized
    return candidate

/-- `approve`. -/
def approve (id : String) : StoreM (Option SkillCandidateV1) := do
  Method.modify fun s => s.addApproval id
  let s ← Method.read
  match (s.lessonsByKey.map Prod.snd).find? (·.id = id) with
  | none => return s.candidatesByLesson.lookup id
  | some lesson => do
    let candidate ← syncCandidate p lesson
    return some candidate

/-- The record of a run. -/
def experienceRecord (key : String) (input : RecordExperienceInput) (sequence : ℕ) : ExperienceRecordV1 where
  id := s!"experience/{input.runId}/{sequence}"
  runId := input.runId
  sequence := sequence
  patternKey := key
  objective := input.task.objective
  successCriteria := input.task.successCriteria
  status := input.status
  useful := isUsefulExperience input.status input.task.successCriteria input.successCriteriaMatched
    input.prohibitedViolations
  text := boundExperienceText p input.task input.output input.skillIds
  skillIds := sorted input.skillIds
  requiredCapabilities := sorted input.task.requiredCapabilities
  evidenceIds := sorted input.evidenceIds
  dependencyRoot := input.dependencyRoot
  successCriteriaMatched := input.successCriteriaMatched
  prohibitedViolations := input.prohibitedViolations
  labels := sorted input.labels

/-- `emptyReceipt`. -/
def emptyReceipt : ExperienceReceiptV1 where
  recorded := false
  experienceId := none
  lessonId := none
  candidateId := none
  promoted := false
  gates := none

/-- The receipt of a run that is recorded. -/
def receipt (experienceId : String) (lesson : Option LessonCandidateV1) (candidate : Option SkillCandidateV1) :
    ExperienceReceiptV1 where
  recorded := true
  experienceId := some experienceId
  lessonId := lesson.map (·.id)
  candidateId := candidate.map (·.id)
  promoted := candidate.any (·.status = .promoted)
  gates := candidate.map (·.gates)

/-- `record`; `remember` is what the callback answers, if there is one. -/
def record (input : RecordExperienceInput) (remember : Except String Unit) : StoreM ExperienceReceiptV1 := do
  let s ← Method.read
  if s.policy.enabled = false then return emptyReceipt
  let key := patternKey p input.task
  let experience := experienceRecord p key input (s.records.length + 1)
  Method.modify fun s => s.addRecord experience
  Method.ofExcept remember
  let s ← Method.read
  match lessonFromUseful (s.records.filter (·.patternKey = key)) with
  | none => return receipt experience.id none none
  | some lesson => do
    Method.modify fun s => s.setLesson key lesson
    if s.policy.promote = .disabled then return receipt experience.id (some lesson) none
    let candidate ← syncCandidate p lesson
    return receipt experience.id (some lesson) (some candidate)

end Operations

/-- What is asked of a store; a callback may throw when a run is recorded. -/
inductive Operation where
  | record (input : RecordExperienceInput) (remember : Except String Unit)
  | approve (id : String)

/-- An operation, whatever it answers. -/
def perform (p : Platform) : Operation → StoreM Unit
  | .record input remember => do
    let _ ← record p input remember
    return ()
  | .approve id => do
    let _ ← approve p id
    return ()

/-- A store after operations, in order. -/
def LocalExperience.after (p : Platform) (s : LocalExperience) (ops : List Operation) : LocalExperience :=
  (Session.run (perform p) ⟨s, []⟩ ops).state


/-! ### Synchronizing a candidate -/

section Sync

variable {p : Platform}

/-- What a lesson makes of its candidate, and the skills that are promoted with it. -/
inductive Synced (p : Platform) (s : LocalExperience) (lesson : LessonCandidateV1) :
    SkillCandidateV1 → List SkillDefinitionV1 → Prop
  /-- What is promoted stays, with other gates. -/
  | kept {existing : SkillCandidateV1} (gates : PromotionGatesV1)
      (hlookup : s.candidatesByLesson.lookup lesson.id = some existing) (hstatus : existing.status = .promoted) :
      Synced p s lesson { existing with gates := gates } []
  /-- A draft that is not promoted. -/
  | drafted {gates : PromotionGatesV1}
      (hfree : ∀ c, s.candidatesByLesson.lookup lesson.id = some c → c.status ≠ .promoted)
      (hstatus : (s.draft p lesson gates).status ≠ .promoted) : Synced p s lesson (s.draft p lesson gates) []
  /-- A draft that is useful enough and approved; its definition may be refused, or be there already. -/
  | promoted {gates : PromotionGatesV1} {skills : List SkillDefinitionV1}
      (hfree : ∀ c, s.candidatesByLesson.lookup lesson.id = some c → c.status ≠ .promoted)
      (hpromote : s.policy.promote ≠ .disabled) (huseful : (s.policy.minUsefulness : ℕ) ≤ lesson.usefulness)
      (happroval : s.policy.promote = .autoApproved ∨ lesson.id ∈ s.approvals)
      (hstatus : (s.draft p lesson gates).status = .promoted)
      (hskills : skills = [] ∨ ∃ k, skills = [k] ∧ k.id ∉ s.promotedSkills.map (·.id) ∧
        normalizeSkillDefinition p (s.draft p lesson gates).skill.toSkillBodyV1.value = .ok k) :
      Synced p s lesson (s.draft p lesson gates) skills

/-- The store after a candidate was synchronized. -/
def LocalExperience.withCandidate (s : LocalExperience) (lesson : LessonCandidateV1) (c : SkillCandidateV1)
    (skills : List SkillDefinitionV1) : LocalExperience :=
  { s.setCandidate lesson.id c with promotedSkills := s.promotedSkills ++ skills }

/-- A draft is promoted only behind open gates. -/
theorem draft_status {s : LocalExperience} {lesson : LessonCandidateV1} {gates : PromotionGatesV1}
    (h : (s.draft p lesson gates).status = .promoted) :
    s.policy.promote ≠ .disabled ∧ gatesPass gates = true := by
  simp only [draft] at h
  by_cases hpromote : s.policy.promote = .disabled
  · rw [if_pos hpromote] at h
    cases h
  · rw [if_neg hpromote] at h
    by_cases hpass : gatesPass gates = true
    · exact ⟨hpromote, hpass⟩
    · rw [if_neg hpass] at h
      cases h

theorem syncCandidate_sat (s : LocalExperience) (lesson : LessonCandidateV1) :
    (syncCandidate p lesson).Sat s fun _ s' _ =>
      ∃ c skills, Synced p s lesson c skills ∧ s' = s.withCandidate lesson c skills := by
  unfold syncCandidate
  refine Method.sat_read_bind.mpr ?_
  dsimp only
  set gates := evaluateGates lesson s.policy.minUsefulness (s.approvals.contains lesson.id)
    (s.policy.promote = .autoApproved) with hgates
  have hnone : ∀ c, s.withCandidate lesson c [] = s.setCandidate lesson.id c := by
    intro c
    simp only [withCandidate, setCandidate, List.append_nil]
  cases hfilter : (s.candidatesByLesson.lookup lesson.id).filter (·.status = .promoted) with
  | some existing =>
    obtain ⟨hlookup, hstatus⟩ := Option.filter_eq_some_iff.mp hfilter
    refine Method.sat_modify_bind.mpr (Method.sat_pure.mpr ?_)
    exact ⟨_, [], .kept gates hlookup (of_decide_eq_true hstatus), (hnone _).symm⟩
  | none =>
    have hfree : ∀ c, s.candidatesByLesson.lookup lesson.id = some c → c.status ≠ .promoted := by
      intro c hc
      simpa using Option.filter_eq_none_iff.mp hfilter c hc
    refine Method.sat_modify_bind.mpr ?_
    by_cases hstatus : (s.draft p lesson gates).status = .promoted
    · rw [if_pos hstatus]
      obtain ⟨hpromote, hpass⟩ := draft_status hstatus
      obtain ⟨huseful, happroval⟩ := gatesPass_evaluateGates (hgates ▸ hpass)
      have happroval' : s.policy.promote = .autoApproved ∨ lesson.id ∈ s.approvals := by simpa using happroval
      refine Method.Sat.ofExcept_bind (fun k hk => ?_) fun e _ => ?_
      · refine Method.sat_modify_bind.mpr (Method.sat_pure.mpr ?_)
        by_cases hid : k.id ∈ s.promotedSkills.map (·.id)
        · refine ⟨_, [], .promoted hfree hpromote huseful happroval' hstatus (.inl rfl), ?_⟩
          rw [hnone, addPromoted, if_pos (by simpa [setCandidate] using hid)]
        · refine ⟨_, [k], .promoted hfree hpromote huseful happroval' hstatus (.inr ⟨k, rfl, hid, hk⟩), ?_⟩
          rw [addPromoted, if_neg (by simpa [setCandidate] using hid)]
          rfl
      · exact ⟨_, [], .promoted hfree hpromote huseful happroval' hstatus (.inl rfl), (hnone _).symm⟩
    · rw [if_neg hstatus]
      exact Method.sat_pure.mpr ⟨_, [], .drafted hfree hstatus, (hnone _).symm⟩

theorem Synced.lessonId {s : LocalExperience} {lesson : LessonCandidateV1} {c : SkillCandidateV1}
    {skills : List SkillDefinitionV1}
    (hid : ∀ id c, s.candidatesByLesson.lookup id = some c → c.lessonId = id)
    (h : Synced p s lesson c skills) : c.lessonId = lesson.id := by
  cases h with
  | @kept existing gates hlookup hstatus => exact hid lesson.id existing hlookup
  | drafted hfree hstatus => rfl
  | promoted hfree hpromote huseful happroval hstatus hskills => rfl

end Sync

/-! ### What was asked for -/

section Asked

variable (p : Platform) (policy : NormalizedPolicy)

/-- The pattern of a run that is recorded, and whether the run was useful. -/
def Operation.evidence : Operation → Option (String × Bool)
  | .record input _ => some (patternKey p input.task, isUsefulExperience input.status input.task.successCriteria
      input.successCriteriaMatched input.prohibitedViolations)
  | .approve _ => none

/-- What is retained after operations: the last of what was recorded. -/
def retained (ops : List Operation) : List (String × Bool) :=
  if policy.enabled then (ops.filterMap (Operation.evidence p)).rtake policy.maxRecords else []

/-- How many useful experiences of a pattern are retained after operations. -/
def usefulRetained (ops : List Operation) (key : String) : ℕ :=
  (retained p policy ops).countP fun e => e.1 = key && e.2

/-- A lesson that was drawn from what was retained at some moment. -/
def Taught (ops : List Operation) (lesson : LessonCandidateV1) : Prop :=
  lesson.id = lessonId lesson.patternKey ∧
    ∃ pre, pre <+: ops ∧ lesson.usefulness = usefulRetained p policy pre lesson.patternKey

/-- Nothing speaks against the promotion of a pattern. -/
structure Grounded (ops : List Operation) (key : String) : Prop where
  mode : policy.promote ≠ .disabled
  evidence : ∃ pre, pre <+: ops ∧ (policy.minUsefulness : ℕ) ≤ usefulRetained p policy pre key
  approval : policy.promote = .autoApproved ∨ Operation.approve (lessonId key) ∈ ops

/-- A candidate that is promoted with its pattern. -/
def PromotedAs (s : LocalExperience) (key : String) (c : SkillCandidateV1) : Prop :=
  s.candidatesByLesson.lookup (lessonId key) = some c ∧ c.status = .promoted ∧ c.skill.id = learnedId key

variable {p policy}

theorem Taught.mono {ops ops' : List Operation} (h : ops <+: ops') {lesson : LessonCandidateV1}
    (ht : Taught p policy ops lesson) : Taught p policy ops' lesson := by
  obtain ⟨hid, pre, hpre, hu⟩ := ht
  exact ⟨hid, pre, hpre.trans h, hu⟩

theorem Grounded.mono {ops ops' : List Operation} (h : ops <+: ops') {key : String}
    (hg : Grounded p policy ops key) : Grounded p policy ops' key := by
  obtain ⟨pre, hpre, hu⟩ := hg.evidence
  exact ⟨hg.mode, ⟨pre, hpre.trans h, hu⟩, hg.approval.imp_right fun ha => h.subset ha⟩

theorem rtake_rtake_append {α : Type} (l l' : List α) (n : ℕ) : (l.rtake n ++ l').rtake n = (l ++ l').rtake n := by
  simp only [List.rtake_eq_reverse_take_reverse, List.reverse_append, List.reverse_reverse, List.take_append,
    List.take_take]
  rw [Nat.min_eq_left (Nat.sub_le _ _)]

/-- One more run is recorded: it comes last, and the first may be forgotten. -/
theorem retained_record (ops : List Operation) (input : RecordExperienceInput) (remember : Except String Unit)
    (henabled : policy.enabled = true) :
    retained p policy (ops ++ [.record input remember]) = (retained p policy ops ++
      [(patternKey p input.task, isUsefulExperience input.status input.task.successCriteria
        input.successCriteriaMatched input.prohibitedViolations)]).rtake policy.maxRecords := by
  simp only [retained, if_pos henabled, List.filterMap_append]
  rw [rtake_rtake_append]
  rfl

theorem retained_of_disabled (ops : List Operation) (henabled : policy.enabled = false) :
    retained p policy ops = [] := by
  simp [retained, henabled]

theorem retained_approve (ops : List Operation) (id : String) :
    retained p policy (ops ++ [.approve id]) = retained p policy ops := by
  have hnone : [Operation.approve id].filterMap (Operation.evidence p) = [] := rfl
  rw [retained, retained, List.filterMap_append, hnone, List.append_nil]

end Asked

/-! ### The invariant -/

section Invariant

variable {p : Platform} {ops : List Operation} {s s' : LocalExperience}

/-- What holds of a store after operations. -/
structure Sound (p : Platform) (ops : List Operation) (s : LocalExperience) : Prop where
  records : s.records.map (fun r => (r.patternKey, r.useful)) = retained p s.policy ops
  lessons : ∀ e ∈ s.lessonsByKey, Taught p s.policy ops e.2
  candidates : ∀ id c, s.candidatesByLesson.lookup id = some c → c.lessonId = id
  promoted : ∀ id c, s.candidatesByLesson.lookup id = some c → c.status = .promoted →
    ∃ key, PromotedAs s key c ∧ Grounded p s.policy ops key
  skills : ∀ k ∈ s.promotedSkills, ∃ key c, PromotedAs s key c ∧
    normalizeSkillDefinition p c.skill.toSkillBodyV1.value = .ok k
  nodup : (s.promotedSkills.map (·.id)).Nodup
  approvals : ∀ id ∈ s.approvals, Operation.approve id ∈ ops

/-- What is promoted stays promoted, and stays as it is. -/
structure Grows (s s' : LocalExperience) : Prop where
  policy : s'.policy = s.policy
  skills : s.promotedSkills <+: s'.promotedSkills
  candidates : ∀ id c, s.candidatesByLesson.lookup id = some c → c.status = .promoted →
    ∃ gates, s'.candidatesByLesson.lookup id = some { c with gates := gates }

/-- Nothing but what the lesson of this id has taught is changed. -/
structure Confined (p : Platform) (id : String) (s s' : LocalExperience) : Prop where
  candidates : ∀ id' ≠ id, s'.candidatesByLesson.lookup id' = s.candidatesByLesson.lookup id'
  skills : ∀ k ∈ s'.promotedSkills, k ∈ s.promotedSkills ∨ ∃ c, s'.candidatesByLesson.lookup id = some c ∧
    c.status = .promoted ∧ normalizeSkillDefinition p c.skill.toSkillBodyV1.value = .ok k

theorem Grows.of_eq (hpolicy : s'.policy = s.policy) (hskills : s'.promotedSkills = s.promotedSkills)
    (hcandidates : s'.candidatesByLesson = s.candidatesByLesson) : Grows s s' where
  policy := hpolicy
  skills := hskills ▸ List.prefix_rfl
  candidates := fun _ c h _ => ⟨c.gates, hcandidates ▸ h⟩

theorem Grows.trans {s'' : LocalExperience} (h : Grows s s') (h' : Grows s' s'') : Grows s s'' where
  policy := h'.policy.trans h.policy
  skills := h.skills.trans h'.skills
  candidates := by
    intro id c hc hstatus
    obtain ⟨gates, hg⟩ := h.candidates id c hc hstatus
    exact h'.candidates id { c with gates := gates } hg hstatus

theorem PromotedAs.grows (hg : Grows s s') {key : String} {c : SkillCandidateV1} (h : PromotedAs s key c) :
    ∃ gates, PromotedAs s' key { c with gates := gates } := by
  obtain ⟨hlookup, hstatus, hskill⟩ := h
  obtain ⟨gates, hg⟩ := hg.candidates _ c hlookup hstatus
  exact ⟨gates, hg, hstatus, hskill⟩

section Sync

variable {lesson : LessonCandidateV1} {c : SkillCandidateV1} {skills : List SkillDefinitionV1}

theorem lookup_withCandidate (id : String) : (s.withCandidate lesson c skills).candidatesByLesson.lookup id =
    if id = lesson.id then some c else s.candidatesByLesson.lookup id := lookup_setProperty ..

theorem Synced.grows (h : Synced p s lesson c skills) : Grows s (s.withCandidate lesson c skills) where
  policy := rfl
  skills := List.prefix_append ..
  candidates := by
    intro id c' hc' hstatus'
    rw [lookup_withCandidate]
    by_cases hid : id = lesson.id
    · rw [if_pos hid]
      subst hid
      cases h with
      | kept gates hlookup hstatus =>
        rw [hlookup] at hc'
        cases hc'
        exact ⟨gates, rfl⟩
      | drafted hfree hstatus => exact absurd hstatus' (hfree c' hc')
      | promoted hfree hpromote huseful happroval hstatus hskills => exact absurd hstatus' (hfree c' hc')
    · rw [if_neg hid]
      exact ⟨c'.gates, hc'⟩

theorem Synced.confined (h : Synced p s lesson c skills) :
    Confined p lesson.id s (s.withCandidate lesson c skills) where
  candidates := by
    intro id hid
    rw [lookup_withCandidate, if_neg hid]
  skills := by
    intro k hk
    rcases List.mem_append.mp hk with hold | hnew
    · exact .inl hold
    · refine .inr ⟨c, by rw [lookup_withCandidate, if_pos rfl], ?_⟩
      cases h with
      | kept gates hlookup hstatus => cases hnew
      | drafted hfree hstatus => cases hnew
      | promoted hfree hpromote huseful happroval hstatus hskills =>
        rcases hskills with rfl | ⟨k', rfl, -, hk'⟩
        · cases hnew
        · cases List.mem_singleton.mp hnew
          exact ⟨hstatus, hk'⟩

/-- Synchronizing a lesson that was taught keeps the invariant. -/
theorem Sound.sync (hs : Sound p ops s) (ht : Taught p s.policy ops lesson) (h : Synced p s lesson c skills) :
    Sound p ops (s.withCandidate lesson c skills) where
  records := hs.records
  lessons := hs.lessons
  candidates := by
    intro id c' hc'
    rw [lookup_withCandidate] at hc'
    split_ifs at hc' with hid
    · cases hc'
      rw [hid, h.lessonId hs.candidates]
    · exact hs.candidates id c' hc'
  promoted := by
    intro id c' hc' hstatus'
    rw [lookup_withCandidate] at hc'
    split_ifs at hc' with hid
    · cases hc'
      subst hid
      have hlookup : (s.withCandidate lesson c skills).candidatesByLesson.lookup lesson.id = some c := by
        rw [lookup_withCandidate, if_pos rfl]
      cases h with
      | @kept existing gates hold hstatus =>
        obtain ⟨key, ⟨hkey, -, hskill⟩, hground⟩ := hs.promoted lesson.id existing hold hstatus
        have hid : lesson.id = lessonId key := by
          rw [← hs.candidates _ _ hold, hs.candidates _ _ hkey]
        exact ⟨key, ⟨hid ▸ hlookup, hstatus', hskill⟩, hground⟩
      | drafted hfree hstatus => exact absurd hstatus' hstatus
      | promoted hfree hpromote huseful happroval hstatus hskills =>
        obtain ⟨hid, pre, hpre, hu⟩ := ht
        refine ⟨lesson.patternKey, ⟨hid ▸ hlookup, hstatus', rfl⟩, hpromote, ⟨pre, hpre, hu ▸ huseful⟩, ?_⟩
        exact happroval.imp_right fun ha => hid ▸ hs.approvals lesson.id ha
    · obtain ⟨key, ⟨hkey, hprom, hskill⟩, hground⟩ := hs.promoted id c' hc' hstatus'
      refine ⟨key, ⟨?_, hprom, hskill⟩, hground⟩
      rw [lookup_withCandidate, if_neg ?_, hkey]
      rw [← hs.candidates _ _ hkey, hs.candidates _ _ hc']
      exact hid
  skills := by
    intro k hk
    rcases List.mem_append.mp hk with hold | hnew
    · obtain ⟨key, c', has, hnormal⟩ := hs.skills k hold
      obtain ⟨gates, has'⟩ := has.grows h.grows
      exact ⟨key, _, has', hnormal⟩
    · cases h with
      | kept gates hlookup hstatus => cases hnew
      | drafted hfree hstatus => cases hnew
      | promoted hfree hpromote huseful happroval hstatus hskills =>
        rcases hskills with rfl | ⟨k', rfl, -, hnormal⟩
        · cases hnew
        · cases List.mem_singleton.mp hnew
          refine ⟨lesson.patternKey, _, ⟨?_, hstatus, rfl⟩, hnormal⟩
          rw [lookup_withCandidate, if_pos ht.1.symm]
  nodup := by
    show ((s.promotedSkills ++ skills).map (·.id)).Nodup
    rw [List.map_append]
    cases h with
    | kept gates hlookup hstatus => simpa using hs.nodup
    | drafted hfree hstatus => simpa using hs.nodup
    | promoted hfree hpromote huseful happroval hstatus hskills =>
      rcases hskills with rfl | ⟨k, rfl, hk, -⟩
      · simpa using hs.nodup
      · exact hs.nodup.append (List.nodup_singleton _) (List.disjoint_singleton.mpr hk)
  approvals := hs.approvals

end Sync

/-! ### One operation -/

/-- More was asked for, and nothing was done. -/
theorem Sound.mono {op : Operation} (hs : Sound p ops s)
    (hrecords : retained p s.policy (ops ++ [op]) = retained p s.policy ops) : Sound p (ops ++ [op]) s where
  records := by rw [hrecords, hs.records]
  lessons := fun e he => (hs.lessons e he).mono (List.prefix_append ..)
  candidates := hs.candidates
  promoted := by
    intro id c hc hstatus
    obtain ⟨key, has, hground⟩ := hs.promoted id c hc hstatus
    exact ⟨key, has, hground.mono (List.prefix_append ..)⟩
  skills := hs.skills
  nodup := hs.nodup
  approvals := fun id hid => List.mem_append_left _ (hs.approvals id hid)

theorem Sound.addApproval (id : String) (hs : Sound p ops s) :
    Sound p (ops ++ [.approve id]) (s.addApproval id) :=
  { hs.mono (retained_approve ops id) with
    approvals := by
      intro id' hid'
      simp only [LocalExperience.addApproval] at hid'
      split_ifs at hid' with hold
      · exact List.mem_append_left _ (hs.approvals id' hid')
      · rcases List.mem_append.mp hid' with hold' | hnew
        · exact List.mem_append_left _ (hs.approvals id' hold')
        · rw [List.mem_singleton.mp hnew]
          simp }

theorem Sound.addRecord (input : RecordExperienceInput) (remember : Except String Unit) (n : ℕ)
    (hs : Sound p ops s) (henabled : s.policy.enabled = true) :
    Sound p (ops ++ [.record input remember]) (s.addRecord (experienceRecord p (patternKey p input.task) input n)) where
  records := by
    show ((s.records ++ [_]).rtake s.policy.maxRecords).map _ = retained p s.policy _
    rw [retained_record _ _ _ henabled, ← hs.records]
    simp only [List.rtake, List.map_drop, List.map_append, List.length_append, List.length_map, List.map_cons,
      List.map_nil, List.length_cons, List.length_nil]
    rfl
  lessons := fun e he => (hs.lessons e he).mono (List.prefix_append ..)
  candidates := hs.candidates
  promoted := by
    intro id c hc hstatus
    obtain ⟨key, has, hground⟩ := hs.promoted id c hc hstatus
    exact ⟨key, has, hground.mono (List.prefix_append ..)⟩
  skills := hs.skills
  nodup := hs.nodup
  approvals := fun id hid => List.mem_append_left _ (hs.approvals id hid)

/-- The lesson of what is retained is taught. -/
theorem Sound.taught (hs : Sound p ops s) {key : String} {lesson : LessonCandidateV1}
    (h : lessonFromUseful (s.records.filter (·.patternKey = key)) = some lesson) : Taught p s.policy ops lesson := by
  have hkey : ∀ r ∈ s.records.filter (·.patternKey = key), r.patternKey = key := by
    intro r hr
    simpa using (List.mem_filter.mp hr).2
  obtain ⟨hpattern, hid, hu⟩ := lessonFromUseful_spec hkey h
  refine ⟨by rw [hid, hpattern], ops, List.prefix_rfl, ?_⟩
  rw [hu, hpattern, usefulRetained, ← hs.records, List.countP_map, List.countP_filter]
  refine List.countP_congr fun r _ => ?_
  simp [and_comm]

theorem Sound.setLesson (hs : Sound p ops s) (key : String) {lesson : LessonCandidateV1}
    (ht : Taught p s.policy ops lesson) : Sound p ops (s.setLesson key lesson) :=
  { hs with
    lessons := by
      intro e he
      rcases mem_setProperty he with hold | rfl
      · exact hs.lessons e hold
      · exact ht }

theorem record_sat (input : RecordExperienceInput) (remember : Except String Unit) (hs : Sound p ops s) :
    (record p input remember).Sat s fun _ s' _ => Sound p (ops ++ [.record input remember]) s' ∧ Grows s s' := by
  unfold record
  refine Method.sat_read_bind.mpr ?_
  by_cases henabled : s.policy.enabled = false
  · rw [if_pos henabled]
    refine Method.sat_pure.mpr ⟨hs.mono ?_, .of_eq rfl rfl rfl⟩
    rw [retained_of_disabled _ henabled, retained_of_disabled _ henabled]
  rw [if_neg henabled]
  refine Method.sat_modify_bind.mpr ?_
  -- the run is recorded, whatever the callback answers
  have hs₁ := hs.addRecord input remember (s.records.length + 1) (Bool.eq_true_of_not_eq_false henabled)
  have hg₁ : Grows s (s.addRecord (experienceRecord p (patternKey p input.task) input (s.records.length + 1))) :=
    .of_eq rfl rfl rfl
  generalize s.addRecord _ = s₁ at hs₁ hg₁ ⊢
  refine Method.Sat.ofExcept_bind (fun _ _ => ?_) fun e _ => ⟨hs₁, hg₁⟩
  refine Method.sat_read_bind.mpr ?_
  cases hlesson : lessonFromUseful (s₁.records.filter (·.patternKey = patternKey p input.task)) with
  | none => exact Method.sat_pure.mpr ⟨hs₁, hg₁⟩
  | some lesson =>
    have ht := hs₁.taught hlesson
    have hs₂ := hs₁.setLesson (patternKey p input.task) ht
    have hg₂ : Grows s (s₁.setLesson (patternKey p input.task) lesson) := hg₁.trans (.of_eq rfl rfl rfl)
    refine Method.sat_modify_bind.mpr ?_
    by_cases hpromote : s₁.policy.promote = .disabled
    · rw [if_pos hpromote]
      exact Method.sat_pure.mpr ⟨hs₂, hg₂⟩
    · rw [if_neg hpromote]
      refine Method.Sat.bind (syncCandidate_sat _ lesson) ?_ ?_
      · rintro c s' l ⟨c', skills, hsync, rfl⟩
        exact Method.sat_pure.mpr ⟨hs₂.sync ht hsync, hg₂.trans hsync.grows⟩
      · rintro e s' l ⟨c', skills, hsync, rfl⟩
        exact ⟨hs₂.sync ht hsync, hg₂.trans hsync.grows⟩

theorem approve_sat (id : String) (hs : Sound p ops s) :
    (approve p id).Sat s fun _ s' _ => (Sound p (ops ++ [.approve id]) s' ∧ Grows s s') ∧ Confined p id s s' := by
  unfold approve
  refine Method.sat_modify_bind.mpr (Method.sat_read_bind.mpr ?_)
  have hs₁ := hs.addApproval id
  have hg₁ : Grows s (s.addApproval id) := .of_eq rfl rfl rfl
  cases hfind : ((s.addApproval id).lessonsByKey.map Prod.snd).find? (·.id = id) with
  | none => exact Method.sat_pure.mpr ⟨⟨hs₁, hg₁⟩, fun _ _ => rfl, fun _ hk => .inl hk⟩
  | some lesson =>
    have hid : lesson.id = id := by simpa using List.find?_some hfind
    obtain ⟨e, he, rfl⟩ := List.mem_map.mp (List.mem_of_find?_eq_some hfind)
    have ht := hs₁.lessons e he
    have hconfined {c skills} (h : Synced p (s.addApproval id) e.2 c skills) :
        Confined p id s ((s.addApproval id).withCandidate e.2 c skills) := by
      obtain ⟨hcandidates, hskills⟩ := h.confined
      exact ⟨hid ▸ hcandidates, hid ▸ hskills⟩
    refine Method.Sat.bind (syncCandidate_sat _ e.2) ?_ ?_
    · rintro c s' l ⟨c', skills, hsync, rfl⟩
      exact Method.sat_pure.mpr ⟨⟨hs₁.sync ht hsync, hg₁.trans hsync.grows⟩, hconfined hsync⟩
    · rintro c s' l ⟨c', skills, hsync, rfl⟩
      exact ⟨⟨hs₁.sync ht hsync, hg₁.trans hsync.grows⟩, hconfined hsync⟩

/-- What one operation does. -/
structure Stepped (p : Platform) (ops : List Operation) (s : LocalExperience) (op : Operation)
    (s' : LocalExperience) : Prop where
  sound : Sound p (ops ++ [op]) s'
  grows : Grows s s'
  confined : ∀ id, op = .approve id → Confined p id s s'

theorem after_append_singleton (store : LocalExperience) (ops : List Operation) (op : Operation)
    (hs : Sound p ops (store.after p ops)) :
    Stepped p ops (store.after p ops) op (store.after p (ops ++ [op])) := by
  have hstep : (perform p op).Sat (store.after p ops) fun _ s' _ => Stepped p ops (store.after p ops) op s' := by
    cases op with
    | record input remember =>
      refine Method.Sat.bind (record_sat input remember hs) ?_ ?_
      · exact fun _ s' _ h => Method.sat_pure.mpr ⟨h.1, h.2, fun id hid => nomatch hid⟩
      · exact fun _ s' _ h => ⟨h.1, h.2, fun id hid => nomatch hid⟩
    | approve id =>
      have hconfined {s'} (h : Confined p id (store.after p ops) s') :
          ∀ id', Operation.approve id = .approve id' → Confined p id' (store.after p ops) s' := by
        rintro id' ⟨⟩
        exact h
      refine Method.Sat.bind (approve_sat id hs) ?_ ?_
      · exact fun _ s' _ h => Method.sat_pure.mpr ⟨h.1.1, h.1.2, hconfined h.2⟩
      · exact fun _ s' _ h => ⟨h.1.1, h.1.2, hconfined h.2⟩
  have hafter : store.after p (ops ++ [op]) =
      (Session.after (perform p) (Session.run (perform p) ⟨store, []⟩ ops) op).state := by
    rw [LocalExperience.after, Session.run_append, Session.run_singleton]
  rw [hafter]
  exact Session.after_of_sat_of_isEmpty (T := fun s' _ => Stepped p ops (store.after p ops) op s') hstep

theorem sound_after (store : LocalExperience) (h0 : Sound p [] store) (ops : List Operation) :
    Sound p ops (store.after p ops) := by
  induction ops using List.reverseRecOn with
  | nil => exact h0
  | append_singleton ops op ih => exact (after_append_singleton store ops op ih).sound

theorem grows_after (store : LocalExperience) (h0 : Sound p [] store) (ops later : List Operation) :
    Grows (store.after p ops) (store.after p (ops ++ later)) := by
  induction later using List.reverseRecOn with
  | nil =>
    rw [List.append_nil]
    exact .of_eq rfl rfl rfl
  | append_singleton later op ih =>
    rw [← List.append_assoc]
    exact ih.trans (after_append_singleton store _ op (sound_after store h0 _)).grows

/-- A new store has promoted nothing, and retains nothing. -/
theorem sound_new {options : ExperiencePolicyV1} {authorityCapabilities : List String} {memoryOn : Bool}
    {store : LocalExperience} (h : localExperience options authorityCapabilities memoryOn = .ok store) :
    Sound p [] store := by
  obtain ⟨policy, -, hstore⟩ := bind_eq_ok.mp h
  cases hstore
  exact {
    records := by simp [retained]
    lessons := by simp
    candidates := by simp
    promoted := by simp
    skills := by simp
    nodup := List.nodup_nil
    approvals := by simp }

end Invariant

/-! ### Promotion -/

/-- What is known of the promotions of a store after operations. -/
structure PromotionSound (p : Platform) (store : LocalExperience) (ops : List Operation) : Prop where
  /-- A promoted candidate has its evidence and its approval. -/
  grounded : ∀ id c, (store.after p ops).candidatesByLesson.lookup id = some c → c.status = .promoted →
    ∃ key, PromotedAs (store.after p ops) key c ∧ Grounded p store.policy ops key
  /-- A promoted skill is the skill of a promoted candidate. -/
  skills : ∀ k ∈ (store.after p ops).promotedSkills, ∃ key c, PromotedAs (store.after p ops) key c ∧
    normalizeSkillDefinition p c.skill.toSkillBodyV1.value = .ok k ∧ k.id = learnedId key
  /-- No pattern has two skills. -/
  once : ((store.after p ops).promotedSkills.map (·.id)).Nodup
  /-- Nothing is withdrawn or changed. -/
  grows : ∀ later, Grows (store.after p ops) (store.after p (ops ++ later))
  /-- An approval is an approval of its lesson only. -/
  confined : ∀ id, Confined p id (store.after p ops) (store.after p (ops ++ [.approve id]))

/-- **Promotions are sound.** After any operations, a skill is promoted only if promotion is not disabled,
enough useful experiences of its pattern were retained at some moment, and the policy approves by itself or
its lesson was approved; it is the only one of its pattern, and whatever follows leaves it as it is. -/
theorem promotion_sound (p : Platform) {options : ExperiencePolicyV1} {authorityCapabilities : List String}
    {memoryOn : Bool} {store : LocalExperience}
    (hnew : localExperience options authorityCapabilities memoryOn = .ok store) (ops : List Operation) :
    PromotionSound p store ops := by
  have h0 : Sound p [] store := sound_new hnew
  have hs := sound_after store h0 ops
  have hpolicy : (store.after p ops).policy = store.policy := (grows_after store h0 [] ops).policy
  refine ⟨?_, ?_, hs.nodup, grows_after store h0 ops, ?_⟩
  · intro id c hc hstatus
    obtain ⟨key, has, hground⟩ := hs.promoted id c hc hstatus
    exact ⟨key, has, hpolicy ▸ hground⟩
  · intro k hk
    obtain ⟨key, c, has, hnormal⟩ := hs.skills k hk
    exact ⟨key, c, has, hnormal, (normalizeSkillDefinition_id hnormal).trans has.2.2⟩
  · exact fun id => (after_append_singleton store ops (.approve id) hs).confined id rfl

/-- A platform for the runs of one task. -/
def taskPlatform : Platform where
  toLowerCase s := s
  stringify _ := ""
  numberText _ := ""
  collate := compare
  parse _ := .error ""
  decode _ := ""
  sha256Hex v :=
    if ((ownProperties v).bind (List.lookup "objective")).isSome then
      "edaf685b45e50023ed04c952f425b956139b7c4fcf090cfbe1ac2d1380cec0b7"
    else "9d302a4e3cd0f7a552b8c7dca13bd3f927258d365daeb2d78233ab9984f9c0d6"
  verifyImage _ := .error ""
  mountImage _ := .error ""

/-- A run that succeeded. -/
def usefulRun (runId : String) : Operation :=
  .record {
    runId := runId
    task := { objective := "look it up", successCriteria := ["done"] }
    status := .succeeded
    output := some (.string "done")
    successCriteriaMatched := ["done"]
    prohibitedViolations := []
    dependencyRoot := "" } (.ok ())

/-- A store as it is by default. -/
def defaultStore : LocalExperience where
  policy := { enabled := true, promote := .requireApproval, minUsefulness := 2, maxRecords := 64 }
  authorityCapabilities := []

/-- An approval that comes before the second run: the skill is promoted with it. -/
theorem promotion_sound_approved :
    PromotionSound taskPlatform defaultStore
        [usefulRun "a", .approve "lesson/edaf685b45e50023ed04c952", usefulRun "b"] ∧
      (defaultStore.after taskPlatform
        [usefulRun "a", .approve "lesson/edaf685b45e50023ed04c952", usefulRun "b"]).promotedSkills.map (·.id) =
        ["learned/edaf685b45e50023"] :=
  ⟨@promotion_sound taskPlatform {} [] true defaultStore rfl _,
    by decide +kernel⟩

end Knolo.Experience
