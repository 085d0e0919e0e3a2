import Knolo.Library.Interaction
import Knolo.Skills.Resolver

/-!
# The context of a run

`packages/agents/src/context`: the envelope that an agent gets. Evidence, constraints, skills and
memories are ranked and taken up in this order until the budget is used up; what says nothing new is
left out.

What a run asks for is a call (`SessionCall`): of the session's packs, the adapter, the learner, the
dependencies, the registry, the middleware, the sources of evidence and memories, and the reranking.

* `compileContext_skills` — every skill of an envelope is one that was given.
-/

namespace Knolo.Skills

open Script Harness Library Library.Fallible Library.StableSort

/-! ### Items -/

/-- What is known. -/
structure EvidenceItemV1 where
  id : String
  text : String
  sourceId : Option String := none
  required : Bool := false
  score : Option JsNumber := none

/-- What is remembered. -/
structure MemoryItemV1 where
  id : String
  text : String
  score : Option JsNumber := none

/-- A budget, in characters or in tokens. -/
structure ContextBudgetV1 where
  maxChars : Option JsNumber := none
  maxTokens : Option JsNumber := none

/-- The kinds of items. -/
inductive ContextItemKindV1 where
  | evidence
  | constraint
  | skill
  | memory
  deriving DecidableEq

/-- The text of a kind. -/
def ContextItemKindV1.text : ContextItemKindV1 → String
  | .evidence => "evidence"
  | .constraint => "constraint"
  | .skill => "skill"
  | .memory => "memory"

/-- An item with its rank. -/
structure RankedContextItem where
  kind : ContextItemKindV1
  id : String
  text : String
  score : JsNumber
  required : Bool
  sourceId : Option String := none
  deriving DecidableEq

/-! ### What a run asks for -/

/-- A pack that a search has found. -/
structure PackSearchHitV1 where
  name : String
  publisher : String
  slug : String
  version : String
  sha256 : String
  stateRoot : Option String := none
  license : Option String := none
  description : Option String := none
  yanked : Option Bool := none
  deriving DecidableEq

/-- The hooks of the middleware before the context is compiled. -/
inductive ContextHook where
  | beforeRun
  | beforeContext
  deriving DecidableEq

/-- The calls of a run. -/
inductive SessionCall where
  /-- The packs that the session has acquired. -/
  | acquiredPacks
  /-- The session has acquired more packs. -/
  | record (packs : List CapabilityMetadataV1)
  /-- What the adapter can do. -/
  | capabilities
  /-- The skills that the learner has promoted. -/
  | promoted
  /-- What was staged becomes active. -/
  | activateStaged
  /-- The dependencies are those of the run, with the skills it has selected, and are frozen. -/
  | freeze (selected : List SkillSelectedV1)
  /-- A dependency is staged. -/
  | stage (dependency : PackDependencyV1)
  | search (q : String)
  | pull (spec : String)
  | hook (name : ContextHook)
  | retrieve (query : String)
  | recall (source : ℕ) (query : String)
  | semanticRerank (items : List EvidenceItemV1) (query : String)

/-- What a call is answered with. -/
def SessionCall.Answer : SessionCall → Type
  | .acquiredPacks => List CapabilityMetadataV1
  | .record _ => Unit
  | .capabilities => AgentCapabilitiesV1
  | .promoted => List JsValue
  | .activateStaged => Except String Unit
  | .freeze _ => Except String String
  | .stage _ => Except String Unit
  | .search _ => Except String (List PackSearchHitV1)
  | .pull _ => Except String Registry.PackBytesV1
  | .hook _ => Except String Unit
  | .retrieve _ => Except String (List EvidenceItemV1)
  | .recall _ _ => Except String (List MemoryItemV1)
  | .semanticRerank _ _ => Except String (List EvidenceItemV1)

instance (c : SessionCall) : Nonempty c.Answer := by
  cases c <;> first | exact ⟨()⟩ | exact ⟨([] : List _)⟩ | exact ⟨⟨true⟩⟩ | exact ⟨.error ""⟩

/-- A part of a run. -/
abbrev SessionM (α : Type) := Prog SessionCall SessionCall.Answer String α

/-- The calls of a run so far. -/
abbrev Calls := List (Answered SessionCall SessionCall.Answer)

/-- Make a call that may throw. -/
def perform {α : Type} (c : SessionCall) (h : c.Answer = Except String α) : SessionM α := do
  Prog.ofExcept (h ▸ (← Prog.ask c))

/-! ### Budgets -/

/-- `normalizeText`. -/
def normalizeText (language : Language) (s : String) : String :=
  let words := ((language.toLowerCase s).toList.splitOnP TypeScript.isWhitespace).filter fun word => !word.isEmpty
  " ".intercalate (words.map String.ofList)

/-- `isRedundant`. -/
def isRedundant (language : Language) (candidate : String) (selected : List String) : Bool :=
  let needle := normalizeText language candidate
  needle.isEmpty || selected.any fun item =>
    let hay := normalizeText language item
    hay = needle || includes hay needle || includes needle hay

/-- A positive safe integer. -/
def positiveInteger (x : JsNumber) (message : String) : Except String ℕ :=
  match x.safeInteger with
  | some z => if 0 < z then .ok z.toNat else .error message
  | none => .error message

/-- `maxCharsFromBudget`. -/
def maxCharsFromBudget : Option ContextBudgetV1 → Except String ℕ
  | none => .ok (2 ^ 53 - 1)
  | some budget =>
    match budget.maxChars, budget.maxTokens with
    | some x, _ => positiveInteger x "contextBudget.maxChars must be a positive integer"
    | none, some x => (4 * ·) <$> positiveInteger x "contextBudget.maxTokens must be a positive integer"
    | none, none => .ok (2 ^ 53 - 1)

/-- What was left out. -/
inductive ContextDropReason where
  | redundant
  | budget
  deriving DecidableEq

/-- A plan: what is taken up, what is left out, and the room that is used. -/
structure BudgetPlan where
  selected : List RankedContextItem := []
  dropped : List (RankedContextItem × ContextDropReason) := []
  usedChars : ℕ := 0

variable (p : Platform)

/-- An item is taken up, or left out. -/
def BudgetPlan.step (maxChars : ℕ) (plan : BudgetPlan) (item : RankedContextItem) : Except String BudgetPlan :=
  let used := plan.usedChars + (codeUnits item.text).length
  if isRedundant p.toLanguage item.text (plan.selected.map (·.text)) then
    .ok { plan with dropped := plan.dropped ++ [(item, .redundant)] }
  else if maxChars < used then
    if item.required then
      .error s!"required {item.kind.text} '{item.id}' exceeds context budget ({used} > {maxChars} chars)"
    else .ok { plan with dropped := plan.dropped ++ [(item, .budget)] }
  else .ok { plan with selected := plan.selected ++ [item], usedChars := used }

/-- `applyBudget`. -/
def applyBudget (items : List RankedContextItem) (budget : Option ContextBudgetV1) : Except String BudgetPlan := do
  items.foldlM (BudgetPlan.step p (← maxCharsFromBudget budget)) {}

/-- The order of two numbers. -/
def compareNumbers (x y : JsNumber) : Ordering :=
  if numberLe x y then (if numberLe y x then .eq else .lt) else .gt

/-- `compareRank`: the higher score first. -/
def compareRank (left right : RankedContextItem) : Ordering :=
  (compareNumbers right.score left.score).then (p.collate left.id right.id)

/-! ### Sources -/

/-- Where evidence is from. -/
inductive EvidenceOption where
  | items (values : List EvidenceItemV1)
  | source

/-- Where memories are from. -/
inductive MemoryOption where
  | items (values : List MemoryItemV1)
  | source (k : ℕ)

/-- `resolveEvidence`. -/
def resolveEvidence (source : Option EvidenceOption) (query : String) : SessionM (List EvidenceItemV1) :=
  match source with
  | none => pure []
  | some (.items values) =>
    pure <| values.map fun item =>
      { item with score := some (item.score.getD (.finite (lexicalScore p.toLanguage query item.text))) }
  | some .source => perform (.retrieve query) rfl

/-- Evidence is reranked, where a function for it is given. -/
def rerankEvidence (semanticRerank : Bool) (items : List EvidenceItemV1) (query : String) :
    SessionM (List EvidenceItemV1) :=
  if semanticRerank then perform (.semanticRerank items query) rfl else pure items

/-- The memories of a source. -/
def recallFrom (query : String) : MemoryOption → SessionM (List MemoryItemV1)
  | .items values => pure values
  | .source k => perform (.recall k query) rfl

/-- `composeMemories`: of memories with one id, the first is kept. -/
def composeMemories (sources : List MemoryOption) (query : String) : SessionM (List MemoryItemV1) := do
  let rows := (← sources.mapM (recallFrom query)).flatten
  let first := rows.foldl (fun kept row => if kept.any (·.id = row.id) then kept else kept ++ [row]) []
  let items := first.map fun row =>
    (row.score.getD (.finite (lexicalScore p.toLanguage query row.text)), row)
  return (sortBy (fun a b => (compareNumbers b.1 a.1).then (p.collate a.2.id b.2.id)) items).map fun row =>
    { row.2 with score := some row.1 }

/-- An item of evidence that is required is required; one that meets a requirement which is not
met yet, too. -/
def markRequired (requirements : List String) (items : List EvidenceItemV1) : List EvidenceItemV1 :=
  let lower := p.toLowerCase
  let needed := requirements.map lower
  let mark := fun (claimed : List String) (item : EvidenceItemV1) =>
    let source := item.sourceId.getD ""
    let hay := lower s!"{item.id} {source} {item.text}"
    if item.required then (claimed ++ needed.filter (includes hay ·), item)
    else
      match needed.find? fun req => !claimed.contains req && includes hay req with
      | some req => (claimed ++ [req], { item with required := true })
      | none => (claimed, item)
  (items.foldl (fun (state : List String × List EvidenceItemV1) item =>
    ((mark state.1 item).1, state.2 ++ [(mark state.1 item).2])) ([], [])).2

/-- `rankedEvidence`. -/
def rankedEvidence (query : String) (item : EvidenceItemV1) : RankedContextItem where
  kind := .evidence
  id := item.id
  text := item.text
  score := item.score.getD (.finite (lexicalScore p.toLanguage query item.text))
  required := item.required
  sourceId := nonEmpty item.sourceId

/-- `rankedConstraint`. -/
def rankedConstraint (constraint : ConstraintV1) : RankedContextItem where
  kind := .constraint
  id := constraint.id
  text := constraint.description
  score := .finite 0
  required := true

/-- `rankedSkill`. -/
def rankedSkill (query : String) (skill : SkillItemV1) : RankedContextItem where
  kind := .skill
  id := skill.id
  text := skill.text
  score := skill.score.getD (.finite (lexicalScore p.toLanguage query skill.text))
  required := skill.required
  sourceId := nonEmpty skill.sourceId

/-- `rankedMemory`. -/
def rankedMemory (query : String) (memory : MemoryItemV1) : RankedContextItem where
  kind := .memory
  id := memory.id
  text := memory.text
  score := memory.score.getD (.finite (lexicalScore p.toLanguage query memory.text))
  required := false

/-! ### The envelope -/

/-- An item of an envelope. -/
structure EnvelopeItem where
  id : String
  text : String
  sourceId : Option String
  deriving DecidableEq

/-- `asJsonItem`. -/
def asJsonItem (item : RankedContextItem) : EnvelopeItem := ⟨item.id, item.text, nonEmpty item.sourceId⟩

/-- What an agent gets. -/
structure ContextEnvelopeV1 where
  task : TaskV1
  evidence : List EnvelopeItem
  memories : List EnvelopeItem
  skills : List EnvelopeItem
  constraints : List ConstraintV1
  capabilities : AgentCapabilitiesV1
  dependencyRoot : String

/-- From what a context is compiled. -/
structure CompileContextInput where
  task : TaskV1
  capabilities : AgentCapabilitiesV1
  dependencyRoot : String
  evidence : Option EvidenceOption := none
  memories : List MemoryOption := []
  skills : List SkillItemV1 := []
  contextBudget : Option ContextBudgetV1 := none
  semanticRerank : Bool := false

/-- `compileContext`. -/
def compileContext (input : CompileContextInput) : SessionM ContextEnvelopeV1 := do
  let query := input.task.objective
  let evidence := markRequired p (input.task.evidenceRequirements.getD []) (← resolveEvidence p input.evidence query)
  let reranked ← rerankEvidence input.semanticRerank evidence query
  let ranked := reranked.map (rankedEvidence p query)
  let required := sortBy (fun a b => p.collate a.id b.id) (ranked.filter (·.required))
  let rest := ranked.filter (!·.required)
  let extra := if input.semanticRerank then rest else sortBy (compareRank p) rest
  let constraints := input.task.constraints.map rankedConstraint
  let skills := sortBy (fun a b => (compare b.required a.required).then (compareRank p a b))
    (input.skills.map (rankedSkill p query))
  let recalled ← composeMemories p input.memories query
  let memories := sortBy (compareRank p) (recalled.map (rankedMemory p query))
  let plan ← Prog.ofExcept (applyBudget p (required ++ constraints ++ extra ++ skills ++ memories) input.contextBudget)
  let chosen := fun kind => plan.selected.filter (·.kind = kind)
  return {
    task := input.task
    evidence := (chosen .evidence).map asJsonItem
    memories := (chosen .memory).map asJsonItem
    skills := (chosen .skill).map asJsonItem
    constraints := (chosen .constraint).map fun item => ⟨item.id, item.text⟩
    capabilities := input.capabilities
    dependencyRoot := input.dependencyRoot }

/-! ### What an envelope has -/

variable {p}

/-- A plan takes up only what it is given. -/
theorem applyBudget_selected {items : List RankedContextItem} {budget : Option ContextBudgetV1} {plan : BudgetPlan}
    (h : applyBudget p items budget = .ok plan) : ∀ item ∈ plan.selected, item ∈ items := by
  obtain ⟨maxChars, -, h⟩ := bind_eq_ok.mp h
  refine Traverse.foldlM_keeps (I := fun plan => ∀ item ∈ plan.selected, item ∈ items) ?_ (by simp) h
  intro item hitem plan plan' hplan hstep
  simp only [BudgetPlan.step] at hstep
  split_ifs at hstep <;> cases hstep
  · exact hplan
  · exact hplan
  · intro x hx
    rcases List.mem_append.mp hx with hx | hx
    · exact hplan x hx
    · obtain rfl := List.mem_singleton.mp hx
      exact hitem

/-- The calls other than those that get packs and keep them. -/
def SessionCall.quiet : SessionCall → Bool
  | .acquiredPacks | .record _ | .pull _ => false
  | _ => true

theorem only_perform {α : Type} {c : SessionCall} (h : c.Answer = Except String α) (hc : c.quiet = true) :
    Prog.Only (·.quiet = true) (fun _ => True) (perform c h) :=
  Prog.Only.bind (Prog.only_ask hc) fun _ _ => Prog.only_ofExcept fun _ _ => trivial

theorem resolveEvidence_only {source : Option EvidenceOption} {query : String} :
    Prog.Only (·.quiet = true) (fun _ => True) (resolveEvidence p source query) := by
  rcases source with _ | (_ | _)
  · exact Prog.only_ret trivial
  · exact Prog.only_ret trivial
  · exact only_perform rfl rfl

theorem rerankEvidence_only {semanticRerank : Bool} {items : List EvidenceItemV1} {query : String} :
    Prog.Only (·.quiet = true) (fun _ => True) (rerankEvidence semanticRerank items query) := by
  unfold rerankEvidence
  split
  · exact only_perform rfl rfl
  · exact Prog.only_ret trivial

theorem composeMemories_only {sources : List MemoryOption} {query : String} :
    Prog.Only (·.quiet = true) (fun _ => True) (composeMemories p sources query) := by
  refine Prog.Only.bind (Prog.Only.mapM fun source _ => ?_) fun _ _ => Prog.only_ret trivial
  cases source with
  | items values => exact Prog.only_ret trivial
  | source k => exact only_perform rfl rfl

/-- **Every skill of an envelope is one that was given.** -/
theorem compileContext_skills {input : CompileContextInput} :
    Prog.Only (·.quiet = true) (fun envelope => ∀ item ∈ envelope.skills, ∃ skill ∈ input.skills,
      item.id = skill.id ∧ item.text = skill.text) (compileContext p input) := by
  refine resolveEvidence_only.bind fun evidence _ => rerankEvidence_only.bind fun reranked _ => ?_
  refine composeMemories_only.bind fun recalled _ => ?_
  refine Prog.Only.bind (Prog.only_ofExcept fun plan hplan => applyBudget_selected hplan) fun plan hplan => ?_
  refine Prog.only_ret fun item hitem => ?_
  obtain ⟨ranked, hranked, rfl⟩ := List.mem_map.mp hitem
  obtain ⟨hmem, hkind⟩ := List.mem_filter.mp hranked
  have hkind : ranked.kind = .skill := of_decide_eq_true hkind
  have hmem := hplan ranked hmem
  simp only [List.mem_append, or_assoc] at hmem
  have hevidence : ranked ∉ reranked.map (rankedEvidence p input.task.objective) := by
    intro h
    obtain ⟨item, -, rfl⟩ := List.mem_map.mp h
    cases hkind
  rcases hmem with h | h | h | h | h
  · exact absurd (List.mem_of_mem_filter (mem_sortBy.mp h)) hevidence
  · obtain ⟨constraint, -, rfl⟩ := List.mem_map.mp h
    cases hkind
  · split at h
    · exact absurd (List.mem_of_mem_filter h) hevidence
    · exact absurd (List.mem_of_mem_filter (mem_sortBy.mp h)) hevidence
  · obtain ⟨skill, hskill, rfl⟩ := List.mem_map.mp (mem_sortBy.mp h)
    exact ⟨skill, hskill, rfl, rfl⟩
  · obtain ⟨memory, -, rfl⟩ := List.mem_map.mp (mem_sortBy.mp h)
    cases hkind

end Knolo.Skills
