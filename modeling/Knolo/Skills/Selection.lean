import Knolo.Skills.Required

/-!
# What a context selects

`packages/agents/src/context`: what a compilation makes of every item that it is offered. It is called by a
session, which composes the sources of its memories, and by itself, with items or one source.

* `foldlM_splits` — a plan splits what it is offered into what it takes up and what it leaves out.
* `compileContext_partition` — the receipt and the envelope of a compilation are of such a plan.
* `compileContext_session` — a session compiles its context so.
-/

namespace Knolo.Skills

open Script Harness Library Library.Fallible Library.StableSort

/-! ### Plans -/

section Plans

variable (p : Platform)

/-- What a plan makes of the items that it was offered. -/
structure BudgetPlan.Splits (maxChars : ℕ) (items : List RankedContextItem) (plan : BudgetPlan) : Prop where
  once : (plan.selected ++ plan.dropped.map Prod.fst).Perm items
  used : plan.usedChars = (plan.selected.map fun s => (codeUnits s.text).length).sum
  room : plan.usedChars ≤ maxChars
  spoken : ∀ s ∈ plan.selected, ¬ Blank p s.text
  apart : plan.selected.Pairwise fun s t => ¬ Within p s.text t.text ∧ ¬ Within p t.text s.text

variable {p} {maxChars : ℕ} {plan plan' : BudgetPlan} {item : RankedContextItem} {items offered : List RankedContextItem}

/-- What is used stays within the budget. -/
theorem BudgetPlan.step_room (hroom : plan.usedChars ≤ maxChars) (h : BudgetPlan.step p maxChars plan item = .ok plan') :
    plan'.usedChars ≤ maxChars := by
  simp only [BudgetPlan.step] at h
  split_ifs at h with hredundant hfull
  · cases h
    exact hroom
  · cases h
    exact hroom
  · cases h
    exact Nat.le_of_not_lt hfull

/-- One more item is taken up or left out. -/
theorem BudgetPlan.Splits.step (hplan : plan.Splits p maxChars offered) (h : BudgetPlan.step p maxChars plan item = .ok plan') :
    plan'.Splits p maxChars (offered ++ [item]) := by
  have hroom := BudgetPlan.step_room hplan.room h
  cases BudgetPlan.step_cases h with
  | redundant | budget =>
    refine ⟨?_, hplan.used, hroom, hplan.spoken, hplan.apart⟩
    rw [List.map_append, ← List.append_assoc]
    exact hplan.once.append_right _
  | selected hspoken hnew =>
    refine ⟨?_, ?_, hroom, ?_, ?_⟩
    · rw [List.append_assoc]
      refine (List.perm_append_comm.append_left _).trans ?_
      rw [← List.append_assoc]
      exact hplan.once.append_right _
    · rw [hplan.used, List.map_append, List.sum_append, List.map_singleton, List.sum_singleton]
    · intro s hs
      rcases List.mem_append.mp hs with hs | hs
      · exact hplan.spoken s hs
      · rw [List.mem_singleton.mp hs]
        exact hspoken
    · refine List.pairwise_append.mpr ⟨hplan.apart, List.pairwise_singleton _ _, fun s hs t ht => ?_⟩
      rw [List.mem_singleton.mp ht]
      exact (hnew s hs).symm

/-- **A plan splits what it is offered.** -/
theorem foldlM_splits (items : List RankedContextItem) : ∀ {plan : BudgetPlan} {offered : List RankedContextItem},
    plan.Splits p maxChars offered → items.foldlM (BudgetPlan.step p maxChars) plan = .ok plan' →
      plan'.Splits p maxChars (offered ++ items) := by
  induction items with
  | nil =>
    intro plan offered hplan h
    cases h
    rwa [List.append_nil]
  | cons item items ih =>
    intro plan offered hplan h
    rw [List.foldlM_cons] at h
    obtain ⟨next, hstep, hrest⟩ := bind_eq_ok.mp h
    have hsplits := ih (hplan.step hstep) hrest
    rwa [List.append_assoc] at hsplits

theorem splits_empty : BudgetPlan.Splits p maxChars [] {} where
  once := .nil
  used := rfl
  room := Nat.zero_le _
  spoken := fun _ h => (nomatch h)
  apart := .nil

end Plans

end Knolo.Skills

namespace Knolo.Skills.Selection

open Script Harness Library Library.Fallible Library.StableSort

/-! ### A compilation -/

/-- What is remembered: items, a source, or several that are composed. -/
inductive MemoryInput where
  | items (values : List MemoryItemV1)
  | source (k : ℕ)
  | composed (sources : List MemoryOption)

/-- From what a context is compiled. -/
structure CompileContextInput where
  task : TaskV1
  capabilities : AgentCapabilitiesV1
  dependencyRoot : String
  evidence : Option EvidenceOption := none
  memories : Option MemoryInput := none
  skills : List SkillItemV1 := []
  contextBudget : Option ContextBudgetV1 := none
  semanticRerank : Bool := false
  semanticRerankModel : Option String := none

/-- An item that was selected. -/
structure ContextSelectionEntryV1 where
  kind : ContextItemKindV1
  id : String
  chars : ℕ
  score : JsNumber
  required : Bool
  deriving DecidableEq

/-- An item that was left out. -/
structure ContextDropV1 where
  kind : ContextItemKindV1
  id : String
  reason : ContextDropReason
  deriving DecidableEq

/-- That evidence was reranked, and by what. -/
structure SemanticRerankRecordV1 where
  model : Option String
  deriving DecidableEq

/-- What was selected, and what was not. -/
structure ContextSelectionReceiptV1 where
  query : String
  selected : List ContextSelectionEntryV1
  dropped : List ContextDropV1
  maxChars : ℕ
  usedChars : ℕ
  semanticRerank : Option SemanticRerankRecordV1
  deriving DecidableEq

/-- An envelope, its receipts, and what was selected for it. -/
structure CompiledContext where
  envelope : ContextEnvelopeV1
  receipts : List String
  selection : ContextSelectionReceiptV1
  selectionRoot : String

/-- The text of a reason. -/
def reasonText : ContextDropReason → String
  | .redundant => "redundant"
  | .budget => "budget"

/-- An entry as a value. -/
def ContextSelectionEntryV1.value (e : ContextSelectionEntryV1) : JsValue :=
  .object [("kind", .string e.kind.text), ("id", .string e.id), ("chars", .number (.finite e.chars)),
    ("score", .number e.score), ("required", .bool e.required)]

/-- A drop as a value. -/
def ContextDropV1.value (d : ContextDropV1) : JsValue :=
  .object [("kind", .string d.kind.text), ("id", .string d.id), ("reason", .string (reasonText d.reason))]

/-- The record of a reranking as a value. -/
def SemanticRerankRecordV1.value (r : SemanticRerankRecordV1) : JsValue :=
  .object <| [("kind", .string "external-effect"), ("effect", .string "semantic-rerank"), ("deterministic", .bool false)] ++
    (r.model.map fun model => ("model", JsValue.string model)).toList

/-- A receipt as a value. -/
def ContextSelectionReceiptV1.value (r : ContextSelectionReceiptV1) : JsValue :=
  .object [("version", .number (.finite 1)), ("query", .string r.query), ("lexical", .bool true),
    ("selected", .array (r.selected.map (·.value))), ("dropped", .array (r.dropped.map (·.value))),
    ("budget", .object [("maxChars", .number (.finite r.maxChars)), ("usedChars", .number (.finite r.usedChars))]),
    ("semanticRerank", (r.semanticRerank.map (·.value)).getD .null)]

/-- The entry of an item. -/
def entry (item : RankedContextItem) : ContextSelectionEntryV1 where
  kind := item.kind
  id := item.id
  chars := (codeUnits item.text).length
  score := item.score
  required := item.required

/-- The drop of an item. -/
def drop (d : RankedContextItem × ContextDropReason) : ContextDropV1 where
  kind := d.1.kind
  id := d.1.id
  reason := d.2

/-- What of an input does not depend on its memories. -/
def CompileContextInput.withoutMemories (input : CompileContextInput) : Skills.CompileContextInput where
  task := input.task
  capabilities := input.capabilities
  dependencyRoot := input.dependencyRoot
  evidence := input.evidence
  skills := input.skills
  contextBudget := input.contextBudget
  semanticRerank := input.semanticRerank

variable (p : Platform)

/-- `resolveMemories`. -/
def resolveMemories (source : Option MemoryInput) (query : String) : SessionM (List MemoryItemV1) :=
  match source with
  | none => pure []
  | some (.items values) =>
    pure <| values.map fun item =>
      { item with score := some (item.score.getD (.finite (lexicalScore p.toLanguage query item.text))) }
  | some (.source k) => recallFrom query (.source k)
  | some (.composed sources) => composeMemories p sources query

/-- A plan, with its receipt. -/
def compiledOf (input : CompileContextInput) (plan : BudgetPlan) (maxChars : ℕ) : CompiledContext :=
  let selection : ContextSelectionReceiptV1 := {
    query := input.task.objective
    selected := plan.selected.map entry
    dropped := plan.dropped.map drop
    maxChars := maxChars
    usedChars := plan.usedChars
    semanticRerank := if input.semanticRerank then some ⟨nonEmpty input.semanticRerankModel⟩ else none }
  let selectionRoot := "context-selection:" ++ p.sha256Hex selection.value
  { envelope := envelopeOf input.withoutMemories plan
    receipts := [selectionRoot]
    selection := selection
    selectionRoot := selectionRoot }

/-- `compileContext`. -/
def compileContext (input : CompileContextInput) : SessionM CompiledContext := do
  let query := input.task.objective
  let evidence := markRequired p (input.task.evidenceRequirements.getD []) (← resolveEvidence p input.evidence query)
  let reranked ← rerankEvidence input.semanticRerank evidence query
  let memories ← resolveMemories p input.memories query
  let items := contextItems p input.withoutMemories reranked memories
  let plan ← Prog.ofExcept (applyBudget p items input.contextBudget)
  let maxChars ← Prog.ofExcept (maxCharsFromBudget input.contextBudget)
  return compiledOf p input plan maxChars

/-! ### The partition -/

/-- The evidence and the memories of a compilation. -/
def gather (input : CompileContextInput) : SessionM (List EvidenceItemV1 × List MemoryItemV1) := do
  let query := input.task.objective
  let evidence := markRequired p (input.task.evidenceRequirements.getD []) (← resolveEvidence p input.evidence query)
  let reranked ← rerankEvidence input.semanticRerank evidence query
  return (reranked, ← resolveMemories p input.memories query)

/-- The items that a compilation is offered. -/
def offered (input : CompileContextInput) (evidence : List EvidenceItemV1) (memories : List MemoryItemV1) :
    List RankedContextItem :=
  evidence.map (rankedEvidence p input.task.objective) ++ input.task.constraints.map rankedConstraint ++
    input.skills.map (rankedSkill p input.task.objective) ++ memories.map (rankedMemory p input.task.objective)

/-- What a compilation makes of the items that it is offered: every one is selected or dropped, once; what is
selected fills the room that is said, and no more than there is; each selected item says something, and no
two are within one another; and the lists of the envelope are what is selected of their kind. -/
structure Partition (items : List RankedContextItem) (compiled : CompiledContext) (selected : List RankedContextItem)
    (dropped : List (RankedContextItem × ContextDropReason)) : Prop where
  once : (selected ++ dropped.map Prod.fst).Perm items
  entries : compiled.selection.selected = selected.map entry
  drops : compiled.selection.dropped = dropped.map drop
  used : compiled.selection.usedChars = (selected.map fun s => (codeUnits s.text).length).sum
  room : compiled.selection.usedChars ≤ compiled.selection.maxChars
  spoken : ∀ s ∈ selected, ¬ Blank p s.text
  apart : selected.Pairwise fun s t => ¬ Within p s.text t.text ∧ ¬ Within p t.text s.text
  evidence : compiled.envelope.evidence = (selected.filter (·.kind = .evidence)).map asJsonItem
  memories : compiled.envelope.memories = (selected.filter (·.kind = .memory)).map asJsonItem
  skills : compiled.envelope.skills = (selected.filter (·.kind = .skill)).map asJsonItem
  constraints : compiled.envelope.constraints =
    (selected.filter (·.kind = .constraint)).map fun item => ⟨item.id, item.text⟩

variable {p}

/-- The order in which items are taken up does not lose any. -/
theorem contextItems_perm (input : CompileContextInput) (evidence : List EvidenceItemV1) (memories : List MemoryItemV1) :
    (contextItems p input.withoutMemories evidence memories).Perm (offered p input evidence memories) := by
  unfold contextItems offered
  refine (List.Perm.append ?_ sortBy_perm).append sortBy_perm
  set ranked := evidence.map (rankedEvidence p input.task.objective)
  have hextra : (if input.semanticRerank then ranked.filter (!·.required)
      else sortBy (compareRank p) (ranked.filter (!·.required))).Perm (ranked.filter (!·.required)) := by
    split
    · rfl
    · exact sortBy_perm
  have hmiddle : (ranked.filter (·.required) ++ input.task.constraints.map rankedConstraint ++ ranked.filter (!·.required)).Perm
      (ranked.filter (·.required) ++ ranked.filter (!·.required) ++ input.task.constraints.map rankedConstraint) := by
    rw [List.append_assoc, List.append_assoc]
    exact List.perm_append_comm.append_left _
  exact ((sortBy_perm.append_right _).append hextra).trans (hmiddle.trans ((List.filter_append_perm _ _).append_right _))

/-- A compilation gathers what there is, and applies the budget. -/
theorem compileContext_eq (input : CompileContextInput) : compileContext p input = (do
    let found ← gather p input
    let plan ← Prog.ofExcept (applyBudget p (contextItems p input.withoutMemories found.1 found.2) input.contextBudget)
    let maxChars ← Prog.ofExcept (maxCharsFromBudget input.contextBudget)
    return compiledOf p input plan maxChars) := by
  simp only [gather, Prog.bind_assoc, Prog.pure_def, Prog.ret_bind]
  rfl

/-- **A compilation selects or drops every item it is offered, once**, and what it selects is within its
budget and without repetition. Where it reranks, its evidence is what the reranking gives back. -/
theorem compileContext_partition {H : Type} {h : Host SessionCall SessionCall.Answer H} {x y : H}
    {input : CompileContextInput} {compiled : CompiledContext}
    (hrun : (compileContext p input).play h x = .ok (compiled, y)) :
    ∃ evidence memories selected dropped, (gather p input).play h x = .ok ((evidence, memories), y) ∧
      maxCharsFromBudget input.contextBudget = .ok compiled.selection.maxChars ∧
      Partition p (offered p input evidence memories) compiled selected dropped := by
  rw [compileContext_eq, Prog.play_bind] at hrun
  obtain ⟨⟨⟨evidence, memories⟩, z⟩, hgather, hrun⟩ := bind_eq_ok.mp hrun
  rw [Prog.play_ofExcept_bind] at hrun
  obtain ⟨plan, hplan, hrun⟩ := bind_eq_ok.mp hrun
  rw [Prog.play_ofExcept_bind] at hrun
  obtain ⟨maxChars, hmax, hrun⟩ := bind_eq_ok.mp hrun
  obtain ⟨maxChars', hmax', hfold⟩ := bind_eq_ok.mp hplan
  obtain rfl : maxChars' = maxChars := Except.ok.inj (hmax'.symm.trans hmax)
  cases hrun
  have hsplits := foldlM_splits _ splits_empty hfold
  rw [List.nil_append] at hsplits
  exact ⟨evidence, memories, plan.selected, plan.dropped, hgather, hmax, {
    once := hsplits.once.trans (contextItems_perm input evidence memories)
    entries := rfl
    drops := rfl
    used := hsplits.used
    room := hsplits.room
    spoken := hsplits.spoken
    apart := hsplits.apart
    evidence := rfl
    memories := rfl
    skills := rfl
    constraints := rfl }⟩

/-- A required item, an item that repeats it, and memories for a room of twelve characters. -/
def sampleInput : CompileContextInput where
  task := { successCriteria := [], objective := "" }
  capabilities := ⟨true⟩
  dependencyRoot := "root"
  evidence := some (.items [⟨"a", "approve", none, true, none⟩, ⟨"b", "do not approve", none, false, none⟩])
  memories := some (.items [⟨"m", "lunch", none⟩, ⟨"n", "dinner", none⟩])
  contextBudget := some { maxChars := some (.finite 12) }

/-- What repeats the required item is dropped, and so is the memory for which there is no room. -/
theorem compileContext_partition_sample : ∃ compiled evidence memories selected dropped,
    (compileContext samplePlatform sampleInput).play sampleHost [] = .ok (compiled, []) ∧
      Partition samplePlatform (offered samplePlatform sampleInput evidence memories) compiled selected dropped ∧
        compiled.selection.dropped = [⟨.evidence, "b", .redundant⟩, ⟨.memory, "n", .budget⟩] := by
  obtain ⟨compiled, hrun, hdropped⟩ : ∃ compiled,
      (compileContext samplePlatform sampleInput).play sampleHost [] = .ok (compiled, []) ∧
        compiled.selection.dropped = [⟨.evidence, "b", .redundant⟩, ⟨.memory, "n", .budget⟩] := by
    refine ⟨_, rfl, ?_⟩
    decide +kernel
  obtain ⟨evidence, memories, selected, dropped, -, -, hpartition⟩ := compileContext_partition hrun
  exact ⟨compiled, evidence, memories, selected, dropped, hrun, hpartition, hdropped⟩

/-! ### Sessions -/

/-- What a session compiles. -/
def ofSession (input : Skills.CompileContextInput) : CompileContextInput where
  task := input.task
  capabilities := input.capabilities
  dependencyRoot := input.dependencyRoot
  evidence := input.evidence
  memories := some (.composed input.memories)
  skills := input.skills
  contextBudget := input.contextBudget
  semanticRerank := input.semanticRerank

/-- **A session compiles its context so**, from the memories that it composes. -/
theorem compileContext_session (input : Skills.CompileContextInput) :
    Skills.compileContext p input = (do return (← compileContext p (ofSession input)).envelope) := by
  rw [compileContext_eq, Skills.compileContext_eq]
  simp only [Prog.bind_assoc]
  congr 1
  funext found
  cases hmax : maxCharsFromBudget input.contextBudget with
  | error e =>
    have hplan (items : List RankedContextItem) : applyBudget p items input.contextBudget = .error e := by
      rw [applyBudget, hmax, error_bind]
    rw [hplan]
    change _ = (Prog.ofExcept (applyBudget p _ input.contextBudget) >>= _ : SessionM _)
    rw [hplan]
    rfl
  | ok maxChars =>
    refine congrArg _ (funext fun plan => ?_)
    change _ = (Prog.ofExcept (maxCharsFromBudget input.contextBudget) >>= _ : SessionM _)
    rw [hmax]
    rfl

end Knolo.Skills.Selection
