import Knolo.Skills.Session

/-!
# What is required of a context

`compileContext` takes items up in their order. An item is redundant if its text is within one that
is taken up already, and also if such a text is within it; neither an item of evidence that is
required, nor a constraint, nor a skill that is required is an exception.

* `BudgetPlan.step_keeps` — of the texts that are taken up, none is a part of another;
* `required_kept_iff` — the texts of the required items are said by what is taken up exactly if
  none of them meets a text that is only a part of it;
* `compileContext_kept_iff` — so it is for a run, whatever it is answered;
* `prohibition_lost` — a run that loses `do not approve` to `approve`.
-/

namespace Knolo.Skills

open Script Harness Library Library.Fallible Library.StableSort

variable (p : Platform)

/-! ### Texts within texts -/

/-- A text is within another, both normalized. -/
def Within (t s : String) : Prop :=
  includes (normalizeText p.toLanguage s) (normalizeText p.toLanguage t) = true

instance (t s : String) : Decidable (Within p t s) := inferInstanceAs (Decidable (_ = true))

/-- A text that says nothing. -/
def Blank (t : String) : Prop := (normalizeText p.toLanguage t).isEmpty = true

instance (t : String) : Decidable (Blank p t) := inferInstanceAs (Decidable (_ = true))

variable {p}

theorem within_iff {t s : String} :
    Within p t s ↔ (normalizeText p.toLanguage t).toList <:+: (normalizeText p.toLanguage s).toList := by
  simp only [Within, includes, decide_eq_true_eq]

theorem Within.refl (t : String) : Within p t t := within_iff.mpr List.infix_rfl

theorem Within.trans {t s r : String} (h : Within p t s) (h' : Within p s r) : Within p t r :=
  within_iff.mpr ((within_iff.mp h).trans (within_iff.mp h'))

theorem Blank.within {t : String} (h : Blank p t) (s : String) : Within p t s := by
  have ht : normalizeText p.toLanguage t = "" := String.isEmpty_iff.mp h
  rw [within_iff, ht]
  exact List.nil_infix

theorem Within.blank {t s : String} (h : Within p t s) (hs : Blank p s) : Blank p t := by
  have hs : normalizeText p.toLanguage s = "" := String.isEmpty_iff.mp hs
  rw [within_iff, hs] at h
  have ht : (normalizeText p.toLanguage t).toList = [] := List.infix_nil.mp h
  exact String.isEmpty_iff.mpr (String.toList_eq_nil_iff.mp ht)

/-- When an item is redundant. -/
theorem isRedundant_iff {t : String} {selected : List String} : isRedundant p.toLanguage t selected = true ↔
    Blank p t ∨ ∃ s ∈ selected, Within p t s ∨ Within p s t := by
  simp only [isRedundant, Blank, Bool.or_eq_true, List.any_eq_true, decide_eq_true_eq]
  refine or_congr_right (exists_congr fun s => and_congr_right fun _ => ?_)
  constructor
  · rintro ((h | h) | h)
    · refine .inl (within_iff.mpr ?_)
      rw [h]
    · exact .inl h
    · exact .inr h
  · rintro (h | h)
    · exact .inl (.inr h)
    · exact .inr h

/-! ### What a plan takes up -/

variable (p)

/-- A text is said by something that a plan has taken up. -/
def BudgetPlan.Says (plan : BudgetPlan) (t : String) : Prop := ∃ s ∈ plan.selected, Within p t s.text

/-- A plan has taken up a text that is only a part of `t`. -/
def BudgetPlan.Cuts (plan : BudgetPlan) (t : String) : Prop :=
  ∃ s ∈ plan.selected, Within p s.text t ∧ ¬ Within p t s.text

/-- Of the texts that a plan has taken up, each says something and none is a part of another. -/
structure BudgetPlan.Apart (plan : BudgetPlan) : Prop where
  spoken : ∀ s ∈ plan.selected, ¬ Blank p s.text
  apart : ∀ s ∈ plan.selected, ∀ t ∈ plan.selected, Within p s.text t.text → Within p t.text s.text

/-- What a step does. -/
inductive BudgetPlan.Stepped (maxChars : ℕ) (plan : BudgetPlan) (item : RankedContextItem) : BudgetPlan → Prop where
  /-- The item is left out as redundant. -/
  | redundant : (Blank p item.text ∨ ∃ s ∈ plan.selected, Within p item.text s.text ∨ Within p s.text item.text) →
      Stepped maxChars plan item { plan with dropped := plan.dropped ++ [(item, .redundant)] }
  /-- The item is left out for the budget. -/
  | budget : ¬ Blank p item.text → maxChars < plan.usedChars + (codeUnits item.text).length →
      item.required = false → Stepped maxChars plan item { plan with dropped := plan.dropped ++ [(item, .budget)] }
  /-- The item is taken up. -/
  | selected : ¬ Blank p item.text →
      (∀ s ∈ plan.selected, ¬ Within p item.text s.text ∧ ¬ Within p s.text item.text) →
      Stepped maxChars plan item { plan with
        selected := plan.selected ++ [item]
        usedChars := plan.usedChars + (codeUnits item.text).length }

variable {p} {maxChars : ℕ} {plan plan' : BudgetPlan} {item : RankedContextItem} {items : List RankedContextItem}

theorem BudgetPlan.step_cases (h : BudgetPlan.step p maxChars plan item = .ok plan') :
    BudgetPlan.Stepped p maxChars plan item plan' := by
  have hredundant : isRedundant p.toLanguage item.text (plan.selected.map (·.text)) = true ↔ _ := isRedundant_iff
  simp only [List.mem_map, exists_exists_and_eq_and] at hredundant
  simp only [BudgetPlan.step] at h
  by_cases hr : isRedundant p.toLanguage item.text (plan.selected.map (·.text)) = true
  · rw [if_pos hr] at h
    cases h
    exact .redundant (hredundant.mp hr)
  · rw [if_neg hr] at h
    have hnot := mt hredundant.mpr hr
    push Not at hnot
    split_ifs at h with hfull hrequired
    · cases h
      exact .budget hnot.1 hfull (Bool.eq_false_iff.mpr hrequired)
    · cases h
      exact .selected hnot.1 hnot.2

/-- What a plan says, it still says after a step. -/
theorem BudgetPlan.step_reports (h : BudgetPlan.step p maxChars plan item = .ok plan') :
    plan.selected ⊆ plan'.selected := by
  cases BudgetPlan.step_cases h with
  | redundant => exact List.Subset.refl _
  | budget => exact List.Subset.refl _
  | selected => exact List.subset_append_left _ _

/-- **Of the texts that are taken up, none is a part of another.** -/
theorem BudgetPlan.step_keeps (hplan : plan.Apart p) (h : BudgetPlan.step p maxChars plan item = .ok plan') :
    plan'.Apart p := by
  cases BudgetPlan.step_cases h with
  | redundant => exact ⟨hplan.spoken, hplan.apart⟩
  | budget => exact ⟨hplan.spoken, hplan.apart⟩
  | selected hspoken hnew =>
    constructor
    · intro s hs
      rcases List.mem_append.mp hs with hs | hs
      · exact hplan.spoken s hs
      · obtain rfl := List.mem_singleton.mp hs
        exact hspoken
    · intro s hs t ht hst
      rcases List.mem_append.mp hs with hold | hs <;> rcases List.mem_append.mp ht with hold' | ht
      · exact hplan.apart s hold t hold' hst
      · obtain rfl := List.mem_singleton.mp ht
        exact absurd hst (hnew s hold).2
      · obtain rfl := List.mem_singleton.mp hs
        exact absurd hst (hnew t hold').1
      · obtain rfl := List.mem_singleton.mp hs
        obtain rfl := List.mem_singleton.mp ht
        exact .refl _

/-- A required item is said after its step, unless it says nothing or meets a part of itself. -/
theorem BudgetPlan.step_required (h : BudgetPlan.step p maxChars plan item = .ok plan')
    (hrequired : item.required = true) (hspoken : ¬ Blank p item.text) (hcut : ¬ plan.Cuts p item.text) :
    plan'.Says p item.text := by
  cases BudgetPlan.step_cases h with
  | redundant hr =>
    rcases hr with hr | ⟨s, hs, hr | hr⟩
    · exact absurd hr hspoken
    · exact ⟨s, hs, hr⟩
    · refine ⟨s, hs, ?_⟩
      by_contra hnot
      exact hcut ⟨s, hs, hr, hnot⟩
  | budget _ _ hoptional => rw [hrequired] at hoptional; cases hoptional
  | selected => exact ⟨item, List.mem_append_right _ (.head _), .refl _⟩

/-! ### Runs over a list of items -/

/-- What is taken up stays. -/
theorem foldlM_selected (h : items.foldlM (BudgetPlan.step p maxChars) plan = .ok plan') :
    plan.selected ⊆ plan'.selected :=
  Traverse.foldlM_keeps (I := fun other => plan.selected ⊆ other.selected)
    (fun _ _ _ _ hsub hstep => List.Subset.trans hsub (BudgetPlan.step_reports hstep)) (List.Subset.refl _) h

theorem foldlM_apart (hplan : plan.Apart p) (h : items.foldlM (BudgetPlan.step p maxChars) plan = .ok plan') :
    plan'.Apart p :=
  Traverse.foldlM_keeps (I := fun other => other.Apart p)
    (fun _ _ _ _ hkept hstep => BudgetPlan.step_keeps hkept hstep) hplan h

/-- What a plan has cut, a plan that goes on from it does not say. -/
theorem BudgetPlan.Apart.not_reported {t : String} (hplan : plan'.Apart p) (hsub : plan.selected ⊆ plan'.selected)
    (hcut : plan.Cuts p t) : ¬ plan'.Says p t := by
  rintro ⟨r, hr, hwithin⟩
  obtain ⟨s, hs, hpart, hnot⟩ := hcut
  have hback := hplan.apart s (hsub hs) r hr (hpart.trans hwithin)
  exact hnot (hwithin.trans hback)

variable (p maxChars) in
/-- An item that is taken up where nothing is taken up yet. -/
def Opens (item : RankedContextItem) : Prop := ¬ Blank p item.text ∧ (codeUnits item.text).length ≤ maxChars

/-- Something is taken up exactly if there is an item to begin with. -/
theorem foldlM_selected_nil_iff (h : items.foldlM (BudgetPlan.step p maxChars) {} = .ok plan) :
    plan.selected = [] ↔ ∀ item ∈ items, ¬ Opens p maxChars item := by
  suffices hgo : ∀ {start : BudgetPlan}, start.selected = [] → start.usedChars = 0 →
      items.foldlM (BudgetPlan.step p maxChars) start = .ok plan →
      (plan.selected = [] ↔ ∀ item ∈ items, ¬ Opens p maxChars item) from hgo rfl rfl h
  clear h
  intro start hnone hused h
  induction items generalizing start with
  | nil =>
    cases h
    exact iff_of_true hnone fun _ h => nomatch h
  | cons item items ih =>
    rw [List.foldlM_cons] at h
    obtain ⟨next, hstep, hrest⟩ := bind_eq_ok.mp h
    rw [List.forall_mem_cons]
    have hopen : Opens p maxChars item → item ∈ next.selected := by
      rintro ⟨hspoken, hroom⟩
      cases BudgetPlan.step_cases hstep with
      | redundant hr =>
        rcases hr with hr | ⟨s, hs, -⟩
        · exact absurd hr hspoken
        · rw [hnone] at hs
          cases hs
      | budget _ hfull => omega
      | selected => exact List.mem_append_right _ (.head _)
    by_cases hitem : Opens p maxChars item
    · refine iff_of_false (List.ne_nil_of_mem (foldlM_selected hrest (hopen hitem))) ?_
      exact fun hnot => hnot.1 hitem
    · rw [and_iff_right hitem]
      have hsame : next.selected = [] ∧ next.usedChars = 0 := by
        have hstepped := hstep
        simp only [BudgetPlan.step] at hstepped
        split_ifs at hstepped with hr hfull
        · cases hstepped
          exact ⟨hnone, hused⟩
        · cases hstepped
          exact ⟨hnone, hused⟩
        · refine absurd ⟨fun hblank => hr (isRedundant_iff.mpr (.inl hblank)), ?_⟩ hitem
          omega
      exact ih hsame.1 hsame.2 hrest

/-! ### What is required -/

variable (p maxChars) in
/-- No required item of a list meets a part of itself; and where one says nothing, there is an item
to begin with. -/
structure Uncut (items : List RankedContextItem) : Prop where
  whole : ∀ before item after plan, items = before ++ item :: after → item.required = true →
    before.foldlM (BudgetPlan.step p maxChars) {} = .ok plan → ¬ plan.Cuts p item.text
  spoken : ∀ item ∈ items, item.required = true → Blank p item.text → ∃ other ∈ items, Opens p maxChars other

theorem apart_empty : BudgetPlan.Apart p {} := ⟨fun _ h => (nomatch h), fun _ h => (nomatch h)⟩

/-- **The texts of the required items are said by what is taken up exactly if none of them meets a
text that is only a part of it.** -/
theorem required_kept_iff (h : items.foldlM (BudgetPlan.step p maxChars) {} = .ok plan) :
    (∀ item ∈ items, item.required = true → plan.Says p item.text) ↔ Uncut p maxChars items := by
  have hsome : (∃ s, s ∈ plan.selected) ↔ ∃ item ∈ items, Opens p maxChars item := by
    have hnil := not_congr (foldlM_selected_nil_iff h)
    push Not at hnil
    rw [← hnil]
    exact ⟨fun ⟨_, hs⟩ => List.ne_nil_of_mem hs, List.exists_mem_of_ne_nil _⟩
  constructor
  · intro hreported
    constructor
    · rintro before item after met rfl hrequired hbefore hcut
      rw [List.foldlM_append, hbefore] at h
      have hplan : plan.Apart p := foldlM_apart (foldlM_apart apart_empty hbefore) h
      exact hplan.not_reported (foldlM_selected h) hcut (hreported item (by simp) hrequired)
    · intro item hitem hrequired _
      obtain ⟨s, hs, -⟩ := hreported item hitem hrequired
      exact hsome.mp ⟨s, hs⟩
  · rintro ⟨hwhole, hspoken⟩ item hitem hrequired
    by_cases hblank : Blank p item.text
    · obtain ⟨s, hs⟩ := hsome.mpr (hspoken item hitem hrequired hblank)
      exact ⟨s, hs, hblank.within _⟩
    · obtain ⟨before, after, rfl⟩ := List.append_of_mem hitem
      rw [List.foldlM_append] at h
      obtain ⟨met, hbefore, h⟩ := bind_eq_ok.mp h
      rw [List.foldlM_cons] at h
      obtain ⟨next, hstep, hafter⟩ := bind_eq_ok.mp h
      have hcut := hwhole before item after met rfl hrequired hbefore
      obtain ⟨s, hs, hwithin⟩ := BudgetPlan.step_required hstep hrequired hblank hcut
      exact ⟨s, foldlM_selected hafter hs, hwithin⟩

/-! ### Of a run -/

variable (p)

/-- The evidence and the memories of a run. -/
def gather (input : CompileContextInput) : SessionM (List EvidenceItemV1 × List MemoryItemV1) := do
  let query := input.task.objective
  let evidence := markRequired p (input.task.evidenceRequirements.getD []) (← resolveEvidence p input.evidence query)
  let reranked ← rerankEvidence input.semanticRerank evidence query
  return (reranked, ← composeMemories p input.memories query)

/-- The items of a run, in the order in which they are taken up. -/
def contextItems (input : CompileContextInput) (evidence : List EvidenceItemV1) (memories : List MemoryItemV1) :
    List RankedContextItem :=
  let query := input.task.objective
  let ranked := evidence.map (rankedEvidence p query)
  let rest := ranked.filter (!·.required)
  sortBy (fun a b => p.collate a.id b.id) (ranked.filter (·.required)) ++
    input.task.constraints.map rankedConstraint ++
    (if input.semanticRerank then rest else sortBy (compareRank p) rest) ++
    sortBy (fun a b => (compare b.required a.required).then (compareRank p a b))
      (input.skills.map (rankedSkill p query)) ++
    sortBy (compareRank p) (memories.map (rankedMemory p query))

variable {p}

/-- The envelope of a plan. -/
def envelopeOf (input : CompileContextInput) (plan : BudgetPlan) : ContextEnvelopeV1 :=
  let chosen := fun kind => plan.selected.filter (·.kind = kind)
  { task := input.task
    evidence := (chosen .evidence).map asJsonItem
    memories := (chosen .memory).map asJsonItem
    skills := (chosen .skill).map asJsonItem
    constraints := (chosen .constraint).map fun item => ⟨item.id, item.text⟩
    capabilities := input.capabilities
    dependencyRoot := input.dependencyRoot }

/-- What a run has to say: its required evidence, its constraints and its required skills. -/
def requiredTexts (input : CompileContextInput) (evidence : List EvidenceItemV1) : List String :=
  (evidence.filter (·.required)).map (·.text) ++ input.task.constraints.map (·.description) ++
    (input.skills.filter (·.required)).map (·.text)

/-- What an envelope says. -/
def ContextEnvelopeV1.texts (envelope : ContextEnvelopeV1) : List String :=
  envelope.evidence.map (·.text) ++ envelope.constraints.map (·.description) ++
    envelope.skills.map (·.text) ++ envelope.memories.map (·.text)

/-- The required items are those that a run has to say. -/
theorem mem_requiredTexts {input : CompileContextInput} {evidence : List EvidenceItemV1} {memories : List MemoryItemV1}
    {t : String} : t ∈ requiredTexts input evidence ↔
      ∃ item ∈ contextItems p input evidence memories, item.required = true ∧ item.text = t := by
  have hrest : ∀ item, item ∈ (if input.semanticRerank then
        (evidence.map (rankedEvidence p input.task.objective)).filter (!·.required)
      else sortBy (compareRank p) ((evidence.map (rankedEvidence p input.task.objective)).filter (!·.required))) ↔
      item ∈ (evidence.map (rankedEvidence p input.task.objective)).filter (!·.required) := by
    intro item
    split
    · rfl
    · exact mem_sortBy
  simp only [requiredTexts, contextItems, List.mem_append, or_and_right, exists_or, mem_sortBy, hrest, List.mem_map,
    List.mem_filter, Bool.not_eq_true']
  constructor
  · rintro ((⟨item, ⟨hitem, hrequired⟩, rfl⟩ | ⟨constraint, hconstraint, rfl⟩) | ⟨skill, ⟨hskill, hrequired⟩, rfl⟩)
    · exact .inl (.inl (.inl (.inl ⟨_, ⟨⟨item, hitem, rfl⟩, hrequired⟩, hrequired, rfl⟩)))
    · exact .inl (.inl (.inl (.inr ⟨_, ⟨constraint, hconstraint, rfl⟩, rfl, rfl⟩)))
    · exact .inl (.inr ⟨_, ⟨skill, hskill, rfl⟩, hrequired, rfl⟩)
  · rintro ((((⟨_, ⟨⟨item, hitem, rfl⟩, hrequired⟩, -, rfl⟩ | ⟨_, ⟨constraint, hconstraint, rfl⟩, -, rfl⟩) |
      ⟨_, ⟨-, hoptional⟩, hrequired, -⟩) | ⟨_, ⟨skill, hskill, rfl⟩, hrequired, rfl⟩) | ⟨_, ⟨_, -, rfl⟩, hrequired, -⟩)
    · exact .inl (.inl ⟨item, ⟨hitem, hrequired⟩, rfl⟩)
    · exact .inl (.inr ⟨constraint, hconstraint, rfl⟩)
    · rw [hrequired] at hoptional
      cases hoptional
    · exact .inr ⟨skill, ⟨hskill, hrequired⟩, rfl⟩
    · cases hrequired

/-- What is taken up is said by the envelope. -/
theorem mem_texts {input : CompileContextInput} {plan : BudgetPlan} {t : String} :
    t ∈ (envelopeOf input plan).texts ↔ ∃ s ∈ plan.selected, s.text = t := by
  simp only [ContextEnvelopeV1.texts, envelopeOf, List.map_map, List.mem_append, List.mem_map, List.mem_filter,
    Function.comp, asJsonItem, decide_eq_true_eq]
  constructor
  · rintro (((⟨s, ⟨hs, -⟩, rfl⟩ | ⟨s, ⟨hs, -⟩, rfl⟩) | ⟨s, ⟨hs, -⟩, rfl⟩) | ⟨s, ⟨hs, -⟩, rfl⟩) <;>
      exact ⟨s, hs, rfl⟩
  · rintro ⟨s, hs, rfl⟩
    cases hkind : s.kind with
    | evidence => exact .inl (.inl (.inl ⟨s, ⟨hs, hkind⟩, rfl⟩))
    | constraint => exact .inl (.inl (.inr ⟨s, ⟨hs, hkind⟩, rfl⟩))
    | skill => exact .inl (.inr ⟨s, ⟨hs, hkind⟩, rfl⟩)
    | memory => exact .inr ⟨s, ⟨hs, hkind⟩, rfl⟩

/-- A run gathers what there is, applies the budget, and puts what is taken up in an envelope. -/
theorem compileContext_eq (input : CompileContextInput) : compileContext p input = (do
    let found ← gather p input
    let plan ← Prog.ofExcept (applyBudget p (contextItems p input found.1 found.2) input.contextBudget)
    return envelopeOf input plan) := by
  simp only [gather, Prog.bind_assoc, Prog.pure_def, Prog.ret_bind]
  rfl

/-- **What a run has to say is in its envelope exactly if none of its required items meets a text that
is only a part of it.** Where a run reranks, its evidence is what the reranking gives back. -/
theorem compileContext_kept_iff {H : Type} {h : Host SessionCall SessionCall.Answer H} {x y : H}
    {input : CompileContextInput} {envelope : ContextEnvelopeV1}
    (hrun : (compileContext p input).play h x = .ok (envelope, y)) :
    ∃ evidence memories maxChars, (gather p input).play h x = .ok ((evidence, memories), y) ∧
      maxCharsFromBudget input.contextBudget = .ok maxChars ∧
      ((∀ t ∈ requiredTexts input evidence, ∃ s ∈ envelope.texts, Within p t s) ↔
        Uncut p maxChars (contextItems p input evidence memories)) := by
  rw [compileContext_eq, Prog.play_bind] at hrun
  obtain ⟨⟨⟨evidence, memories⟩, z⟩, hgather, hrun⟩ := bind_eq_ok.mp hrun
  rw [Prog.play_ofExcept_bind] at hrun
  obtain ⟨plan, hplan, hrun⟩ := bind_eq_ok.mp hrun
  obtain ⟨maxChars, hmax, hfold⟩ := bind_eq_ok.mp hplan
  cases hrun
  refine ⟨evidence, memories, maxChars, hgather, hmax, ?_⟩
  rw [← required_kept_iff hfold]
  constructor
  · intro hkept item hitem hrequired
    obtain ⟨_, htext, hwithin⟩ := hkept item.text (mem_requiredTexts.mpr ⟨item, hitem, hrequired, rfl⟩)
    obtain ⟨s, hs, rfl⟩ := mem_texts.mp htext
    exact ⟨s, hs, hwithin⟩
  · intro hreported t ht
    obtain ⟨item, hitem, hrequired, rfl⟩ := mem_requiredTexts.mp ht
    obtain ⟨s, hs, hwithin⟩ := hreported item hitem hrequired
    exact ⟨s.text, mem_texts.mpr ⟨s, hs, rfl⟩, hwithin⟩

/-! ### A prohibition that is lost -/

/-- A task with two items of evidence that are required. -/
def sampleContext (first second : String) : CompileContextInput where
  task := { successCriteria := [], objective := "" }
  capabilities := ⟨true⟩
  dependencyRoot := "root"
  evidence := some (.items [⟨"a", first, none, true, none⟩, ⟨"b", second, none, true, none⟩])

/-- Two items that say different things are kept. -/
theorem compileContext_kept_sample : ∃ evidence memories maxChars,
    (gather samplePlatform (sampleContext "approve" "reject")).play sampleHost [] = .ok ((evidence, memories), []) ∧
      maxCharsFromBudget none = .ok maxChars ∧
      ((∀ t ∈ requiredTexts (sampleContext "approve" "reject") evidence,
          ∃ s ∈ ["approve", "reject"], Within samplePlatform t s) ↔
        Uncut samplePlatform maxChars
          (contextItems samplePlatform (sampleContext "approve" "reject") evidence memories)) := by
  obtain ⟨envelope, hrun, htexts⟩ : ∃ envelope,
      (compileContext samplePlatform (sampleContext "approve" "reject")).play sampleHost [] = .ok (envelope, []) ∧
        envelope.texts = ["approve", "reject"] := by
    refine ⟨_, rfl, ?_⟩
    decide +kernel
  rw [← htexts]
  exact compileContext_kept_iff hrun

/-- **A run that has to say `approve` and `do not approve` says the first only.** -/
theorem prohibition_lost : ¬ ∀ (input : CompileContextInput) (evidence : List EvidenceItemV1)
    (memories : List MemoryItemV1) (envelope : ContextEnvelopeV1),
    (gather samplePlatform input).play sampleHost [] = .ok ((evidence, memories), []) →
    (compileContext samplePlatform input).play sampleHost [] = .ok (envelope, []) →
    ∀ t ∈ requiredTexts input evidence, ∃ s ∈ envelope.texts, Within samplePlatform t s := by
  intro hkept
  have hlost := hkept (sampleContext "approve" "do not approve") _ _ _ rfl rfl "do not approve" (by decide +kernel)
  revert hlost
  decide +kernel

end Knolo.Skills
