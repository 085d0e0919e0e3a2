import Knolo.Skills.Selection

/-!
# What optional context can starve

A required item for which there is no room is an error, an optional one is left out. Optional evidence is
taken up before the skills, so that it can take the room of a required skill; what comes after the required
skills cannot take the room of anything that is required.

* `fits_append_iff` — optional items at the end of a list do not matter.
* `compileContext_starves` — what optional items change about whether a compilation returns.
* `required_skill_starved` — an optional item of evidence that takes the room of a required skill.
-/

namespace Knolo.Skills.Selection

open Script Harness Library Library.Fallible Library.StableSort

/-! ### Lists that fit -/

section Fits

variable (p : Platform) (maxChars : ℕ)

/-- A plan goes on with items to its end. -/
def Fits (plan : BudgetPlan) (items : List RankedContextItem) : Prop :=
  ∃ plan', items.foldlM (BudgetPlan.step p maxChars) plan = .ok plan'

/-- The error of an item for which there is no room. -/
def exceeds (item : RankedContextItem) (used : ℕ) : String :=
  s!"required {item.kind.text} '{item.id}' exceeds context budget ({used} > {maxChars} chars)"

variable {p maxChars} {plan : BudgetPlan} {item : RankedContextItem} {items items' : List RankedContextItem}

/-- An optional item is no error. -/
theorem step_optional (h : item.required = false) : ∃ plan', BudgetPlan.step p maxChars plan item = .ok plan' := by
  unfold BudgetPlan.step
  dsimp only
  split_ifs with hredundant hfull hrequired
  · exact ⟨_, rfl⟩
  · rw [h] at hrequired
    cases hrequired
  · exact ⟨_, rfl⟩
  · exact ⟨_, rfl⟩

/-- An error is of a required item for which there is no room. -/
theorem step_error {e : String} (h : BudgetPlan.step p maxChars plan item = .error e) :
    item.required = true ∧ ∃ used, maxChars < used ∧ e = exceeds maxChars item used := by
  simp only [BudgetPlan.step] at h
  split_ifs at h with hredundant hfull hrequired
  cases h
  exact ⟨hrequired, _, hfull, rfl⟩

theorem foldlM_error : ∀ {plan : BudgetPlan} {e : String}, items.foldlM (BudgetPlan.step p maxChars) plan = .error e →
    ∃ item ∈ items, item.required = true ∧ ∃ used, maxChars < used ∧ e = exceeds maxChars item used := by
  induction items with
  | nil =>
    intro plan e h
    cases h
  | cons item items ih =>
    intro plan e h
    rw [List.foldlM_cons] at h
    rcases bind_eq_error.mp h with h | ⟨next, -, h⟩
    · exact ⟨item, .head _, step_error h⟩
    · obtain ⟨other, hother, herror⟩ := ih h
      exact ⟨other, .tail _ hother, herror⟩

theorem fits_of_optional (hoptional : ∀ item ∈ items, item.required = false) : Fits p maxChars plan items := by
  cases h : items.foldlM (BudgetPlan.step p maxChars) plan with
  | ok plan' => exact ⟨plan', h⟩
  | error e =>
    obtain ⟨item, hitem, hrequired, -⟩ := foldlM_error h
    rw [hoptional item hitem] at hrequired
    cases hrequired

/-- A list fits when its beginning does, and then its end. -/
theorem fits_append : Fits p maxChars plan (items ++ items') ↔
    ∃ plan', items.foldlM (BudgetPlan.step p maxChars) plan = .ok plan' ∧ Fits p maxChars plan' items' := by
  unfold Fits
  rw [List.foldlM_append]
  constructor
  · rintro ⟨last, h⟩
    obtain ⟨plan', hplan', hlast⟩ := bind_eq_ok.mp h
    exact ⟨plan', hplan', last, hlast⟩
  · rintro ⟨plan', hplan', last, hlast⟩
    exact ⟨last, bind_eq_ok.mpr ⟨plan', hplan', hlast⟩⟩

/-- **Optional items at the end do not matter.** -/
theorem fits_append_iff (hoptional : ∀ item ∈ items', item.required = false) :
    Fits p maxChars plan (items ++ items') ↔ Fits p maxChars plan items := by
  rw [fits_append]
  constructor
  · rintro ⟨plan', hplan', -⟩
    exact ⟨plan', hplan'⟩
  · rintro ⟨plan', hplan'⟩
    exact ⟨plan', hplan', fits_of_optional hoptional⟩

end Fits

/-! ### Without what is optional -/

/-- An input without the skills and the memories that are optional. -/
def CompileContextInput.withoutOptionalSkills (input : CompileContextInput) : CompileContextInput :=
  { input with memories := none, skills := input.skills.filter (·.required) }

/-- An input without anything optional, where `evidence` is what was gathered. -/
def CompileContextInput.withoutOptional (input : CompileContextInput) (evidence : List EvidenceItemV1) : CompileContextInput :=
  { input.withoutOptionalSkills with
    evidence := some (.items (evidence.filter (·.required)))
    semanticRerank := false }

variable {p : Platform} {input : CompileContextInput} {evidence : List EvidenceItemV1} {memories : List MemoryItemV1}

/-- The items of evidence and constraints, and of skills, that a compilation takes up first. -/
def requiredItems (p : Platform) (input : CompileContextInput) (evidence : List EvidenceItemV1) : List RankedContextItem :=
  sortBy (fun a b => p.collate a.id b.id) ((evidence.map (rankedEvidence p input.task.objective)).filter (·.required)) ++
    input.task.constraints.map rankedConstraint

/-- The optional evidence. -/
def optionalEvidence (p : Platform) (input : CompileContextInput) (evidence : List EvidenceItemV1) : List RankedContextItem :=
  let rest := (evidence.map (rankedEvidence p input.task.objective)).filter (!·.required)
  if input.semanticRerank then rest else sortBy (compareRank p) rest

/-- The required skills. -/
def requiredSkills (p : Platform) (input : CompileContextInput) : List RankedContextItem :=
  sortBy (fun a b => (compare b.required a.required).then (compareRank p a b))
    ((input.skills.map (rankedSkill p input.task.objective)).filter (·.required))

/-- The optional skills, and the memories. -/
def optionalTail (p : Platform) (input : CompileContextInput) (memories : List MemoryItemV1) : List RankedContextItem :=
  sortBy (fun a b => (compare b.required a.required).then (compareRank p a b))
      ((input.skills.map (rankedSkill p input.task.objective)).filter (!·.required)) ++
    sortBy (compareRank p) (memories.map (rankedMemory p input.task.objective))

/-- The order of the items: what is required and the optional evidence, the required skills, and the rest. -/
theorem contextItems_eq : contextItems p input.withoutMemories evidence memories =
    requiredItems p input evidence ++ optionalEvidence p input evidence ++ requiredSkills p input ++
      optionalTail p input memories := by
  have hskills := @sortBy_of_before RankedContextItem
    (fun a b => (compare b.required a.required).then (compareRank p a b)) (·.required)
    (fun a b ha hb => by rw [ha, hb]; exact ⟨fun h => (nomatch h), rfl⟩) (input.skills.map (rankedSkill p input.task.objective))
  unfold contextItems
  dsimp only [CompileContextInput.withoutMemories]
  rw [hskills, ← List.append_assoc, List.append_assoc _ _ (sortBy (compareRank p) (memories.map _))]
  rfl

theorem mem_optionalEvidence {item : RankedContextItem} : item ∈ optionalEvidence p input evidence ↔
    ∃ e ∈ evidence, e.required = false ∧ rankedEvidence p input.task.objective e = item := by
  have hmem : item ∈ optionalEvidence p input evidence ↔
      item ∈ (evidence.map (rankedEvidence p input.task.objective)).filter (!·.required) := by
    unfold optionalEvidence
    dsimp only
    split_ifs
    · rfl
    · exact mem_sortBy
  rw [hmem, List.mem_filter, List.mem_map]
  constructor
  · rintro ⟨⟨e, he, rfl⟩, hoptional⟩
    exact ⟨e, he, by simpa [rankedEvidence] using hoptional, rfl⟩
  · rintro ⟨e, he, hoptional, rfl⟩
    exact ⟨⟨e, he, rfl⟩, by simpa [rankedEvidence] using hoptional⟩

theorem optionalEvidence_optional : ∀ item ∈ optionalEvidence p input evidence, item.required = false := by
  intro item hitem
  obtain ⟨e, -, hoptional, rfl⟩ := mem_optionalEvidence.mp hitem
  exact hoptional

theorem optionalTail_optional : ∀ item ∈ optionalTail p input memories, item.required = false := by
  intro item hitem
  rcases List.mem_append.mp hitem with hitem | hitem
  · simpa using (List.mem_filter.mp (mem_sortBy.mp hitem)).2
  · obtain ⟨memory, -, rfl⟩ := List.mem_map.mp (mem_sortBy.mp hitem)
    rfl

theorem requiredSkills_withoutOptionalSkills : requiredSkills p input.withoutOptionalSkills = requiredSkills p input ∧
    optionalTail p input.withoutOptionalSkills [] = [] := by
  have hrequired : (input.skills.filter (·.required)).map (rankedSkill p input.task.objective) =
      (input.skills.map (rankedSkill p input.task.objective)).filter (·.required) := by
    rw [List.filter_map]
    rfl
  constructor
  · simp only [requiredSkills, CompileContextInput.withoutOptionalSkills, hrequired, List.filter_filter, Bool.and_self]
  · simp [optionalTail, CompileContextInput.withoutOptionalSkills, hrequired]

/-- The items without the optional skills and the memories. -/
theorem contextItems_withoutOptionalSkills : contextItems p input.withoutOptionalSkills.withoutMemories evidence [] =
    requiredItems p input evidence ++ optionalEvidence p input evidence ++ requiredSkills p input := by
  obtain ⟨hskills, htail⟩ := @requiredSkills_withoutOptionalSkills p input
  rw [contextItems_eq, htail, hskills, List.append_nil]
  rfl

/-- The items without anything optional. -/
theorem contextItems_withoutOptional {found : List EvidenceItemV1}
    (hfound : found.map (rankedEvidence p input.task.objective) =
      (evidence.map (rankedEvidence p input.task.objective)).filter (·.required)) :
    contextItems p (input.withoutOptional evidence).withoutMemories found [] =
      requiredItems p input evidence ++ requiredSkills p input := by
  obtain ⟨hskills, htail⟩ := @requiredSkills_withoutOptionalSkills p input
  have hrequired : requiredItems p (input.withoutOptional evidence) found = requiredItems p input evidence := by
    show sortBy _ ((found.map (rankedEvidence p input.task.objective)).filter _) ++ _ = _
    rw [hfound, List.filter_filter]
    simp only [Bool.and_self]
    rfl
  have hnone : optionalEvidence p (input.withoutOptional evidence) found = [] := by
    show sortBy _ ((found.map (rankedEvidence p input.task.objective)).filter _) = []
    rw [hfound, List.filter_filter]
    simp
  have hskills' : requiredSkills p (input.withoutOptional evidence) = requiredSkills p input := hskills
  have htail' : optionalTail p (input.withoutOptional evidence) [] = [] := htail
  rw [contextItems_eq, hrequired, hnone, hskills', htail', List.append_nil, List.append_nil]

/-! ### Gathering -/

theorem foldl_keeps {σ α : Type} {f : σ × List α → α → σ × List α} (items : List α) : ∀ state : σ × List α,
    (∀ item ∈ items, ∀ state, (f state item).2 = state.2 ++ [item]) → (items.foldl f state).2 = state.2 ++ items := by
  induction items with
  | nil => intro state _; rw [List.foldl_nil, List.append_nil]
  | cons item items ih =>
    intro state h
    rw [List.foldl_cons, ih _ fun other hother => h other (.tail _ hother), h item (.head _), List.append_assoc]
    rfl

/-- Items that are required already stay as they are. -/
theorem markRequired_of_required (requirements : List String) {items : List EvidenceItemV1}
    (h : ∀ item ∈ items, item.required = true) : markRequired p requirements items = items := by
  unfold markRequired
  dsimp only
  refine (foldl_keeps items _ fun item hitem state => ?_).trans (List.nil_append _)
  rw [if_pos (h item hitem)]

/-- What is gathered before the memories. -/
def gatherEvidence (p : Platform) (input : CompileContextInput) : SessionM (List EvidenceItemV1) := do
  let query := input.task.objective
  let evidence := markRequired p (input.task.evidenceRequirements.getD []) (← resolveEvidence p input.evidence query)
  rerankEvidence input.semanticRerank evidence query

theorem gather_eq : gather p input = (do
    let evidence ← gatherEvidence p input
    let memories ← resolveMemories p input.memories input.task.objective
    return (evidence, memories)) := by
  simp only [gather, gatherEvidence, Prog.bind_assoc]

/-! ### Compilations that return -/

section Compilations

variable {H : Type} {h : Host SessionCall SessionCall.Answer H} {x y : H}

/-- A compilation returns. -/
def Compiles (p : Platform) (h : Host SessionCall SessionCall.Answer H) (x : H) (input : CompileContextInput) : Prop :=
  ∃ compiled y, (compileContext p input).play h x = .ok (compiled, y)

/-- A compilation that has gathered what there is does what its plan does. -/
theorem play_compileContext (hgather : (gather p input).play h x = .ok ((evidence, memories), y)) {maxChars : ℕ}
    (hmax : maxCharsFromBudget input.contextBudget = .ok maxChars) :
    (compileContext p input).play h x = (do
      let plan ← (contextItems p input.withoutMemories evidence memories).foldlM (BudgetPlan.step p maxChars) {}
      return (compiledOf p input plan maxChars, y)) := by
  rw [compileContext_eq, Prog.play_bind, hgather, ok_bind, Prog.play_ofExcept_bind, applyBudget, hmax, ok_bind]
  rfl

/-- A compilation that has gathered what there is returns when its budget is one and its items fit. -/
theorem compiles_iff (hgather : (gather p input).play h x = .ok ((evidence, memories), y)) :
    Compiles p h x input ↔ ∃ maxChars, maxCharsFromBudget input.contextBudget = .ok maxChars ∧
      Fits p maxChars {} (contextItems p input.withoutMemories evidence memories) := by
  constructor
  · rintro ⟨compiled, z, hrun⟩
    rw [compileContext_eq, Prog.play_bind, hgather, ok_bind, Prog.play_ofExcept_bind] at hrun
    obtain ⟨plan, hplan, -⟩ := bind_eq_ok.mp hrun
    obtain ⟨maxChars, hmax, hfold⟩ := bind_eq_ok.mp hplan
    exact ⟨maxChars, hmax, plan, hfold⟩
  · rintro ⟨maxChars, hmax, plan, hfold⟩
    refine ⟨compiledOf p input plan maxChars, y, ?_⟩
    rw [play_compileContext hgather hmax, hfold]
    rfl

/-- Without the optional skills and the memories, the same evidence is gathered. -/
theorem gather_withoutOptionalSkills (hgather : (gather p input).play h x = .ok ((evidence, memories), y)) :
    ∃ z, (gather p input.withoutOptionalSkills).play h x = .ok ((evidence, []), z) := by
  rw [gather_eq, Prog.play_bind] at hgather
  obtain ⟨⟨found, z⟩, hevidence, hgather⟩ := bind_eq_ok.mp hgather
  rw [Prog.play_bind] at hgather
  obtain ⟨⟨recalled, z'⟩, -, hgather⟩ := bind_eq_ok.mp hgather
  cases hgather
  refine ⟨z, ?_⟩
  have hsame : gatherEvidence p input.withoutOptionalSkills = gatherEvidence p input := rfl
  rw [gather_eq, Prog.play_bind, hsame, hevidence]
  rfl

/-- Without anything optional, the required evidence is gathered. -/
theorem gather_withoutOptional (h : Host SessionCall SessionCall.Answer H) (x : H) :
    ∃ found, (gather p (input.withoutOptional evidence)).play h x = .ok ((found, []), x) ∧
      found.map (rankedEvidence p input.task.objective) =
        (evidence.map (rankedEvidence p input.task.objective)).filter (·.required) := by
  set found := (evidence.filter (·.required)).map fun item =>
    { item with score := some (item.score.getD (.finite (lexicalScore p.toLanguage input.task.objective item.text))) } with hfound
  have hrequired : ∀ item ∈ found, item.required = true := by
    intro item hitem
    obtain ⟨other, hother, rfl⟩ := List.mem_map.mp hitem
    exact (List.mem_filter.mp hother).2
  refine ⟨found, ?_, ?_⟩
  · have hevidence : gatherEvidence p (input.withoutOptional evidence) =
        pure (markRequired p (input.task.evidenceRequirements.getD []) found) := rfl
    rw [gather_eq, hevidence, markRequired_of_required _ hrequired]
    rfl
  · rw [hfound, List.map_map, List.filter_map]
    rfl

/-- A compilation has no room for a required skill. -/
def NoRoomForSkill (p : Platform) (h : Host SessionCall SessionCall.Answer H) (x : H) (input : CompileContextInput) : Prop :=
  ∃ skill : SkillItemV1, skill ∈ input.skills ∧ skill.required = true ∧ ∃ used maxChars : ℕ, maxChars < used ∧
    (compileContext p input).play h x =
      .error s!"required skill '{skill.id}' exceeds context budget ({used} > {maxChars} chars)"

/-- **What optional items change about a compilation.** Optional skills and memories do not change whether it
returns. Where it returns without anything optional, it does so with it, or there is no room for a required
skill; so that it returns where no skill is required, and where no evidence is optional. -/
theorem compileContext_starves (hgather : (gather p input).play h x = .ok ((evidence, memories), y)) :
    (Compiles p h x input.withoutOptionalSkills ↔ Compiles p h x input) ∧
      (Compiles p h x (input.withoutOptional evidence) → Compiles p h x input ∨ NoRoomForSkill p h x input) ∧
      ((∀ skill ∈ input.skills, skill.required = false) ∨ (∀ item ∈ evidence, item.required = true) →
        Compiles p h x (input.withoutOptional evidence) → Compiles p h x input) := by
  obtain ⟨z, hskills⟩ := gather_withoutOptionalSkills hgather
  obtain ⟨found, hfound, hranked⟩ := @gather_withoutOptional p input evidence H h x
  have hwhole := compiles_iff hgather
  have hpart := compiles_iff hfound
  have hbefore := compiles_iff hskills
  rw [contextItems_eq] at hwhole
  rw [contextItems_withoutOptionalSkills] at hbefore
  rw [contextItems_withoutOptional hranked] at hpart
  simp only [fits_append_iff optionalTail_optional] at hwhole
  have hsecond : Compiles p h x (input.withoutOptional evidence) → Compiles p h x input ∨ NoRoomForSkill p h x input := by
    intro hreturns
    obtain ⟨maxChars, hmax, hfits⟩ := hpart.mp hreturns
    obtain ⟨start, hstart, -⟩ := fits_append.mp hfits
    -- optional evidence is no error, and so is nothing but a required skill
    obtain ⟨met, hmet⟩ : Fits p maxChars {} (requiredItems p input evidence ++ optionalEvidence p input evidence) :=
      (fits_append_iff optionalEvidence_optional).mpr ⟨start, hstart⟩
    cases hfold : (requiredSkills p input).foldlM (BudgetPlan.step p maxChars) met with
    | ok plan => exact .inl (hwhole.mpr ⟨maxChars, hmax, fits_append.mpr ⟨met, hmet, plan, hfold⟩⟩)
    | error e =>
      obtain ⟨item, hitem, hrequired, used, hused, rfl⟩ := foldlM_error hfold
      obtain ⟨skill, hskill, rfl⟩ := List.mem_map.mp (List.mem_of_mem_filter (mem_sortBy.mp hitem))
      refine .inr ⟨skill, hskill, hrequired, used, maxChars, hused, ?_⟩
      rw [play_compileContext hgather hmax, contextItems_eq, List.append_assoc, List.foldlM_append, hmet, ok_bind,
        List.foldlM_append, hfold, error_bind]
      rfl
  refine ⟨hbefore.trans hwhole.symm, hsecond, fun hone hreturns => ?_⟩
  rcases hone with hnone | hall
  · rcases hsecond hreturns with hreturns | ⟨skill, hskill, hrequired, -⟩
    · exact hreturns
    · rw [hnone skill hskill] at hrequired
      cases hrequired
  · have hnone : optionalEvidence p input evidence = [] := by
      refine List.eq_nil_iff_forall_not_mem.mpr fun item hitem => ?_
      obtain ⟨e, he, hoptional, -⟩ := mem_optionalEvidence.mp hitem
      rw [hall e he] at hoptional
      cases hoptional
    rw [hnone, List.append_nil] at hwhole
    exact hwhole.mpr (hpart.mp hreturns)

end Compilations

/-! ### A skill that is starved -/

/-- An item of evidence, and a required skill, for a room of five characters. -/
def starvingInput (required : Bool) : CompileContextInput where
  task := { successCriteria := [], objective := "" }
  capabilities := ⟨true⟩
  dependencyRoot := "root"
  evidence := some (.items [⟨"e", "aaaa", none, false, none⟩])
  skills := [{ id := "s", text := "bbbb", required := required }]
  contextBudget := some { maxChars := some (.finite 5) }

/-- Where the skill is optional, the compilation returns with and without what is optional. -/
theorem compileContext_starves_sample : ∃ evidence,
    (Compiles samplePlatform sampleHost [] (starvingInput false).withoutOptionalSkills ↔
      Compiles samplePlatform sampleHost [] (starvingInput false)) ∧
    (Compiles samplePlatform sampleHost [] ((starvingInput false).withoutOptional evidence) →
      Compiles samplePlatform sampleHost [] (starvingInput false) ∨
        NoRoomForSkill samplePlatform sampleHost [] (starvingInput false)) ∧
    ((∀ skill ∈ (starvingInput false).skills, skill.required = false) ∨ (∀ item ∈ evidence, item.required = true) →
      Compiles samplePlatform sampleHost [] ((starvingInput false).withoutOptional evidence) →
        Compiles samplePlatform sampleHost [] (starvingInput false)) :=
  ⟨_, @compileContext_starves samplePlatform (starvingInput false) _ [] _ sampleHost [] [] rfl⟩

/-- **Optional evidence takes the room of a required skill.** -/
theorem required_skill_starved : ¬ ∀ (input : CompileContextInput) (evidence : List EvidenceItemV1)
    (memories : List MemoryItemV1), (gather samplePlatform input).play sampleHost [] = .ok ((evidence, memories), []) →
      Compiles samplePlatform sampleHost [] (input.withoutOptional evidence) → Compiles samplePlatform sampleHost [] input := by
  intro hall
  obtain ⟨compiled, y, hrun⟩ := hall (starvingInput true) _ _ rfl ⟨_, _, rfl⟩
  have hstarved : ((compileContext samplePlatform (starvingInput true)).play sampleHost []).isOk = false := by
    decide +kernel
  rw [hrun] at hstarved
  cases hstarved

end Knolo.Skills.Selection
