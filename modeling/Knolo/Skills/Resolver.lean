import Knolo.Skills.Definition

/-!
# Resolving skills

`packages/agents/src/skills/policy.ts`, `resolver.ts` and `context/lexical.ts`: how the skills of a
run are configured, which of them are selected for a task, and what a run still lacks.

* `resolveSkills_items` — what is selected is a skill of the index whose definition is well formed
  and which the authority allows.
-/

namespace Knolo.Skills

open Script Harness Library.Fallible Library.StableSort Library.Nearest Library.Traverse

/-! ### Scores -/

/-- A character of a token. -/
def tokenChar (c : Char) : Bool := ('a' ≤ c && c ≤ 'z') || ('0' ≤ c && c ≤ '9')

/-- `tokenize`. -/
def tokenize (language : Language) (s : String) : List (List Char) :=
  ((language.toLowerCase s).toList.splitOnP fun c => !tokenChar c).filter fun token => 2 ≤ token.length

/-- `lexicalScore`: the terms that are found, in millionths, rounded as the language does. -/
def lexicalScore (language : Language) (query s : String) : ℕ :=
  let terms := (tokenize language query).eraseDups
  let haystack := tokenize language s
  let hits := terms.countP haystack.contains
  if terms = [] then 0
  else ⌊nearest (nearest (hits / terms.length) * 1000000) + 1 / 2⌋.toNat

/-! ### Policies -/

/-- What a task asks for. -/
structure ConstraintV1 where
  id : String
  description : String
  deriving DecidableEq

/-- A task, with what it says of context and skills. A list that is missing counts as empty. -/
structure TaskV1 extends Harness.TaskV1 where
  objective : String
  constraints : List ConstraintV1 := []
  requiredCapabilities : List String := []
  preferredSkills : List String := []

/-- What the registry may be used for. -/
inductive RegistryModeV1 where
  | disabled
  | discover
  | acquireApproved
  | acquireAnyVerified
  deriving DecidableEq

/-- A mode as it is configured. -/
inductive RegistryChoice where
  | flag (b : Bool)
  | mode (m : RegistryModeV1)
  deriving DecidableEq

/-- What is done with learned skills. -/
inductive PublishPolicyV1 where
  | proposeOnly
  | disabled
  | authorized
  deriving DecidableEq

/-- Where skills are resolved. -/
inductive SkillResolutionModeV1 where
  | none
  | local
  | auto
  deriving DecidableEq

/-- The index that is configured: an index, definitions or the metadata of packs. -/
inductive IndexOption where
  | index (value : CapabilityIndex)
  | definitions (values : List JsValue)
  | metadata (entries : List CapabilityMetadataV1)

/-- How skills are configured. -/
structure SkillResolutionOptions where
  resolution : Option SkillResolutionModeV1 := none
  registry : Option RegistryChoice := none
  allowlist : List String := []
  publish : Option PublishPolicyV1 := none
  index : Option IndexOption := none
  packs : List JsValue := []
  definitions : Option (List JsValue) := none

/-- What is trusted. -/
structure SkillTrustPolicyV1 where
  registry : RegistryModeV1
  allowlist : List String := []
  publish : PublishPolicyV1
  deriving DecidableEq

/-- `normalizeRegistry`. -/
def normalizeRegistry : Option RegistryChoice → RegistryModeV1
  | none | some (.flag false) => .disabled
  | some (.flag true) => .acquireAnyVerified
  | some (.mode m) => m

/-- `normalizePublish`. -/
def normalizePublish (value : Option PublishPolicyV1) : PublishPolicyV1 := value.getD .proposeOnly

/-- `normalizeTrust`. -/
def normalizeTrust (options : Option SkillResolutionOptions) : SkillTrustPolicyV1 where
  registry := normalizeRegistry (options.bind (·.registry))
  allowlist := (options.map (·.allowlist)).getD []
  publish := normalizePublish (options.bind (·.publish))

/-- `ADAPTER_CAPABILITIES`. -/
def adapterCapabilities : List String := ["tools", "resume", "observe", "interrupt"]

/-- What a value is iterated over as; a missing one as nothing. -/
def iterate : Option JsValue → Except String (List JsValue)
  | none | some .null => .ok []
  | some (.array items) => .ok items
  | some (.string s) => .ok (s.toList.map fun c => .string (String.singleton c))
  | some _ => .error "object is not iterable"

/-- `capabilityGaps`. -/
def capabilityGaps (task : TaskV1) (index : CapabilityIndex) (selectedIds : List String) :
    Except String (List String) := do
  let needed := task.requiredCapabilities.filter fun item => !adapterCapabilities.contains item
  let covered ← (selectedIds.filterMap index.skill).mapM fun entry => do
    iterate (← property entry.skill "requiredCapabilities")
  return uniqueSorted (needed.filter fun item => !(covered.flatten.filterMap asText).contains item)

/-- `missingPreferredSkills`. -/
def missingPreferredSkills (task : TaskV1) (index : CapabilityIndex) : List String :=
  uniqueSorted (task.preferredSkills.filter fun id => (index.skill id).isNone)

/-! ### Receipts -/

/-- What was decided about a pack. -/
inductive SkillAcquisitionDecisionV1 where
  | staged
  | discover
  | skipped
  deriving DecidableEq

/-- A pack that was considered. -/
structure SkillAcquisitionCandidateV1 where
  name : String
  version : String
  sha256 : String
  score : ℕ
  decision : SkillAcquisitionDecisionV1
  reason : Option String := none
  deriving DecidableEq

/-- A pack that was staged as a skill. -/
structure SkillAcquisitionStagedV1 where
  name : String
  version : String
  sha256 : String
  deriving DecidableEq

/-- What an acquisition did. -/
structure SkillAcquisitionReceiptV1 where
  registry : RegistryModeV1
  publish : PublishPolicyV1
  gaps : List String := []
  missingSkills : List String := []
  queried : Bool := false
  pulled : Bool := false
  staged : List SkillAcquisitionStagedV1 := []
  candidates : List SkillAcquisitionCandidateV1 := []
  deriving DecidableEq

/-- `emptyAcquisition`. -/
def emptyAcquisition (registry : RegistryModeV1) (publish : PublishPolicyV1) (gaps missingSkills : List String) :
    SkillAcquisitionReceiptV1 where
  registry := registry
  publish := publish
  gaps := gaps
  missingSkills := missingSkills

/-- A skill that was selected. -/
structure SkillSelectedV1 where
  id : String
  skillVersion : String
  packId : String
  score : ℕ
  required : Bool
  contentHash : String
  deriving DecidableEq

/-- Why a skill was not selected. -/
inductive SkillRejectReasonV1 where
  | authority
  | missing
  deriving DecidableEq

/-- A skill that was not selected. -/
structure SkillRejectedV1 where
  id : String
  reason : SkillRejectReasonV1
  deriving DecidableEq

/-- What was selected, and from what. -/
structure SkillSelectionReceiptV1 where
  query : String
  resolution : SkillResolutionModeV1
  registry : RegistryModeV1
  selected : List SkillSelectedV1 := []
  rejected : List SkillRejectedV1 := []
  candidates : List (String × ℕ) := []
  authority : List String × List String
  acquisition : SkillAcquisitionReceiptV1
  deriving DecidableEq

/-- A skill as the context has it. -/
structure SkillItemV1 where
  id : String
  text : String
  required : Bool := false
  score : Option JsNumber := none
  sourceId : Option String := none
  deriving DecidableEq

/-! ### Resolution -/

/-- A skill that is allowed, with its rank. -/
structure RankedSkill where
  skill : SkillDefinitionV1
  score : ℕ
  required : Bool

/-- What is selected. -/
structure ResolvedSkills where
  items : List SkillItemV1
  receipt : SkillSelectionReceiptV1

/-- Does the authority cover what a skill requires? -/
def authorized (skill : SkillDefinitionV1) (authority : EffectiveAuthorityV1) : Bool :=
  skill.requiredCapabilities.all (authority.capabilities.contains ·) &&
    skill.requiredTools.all (authority.tools.contains ·)

/-- `scoreSkill`. -/
def scoreSkill (language : Language) (skill : SkillDefinitionV1) (query : String) (task : TaskV1) (preferred : Bool) : ℕ :=
  let haystack := " ".intercalate
    ([skill.id, skill.skillVersion] ++ skill.triggers ++ skill.domains ++ [skill.instructions])
  let overlap := skill.requiredCapabilities.countP (task.requiredCapabilities.contains ·)
  lexicalScore language query haystack + (if preferred then 1000000 else 0) + overlap * 1000

variable (p : Platform)

/-- A skill of the index is ranked, or rejected. -/
def rankEntry (task : TaskV1) (authority : EffectiveAuthorityV1) (entry : IndexedSkillV1) :
    Except String (SkillRejectedV1 ⊕ RankedSkill) := do
  let skill ← normalizeSkillDefinition p entry.skill
  let required := task.preferredSkills.contains skill.id
  if authorized skill authority then
    return .inr ⟨skill, scoreSkill p.toLanguage skill task.objective task required, required⟩
  else if required then
    throw s!"pinned skill '{skill.id}' is denied: required capabilities are not in effective authority"
  else return .inl ⟨skill.id, .authority⟩

/-- A pinned skill is missing, which without a registry is an error. -/
def checkPinned (index : CapabilityIndex) (registry : RegistryModeV1) (pinned : String) :
    Except String (Option SkillRejectedV1) :=
  if (index.skill pinned).isSome then .ok none
  else if registry = .disabled then .error s!"pinned skill '{pinned}' is not in the local capability index"
  else .ok (some ⟨pinned, .missing⟩)

/-- The item of a selected skill. -/
def RankedSkill.item (r : RankedSkill) : SkillItemV1 where
  id := r.skill.id
  text := r.skill.instructions
  required := r.required
  score := some (.finite r.score)
  sourceId := nonEmpty (some r.skill.provenance.packId)

/-- The receipt of a selected skill. -/
def RankedSkill.selected (r : RankedSkill) : SkillSelectedV1 where
  id := r.skill.id
  skillVersion := r.skill.skillVersion
  packId := r.skill.provenance.packId
  score := r.score
  required := r.required
  contentHash := r.skill.contentHash

/-- `resolveSkills`. -/
def resolveSkills (task : TaskV1) (index : CapabilityIndex) (authority : EffectiveAuthorityV1)
    (trust : SkillTrustPolicyV1) (resolution : SkillResolutionModeV1) : Except String ResolvedSkills := do
  let registry := normalizeRegistry (some (.mode trust.registry))
  let publish := normalizePublish (some trust.publish)
  let granted := (authority.capabilities, authority.tools)
  if resolution = .none then
    let gaps ← capabilityGaps task index []
    return {
      items := []
      receipt := {
        query := task.objective, resolution := resolution, registry := registry, authority := granted
        acquisition := emptyAcquisition registry publish gaps (missingPreferredSkills task index) } }
  let missing ← task.preferredSkills.mapM (checkPinned index registry)
  let entries ← (← index.skills p).mapM (rankEntry p task authority)
  let ranked := sortBy (fun a b => (compare b.score a.score).then (p.collate a.skill.id b.skill.id))
    (entries.filterMap Sum.getRight?)
  let selected := ranked.filter fun r => r.required || 0 < r.score
  let gaps ← capabilityGaps task index (selected.map (·.skill.id))
  return {
    items := selected.map RankedSkill.item
    receipt := {
      query := task.objective, resolution := resolution, registry := registry, authority := granted
      selected := selected.map RankedSkill.selected
      rejected := sortBy (fun a b => p.collate a.id b.id) (missing.filterMap id ++ entries.filterMap Sum.getLeft?)
      candidates := ranked.map fun r => (r.skill.id, r.score)
      acquisition := emptyAcquisition registry publish gaps (missingPreferredSkills task index) } }

/-! ### Configuration -/

/-- How the skills of a harness are given: not at all, as an array, as options, or as neither. -/
inductive HarnessSkillsInput where
  | absent
  | array (items : List JsValue)
  | options (value : SkillResolutionOptions)
  | other

/-- What was given: items that are passed through, or options. -/
structure ParsedSkills where
  passthrough : Option (List SkillItemV1) := none
  options : Option SkillResolutionOptions := none

/-- `isSkillItemLike`, with the item. -/
def skillItem (v : JsValue) : Option SkillItemV1 := do
  let record ← asRecord v
  let id ← Registry.textProperty record "id"
  let text ← Registry.textProperty record "text"
  let required := match record.lookup "required" with
    | some (.bool true) => true
    | _ => false
  let score := match record.lookup "score" with
    | some (.number x) => some x
    | _ => none
  return { id := id, text := text, required := required, score := score
           sourceId := nonEmpty (Registry.textProperty record "sourceId") }

/-- `isSkillDefinitionLike`. -/
def isSkillDefinitionLike (v : JsValue) : Bool :=
  (asRecord v).any fun record =>
    ["id", "instructions", "skillVersion"].all fun key => (Registry.textProperty record key).isSome

/-- `parseHarnessSkills`. -/
def parseHarnessSkills : HarnessSkillsInput → Except String ParsedSkills
  | .absent => .ok {}
  | .array [] => .ok { passthrough := some [] }
  | .array items =>
    if items.all isSkillDefinitionLike then
      .ok { options := some { resolution := some .local, registry := some (.mode .disabled), definitions := some items } }
    else
      match items.mapM skillItem with
      | some passthrough => .ok { passthrough := some passthrough }
      | none => .error "skills array must be SkillItemV1 or SkillDefinitionV1 objects"
  | .options value => .ok { options := some value }
  | .other => .error "skills must be an array or a resolution options object"

/-- The index that is configured. -/
def configuredIndex : Option IndexOption → Except String CapabilityIndex
  | some (.index value) => CapabilityIndex.ofMetadata p (value.metadata p)
  | some (.definitions []) => .ok {}
  | some (.definitions (v :: vs)) =>
    if isSkillDefinitionLike v then CapabilityIndex.fromDefinitions p (v :: vs)
    else .error "metadata.skills is not iterable"
  | some (.metadata entries) => CapabilityIndex.ofMetadata p entries
  | none => .ok {}

/-- `indexFromOptions`. -/
def indexFromOptions (options : SkillResolutionOptions) : Except String CapabilityIndex := do
  let index ← configuredIndex p options.index
  let index ← index.addPacks p options.packs
  match options.definitions with
  | some definitions => index.addDefinitions p definitions
  | none => return index

/-! ### What is selected -/

variable {p}

/-- A skill that is ranked is well formed and allowed. -/
theorem rankEntry_ranked {task : TaskV1} {authority : EffectiveAuthorityV1} {entry : IndexedSkillV1} {r : RankedSkill}
    (h : rankEntry p task authority entry = .ok (.inr r)) :
    normalizeSkillDefinition p entry.skill = .ok r.skill ∧ authorized r.skill authority = true := by
  obtain ⟨skill, hskill, h⟩ := bind_eq_ok.mp h
  split at h
  · rename_i hauth
    cases h
    exact ⟨hskill, hauth⟩
  · dsimp only at h
    split at h <;> cases h

/-- **What is selected is a skill of the index, well formed and allowed.** -/
theorem resolveSkills_items {task : TaskV1} {index : CapabilityIndex} {authority : EffectiveAuthorityV1}
    {trust : SkillTrustPolicyV1} {resolution : SkillResolutionModeV1} {resolved : ResolvedSkills}
    {P : JsValue → Prop} (hP : index.Within P) (h : resolveSkills p task index authority trust resolution = .ok resolved) :
    ∀ item ∈ resolved.items, ∃ v skill, P v ∧ normalizeSkillDefinition p v = .ok skill ∧
      authorized skill authority = true ∧ item.id = skill.id ∧ item.text = skill.instructions := by
  unfold resolveSkills at h
  split at h
  · obtain ⟨gaps, -, h⟩ := bind_eq_ok.mp h
    cases h
    simp
  · obtain ⟨missing, -, h⟩ := bind_eq_ok.mp h
    obtain ⟨listed, hlisted, h⟩ := bind_eq_ok.mp h
    obtain ⟨entries, hentries, h⟩ := bind_eq_ok.mp h
    obtain ⟨gaps, -, h⟩ := bind_eq_ok.mp h
    cases h
    intro item hitem
    obtain ⟨r, hr, rfl⟩ := List.mem_map.mp hitem
    obtain ⟨s, hs, hrank⟩ := List.mem_filterMap.mp (mem_sortBy.mp (List.mem_of_mem_filter hr))
    cases s with
    | inl _ => cases hrank
    | inr r' =>
      cases hrank
      obtain ⟨entry, hentry, hranked⟩ := exists_of_mapM hentries _ hs
      obtain ⟨hskill, hauth⟩ := rankEntry_ranked hranked
      exact ⟨entry.skill, r.skill, CapabilityIndex.skills_within hP hlisted entry hentry, hskill, hauth, rfl, rfl⟩

end Knolo.Skills
