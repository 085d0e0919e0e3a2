import Knolo.Experience.Promotion
import Knolo.Skills.Acquire
import Knolo.Skills.Secrets

/-!
# Publishing skills

`packages/agents/src/skills/publish.ts`: a skill is put into a capability pack, the pack is searched
for secrets, and it is proposed, or given to a registry.

* `buildCapabilityPack_unhidden` — a pack that was built is free of secrets exactly if no text it was
  built from has a secret in it whose white space is broken by a control character.
* `publishLearnedSkill_builds` — what is proposed or published is such a pack.
-/

namespace Knolo.Skills

open Core Script Harness Registry Experience Library Library.Fallible

/-! ### The values -/

/-- An object that is put into a knowledge image. -/
structure ImageObject where
  kind : String
  bytes : List UInt8
  metadata : JsValue

/-- The knowledge core, behind `V5KnowledgeAdapter`. -/
structure KnowledgeCore where
  /-- `createKnowledgeImageV5`, for an actor. -/
  create : String → List ImageObject → Except String (List UInt8)
  /-- `verifyKnowledgeImageV5`: the state root. -/
  verify : List UInt8 → Except String String
  /-- `mountKnowledgeImageV5`. -/
  mount : List UInt8 → Except String Unit

/-- The bytes of a value's canonical text. -/
def canonicalBytes (language : Language) (v : JsValue) : List UInt8 := utf8 (String.ofList (canonicalJson language v))

/-- Bytes in hexadecimal. -/
def hexadecimal (bytes : List UInt8) : String :=
  String.ofList (bytes.flatMap fun b => [Json.hexDigit (b.toNat / 16), Json.hexDigit (b.toNat % 16)])

/-- What the language and the packages under the code provide to publish. -/
structure PublishPlatform extends Platform where
  /-- `crypto.subtle.digest`, for SHA-256. -/
  digest : List UInt8 → List UInt8
  /-- `loadCoreV5`. -/
  loadCore : Except String KnowledgeCore
  /-- `sha256Hex` of `packages/agents/src/harness/hash.ts`. -/
  sha256Hex_eq : ∀ v, sha256Hex v = hexadecimal (digest (canonicalBytes toLanguage v))

/-- `sha256Bytes`. -/
def PublishPlatform.sha256Bytes (p : PublishPlatform) (bytes : List UInt8) : String := hexadecimal (p.digest bytes)

/-- What a pack is built from. -/
structure BuildCapabilityPackInput where
  spec : SpecArgument
  skill : JsValue
  description : Option String := none
  license : Option String := none
  knowledge : Option KnowledgeCore := none

/-- A pack that was built. -/
structure BuiltCapabilityPackV1 where
  spec : PackSpecV1
  pack : JsValue
  bytes : List UInt8
  sha256 : String
  stateRoot : String
  manifest : PackManifestV1
  metadata : CapabilityMetadataV1

/-! ### Building -/

/-- A definition as a value. -/
def SkillDefinitionV1.value (skill : SkillDefinitionV1) : JsValue :=
  .object (spread skill.toSkillBodyV1.value ++ [("contentHash", .string skill.contentHash)])

/-- The properties of a skill without its hash. -/
def withoutHash (incoming : JsValue) : Except String (List (String × JsValue)) :=
  match incoming with
  | .null => .error "Cannot destructure property 'contentHash' of 'incoming' as it is null."
  | v => .ok ((spread v).filter fun e => e.1 ≠ "contentHash")

/-- Where a skill of a pack is from. -/
def packOrigin (spec : PackSpecV1) : JsValue :=
  .object [("source", .string "local-pack"), ("packId", .string spec.name), ("publisher", .string spec.publisher)]

/-- What a pack says that its skill is for. -/
def packDescription (id instructions : String) (description : Option String) : String :=
  " ".intercalate [id, description.getD instructions]

/-- The document of a pack. -/
def packDocument (spec : PackSpecV1) (skill : SkillDefinitionV1) (description license : Option String) : JsValue :=
  .object [
    ("version", .number (.finite 1)),
    ("id", .string spec.name),
    ("metadata", .object [
      ("name", .string (skill.name.getD skill.id)),
      ("description", .string (packDescription skill.id skill.instructions description))]),
    ("authority", .object [("capabilities", texts skill.requiredCapabilities), ("namespaces", .array [])]),
    ("tools", texts skill.requiredTools),
    ("namespaces", .array []),
    ("license", .string (license.getD "Apache-2.0")),
    ("role", .string "skill"),
    ("skills", .array [
      { skill with provenance := { packId := spec.name, publisher := some spec.publisher } : SkillDefinitionV1 }.value])]

/-- `V5KnowledgeAdapter.createImage`: the bytes and the state root. -/
def KnowledgeCore.createImage (core : KnowledgeCore) (objects : List ImageObject) (actor : String) :
    Except String (List UInt8 × String) := do
  let bytes ← core.create actor objects
  let stateRoot ← core.verify bytes
  core.mount bytes
  return (bytes, stateRoot)

/-- `buildCapabilityPack`. -/
def buildCapabilityPack (p : PublishPlatform) (input : BuildCapabilityPackInput) :
    Except String BuiltCapabilityPackV1 := do
  let spec ← parsePackSpec input.spec
  let body ← withoutHash input.skill
  let skill ← normalizeSkillDefinition p.toPlatform (.object (setProperty "provenance" (packOrigin spec) body))
  let pack := packDocument spec skill input.description input.license
  assertNoSecrets p.toLanguage pack
  let knowledge ← input.knowledge.elim p.loadCore .ok
  let (bytes, stateRoot) ← knowledge.createImage [
    { kind := "knolo.pack", bytes := canonicalBytes p.toLanguage pack
      metadata := .object [("packId", .string spec.name), ("role", .string "skill"), ("skillId", .string skill.id)] },
    { kind := "knolo.skill", bytes := canonicalBytes p.toLanguage skill.value
      metadata := .object [("skillId", .string skill.id)] }] spec.publisher
  let sha256 := p.sha256Bytes bytes
  let verified ← knowledge.verify bytes
  ensure (verified = stateRoot) "capability pack Core stateRoot mismatch after verify"
  let manifest : PackManifestV1 := {
    name := spec.name
    version := if spec.version = "latest" then skill.skillVersion else spec.version
    sha256 := sha256
    stateRoot := some stateRoot
    url := s!"memory://packs/sha256/{sha256}"
    license := some (input.license.getD "Apache-2.0")
    sizeBytes := .finite bytes.length
    yanked := false
    format := some .v5 }
  let metadata ← capabilityMetadataFromPack pack
  return {
    spec := { spec with version := manifest.version }
    pack := pack
    bytes := bytes
    sha256 := sha256
    stateRoot := stateRoot
    manifest := manifest
    metadata := metadata }

/-! ### Publishing -/

/-- What is given to a registry. -/
structure PackPublishInputV1 where
  manifest : PackManifestV1
  bytes : List UInt8
  description : String

/-- The call of publishing: `registry.publish`. -/
inductive PublishCall where
  | publish (input : PackPublishInputV1)

/-- What it answers: a value, or it throws. -/
def PublishCall.Answer : PublishCall → Type
  | .publish _ => Except String JsValue

/-- What becomes of a skill. -/
inductive SkillPublishDecisionV1 where
  | proposed
  | published
  | denied
  deriving DecidableEq

/-- What publishing reports. -/
structure SkillPublishReceiptV1 where
  decision : SkillPublishDecisionV1
  policy : PublishPolicyV1
  spec : String
  skillId : String
  lessonId : String
  sha256 : String
  stateRoot : String
  secrets : String := "clean"
  gates : PromotionGatesV1
  evaluationPassed : Bool
  manifest : PackManifestV1

/-- What is to be published. -/
structure PublishLearnedSkillInput where
  candidate : SkillCandidateV1
  spec : SpecArgument
  /-- Has the registry a method to publish? -/
  publishes : Bool
  policy : Option PublishPolicyV1 := none
  evaluationPassed : Bool
  approval : Option Bool := none
  description : Option String := none
  license : Option String := none
  knowledge : Option KnowledgeCore := none

/-- A definition that may say its hash, as a value. -/
def SkillDefinitionInputV1.value (skill : SkillDefinitionInputV1) : JsValue :=
  .object (spread skill.toSkillBodyV1.value ++ optionalProperty "contentHash" (skill.contentHash.map .string))

/-- What the pack of a learned skill is built from. -/
def PublishLearnedSkillInput.build (input : PublishLearnedSkillInput) (spec : PackSpecV1) : BuildCapabilityPackInput where
  spec := .spec spec
  skill := input.candidate.skill.value
  description := input.description
  license := input.license
  knowledge := input.knowledge

/-- What a registry is given of a pack. -/
def BuiltCapabilityPackV1.offer (built : BuiltCapabilityPackV1) (input : PublishLearnedSkillInput)
    (description : String) : PackPublishInputV1 where
  manifest := built.manifest
  bytes := built.bytes
  description := input.description.getD description

/-- The description in a pack, or the name of the pack. -/
def BuiltCapabilityPackV1.description (built : BuiltCapabilityPackV1) : String :=
  match (((asRecord built.pack).getD []).lookup "metadata").bind asRecord with
  | some metadata => (textProperty metadata "description").getD "undefined"
  | none => built.metadata.packId

/-- The version a skill is published as. -/
def PublishLearnedSkillInput.version (input : PublishLearnedSkillInput) (spec : PackSpecV1) : String :=
  if spec.version = "latest" then input.candidate.skill.skillVersion else spec.version

/-- The receipt for a pack. -/
def PublishLearnedSkillInput.receipt (input : PublishLearnedSkillInput) (spec : PackSpecV1)
    (built : BuiltCapabilityPackV1) (decision : SkillPublishDecisionV1) (manifest : PackManifestV1) :
    SkillPublishReceiptV1 where
  decision := decision
  policy := normalizePublish input.policy
  spec := s!"{spec.name}@{input.version spec}"
  skillId := input.candidate.skill.id
  lessonId := input.candidate.lessonId
  sha256 := built.sha256
  stateRoot := built.stateRoot
  gates := input.candidate.gates
  evaluationPassed := true
  manifest := manifest

/-- A pack is given to the registry, and the manifest that it answers is checked. -/
def publishTo (built : BuiltCapabilityPackV1) (offer : PackPublishInputV1) :
    Prog PublishCall PublishCall.Answer String PackManifestV1 := do
  let answer ← .ask (.publish offer)
  let value ← .ofExcept answer
  let manifest ← .ofExcept (validatePackManifest value)
  .ofExcept (ensure (manifest.sha256 = built.sha256) "published manifest sha256 does not match built capability pack")
  return manifest

/-- `publishLearnedSkill`. -/
def publishLearnedSkill (p : PublishPlatform) (input : PublishLearnedSkillInput) :
    Prog PublishCall PublishCall.Answer String SkillPublishReceiptV1 := do
  let policy := normalizePublish input.policy
  let spec ← .ofExcept (parsePackSpec input.spec)
  .ofExcept (ensure (policy ≠ .disabled) "skill publish is disabled")
  .ofExcept (ensure (input.candidate.status = .promoted) "only a promoted skill candidate can be published")
  .ofExcept (ensure (gatesPass input.candidate.gates ∧ input.evaluationPassed = true)
    "skill publish requires usefulness, evaluation, provenance, and a passing evaluation receipt")
  .ofExcept (ensure (policy = .authorized → input.approval = some true)
    "authorized skill publish requires explicit approval")
  let built ← .ofExcept (buildCapabilityPack p (input.build spec))
  if policy = .proposeOnly then return input.receipt spec built .proposed built.manifest
  .ofExcept (ensure (input.publishes = true)
    "registry publish is not available; authorized publish requires PackRegistryCapabilityV1.publish")
  let manifest ← publishTo built (built.offer input built.description)
  return input.receipt spec built .published manifest

/-! ### The strings of a pack -/

theorem itemStrings_map_string (values : List String) : itemStrings (values.map .string) = values := by
  induction values with
  | nil => rfl
  | cons s values ih => rw [List.map_cons, itemStrings, stringsOf, ih, List.singleton_append]

theorem stringsOf_texts (values : List String) : stringsOf (texts values) = values := itemStrings_map_string values

theorem propertyStrings_optionalProperty (key : String) (value : Option JsValue) :
    propertyStrings (optionalProperty key value) = value.toList.flatMap stringsOf := by
  cases value with
  | none => rfl
  | some v => rfl

theorem propertyStrings_optionalString (key : String) (value : Option String) :
    propertyStrings (optionalProperty key (value.map .string)) = value.toList := by
  cases value with
  | none => rfl
  | some s => rfl

/-- The strings in schemas. -/
def SkillSchemasV1.strings (s : SkillSchemasV1) : List String :=
  s.input.toList.flatMap stringsOf ++ s.output.toList.flatMap stringsOf

theorem propertyStrings_schemas (schemas : Option SkillSchemasV1) :
    propertyStrings (optionalProperty "schemas" (schemas.map fun s =>
      .object (optionalProperty "input" s.input ++ optionalProperty "output" s.output))) =
      schemas.toList.flatMap (·.strings) := by
  cases schemas with
  | none => rfl
  | some s =>
    rw [propertyStrings_optionalProperty, Option.map_some, Option.toList_some, Option.toList_some,
      List.flatMap_singleton, List.flatMap_singleton, stringsOf, propertyStrings_append,
      propertyStrings_optionalProperty, propertyStrings_optionalProperty, SkillSchemasV1.strings]

/-- The strings in a definition. -/
theorem stringsOf_value (skill : SkillDefinitionV1) : stringsOf skill.value =
    [skill.id, skill.skillVersion] ++ skill.name.toList ++ skill.triggers ++ skill.domains ++
      skill.schemas.toList.flatMap (·.strings) ++ [skill.instructions] ++ skill.requiredCapabilities ++
      skill.requiredTools ++ skill.knowledgeRefs ++ ["local-pack", skill.provenance.packId] ++
      skill.provenance.digest.toList ++ skill.provenance.publisher.toList ++ [skill.contentHash] := by
  simp only [SkillDefinitionV1.value, SkillBodyV1.value, spread, stringsOf, propertyStrings_append,
    propertyStrings_optionalString, propertyStrings_schemas, propertyStrings, stringsOf_texts]
  simp

/-- The strings in the document of a pack. -/
theorem stringsOf_packDocument (spec : PackSpecV1) (skill : SkillDefinitionV1) (description license : Option String) :
    stringsOf (packDocument spec skill description license) =
      [spec.name, skill.name.getD skill.id, packDescription skill.id skill.instructions description] ++
        skill.requiredCapabilities ++ skill.requiredTools ++ [license.getD "Apache-2.0", "skill"] ++
        stringsOf { skill with provenance := { packId := spec.name, publisher := some spec.publisher } : SkillDefinitionV1 }.value := by
  simp [packDocument, stringsOf, propertyStrings, itemStrings, stringsOf_texts]

/-! ### What a pack is built from -/

/-- The texts of a skill that come into its pack, other than its id. -/
def skillTexts (record : List (String × JsValue)) (description : Option String) : List String :=
  let trimmed := fun key =>
    (((textProperty record key).filter fun s => !isBlank s).map fun s => String.ofList (trim s)).toList
  let given := fun key => (textProperty record key).getD ""
  let list := fun key => ((record.lookup key).bind asStringArray).getD []
  let schemas := (((record.lookup "schemas").filter truthy).bind asRecord).map fun ps =>
    (⟨ps.lookup "input", ps.lookup "output"⟩ : SkillSchemasV1)
  trimmed "skillVersion" ++ trimmed "name" ++ list "triggers" ++ list "domains" ++
    schemas.toList.flatMap (·.strings) ++
    [given "instructions", packDescription (given "id") (given "instructions") description] ++
    list "requiredCapabilities" ++ list "requiredTools" ++ list "knowledgeRefs"

/-- The texts a pack is built from: those of the skill, the license, and the publisher. -/
def BuildCapabilityPackInput.texts (input : BuildCapabilityPackInput) : List String :=
  skillTexts (spread input.skill) input.description ++ input.license.toList ++
    ((parsePackSpec input.spec).toOption.map (·.publisher)).toList

/-- No string of a value has a secret in it. -/
def Clean (v : JsValue) : Prop := ∀ s ∈ stringsOf v, leaks s = false

/-- No text that a pack is built from has a secret in it whose white space is broken. -/
def BuildCapabilityPackInput.Unhidden (input : BuildCapabilityPackInput) : Prop :=
  ∀ t ∈ input.texts, hides t = false

theorem skillTexts_congr {record record' : List (String × JsValue)} {description : Option String}
    (h : ∀ key, key ≠ "provenance" → key ≠ "contentHash" → record.lookup key = record'.lookup key) :
    skillTexts record description = skillTexts record' description := by
  simp only [skillTexts, textProperty, h "skillVersion" (by decide) (by decide), h "name" (by decide) (by decide),
    h "triggers" (by decide) (by decide), h "domains" (by decide) (by decide), h "schemas" (by decide) (by decide),
    h "instructions" (by decide) (by decide), h "id" (by decide) (by decide),
    h "requiredCapabilities" (by decide) (by decide), h "requiredTools" (by decide) (by decide),
    h "knowledgeRefs" (by decide) (by decide)]

theorem ShapedFrom.skillTexts_eq {record : List (String × JsValue)} {skill : SkillBodyV1}
    (h : ShapedFrom record skill) (description : Option String) : skillTexts record description =
      [skill.skillVersion] ++ skill.name.toList ++ skill.triggers ++ skill.domains ++
        skill.schemas.toList.flatMap (·.strings) ++
        [skill.instructions, packDescription skill.id skill.instructions description] ++
        skill.requiredCapabilities ++ skill.requiredTools ++ skill.knowledgeRefs := by
  have hid := (Option.filter_eq_some_iff.mp h.id).1
  have hinstructions := (Option.filter_eq_some_iff.mp h.instructions).1
  simp only [skillTexts, h.skillVersion, h.name, h.triggers, h.domains, h.schemas, hinstructions, hid,
    h.requiredCapabilities, h.requiredTools, h.knowledgeRefs, Option.getD_some, Option.toList_some]

theorem lookup_filter_ne {key key' : String} (h : key ≠ key') (ps : List (String × JsValue)) :
    (ps.filter fun e => e.1 ≠ key').lookup key = ps.lookup key := by
  induction ps with
  | nil => rfl
  | cons e ps ih =>
    by_cases he : e.1 = key'
    · rw [List.filter_cons_of_neg (by simpa using he), ih, List.lookup_cons, beq_eq_false_iff_ne.mpr (he ▸ h)]
    · rw [List.filter_cons_of_pos (by simpa using he), List.lookup_cons, List.lookup_cons, ih]

/-- A skill that is spread without its hash, and with an origin, has its other properties. -/
theorem lookup_body {incoming origin : JsValue} {body : List (String × JsValue)}
    (hbody : withoutHash incoming = .ok body) {key : String} (h : key ≠ "provenance") (h' : key ≠ "contentHash") :
    (setProperty "provenance" origin body).lookup key = (spread incoming).lookup key := by
  have hspread : body = (spread incoming).filter fun e => e.1 ≠ "contentHash" := by
    cases incoming <;> cases hbody <;> rfl
  rw [lookup_setProperty, if_neg h, hspread, lookup_filter_ne h']

/-! ### Building is careful -/

theorem hides_identifier {s : String} (h : isIdentifier s = true) : hides s = false := by
  simp only [isIdentifier, Bool.and_eq_true, List.all_eq_true] at h
  refine hides_eq_false fun c hc => ?_
  have hchar := h.2 c hc
  simp only [identifierChar, Bool.or_eq_true, decide_eq_true_eq] at hchar
  rcases hchar with (((hchar | rfl) | rfl) | rfl) | rfl
  · have hprinting := (printing_iff.mp (printing_of_isAlphanum hchar)).1
    simp only [control, Bool.and_eq_false_imp, decide_eq_true_eq, decide_eq_false_iff_not]
    omega
  all_goals decide

theorem hides_hexadecimal (bytes : List UInt8) : hides (hexadecimal bytes) = false := by
  have hdigit : ∀ n < 16, control (Json.hexDigit n) = false := by decide
  refine hides_eq_false fun c hc => ?_
  rw [hexadecimal, String.toList_ofList] at hc
  obtain ⟨b, -, hc⟩ := List.mem_flatMap.mp hc
  have hb := b.toNat_lt
  simp only [List.mem_cons, List.not_mem_nil, or_false] at hc
  rcases hc with rfl | rfl
  · exact hdigit _ (by omega)
  · exact hdigit _ (by omega)

/-- What a pack that was built is made of. -/
theorem buildCapabilityPack_eq_ok {p : PublishPlatform} {input : BuildCapabilityPackInput}
    {built : BuiltCapabilityPackV1} (h : buildCapabilityPack p input = .ok built) :
    ∃ spec body skill, parsePackSpec input.spec = .ok spec ∧ withoutHash input.skill = .ok body ∧
      normalizeSkillDefinition p.toPlatform (.object (setProperty "provenance" (packOrigin spec) body)) = .ok skill ∧
      built.pack = packDocument spec skill input.description input.license ∧
      assertNoSecrets p.toLanguage built.pack = .ok () := by
  obtain ⟨spec, hspec, h⟩ := bind_eq_ok.mp h
  obtain ⟨body, hbody, h⟩ := bind_eq_ok.mp h
  obtain ⟨skill, hskill, h⟩ := bind_eq_ok.mp h
  obtain ⟨hclean, h⟩ := check_bind_eq_ok.mp h
  obtain ⟨knowledge, -, h⟩ := bind_eq_ok.mp h
  obtain ⟨image, -, h⟩ := bind_eq_ok.mp h
  obtain ⟨verified, -, h⟩ := bind_eq_ok.mp h
  obtain ⟨-, h⟩ := check_bind_eq_ok.mp h
  obtain ⟨metadata, -, h⟩ := bind_eq_ok.mp h
  cases h
  exact ⟨spec, body, skill, hspec, hbody, hskill, rfl, hclean⟩

theorem validateProvenance_packOrigin {skillId : String} {spec : PackSpecV1} {provenance : SkillProvenanceV1}
    (h : validateProvenance skillId (some (packOrigin spec)) = .ok provenance) : isIdentifier spec.name = true := by
  obtain ⟨-, h⟩ := check_bind_eq_ok.mp h
  have hname : textProperty [("source", .string "local-pack"), ("packId", .string spec.name),
      ("publisher", .string spec.publisher)] "packId" = some spec.name := rfl
  simp only [Option.bind_some, packOrigin, asRecord, Option.getD_some, hname] at h
  split at h
  · rename_i packId hpackId
    obtain ⟨hpack, hidentifier⟩ := Option.filter_eq_some_iff.mp hpackId
    cases hpack
    exact hidentifier
  · cases h

theorem normalizeSkillDefinition_shaped {p : Platform} {record : List (String × JsValue)} {skill : SkillDefinitionV1}
    (h : normalizeSkillDefinition p (.object record) = .ok skill) :
    ShapedFrom record skill.toSkillBodyV1 ∧ skill.contentHash = hashSkillDefinition p skill.toSkillBodyV1 := by
  obtain ⟨s, hs, h⟩ := bind_eq_ok.mp h
  obtain ⟨-, h⟩ := check_bind_eq_ok.mp h
  cases h
  exact ⟨validateSkillShape_shaped hs, rfl⟩

/-- The texts of a pack that its author gives: all but names, identifiers and hashes. -/
def givenTexts (spec : PackSpecV1) (skill : SkillBodyV1) (description license : Option String) : List String :=
  [skill.skillVersion] ++ skill.name.toList ++ skill.triggers ++ skill.domains ++
    skill.schemas.toList.flatMap (·.strings) ++
    [skill.instructions, packDescription skill.id skill.instructions description] ++
    skill.requiredCapabilities ++ skill.requiredTools ++ skill.knowledgeRefs ++ license.toList ++ [spec.publisher]

/-- What an author gives comes into the pack. -/
theorem givenTexts_subset {spec : PackSpecV1} {skill : SkillDefinitionV1} {description license : Option String} :
    givenTexts spec skill.toSkillBodyV1 description license ⊆ stringsOf (packDocument spec skill description license) := by
  intro t ht
  rw [stringsOf_packDocument, stringsOf_value]
  simp only [givenTexts, List.mem_append, List.mem_cons, List.not_mem_nil, or_false] at ht
  rcases ht with (((((((((h | h) | h) | h) | h) | h | h) | h) | h) | h) | h) | h
  case inl.inr =>
    obtain rfl := Option.mem_toList.mp h
    simp
  all_goals simp [h]

/-- The other strings in a pack. -/
def packConstants (spec : PackSpecV1) (skill : SkillDefinitionV1) : List String :=
  [spec.name, skill.id, "local-pack", "skill", "Apache-2.0", skill.contentHash]

theorem stringsOf_packDocument_subset {spec : PackSpecV1} {skill : SkillDefinitionV1}
    {description license : Option String} : stringsOf (packDocument spec skill description license) ⊆
      packConstants spec skill ++ givenTexts spec skill.toSkillBodyV1 description license := by
  intro s hs
  rw [stringsOf_packDocument, stringsOf_value] at hs
  simp only [List.mem_append, List.mem_cons, List.not_mem_nil, or_false, Option.toList_none, Option.toList_some] at hs
  simp only [packConstants, givenTexts, List.mem_append, List.mem_cons, List.not_mem_nil, or_false]
  rcases hs with ((((h | h | h) | h) | h) | h | h) | h
  case inl.inl.inl.inl.inr.inl =>
    cases hname : skill.name with
    | none => simp [h, hname]
    | some name => simp [h, hname]
  case inl.inr.inl =>
    cases license with
    | none => simp [h]
    | some license => simp [h]
  case inr =>
    rcases h with ((((((((((((h | h) | h) | h) | h) | h) | h) | h) | h) | h) | h | h)) | h) | h
    all_goals simp [h]
  all_goals simp [h]

/-- **A pack that was built is free of secrets exactly if no text it was built from hides one.** -/
theorem buildCapabilityPack_unhidden {p : PublishPlatform} {input : BuildCapabilityPackInput}
    {built : BuiltCapabilityPackV1} (h : buildCapabilityPack p input = .ok built) :
    Clean built.pack ↔ input.Unhidden := by
  obtain ⟨spec, body, skill, hspec, hbody, hskill, hpack, hpasses⟩ := buildCapabilityPack_eq_ok h
  obtain ⟨hshaped, hhash⟩ := normalizeSkillDefinition_shaped hskill
  have hclean : Clean built.pack ↔ ∀ s ∈ stringsOf built.pack, hides s = false :=
    forall₂_congr fun s hs => by rw [leaks_eq_hides hpasses hs]
  have htexts : input.texts = givenTexts spec skill.toSkillBodyV1 input.description input.license := by
    rw [BuildCapabilityPackInput.texts, hspec, ← skillTexts_congr fun key hk hk' => lookup_body hbody hk hk',
      hshaped.skillTexts_eq]
    rfl
  -- identifiers and hashes have no white space in them
  have hconstants : ∀ s ∈ packConstants spec skill, hides s = false := by
    have hprovenance := hshaped.provenance
    rw [lookup_setProperty, if_pos rfl] at hprovenance
    have hhex := hides_hexadecimal (p.digest (canonicalBytes p.toLanguage skill.toSkillBodyV1.value))
    rw [← p.sha256Hex_eq, ← hashSkillDefinition, ← hhash] at hhex
    simp only [packConstants, List.forall_mem_cons]
    exact ⟨hides_identifier (validateProvenance_packOrigin hprovenance),
      hides_identifier (Option.filter_eq_some_iff.mp hshaped.id).2, by decide +kernel,
      by decide +kernel, by decide +kernel, hhex, by simp⟩
  rw [hclean, hpack, BuildCapabilityPackInput.Unhidden, htexts]
  constructor
  · exact fun hpackStrings t ht => hpackStrings t (givenTexts_subset ht)
  · intro hgiven s hs
    rcases List.mem_append.mp (stringsOf_packDocument_subset hs) with hs | hs
    · exact hconstants s hs
    · exact hgiven s hs

/-! ### Publishing is careful -/

/-- A pack is offered to the registry, and nothing else. -/
theorem publishTo_only {built : BuiltCapabilityPackV1} {offer : PackPublishInputV1} :
    Prog.Only (· = .publish offer) (fun _ => True) (publishTo built offer) := by
  refine .bind (Prog.only_ask rfl) fun answer _ => ?_
  refine .bind (Q := fun _ => True) (Prog.only_ofExcept fun _ _ => trivial) fun value _ => ?_
  refine .bind (Q := fun _ => True) (Prog.only_ofExcept fun _ _ => trivial) fun manifest _ => ?_
  exact .bind (Q := fun _ => True) (Prog.only_ofExcept fun _ _ => trivial) fun _ _ => Prog.only_ret trivial

/-- What is proposed or published is a pack that was built, and no other is offered to the registry. -/
theorem publishLearnedSkill_builds {p : PublishPlatform} {input : PublishLearnedSkillInput} :
    (publishLearnedSkill p input).Sat fun calls res => (calls ≠ [] ∨ ∃ receipt, res = .ok receipt) →
      ∃ spec built, parsePackSpec input.spec = .ok spec ∧ buildCapabilityPack p (input.build spec) = .ok built ∧
        (∀ a ∈ calls, a.1 = .publish (built.offer input built.description)) ∧
        ∀ receipt, res = .ok receipt → receipt.sha256 = built.sha256 ∧ receipt.stateRoot = built.stateRoot := by
  have hfail : ∀ e : String, (([] : List (Answered PublishCall PublishCall.Answer)) ≠ [] ∨
      ∃ receipt : SkillPublishReceiptV1, Except.error e = .ok receipt) → False := by
    rintro e (h | ⟨receipt, h⟩)
    · exact h rfl
    · cases h
  refine Prog.Sat.ofExcept_bind (fun spec hspec => ?_) fun e _ h => (hfail e h).elim
  refine Prog.Sat.ofExcept_bind (fun _ _ => ?_) fun e _ h => (hfail e h).elim
  refine Prog.Sat.ofExcept_bind (fun _ _ => ?_) fun e _ h => (hfail e h).elim
  refine Prog.Sat.ofExcept_bind (fun _ _ => ?_) fun e _ h => (hfail e h).elim
  refine Prog.Sat.ofExcept_bind (fun _ _ => ?_) fun e _ h => (hfail e h).elim
  refine Prog.Sat.ofExcept_bind (fun built hbuilt => ?_) fun e _ h => (hfail e h).elim
  split
  · refine fun _ => ⟨spec, built, hspec, hbuilt, by simp, fun receipt h => ?_⟩
    cases h
    exact ⟨rfl, rfl⟩
  · refine Prog.Sat.ofExcept_bind (fun _ _ => ?_) fun e _ h => (hfail e h).elim
    refine Prog.Sat.bind publishTo_only (fun calls manifest h _ => ?_) fun calls e h _ => ?_
    · refine ⟨spec, built, hspec, hbuilt, by simpa using h.1, fun receipt hreceipt => ?_⟩
      cases hreceipt
      exact ⟨rfl, rfl⟩
    · exact ⟨spec, built, hspec, hbuilt, h.1, by rintro _ ⟨⟩⟩

/-- **Packs are free of secrets exactly if nothing they are built from hides one.** This holds of every
pack that is built, so of every pack that is proposed, offered to the registry or published. -/
theorem packs_clean_iff (p : PublishPlatform) :
    (∀ input built, buildCapabilityPack p input = .ok built → (Clean built.pack ↔ input.Unhidden)) ∧
    ∀ input calls res, Prog.Runs (publishLearnedSkill p input) calls res →
      (calls ≠ [] ∨ ∃ receipt, res = .ok receipt) →
        ∃ spec built, parsePackSpec input.spec = .ok spec ∧ buildCapabilityPack p (input.build spec) = .ok built ∧
          (∀ a ∈ calls, a.1 = .publish (built.offer input built.description)) ∧
          (∀ receipt, res = .ok receipt → receipt.sha256 = built.sha256) ∧
          (Clean built.pack ↔ (input.build spec).Unhidden) := by
  refine ⟨fun input built h => buildCapabilityPack_unhidden h, fun input calls res hruns hdone => ?_⟩
  obtain ⟨spec, built, hspec, hbuilt, hcalls, hreceipt⟩ :=
    Prog.sat_iff_runs.mp publishLearnedSkill_builds calls res hruns hdone
  exact ⟨spec, built, hspec, hbuilt, hcalls, fun receipt h => (hreceipt receipt h).1,
    buildCapabilityPack_unhidden hbuilt⟩

/-- A core that makes empty images. -/
def sampleCore : KnowledgeCore where
  create _ _ := .ok []
  verify _ := .ok "root"
  mount _ := .ok ()

/-- A platform with this core. -/
def samplePublisher : PublishPlatform where
  toLowerCase s := s
  stringify _ := ""
  numberText _ := "1"
  collate := compare
  parse _ := .error ""
  decode _ := ""
  sha256Hex _ := hexadecimal (List.replicate 32 0xab)
  verifyImage _ := .error ""
  mountImage _ := .error ""
  digest _ := List.replicate 32 0xab
  loadCore := .ok sampleCore
  sha256Hex_eq _ := rfl

/-- A skill that was learned, and passed the gates. -/
def learned (instructions : String) : PublishLearnedSkillInput where
  candidate := {
    id := "login", lessonId := "lesson/login", status := .promoted
    skill := { id := "login", skillVersion := "1.0.0", triggers := ["login"], domains := []
               instructions := instructions, requiredCapabilities := [], requiredTools := []
               knowledgeRefs := [], provenance := { packId := "local-experience" } }
    gates := ⟨true, true, true, true⟩ }
  spec := .text "acme/login"
  publishes := true
  evaluationPassed := true

/-- The pack that it is to be. -/
def learnedSpec : PackSpecV1 where
  publisher := "acme"
  slug := "login"
  version := "latest"
  name := "acme/login"

theorem packs_clean_iff_sample :
    ∃ built, buildCapabilityPack samplePublisher ((learned "Ask for the password.\nThen log in.").build learnedSpec) =
      .ok built ∧ Clean built.pack := by
  have hbuilt : (buildCapabilityPack samplePublisher
      ((learned "Ask for the password.\nThen log in.").build learnedSpec)).toOption.isSome = true := by decide +kernel
  obtain ⟨built, h⟩ := Option.isSome_iff_exists.mp hbuilt
  have h := toOption_eq_some.mp h
  have hunhidden : ∀ t ∈ ((learned "Ask for the password.\nThen log in.").build learnedSpec).texts, hides t = false := by
    decide +kernel
  exact ⟨built, h, ((packs_clean_iff samplePublisher).1 _ built h).mpr hunhidden⟩

/-- A password behind a line break is packed, proposed, and reported clean. -/
theorem broken_password_packed : ∃ built receipt,
    buildCapabilityPack samplePublisher ((learned "password\n: hunter2").build learnedSpec) = .ok built ∧
    "password\n: hunter2" ∈ stringsOf built.pack ∧ leaks "password\n: hunter2" = true ∧
    publishLearnedSkill samplePublisher (learned "password\n: hunter2") = .ret receipt ∧
    receipt.decision = .proposed ∧ receipt.sha256 = built.sha256 ∧ receipt.secrets = "clean" := by
  have hbuilt : (buildCapabilityPack samplePublisher ((learned "password\n: hunter2").build learnedSpec)).toOption.any
      (fun built => decide ("password\n: hunter2" ∈ stringsOf built.pack)) = true := by decide +kernel
  obtain ⟨built, h, hmem⟩ := (Option.any_eq_true _ _).mp hbuilt
  have h := toOption_eq_some.mp h
  have hspec : parsePackSpec (learned "password\n: hunter2").spec = .ok learnedSpec := by decide +kernel
  have hpublish : publishLearnedSkill samplePublisher (learned "password\n: hunter2") =
      .ret ((learned "password\n: hunter2").receipt learnedSpec built .proposed built.manifest) := by
    unfold publishLearnedSkill
    rw [hspec]
    simp only [Prog.ofExcept_ok, Prog.ret_bind, h]
    rfl
  exact ⟨built, _, h, of_decide_eq_true hmem, by decide +kernel, hpublish, rfl, rfl, rfl⟩

end Knolo.Skills
