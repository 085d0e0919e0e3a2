import Knolo.Skills.Catalog

/-!
# Skill definitions

`packages/agents/src/skills/definition.ts`: what a skill must be like, and its hash. A skill that
comes from outside is a value of any shape; `normalizeSkillDefinition` makes a definition of it, or
throws.
-/

namespace Knolo.Skills

open Script Harness Registry Library.Fallible

/-- Where a skill says it is from. -/
structure SkillProvenanceV1 where
  packId : String
  digest : Option String := none
  publisher : Option String := none
  deriving DecidableEq

/-- The schemas of a skill. -/
structure SkillSchemasV1 where
  input : Option JsValue
  output : Option JsValue

/-- A skill definition without its hash. -/
structure SkillBodyV1 where
  id : String
  skillVersion : String
  name : Option String := none
  triggers : List String
  domains : List String
  schemas : Option SkillSchemasV1 := none
  instructions : String
  requiredCapabilities : List String
  requiredTools : List String
  knowledgeRefs : List String
  provenance : SkillProvenanceV1

/-- A skill definition that may say its hash. -/
structure SkillDefinitionInputV1 extends SkillBodyV1 where
  contentHash : Option String := none

/-- A skill definition. -/
structure SkillDefinitionV1 extends SkillBodyV1 where
  contentHash : String

/-! ### Hashes -/

/-- A property that is left out where it is missing. -/
def optionalProperty (key : String) (value : Option JsValue) : List (String × JsValue) :=
  (value.map fun v => (key, v)).toList

/-- Texts as a value. -/
def texts (values : List String) : JsValue := .array (values.map .string)

/-- The value that is hashed. -/
def SkillBodyV1.value (skill : SkillBodyV1) : JsValue :=
  .object <| [("version", .number (.finite 1)), ("id", .string skill.id), ("skillVersion", .string skill.skillVersion)] ++
    optionalProperty "name" (skill.name.map .string) ++
    [("triggers", texts skill.triggers), ("domains", texts skill.domains)] ++
    optionalProperty "schemas" (skill.schemas.map fun s =>
      .object (optionalProperty "input" s.input ++ optionalProperty "output" s.output)) ++
    [("instructions", .string skill.instructions), ("requiredCapabilities", texts skill.requiredCapabilities),
      ("requiredTools", texts skill.requiredTools), ("knowledgeRefs", texts skill.knowledgeRefs),
      ("provenance", .object <| [("source", .string "local-pack"), ("packId", .string skill.provenance.packId)] ++
        optionalProperty "digest" (skill.provenance.digest.map .string) ++
        optionalProperty "publisher" (skill.provenance.publisher.map .string))]

/-- `hashSkillDefinition`. -/
def hashSkillDefinition (p : Platform) (skill : SkillBodyV1) : String := p.sha256Hex skill.value

/-! ### Checks -/

/-- A character of an identifier. -/
def identifierChar (c : Char) : Bool := c.isAlphanum || c = '_' || c = '.' || c = '/' || c = '-'

/-- `identifier`. -/
def isIdentifier (s : String) : Bool :=
  1 ≤ s.toList.length && s.toList.length ≤ 128 && s.toList.all identifierChar

/-- `stringList`. -/
def stringList (skillId field : String) (record : List (String × JsValue)) : Except String (List String) :=
  match (record.lookup field).bind asStringArray with
  | some items => .ok items
  | none => .error s!"skill '{skillId}' {field} must be an array of strings"

/-- `validateProvenance`. -/
def validateProvenance (skillId : String) (value : Option JsValue) : Except String SkillProvenanceV1 := do
  let record := (value.bind asRecord).getD []
  ensure (textProperty record "source" = some "local-pack")
    s!"skill '{skillId}' provenance.source must be local-pack"
  let some packId := (textProperty record "packId").filter isIdentifier
    | throw s!"skill '{skillId}' provenance.packId is not a valid identifier"
  return {
    packId := packId
    digest := nonEmpty (textProperty record "digest")
    publisher := nonEmpty (textProperty record "publisher") }

/-- `validateSchemas`. -/
def validateSchemas (skillId : String) (value : JsValue) : Except String SkillSchemasV1 :=
  match value with
  | .object record => .ok ⟨record.lookup "input", record.lookup "output"⟩
  | _ => .error s!"skill '{skillId}' schemas must be an object"

/-- Is a value the number one? -/
def isOne : Option JsValue → Bool
  | some (.number (.finite q)) => q = 1
  | _ => false

/-- The properties of an object or an array. -/
def ownProperties : JsValue → Option (List (String × JsValue))
  | .object ps => some ps
  | .array _ => some []
  | _ => none

/-- `validateSkillShape`. -/
def validateSkillShape (p : Platform) (input : JsValue) : Except String SkillDefinitionInputV1 := do
  let some record := ownProperties input | throw "skill definition must be an object"
  ensure (isOne (record.lookup "version")) "skill definition version must be 1"
  let shown := text p.toLanguage (record.lookup "id")
  let some id := (textProperty record "id").filter isIdentifier
    | throw s!"skill id is not a valid identifier: {shown}"
  let some skillVersion := (textProperty record "skillVersion").filter fun s => !isBlank s
    | throw s!"skill '{id}' skillVersion is required"
  let some instructions := (textProperty record "instructions").filter fun s => !isBlank s
    | throw s!"skill '{id}' instructions must be a non-empty string"
  let provenance ← validateProvenance id (record.lookup "provenance")
  let triggers ← stringList id "triggers" record
  let domains ← stringList id "domains" record
  let schemas ← match (record.lookup "schemas").filter truthy with
    | some v => some <$> validateSchemas id v
    | none => pure none
  let requiredCapabilities ← stringList id "requiredCapabilities" record
  let requiredTools ← stringList id "requiredTools" record
  let knowledgeRefs ← stringList id "knowledgeRefs" record
  return {
    id := id
    skillVersion := String.ofList (trim skillVersion)
    name := ((textProperty record "name").filter fun s => !isBlank s).map fun s => String.ofList (trim s)
    triggers := triggers
    domains := domains
    schemas := schemas
    instructions := instructions
    requiredCapabilities := requiredCapabilities
    requiredTools := requiredTools
    knowledgeRefs := knowledgeRefs
    provenance := provenance
    contentHash := nonEmpty (textProperty record "contentHash") }

/-- `normalizeSkillDefinition`. -/
def normalizeSkillDefinition (p : Platform) (input : JsValue) : Except String SkillDefinitionV1 := do
  let skill ← validateSkillShape p input
  let contentHash := hashSkillDefinition p skill.toSkillBodyV1
  ensure (skill.contentHash.all (· = contentHash))
    s!"skill '{skill.id}' contentHash does not match canonical definition"
  return { skill.toSkillBodyV1 with contentHash := contentHash }

/-- What a skill has of the record it is made from. -/
structure ShapedFrom (record : List (String × JsValue)) (skill : SkillBodyV1) : Prop where
  id : (textProperty record "id").filter isIdentifier = some skill.id
  skillVersion : ((textProperty record "skillVersion").filter fun s => !isBlank s).map (fun s => String.ofList (trim s)) =
    some skill.skillVersion
  name : ((textProperty record "name").filter fun s => !isBlank s).map (fun s => String.ofList (trim s)) = skill.name
  triggers : (record.lookup "triggers").bind asStringArray = some skill.triggers
  domains : (record.lookup "domains").bind asStringArray = some skill.domains
  schemas : (((record.lookup "schemas").filter truthy).bind asRecord).map
    (fun ps => (⟨ps.lookup "input", ps.lookup "output"⟩ : SkillSchemasV1)) = skill.schemas
  instructions : ((textProperty record "instructions").filter fun s => !isBlank s) = some skill.instructions
  requiredCapabilities : (record.lookup "requiredCapabilities").bind asStringArray = some skill.requiredCapabilities
  requiredTools : (record.lookup "requiredTools").bind asStringArray = some skill.requiredTools
  knowledgeRefs : (record.lookup "knowledgeRefs").bind asStringArray = some skill.knowledgeRefs
  provenance : validateProvenance skill.id (record.lookup "provenance") = .ok skill.provenance

theorem stringList_eq_ok {skillId field : String} {record : List (String × JsValue)} {items : List String} :
    stringList skillId field record = .ok items ↔ (record.lookup field).bind asStringArray = some items := by
  unfold stringList
  cases (record.lookup field).bind asStringArray <;> simp

theorem validateSchemas_eq_ok {skillId : String} {value : JsValue} {schemas : SkillSchemasV1} :
    validateSchemas skillId value = .ok schemas ↔
      (asRecord value).map (fun ps => (⟨ps.lookup "input", ps.lookup "output"⟩ : SkillSchemasV1)) = some schemas := by
  cases value <;> simp [validateSchemas, asRecord]

/-- **A skill is made of what its record has.** -/
theorem validateSkillShape_shaped {p : Platform} {record : List (String × JsValue)} {skill : SkillDefinitionInputV1}
    (h : validateSkillShape p (.object record) = .ok skill) : ShapedFrom record skill.toSkillBodyV1 := by
  unfold validateSkillShape at h
  simp only [ownProperties] at h
  obtain ⟨-, h⟩ := check_bind_eq_ok.mp h
  split at h
  · rename_i id hid
    split at h
    · rename_i version hversion
      split at h
      · rename_i instructions hinstructions
        obtain ⟨provenance, hprovenance, h⟩ := bind_eq_ok.mp h
        obtain ⟨triggers, htriggers, h⟩ := bind_eq_ok.mp h
        obtain ⟨domains, hdomains, h⟩ := bind_eq_ok.mp h
        -- whether or not there are schemas, three lists follow
        split at h
        all_goals
          rename_i hgiven
          obtain ⟨schemas, hschemas, h⟩ := bind_eq_ok.mp h
          obtain ⟨capabilities, hcapabilities, h⟩ := bind_eq_ok.mp h
          obtain ⟨tools, htools, h⟩ := bind_eq_ok.mp h
          obtain ⟨refs, hrefs, h⟩ := bind_eq_ok.mp h
          cases h
          refine ⟨hid, by rw [hversion]; rfl, rfl, stringList_eq_ok.mp htriggers, stringList_eq_ok.mp hdomains, ?_,
            hinstructions, stringList_eq_ok.mp hcapabilities, stringList_eq_ok.mp htools, stringList_eq_ok.mp hrefs,
            hprovenance⟩
          rw [hgiven]
        · obtain ⟨s, hs, hsome⟩ := bind_eq_ok.mp hschemas
          cases hsome
          exact validateSchemas_eq_ok.mp hs
        · cases hschemas
          rfl
      · cases h
    · cases h
  · cases h

/-- A skill keeps the id that was given, and it is an identifier. -/
theorem validateSkillShape_filter {p : Platform} {record : List (String × JsValue)} {skill : SkillDefinitionInputV1}
    (h : validateSkillShape p (.object record) = .ok skill) :
    (textProperty record "id").filter isIdentifier = some skill.id := (validateSkillShape_shaped h).id

theorem validateSkillShape_id {p : Platform} {record : List (String × JsValue)} {skill : SkillDefinitionInputV1}
    (h : validateSkillShape p (.object record) = .ok skill) : textProperty record "id" = some skill.id :=
  (Option.filter_eq_some_iff.mp (validateSkillShape_filter h)).1

theorem normalizeSkillDefinition_id {p : Platform} {skill : SkillBodyV1} {k : SkillDefinitionV1}
    (h : normalizeSkillDefinition p skill.value = .ok k) : k.id = skill.id := by
  obtain ⟨s, hs, h⟩ := bind_eq_ok.mp h
  obtain ⟨-, h⟩ := check_bind_eq_ok.mp h
  cases h
  exact Option.some.inj ((validateSkillShape_id hs).symm.trans rfl)

/-- What a definition is made of: an object whose id is that of the definition, an identifier. -/
theorem normalizeSkillDefinition_input {p : Platform} {input : JsValue} {k : SkillDefinitionV1}
    (h : normalizeSkillDefinition p input = .ok k) :
    isIdentifier k.id = true ∧ property input "id" = .ok (some (.string k.id)) := by
  obtain ⟨s, hs, h⟩ := bind_eq_ok.mp h
  obtain ⟨-, h⟩ := check_bind_eq_ok.mp h
  cases h
  cases input with
  | object record =>
    obtain ⟨hid, hidentifier⟩ := Option.filter_eq_some_iff.mp (validateSkillShape_filter hs)
    refine ⟨hidentifier, ?_⟩
    unfold textProperty at hid
    split at hid
    · rename_i s' hlookup
      cases hid
      exact congrArg Except.ok hlookup
    · cases hid
  | array items => cases hs
  | null | bool | number | string => cases hs

end Knolo.Skills
