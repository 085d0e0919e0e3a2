import Knolo.Harness.Dependency
import Knolo.Harness.Recovery
import Knolo.Library.Traverse
import Knolo.Registry.Pack

/-!
# Authority and the capability index

`packages/agents/src/capabilities`: what a run is allowed to do, what a pack says of itself, and the
index of the skills that packs bring.

What comes from outside, a pack that was parsed or a skill that was configured, is a value of the
language, of any shape. Reading a property of `null` throws, as does calling a method that a value
does not have; the order of texts that `localeCompare` gives is a parameter, with what else the
language and the packages under the code provide (`Platform`).

`CapabilityIndex.Within` is the invariant for where skills come from: adding a pack to an index adds
skills of this pack only (`add_within`, `tryAdd_within`).
-/

namespace Knolo.Skills

open Script Harness Registry Library Library.Fallible Library.StableSort Library.Traverse

/-! ### The platform -/

/-- An object in a knowledge image. -/
structure KnowledgeObject where
  kind : String
  text : String

/-- A knowledge image that is mounted. -/
structure KnowledgeImage where
  stateRoot : String
  objects : List KnowledgeObject

/-- What the language and the packages under the code provide. -/
structure Platform extends Language where
  /-- `localeCompare`. -/
  collate : String → String → Ordering
  /-- `JSON.parse`. -/
  parse : String → Except String JsValue
  /-- `TextDecoder.decode`. -/
  decode : List UInt8 → String
  /-- The digest of a value's canonical text. -/
  sha256Hex : JsValue → String
  /-- `verifyKnowledgeImageV5` of the core, if there is one. -/
  verifyImage : List UInt8 → Except String Unit
  /-- `mountKnowledgeImageV5`, for bytes that are verified. -/
  mountImage : List UInt8 → Except String KnowledgeImage

/-! ### Values -/

/-- A property of a value; `none` is `undefined`. -/
def property (v : JsValue) (key : String) : Except String (Option JsValue) :=
  match v with
  | .null => .error s!"Cannot read properties of null (reading '{key}')"
  | .object ps => .ok (ps.lookup key)
  | _ => .ok none

mutual

/-- `String` of a value. -/
def textOf (language : Language) : JsValue → String
  | .null => "null"
  | .bool b => if b then "true" else "false"
  | .number x => language.numberText x
  | .string s => s
  | .array items => ",".intercalate (itemTexts language items)
  | .object _ => "[object Object]"

/-- The texts of an array's items. -/
def itemTexts (language : Language) : List JsValue → List String
  | [] => []
  | .null :: vs => "" :: itemTexts language vs
  | v :: vs => textOf language v :: itemTexts language vs

end

/-- `String` of a value that may be `undefined`. -/
def text (language : Language) (v : Option JsValue) : String := v.elim "undefined" (textOf language)

/-- A value that is a text. -/
def asText : JsValue → Option String
  | .string s => some s
  | _ => none

/-- A value that is an object. -/
def asRecord : JsValue → Option (List (String × JsValue))
  | .object ps => some ps
  | _ => none

/-- A value that is an array. -/
def asArray : JsValue → Option (List JsValue)
  | .array items => some items
  | _ => none

/-- A value that is an array of texts. -/
def asStringArray (v : JsValue) : Option (List String) := (asArray v).bind fun items => items.mapM asText

/-- A text that is there and not empty. -/
def nonEmpty (s : Option String) : Option String := s.filter fun s => !s.isEmpty

/-- A text is blank: nothing of it is left by `trim`. -/
def isBlank (s : String) : Bool := s.toList.all TypeScript.isWhitespace

/-- The code units of a text. -/
def codeUnits (s : String) : List ℕ :=
  s.toList.flatMap fun c =>
    if c.toNat < 0x10000 then [c.toNat]
    else [0xd800 + (c.toNat - 0x10000) / 0x400, 0xdc00 + (c.toNat - 0x10000) % 0x400]

/-- `uniqueSorted`. -/
def uniqueSorted (values : List String) : List String :=
  sortBy (fun a b => compare (codeUnits a) (codeUnits b)) values.eraseDups

/-! ### Authority -/

/-- What a party grants. -/
structure AuthorityGrantV1 where
  capabilities : List String
  tools : List String
  namespaces : Option (List String) := none
  deriving DecidableEq

/-- What a run is allowed to use. -/
structure EffectiveAuthorityV1 where
  capabilities : List String
  tools : List String
  namespaces : List String
  deriving DecidableEq

/-- Of what an adapter says of itself, whether it has tools. -/
structure AgentCapabilitiesV1 where
  tools : Bool
  deriving DecidableEq

/-- `parseAuthorityGrant`. -/
def parseAuthorityGrant : Option JsValue → Option AuthorityGrantV1
  | some (.object record) =>
    let list := fun key => (record.lookup key).bind asStringArray
    match list "capabilities", list "tools", list "namespaces" with
    | none, none, none => none
    | capabilities, tools, namespaces =>
      some {
        capabilities := uniqueSorted (capabilities.getD [])
        tools := uniqueSorted (tools.getD [])
        namespaces := some (uniqueSorted (namespaces.getD [])) }
  | _ => none

/-- `intersectLists`. -/
def intersectLists : List (List String) → List String
  | [] => []
  | first :: rest => uniqueSorted (first.filter fun item => rest.all (·.contains item))

/-- `intersectAuthority`. -/
def intersectAuthority (parent : Option AuthorityGrantV1) (agent : Option AgentCapabilitiesV1)
    (host policy : Option AuthorityGrantV1) : EffectiveAuthorityV1 :=
  let grants := [parent, host, policy].filterMap id
  let tools := intersectLists (grants.map (·.tools))
  { capabilities := intersectLists (grants.map (·.capabilities))
    tools := if agent.any (!·.tools) then [] else tools
    namespaces := intersectLists (grants.map (·.namespaces.getD [])) }

/-! ### Packs -/

/-- The roles of packs. -/
abbrev CapabilityRoleV1 := PackDependencyRoleV1

/-- What a pack says of itself. -/
structure CapabilityMetadataV1 where
  packId : String
  digest : Option String := none
  role : CapabilityRoleV1
  capabilities : List String
  tools : List String
  namespaces : List String
  skills : List JsValue
  license : Option String := none

/-- `parseRole`. -/
def parseRole : Option JsValue → Option CapabilityRoleV1
  | some (.string "knowledge") => some .knowledge
  | some (.string "skill") => some .skill
  | some (.string "policy") => some .policy
  | some (.string "evaluation") => some .evaluation
  | some (.string "workflow") => some .workflow
  | _ => none

/-- `capabilityMetadataFromPack`. -/
def capabilityMetadataFromPack (pack : JsValue) : Except String CapabilityMetadataV1 := do
  let some record := asRecord pack | throw "pack metadata must be an object"
  let some id := textProperty record "id" | throw "pack metadata requires id"
  ensure (isBlank id = false) "pack metadata requires id"
  let authority := ((record.lookup "authority").bind asRecord).getD []
  let embedded := ((record.lookup "capabilityMetadata").bind asRecord).getD []
  let texts := fun (record : List (String × JsValue)) key => ((record.lookup key).bind asStringArray).getD []
  let skills := ((record.lookup "skills").bind asArray).getD [] ++ ((embedded.lookup "skills").bind asArray).getD []
  let role := parseRole ((definedProperty embedded "role").or (record.lookup "role"))
  return {
    packId := id
    digest := nonEmpty ((textProperty record "digest").or (textProperty embedded "digest"))
    role := role.getD (if skills.isEmpty then .knowledge else .skill)
    capabilities := uniqueSorted (texts authority "capabilities" ++ texts record "capabilities" ++
      texts embedded "capabilities")
    tools := uniqueSorted (texts record "tools" ++ texts embedded "tools")
    namespaces := uniqueSorted (texts authority "namespaces" ++ texts record "namespaces" ++
      texts embedded "namespaces")
    skills := skills
    license := nonEmpty ((textProperty record "license").or (textProperty embedded "license")) }

/-! ### The index -/

/-- A skill in the index. -/
structure IndexedSkillV1 where
  skill : JsValue
  packId : String

/-- Packs by their names and skills by their ids, in the order they were added. -/
structure CapabilityIndex where
  packs : List CapabilityMetadataV1 := []
  bySkillId : List (Option JsValue × IndexedSkillV1) := []

/-- Do two values name the same entry of a map? No two objects do. -/
def sameKey : Option JsValue → Option JsValue → Bool
  | none, none | some .null, some .null => true
  | some (.bool a), some (.bool b) => a = b
  | some (.string a), some (.string b) => a = b
  | some (.number .negZero), some (.number (.finite q)) => q = 0
  | some (.number (.finite q)), some (.number .negZero) => q = 0
  | some (.number x), some (.number y) => x = y
  | _, _ => false

namespace CapabilityIndex

/-- `hasPack`. -/
def hasPack (index : CapabilityIndex) (packId : String) : Bool := index.packs.any (·.packId = packId)

/-- The entry of a skill. -/
def entry (index : CapabilityIndex) (id : Option JsValue) : Option IndexedSkillV1 :=
  (index.bySkillId.find? fun e => sameKey e.1 id).map Prod.snd

/-- `skill`. -/
def skill (index : CapabilityIndex) (id : String) : Option IndexedSkillV1 := index.entry (some (.string id))

variable (p : Platform)

/-- A skill of a pack is added. -/
def addSkill (packId : String) (index : CapabilityIndex) (skill : JsValue) : Except String CapabilityIndex := do
  let id ← property skill "id"
  ensure (index.entry id).isNone s!"duplicate skill in capability index: {text p.toLanguage id}"
  return { index with bySkillId := index.bySkillId ++ [(id, ⟨skill, packId⟩)] }

/-- `add`. -/
def add (index : CapabilityIndex) (metadata : CapabilityMetadataV1) : Except String CapabilityIndex := do
  ensure (index.hasPack metadata.packId = false) s!"duplicate pack in capability index: {metadata.packId}"
  metadata.skills.foldlM (addSkill p metadata.packId) { index with packs := index.packs ++ [metadata] }

/-- `tryAdd`: a pack that is there, or has a skill that is there, is left out. -/
def tryAdd (index : CapabilityIndex) (metadata : CapabilityMetadataV1) : Except String CapabilityIndex := do
  if index.hasPack metadata.packId then return index
  let taken ← metadata.skills.anyM fun skill => do return (index.entry (← property skill "id")).isSome
  if taken then return index
  index.add p metadata

/-- `from`. -/
def ofMetadata (entries : List CapabilityMetadataV1) : Except String CapabilityIndex := entries.foldlM (add p) {}

/-- `addPacks`. -/
def addPacks (index : CapabilityIndex) (packs : List JsValue) : Except String CapabilityIndex :=
  packs.foldlM (fun index pack => do index.add p (← capabilityMetadataFromPack pack)) index

/-- `addDefinitions`. -/
def addDefinitions (index : CapabilityIndex) (definitions : List JsValue) : Except String CapabilityIndex :=
  index.add p { packId := "local", role := .skill, capabilities := [], tools := [], namespaces := [], skills := definitions }

/-- `fromDefinitions`. -/
def fromDefinitions (definitions : List JsValue) : Except String CapabilityIndex := addDefinitions p {} definitions

/-- `metadata`. -/
def metadata (index : CapabilityIndex) : List CapabilityMetadataV1 :=
  sortBy (fun a b => p.collate a.packId b.packId) index.packs

/-- `skills`. An id that is no text has no `localeCompare`. -/
def skills (index : CapabilityIndex) : Except String (List IndexedSkillV1) :=
  match index.bySkillId.mapM fun e => (e.1.bind asText).map fun id => (id, e.2) with
  | some entries => .ok ((sortBy (fun a b => p.collate a.1 b.1) entries).map Prod.snd)
  | none =>
    match index.bySkillId with
    | [e] => .ok [e.2]
    | _ => .error "left.skill.id.localeCompare is not a function"

/-- Every skill is as `P` says. -/
def Within (P : JsValue → Prop) (index : CapabilityIndex) : Prop := ∀ e ∈ index.bySkillId, P e.2.skill

/-! ### Where skills come from -/

variable {p} {P Q : JsValue → Prop} {index index' : CapabilityIndex} {m : CapabilityMetadataV1}

theorem within_empty : Within P {} := by simp [Within]

theorem Within.mono (h : index.Within P) (hPQ : ∀ v, P v → Q v) : index.Within Q := fun e he => hPQ _ (h e he)

theorem addSkill_within {packId : String} {skill : JsValue} (h : index.Within P) (hskill : P skill)
    (hadd : index.addSkill p packId skill = .ok index') : index'.Within P := by
  obtain ⟨id, -, hadd⟩ := bind_eq_ok.mp hadd
  obtain ⟨-, -, hadd⟩ := bind_eq_ok.mp hadd
  cases hadd
  intro e he
  rcases List.mem_append.mp he with he | he
  · exact h e he
  · obtain rfl := List.mem_singleton.mp he
    exact hskill

/-- Adding a pack adds its skills. -/
theorem add_within (h : index.Within P) (hm : ∀ skill ∈ m.skills, P skill) (hadd : index.add p m = .ok index') :
    index'.Within P := by
  obtain ⟨-, -, hadd⟩ := bind_eq_ok.mp hadd
  refine foldlM_keeps (fun skill hskill i i' hi hi' => addSkill_within hi (hm skill hskill) hi') ?_ hadd
  exact h

theorem tryAdd_within (h : index.Within P) (hm : ∀ skill ∈ m.skills, P skill) (hadd : index.tryAdd p m = .ok index') :
    index'.Within P := by
  unfold tryAdd at hadd
  split at hadd
  · cases hadd
    exact h
  obtain ⟨taken, -, hadd⟩ := bind_eq_ok.mp hadd
  cases taken with
  | true =>
    cases hadd
    exact h
  | false => exact add_within h hm hadd

/-- Every skill that is listed is in the index. -/
theorem skills_within {es : List IndexedSkillV1} (h : index.Within P) (hes : index.skills p = .ok es) :
    ∀ e ∈ es, P e.skill := by
  unfold skills at hes
  split at hes
  · rename_i entries hentries
    cases hes
    intro e he
    obtain ⟨e', hmem, rfl⟩ := List.mem_map.mp he
    obtain ⟨a, ha, hid⟩ := (mapM_eq_some hentries).2.2 e' (mem_sortBy.mp hmem)
    obtain ⟨id, -, rfl⟩ := Option.map_eq_some_iff.mp hid
    exact h a ha
  · split at hes
    · rename_i e hindex
      cases hes
      intro e' he'
      obtain rfl := List.mem_singleton.mp he'
      exact h e (by simp [hindex])
    · cases hes

end CapabilityIndex

end Knolo.Skills
