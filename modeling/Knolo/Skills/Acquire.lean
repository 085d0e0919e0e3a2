import Knolo.Harness.Activation
import Knolo.Library.History
import Knolo.Skills.Context

/-!
# Acquiring skills

`packages/agents/src/skills/acquire.ts` and `decodeCapabilityPack` of `publish.ts`: what a run lacks
is searched for in the registry, and packs that may help are pulled, inspected and staged for the
next run.

* `Justified` — what acquiring may do: pull a pack only in an acquiring mode, for a hit of a search
  that is not yanked and that the policy allows; record only packs that were pulled.
* `acquireSkills_careful` — acquiring does no more, and pulls at most `maxPulls` times.
-/

namespace Knolo.Skills

open Script Harness Registry Library Library.Fallible Library.StableSort

/-- `MAX_PULLS`. -/
def maxPulls : ℕ := 8

/-! ### Decoding packs -/

/-- The own properties of a value, as they are spread. -/
def spread : JsValue → List (String × JsValue)
  | .object ps => ps
  | .array items => items.mapIdx fun i v => (toString i, v)
  | .string s => s.toList.mapIdx fun i c => (toString i, .string (String.singleton c))
  | _ => []

variable (p : Platform)

/-- `tryJsonPack`. -/
def tryJsonPack (bytes : List UInt8) : Option JsValue :=
  let s := trim (p.decode bytes)
  if s.head? = some '\x7b' then (p.parse (String.ofList s)).toOption else none

/-- `stamp`. -/
def stamp (metadata : CapabilityMetadataV1) (digest : String) : Except String CapabilityMetadataV1 := do
  ensure (metadata.skills.isEmpty = false) "capability pack contains no skills"
  let given := nonEmpty (some digest)
  let origin := JsValue.object <| [("source", .string "local-pack"), ("packId", .string metadata.packId)] ++
    optionalProperty "digest" (given.map .string)
  let skills ← metadata.skills.mapM fun skill => do
    let provenance := match ← property skill "provenance" with
      | none | some .null => origin
      | some v => v
    return .object (setProperty "provenance" provenance (spread skill))
  return { metadata with digest := metadata.digest.or given, skills := skills }

/-- A pack with the name it was found under, if it has none. -/
def named (packId : String) (pack : JsValue) : Except String JsValue := do
  if packId.isEmpty then return pack
  if ((← property pack "id").filter truthy).isSome then return pack
  return .object (setProperty "id" (.string packId) (spread pack))

/-- The text of the pack in an image. -/
def packText (image : KnowledgeImage) : Except String String :=
  match (image.objects.find? (·.kind = "knolo.pack")).or (image.objects.find? (·.kind = "metadata")) with
  | some object => .ok object.text
  | none => .error "capability pack image has no knolo.pack object"

/-- `decodeCapabilityPack`, for a pack that was found under a name and a digest. -/
def decodeCapabilityPack (bytes : List UInt8) (packId digest : String) : Except String CapabilityMetadataV1 := do
  let parsed ← match tryJsonPack p bytes with
    | some json => pure json
    | none => do
      p.verifyImage bytes
      p.parse (← packText (← p.mountImage bytes))
  stamp (← capabilityMetadataFromPack (← named packId parsed)) digest

/-- `inspectPack`. -/
def inspectPack (bytes : List UInt8) (hit : PackSearchHitV1) : Option CapabilityMetadataV1 :=
  let image := (trim (p.decode bytes)).head? ≠ some '\x7b'
  if image ∧ (p.verifyImage bytes).toOption.isNone then none
  else (decodeCapabilityPack p bytes hit.name hit.sha256).toOption

/-! ### Searching -/

/-- `searchQueries`. -/
def searchQueries (gaps missingSkills : List String) : List String :=
  let parts := uniqueSorted (gaps ++ missingSkills)
  (uniqueSorted (" ".intercalate parts :: parts)).filter fun q => !q.isEmpty

/-- A hit by name and version. -/
def PackSearchHitV1.spec (hit : PackSearchHitV1) : String := s!"{hit.name}@{hit.version}"

/-- The hits of the queries: of hits with one name and version, the last. -/
def gatherHits : List String → List (String × PackSearchHitV1) → SessionM (List (String × PackSearchHitV1))
  | [], map => pure map
  | query :: queries, map => do
    let hits ← perform (.search query) rfl
    gatherHits queries (hits.foldl (fun map hit => setProperty hit.spec hit map) map)

/-- `collectHits`. -/
def collectHits (queries : List String) : SessionM (List PackSearchHitV1) := do
  return sortBy (fun a b => (p.collate a.name b.name).then (p.collate a.version b.version))
    ((← gatherHits queries []).map Prod.snd)

/-- A hit with its score. -/
structure RankedHit where
  hit : PackSearchHitV1
  score : ℕ

/-- `rankHits`. -/
def rankHits (hits : List PackSearchHitV1) (task : TaskV1) (gaps missingSkills : List String) : List RankedHit :=
  let query := " ".intercalate (task.objective :: gaps ++ missingSkills)
  let wanted := " ".intercalate gaps
  let ranked := hits.map fun hit =>
    let description := hit.description.getD ""
    ⟨hit, lexicalScore p.toLanguage query s!"{hit.name} {hit.publisher} {hit.slug} {description} {wanted}"⟩
  sortBy (fun (a b : RankedHit) => (compare b.score a.score).then <|
    (p.collate a.hit.name b.hit.name).then (p.collate a.hit.version b.hit.version)) ranked

/-- `allowlisted`. -/
def allowlisted (hit : PackSearchHitV1) (allowlist : List String) : Bool :=
  allowlist.contains hit.name || allowlist.contains hit.spec

/-! ### Inspecting -/

/-- The items of a list that may be missing. -/
def listOf (skill : JsValue) (key : String) : Except String (List JsValue) := do
  match ← property skill key with
  | none | some .null => return []
  | some (.array items) => return items
  | some _ => throw s!"(skill.{key} ?? []).some is not a function"

/-- Is a value one of the texts? -/
def isAmong (values : List String) (v : JsValue) : Bool := (asText v).any values.contains

/-- `coveringSkills`, for one skill. -/
def covers (gaps missingSkills : List String) (skill : JsValue) : Except String Bool := do
  if (← property skill "id").any (isAmong missingSkills) then return true
  return (← listOf skill "requiredCapabilities").any (isAmong gaps)

/-- `authorized`, for a skill of a pack. -/
def authorizedInput (authority : EffectiveAuthorityV1) (skill : JsValue) : Except String Bool := do
  if (← listOf skill "requiredCapabilities").all (isAmong authority.capabilities) then
    return (← listOf skill "requiredTools").all (isAmong authority.tools)
  else return false

/-- From what skills are acquired. -/
structure AcquireSkillsInput where
  task : TaskV1
  index : CapabilityIndex
  authority : EffectiveAuthorityV1
  trust : SkillTrustPolicyV1
  selected : List SkillSelectedV1

/-- How far an acquisition has come. -/
structure Acquisition where
  remainingGaps : List String
  remainingPins : List String
  candidates : List SkillAcquisitionCandidateV1 := []
  staged : List SkillAcquisitionStagedV1 := []
  packs : List CapabilityMetadataV1 := []
  pulls : ℕ := 0
  pulled : Bool := false

/-- `candidate`. -/
def candidate (item : RankedHit) (decision : SkillAcquisitionDecisionV1) (reason : Option String) :
    SkillAcquisitionCandidateV1 where
  name := item.hit.name
  version := item.hit.version
  sha256 := item.hit.sha256
  score := item.score
  decision := decision
  reason := nonEmpty reason

/-- A pack that is not taken. -/
def Acquisition.pass (a : Acquisition) (item : RankedHit) (decision : SkillAcquisitionDecisionV1)
    (reason : Option String) : Acquisition :=
  { a with candidates := a.candidates ++ [candidate item decision reason] }

/-- Why a pack is not pulled, if it is not. -/
def refusal (input : AcquireSkillsInput) (a : Acquisition) (hit : PackSearchHitV1) :
    Option (SkillAcquisitionDecisionV1 × Option String) :=
  if hit.yanked = some true then some (.skipped, some "yanked")
  else if input.trust.registry = .acquireApproved ∧ allowlisted hit input.trust.allowlist = false then
    some (.skipped, some "policy")
  else if input.index.hasPack hit.name || a.packs.any (·.packId = hit.name) then some (.skipped, some "duplicate")
  else if input.trust.registry = .discover then some (.discover, none)
  else if maxPulls ≤ a.pulls then some (.skipped, some "budget")
  else none

/-- Has one of the skills an id that is taken? -/
def clashes (input : AcquireSkillsInput) (a : Acquisition) (usable : List JsValue) : Except String Bool := do
  let ids ← usable.mapM (property · "id")
  let others ← (a.packs.flatMap (·.skills)).mapM (property · "id")
  return ids.any fun id => (input.index.entry id).isSome || others.any (sameKey · id)

/-- The skills of a pack that can be used, or why there are none. -/
def inspect (input : AcquireSkillsInput) (a : Acquisition) (metadata : CapabilityMetadataV1) :
    Except String (String ⊕ List JsValue) := do
  let covering ← metadata.skills.filterM (covers a.remainingGaps a.remainingPins)
  if covering.isEmpty then return .inl "no_cover"
  let usable ← covering.filterM (authorizedInput input.authority)
  if usable.isEmpty then return .inl "authority"
  if ← clashes input a usable then return .inl "duplicate"
  return .inr usable

/-- What still lacks after skills were found. -/
def remaining (a : Acquisition) (usable : List JsValue) : Except String (List String × List String) := do
  let capabilities ← usable.mapM (listOf · "requiredCapabilities")
  let ids ← usable.mapM (property · "id")
  return (a.remainingGaps.filter fun gap => !(capabilities.flatten.filterMap asText).contains gap,
    a.remainingPins.filter fun id => !(ids.filterMap (·.bind asText)).contains id)

/-- The manifest a dependency is made from. -/
def hitManifest (hit : PackSearchHitV1) (bytes : List UInt8) : PackManifestV1 where
  name := hit.name
  version := hit.version
  sha256 := hit.sha256
  stateRoot := nonEmpty hit.stateRoot
  url := ""
  sizeBytes := .finite bytes.length
  yanked := false
  license := nonEmpty hit.license

/-- A pack whose skills can be used is staged. -/
def stagePack (item : RankedHit) (bytes : List UInt8) (metadata : CapabilityMetadataV1) (usable : List JsValue)
    (a : Acquisition) : SessionM Acquisition := do
  let dependency ← Prog.ofExcept (packDependencyFromManifest (hitManifest item.hit bytes) .skill)
  perform (.stage dependency) rfl
  let (gaps, pins) ← Prog.ofExcept (remaining a usable)
  return {
    a with
    staged := a.staged ++ [⟨dependency.name, dependency.version, dependency.sha256⟩]
    packs := a.packs ++ [metadata]
    remainingGaps := gaps
    remainingPins := pins
    candidates := a.candidates ++ [candidate item .staged none] }

/-- The bytes that were pulled. -/
def considerBytes (input : AcquireSkillsInput) (item : RankedHit) (bytes : List UInt8) (a : Acquisition) :
    SessionM Acquisition := do
  match inspectPack p bytes item.hit with
  | none => return a.pass item .skipped (some "unreadable")
  | some metadata =>
    match ← Prog.ofExcept (inspect input a metadata) with
    | .inl reason => return a.pass item .skipped (some reason)
    | .inr usable => stagePack item bytes metadata usable a

/-- `pull`, with the error if it throws. -/
def tryPull (spec : String) : SessionM (Except String PackBytesV1) := Prog.ask (SessionCall.pull spec)

/-- A hit is considered. -/
def consider (input : AcquireSkillsInput) (item : RankedHit) (a : Acquisition) : SessionM Acquisition :=
  match refusal input a item.hit with
  | some (decision, reason) => return a.pass item decision reason
  | none => do
    let a := { a with pulls := a.pulls + 1 }
    match ← tryPull item.hit.spec with
    | .error message => return a.pass item .skipped (some message)
    | .ok result => considerBytes p input item result.bytes { a with pulled := true }

/-- The hits are considered until nothing lacks. -/
def considerAll (input : AcquireSkillsInput) : List RankedHit → Acquisition → SessionM Acquisition
  | [], a => return a
  | item :: items, a =>
    if a.remainingGaps.isEmpty && a.remainingPins.isEmpty then return a
    else do considerAll input items (← consider p input item a)

/-- `acquireSkills`: the receipt and the packs. -/
def acquireSkills (input : AcquireSkillsInput) :
    SessionM (SkillAcquisitionReceiptV1 × List CapabilityMetadataV1) := do
  let registry := input.trust.registry
  let publish := normalizePublish (some input.trust.publish)
  let gaps ← Prog.ofExcept (capabilityGaps input.task input.index (input.selected.map (·.id)))
  let missingSkills := missingPreferredSkills input.task input.index
  if registry = .disabled ∨ (gaps.isEmpty ∧ missingSkills.isEmpty) then
    return (emptyAcquisition registry publish gaps missingSkills, [])
  Prog.ofExcept (ensure (¬ (registry = .acquireApproved ∧ input.trust.allowlist = []))
    "acquire-approved requires a pack allowlist")
  let hits ← collectHits p (searchQueries gaps missingSkills)
  let a ← considerAll p input (rankHits p hits input.task gaps missingSkills)
    { remainingGaps := gaps, remainingPins := missingSkills }
  return ({
    registry := registry, publish := publish, gaps := gaps, missingSkills := missingSkills
    queried := true, pulled := a.pulled, staged := a.staged, candidates := a.candidates }, a.packs)

/-! ### What acquiring may do -/

/-- A search has returned the hit. -/
def Found (before : Calls) (hit : PackSearchHitV1) : Prop :=
  ∃ (q : String) (hits : List PackSearchHitV1), ⟨.search q, .ok hits⟩ ∈ before ∧ hit ∈ hits

/-- The pack was pulled, for a hit. -/
def Pulled (before : Calls) (m : CapabilityMetadataV1) : Prop :=
  ∃ (hit : PackSearchHitV1) (pack : PackBytesV1), ⟨.pull hit.spec, .ok pack⟩ ∈ before ∧
    decodeCapabilityPack p pack.bytes hit.name hit.sha256 = .ok m

/-- The policy lets packs be pulled, and this one. -/
structure Allowed (trust : SkillTrustPolicyV1) (hit : PackSearchHitV1) : Prop where
  acquiring : trust.registry = .acquireApproved ∨ trust.registry = .acquireAnyVerified
  sound : hit.yanked ≠ some true
  listed : trust.registry = .acquireApproved → hit.name ∈ trust.allowlist ∨ hit.spec ∈ trust.allowlist

/-- A pull is for a hit that was found and is one of `A`; packs that are recorded were pulled. -/
def Justified (A : PackSearchHitV1 → Prop) (before : Calls) : Answered SessionCall SessionCall.Answer → Prop
  | ⟨.pull spec, _⟩ => ∃ hit, Found before hit ∧ spec = hit.spec ∧ A hit
  | ⟨.record packs, _⟩ => ∀ m ∈ packs, Pulled p before m
  | _ => True

/-- Is a call a pull? -/
def isPull : SessionCall → Bool
  | .pull _ => true
  | _ => false

/-- How often packs are pulled. -/
def pullsOf (tr : Calls) : ℕ := tr.countP (isPull ·.1)

variable {p} {A : PackSearchHitV1 → Prop} {input : AcquireSkillsInput} {pre tr : Calls} {hit : PackSearchHitV1}
  {m : CapabilityMetadataV1}

theorem Found.mono (h : Found pre hit) (hsub : pre ⊆ tr) : Found tr hit := by
  obtain ⟨q, hits, hmem, hhit⟩ := h
  exact ⟨q, hits, hsub hmem, hhit⟩

theorem Pulled.mono (h : Pulled p pre m) (hsub : pre ⊆ tr) : Pulled p tr m := by
  obtain ⟨hit, bytes, hmem, hm⟩ := h
  exact ⟨hit, bytes, hsub hmem, hm⟩

@[simp] theorem pullsOf_nil : pullsOf [] = 0 := rfl

@[simp] theorem pullsOf_append (tr tr' : Calls) : pullsOf (tr ++ tr') = pullsOf tr + pullsOf tr' :=
  List.countP_append

theorem isPull_of_quiet {c : SessionCall} (h : c.quiet = true) : isPull c = false := by
  cases c <;> first | rfl | cases h

/-- Calls that have nothing to do with packs are justified. -/
theorem justified_of_quiet {a : Answered SessionCall SessionCall.Answer} (h : a.1.quiet = true) :
    Justified p A pre a := by
  obtain ⟨c, r⟩ := a
  cases c <;> trivial

theorem justified_mono {B : PackSearchHitV1 → Prop} (hAB : ∀ hit, A hit → B hit) (before : Calls)
    (a : Answered SessionCall SessionCall.Answer) (h : Justified p A before a) : Justified p B before a := by
  obtain ⟨c, r⟩ := a
  cases c with
  | pull spec =>
    obtain ⟨hit, hfound, hspec, hA⟩ := h
    exact ⟨hit, hfound, hspec, hAB hit hA⟩
  | record packs => exact h
  | _ => trivial

theorem each_of_quiet (h : ∀ a ∈ tr, a.1.quiet = true) : Each (Justified p A) pre tr ∧ pullsOf tr = 0 := by
  refine ⟨each_of_forall fun a ha before => justified_of_quiet (h a ha), List.countP_eq_zero.mpr fun a ha hp => ?_⟩
  rw [isPull_of_quiet (h a ha)] at hp
  cases hp

variable (p A) in
/-- After the calls `pre`, a part of a run makes justified calls only and at most `n` pulls; what it
returns satisfies `Q`, together with all calls so far. -/
def Careful {α : Type} (n : ℕ) (pre : Calls) (q : SessionM α) (Q : Calls → α → Prop) : Prop :=
  q.Sat fun tr res => Each (Justified p A) pre tr ∧ pullsOf tr ≤ n ∧ ∀ a, res = .ok a → Q (pre ++ tr) a

namespace Careful

variable {α β : Type} {n k : ℕ} {q : SessionM α} {f : α → SessionM β} {Q Q' : Calls → α → Prop} {Q₂ : Calls → β → Prop}

theorem ret {a : α} (h : Q pre a) : Careful p A n pre (.ret a) Q := by
  refine ⟨each_nil _, Nat.zero_le _, ?_⟩
  rintro a' ⟨⟩
  rwa [List.append_nil]

theorem bind (hq : Careful p A n pre q Q) (hf : ∀ tr a, Q tr a → Careful p A k tr (f a) Q₂) :
    Careful p A (n + k) pre (q >>= f) Q₂ := by
  refine Prog.Sat.bind hq (fun tr a h => (hf _ a (h.2.2 a rfl)).mono fun tr' res h' => ⟨?_, ?_, ?_⟩) fun tr e h =>
    ⟨h.1, h.2.1.trans (Nat.le_add_right ..), fun _ he => nomatch he⟩
  · exact (each_append ..).mpr ⟨h.1, h'.1⟩
  · rw [pullsOf_append]
    exact Nat.add_le_add h.2.1 h'.2.1
  · rw [← List.append_assoc]
    exact h'.2.2

theorem ofExcept_bind {x : Except String α} (hf : ∀ a, x = .ok a → Careful p A n pre (f a) Q₂) :
    Careful p A n pre (Prog.ofExcept x >>= f) Q₂ := by
  cases x with
  | ok a => exact hf a rfl
  | error e => exact ⟨each_nil _, Nat.zero_le _, fun _ he => nomatch he⟩

/-- A call that is no pull. -/
theorem ask_bind {c : SessionCall} {f : c.Answer → SessionM β} (hc : isPull c = false)
    (h : ∀ r, Justified p A pre ⟨c, r⟩) (hf : ∀ r, Careful p A n (pre ++ [⟨c, r⟩]) (f r) Q₂) :
    Careful p A n pre (Prog.ask c >>= f) Q₂ := by
  refine fun r => Prog.Sat.mono (hf r) fun tr res h' => ⟨⟨h r, h'.1⟩, ?_, fun b hb => ?_⟩
  · simpa [pullsOf, hc] using h'.2.1
  · simpa using h'.2.2 b hb

/-- Calls that have nothing to do with packs. -/
theorem of_only {Q : α → Prop} (h : Prog.Only (·.quiet = true) Q q) :
    Careful p A 0 pre q fun tr a => (∃ tr', tr = pre ++ tr' ∧ ∀ c ∈ tr', c.1.quiet = true) ∧ Q a := by
  refine Prog.Sat.mono h fun tr res h => ?_
  obtain ⟨heach, hnone⟩ : Each (Justified p A) pre tr ∧ pullsOf tr = 0 := each_of_quiet h.1
  exact ⟨heach, hnone.le, fun a ha => ⟨⟨tr, rfl, h.1⟩, h.2 a ha⟩⟩

theorem imp (hq : Careful p A n pre q Q) (h : ∀ tr a, pre <+: tr → Q tr a → Q' tr a) : Careful p A n pre q Q' :=
  Prog.Sat.mono hq fun _ _ hq => ⟨hq.1, hq.2.1, fun a ha => h _ a (List.prefix_append ..) (hq.2.2 a ha)⟩

theorem weaken {B : PackSearchHitV1 → Prop} (hAB : ∀ hit, A hit → B hit) (hq : Careful p A n pre q Q) :
    Careful p B n pre q Q :=
  Prog.Sat.mono hq fun _ _ hq => ⟨hq.1.mono (justified_mono hAB), hq.2⟩

end Careful

/-! ### What it does -/

theorem mem_foldl_hits {hits : List PackSearchHitV1} {map : List (String × PackSearchHitV1)} :
    ∀ e ∈ hits.foldl (fun map hit => setProperty hit.spec hit map) map, e ∈ map ∨ e.2 ∈ hits := by
  induction hits generalizing map with
  | nil => exact fun e he => .inl he
  | cons hit hits ih =>
    intro e he
    rcases ih e he with he | he
    · rcases mem_setProperty he with he | rfl
      · exact .inl he
      · exact .inr (.head _)
    · exact .inr (.tail _ he)

theorem gatherHits_sat {queries : List String} {map : List (String × PackSearchHitV1)} :
    (gatherHits queries map).Sat fun tr res => (∀ a ∈ tr, a.1.quiet = true) ∧
      ∀ out, res = .ok out → ∀ e ∈ out, e ∈ map ∨ Found tr e.2 := by
  induction queries generalizing map with
  | nil =>
    refine ⟨by simp, ?_⟩
    rintro out ⟨⟩ e he
    exact .inl he
  | cons query queries ih =>
    intro answer
    cases answer with
    | error message => exact ⟨by simp [SessionCall.quiet], fun _ h => nomatch h⟩
    | ok hits =>
      refine Prog.Sat.mono ih fun tr res h => ⟨?_, fun out hout e he => ?_⟩
      · exact List.forall_mem_cons.mpr ⟨rfl, h.1⟩
      · rcases h.2 out hout e he with he | he
        · rcases mem_foldl_hits e he with he | he
          · exact .inl he
          · exact .inr ⟨query, hits, .head _, he⟩
        · exact .inr (he.mono (List.subset_cons_self ..))

theorem collectHits_sat {queries : List String} :
    (collectHits p queries).Sat fun tr res => (∀ a ∈ tr, a.1.quiet = true) ∧
      ∀ hits, res = .ok hits → ∀ hit ∈ hits, Found tr hit := by
  refine Prog.Sat.bind gatherHits_sat (fun tr out h => ?_) fun tr e h => ⟨h.1, fun _ he => nomatch he⟩
  refine ⟨by simpa using h.1, ?_⟩
  rintro hits ⟨⟩ hit hhit
  obtain ⟨e, he, rfl⟩ := List.mem_map.mp (mem_sortBy.mp hhit)
  rcases h.2 out rfl e he with he | he
  · cases he
  · simpa using he

theorem mem_rankHits {hits : List PackSearchHitV1} {task : TaskV1} {gaps missingSkills : List String} {item : RankedHit}
    (h : item ∈ rankHits p hits task gaps missingSkills) : item.hit ∈ hits := by
  obtain ⟨hit, hhit, rfl⟩ := List.mem_map.mp (mem_sortBy.mp h)
  exact hhit

theorem inspectPack_eq_some {bytes : List UInt8} (h : inspectPack p bytes hit = some m) :
    decodeCapabilityPack p bytes hit.name hit.sha256 = .ok m := by
  simp only [inspectPack] at h
  split at h
  · cases h
  · exact toOption_eq_some.mp h

/-- A hit that is not refused is allowed, and there are pulls left. -/
theorem allowed_of_refusal {a : Acquisition} (hr : input.trust.registry ≠ .disabled) (h : refusal input a hit = none) :
    Allowed input.trust hit ∧ a.pulls < maxPulls := by
  simp only [refusal] at h
  split_ifs at h with hyanked hpolicy hduplicate hdiscover hbudget
  refine ⟨⟨?_, hyanked, fun happroved => ?_⟩, Nat.lt_of_not_le hbudget⟩
  · cases hmode : input.trust.registry with
    | disabled => exact absurd hmode hr
    | discover => exact absurd hmode hdiscover
    | acquireApproved => exact .inl rfl
    | acquireAnyVerified => exact .inr rfl
  · have hlisted : allowlisted hit input.trust.allowlist = true := by
      by_contra hno
      exact hpolicy ⟨happroved, Bool.eq_false_iff.mpr hno⟩
    simpa [allowlisted] using hlisted

section Steps

variable {a : Acquisition} {item : RankedHit} {bytes : List UInt8} {metadata : CapabilityMetadataV1} {usable : List JsValue}

theorem stagePack_only : Prog.Only (·.quiet = true)
    (fun a' => a'.pulls = a.pulls ∧ a'.packs = a.packs ++ [metadata]) (stagePack item bytes metadata usable a) := by
  refine Prog.Only.bind (Prog.only_ofExcept fun _ _ => trivial) fun dependency _ => ?_
  refine (only_perform rfl rfl).bind fun _ _ => ?_
  refine Prog.Only.bind (Prog.only_ofExcept fun _ _ => trivial) fun left _ => ?_
  exact Prog.only_ret ⟨rfl, rfl⟩

theorem considerBytes_only : Prog.Only (·.quiet = true)
    (fun a' => a'.pulls = a.pulls ∧
      ∀ m ∈ a'.packs, m ∈ a.packs ∨ decodeCapabilityPack p bytes item.hit.name item.hit.sha256 = .ok m)
    (considerBytes p input item bytes a) := by
  unfold considerBytes
  split
  · exact Prog.only_ret ⟨rfl, fun m hm => .inl hm⟩
  · rename_i metadata hinspect
    refine Prog.Only.bind (Prog.only_ofExcept fun _ _ => trivial) fun found _ => ?_
    split
    · exact Prog.only_ret ⟨rfl, fun m hm => .inl hm⟩
    · refine Prog.Sat.mono stagePack_only fun tr res h => ⟨h.1, fun a' ha' => ?_⟩
      obtain ⟨hpulls, hpacks⟩ := h.2 a' ha'
      refine ⟨hpulls, fun m hm => ?_⟩
      rw [hpacks] at hm
      rcases List.mem_append.mp hm with hm | hm
      · exact .inl hm
      · obtain rfl := List.mem_singleton.mp hm
        exact .inr (inspectPack_eq_some hinspect)

end Steps

/-- **One hit** is pulled once at most, and only where the policy lets it. -/
theorem consider_sat {a : Acquisition} {item : RankedHit} (hr : input.trust.registry ≠ .disabled)
    (hfound : Found pre item.hit) (hpulls : a.pulls ≤ maxPulls) (hpacks : ∀ m ∈ a.packs, Pulled p pre m) :
    (consider p input item a).Sat fun tr res =>
      Each (Justified p (Allowed input.trust)) pre tr ∧ a.pulls + pullsOf tr ≤ maxPulls ∧
        ∀ a', res = .ok a' → a'.pulls = a.pulls + pullsOf tr ∧ ∀ m ∈ a'.packs, Pulled p (pre ++ tr) m := by
  unfold consider
  split
  · refine ⟨each_nil _, by simpa using hpulls, ?_⟩
    rintro a' ⟨⟩
    exact ⟨rfl, fun m hm => (hpacks m hm).mono (List.subset_append_left ..)⟩
  · rename_i hrefusal
    obtain ⟨hallowed, hleft⟩ := allowed_of_refusal hr hrefusal
    intro answer
    have hpull : Justified p (Allowed input.trust) pre ⟨.pull item.hit.spec, answer⟩ := ⟨item.hit, hfound, rfl, hallowed⟩
    cases answer with
    | error message =>
      refine ⟨⟨hpull, each_nil _⟩, hleft, ?_⟩
      rintro a' ⟨⟩
      exact ⟨rfl, fun m hm => (hpacks m hm).mono (List.subset_append_left ..)⟩
    | ok pack =>
      refine Prog.Sat.mono considerBytes_only fun tr res h => ?_
      obtain ⟨heach, hnone⟩ : Each (Justified p (Allowed input.trust)) (pre ++ [⟨.pull item.hit.spec, .ok pack⟩]) tr ∧
          pullsOf tr = 0 := each_of_quiet h.1
      have hcount : pullsOf (⟨.pull item.hit.spec, .ok pack⟩ :: tr) = 1 := by
        rw [← List.singleton_append, pullsOf_append, hnone]
        rfl
      refine ⟨⟨hpull, heach⟩, by rw [hcount]; exact hleft, fun a' ha' => ?_⟩
      obtain ⟨hsame, hnew⟩ := h.2 a' ha'
      refine ⟨by rw [hsame, hcount], fun m hm => ?_⟩
      rcases hnew m hm with hm | hm
      · exact (hpacks m hm).mono (List.subset_append_left ..)
      · exact ⟨item.hit, pack, List.mem_append_right _ (.head _), hm⟩

/-- **All hits**: what each step keeps, over the list. -/
theorem considerAll_sat {items : List RankedHit} (hr : input.trust.registry ≠ .disabled) :
    ∀ {pre : Calls} {a : Acquisition}, (∀ item ∈ items, Found pre item.hit) → a.pulls ≤ maxPulls →
      (∀ m ∈ a.packs, Pulled p pre m) →
      (considerAll p input items a).Sat fun tr res =>
        Each (Justified p (Allowed input.trust)) pre tr ∧ a.pulls + pullsOf tr ≤ maxPulls ∧
          ∀ a', res = .ok a' → ∀ m ∈ a'.packs, Pulled p (pre ++ tr) m := by
  induction items with
  | nil =>
    intro pre a _ hpulls hpacks
    refine ⟨each_nil _, by simpa using hpulls, ?_⟩
    rintro a' ⟨⟩
    simpa using hpacks
  | cons item items ih =>
    intro pre a hfound hpulls hpacks
    obtain ⟨hitem, hitems⟩ := List.forall_mem_cons.mp hfound
    unfold considerAll
    split
    · refine ⟨each_nil _, by simpa using hpulls, ?_⟩
      rintro a' ⟨⟩
      simpa using hpacks
    · refine (consider_sat hr hitem hpulls hpacks).bind (fun tr a' h => ?_) fun tr e h => ⟨h.1, h.2.1, fun _ he => nomatch he⟩
      obtain ⟨heach, hle, hok⟩ := h
      obtain ⟨hsame, hnow⟩ := hok a' rfl
      have hlater : ∀ item ∈ items, Found (pre ++ tr) item.hit := fun item hi =>
        (hitems item hi).mono (List.subset_append_left ..)
      have hrest := ih hlater (hsame ▸ hle) hnow
      refine hrest.mono fun tr' res h' => ⟨(each_append ..).mpr ⟨heach, h'.1⟩, ?_, ?_⟩
      · rw [pullsOf_append, ← Nat.add_assoc, ← hsame]
        exact h'.2.1
      · rw [← List.append_assoc]
        exact h'.2.2

/-- **Acquiring** pulls what it may, as often as it may, and brings the packs it has pulled. -/
theorem acquireSkills_careful : Careful p (Allowed input.trust) maxPulls pre (acquireSkills p input) fun tr x =>
    ∀ m ∈ x.2, Pulled p tr m := by
  unfold acquireSkills
  refine Prog.Sat.ofExcept_bind (fun gaps _ => ?_) fun e _ => ⟨each_nil _, Nat.zero_le _, fun _ h => nomatch h⟩
  dsimp only
  split
  · refine ⟨each_nil _, Nat.zero_le _, ?_⟩
    rintro x ⟨⟩
    simp
  rename_i hgo
  have hr : input.trust.registry ≠ .disabled := fun h => hgo (.inl h)
  refine Prog.Sat.ofExcept_bind (fun _ _ => ?_) fun e _ => ⟨each_nil _, Nat.zero_le _, fun _ h => nomatch h⟩
  refine collectHits_sat.bind (fun tr hits h => ?_) fun tr e h => ?_
  · obtain ⟨heach, hnone⟩ : Each (Justified p (Allowed input.trust)) pre tr ∧ pullsOf tr = 0 := each_of_quiet h.1
    have hfound : ∀ item ∈ rankHits p hits input.task gaps (missingPreferredSkills input.task input.index),
        Found (pre ++ tr) item.hit := fun item hi =>
      (h.2 hits rfl _ (mem_rankHits hi)).mono (List.subset_append_right ..)
    refine (considerAll_sat hr hfound (Nat.zero_le _) (by simp)).bind (fun tr' a h' => ?_) fun tr' e h' => ?_
    · refine ⟨?_, ?_, ?_⟩
      · rw [List.append_nil]
        exact (each_append ..).mpr ⟨heach, h'.1⟩
      · simpa [hnone] using h'.2.1
      · rintro x ⟨⟩
        simpa using h'.2.2 a rfl
    · refine ⟨(each_append ..).mpr ⟨heach, h'.1⟩, ?_, fun _ he => nomatch he⟩
      simpa [hnone] using h'.2.1
  · obtain ⟨heach, hnone⟩ : Each (Justified p (Allowed input.trust)) pre tr ∧ pullsOf tr = 0 := each_of_quiet h.1
    exact ⟨heach, hnone ▸ Nat.zero_le _, fun _ he => nomatch he⟩

end Knolo.Skills
