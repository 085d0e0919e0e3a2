import Knolo.Skills.Session

/-!
# What is staged

A pack whose skills can be used becomes a dependency of the next run. `acquireSkills` makes this
dependency from the hit of the search, not from the manifest that comes with the bytes.

* `Backed` — every dependency is staged right after the pull of the pack whose bytes were inspected,
  and is that of the last hit of its name and version.
* `staged_truthful_iff` — the dependencies say what was pulled exactly if these hits do.
-/

namespace Knolo.Skills

open Script Harness Registry Library Library.Fallible Library.StableSort

/-! ### Hits by name and version -/

/-- The hits a call was answered with. -/
def answeredHits : Answered SessionCall SessionCall.Answer → List PackSearchHitV1
  | ⟨.search _, .ok hits⟩ => hits
  | _ => []

/-- The last hit of a name and version. -/
def lastHit (hits : List PackSearchHitV1) (spec : String) : Option PackSearchHitV1 :=
  hits.reverse.find? fun hit => hit.spec = spec

/-- The hit that a pack is pulled for: the last that the searches have found. -/
def listed (before : Calls) (spec : String) : Option PackSearchHitV1 := lastHit (before.flatMap answeredHits) spec

theorem lastHit_append (hits hits' : List PackSearchHitV1) (spec : String) :
    lastHit (hits ++ hits') spec = (lastHit hits' spec).or (lastHit hits spec) := by
  rw [lastHit, List.reverse_append, List.find?_append]
  rfl

theorem listed_append_of_quiet {pre tr : Calls} (h : ∀ a ∈ tr, answeredHits a = []) (spec : String) :
    listed (pre ++ tr) spec = listed pre spec := by
  have htr : tr.flatMap answeredHits = [] := List.flatMap_eq_nil_iff.mpr h
  rw [listed, List.flatMap_append, htr, List.append_nil, listed]

/-- A map of hits by name and version. -/
structure Keyed (hits : List PackSearchHitV1) (map : List (String × PackSearchHitV1)) : Prop where
  nodup : (map.map Prod.fst).Nodup
  lookup : ∀ spec, map.lookup spec = lastHit hits spec

theorem Keyed.set {hits : List PackSearchHitV1} {map : List (String × PackSearchHitV1)} (h : Keyed hits map)
    (hit : PackSearchHitV1) : Keyed (hits ++ [hit]) (setProperty hit.spec hit map) where
  nodup := (setProperty_perm hit.spec hit h.nodup).1
  lookup spec := by
    rw [lookup_setProperty, lastHit_append, h.lookup]
    by_cases hspec : spec = hit.spec
    · rw [if_pos hspec]
      simp [lastHit, hspec]
    · rw [if_neg hspec]
      simp [lastHit, Ne.symm hspec]

theorem Keyed.setAll {hits hits' : List PackSearchHitV1} {map : List (String × PackSearchHitV1)} (h : Keyed hits map) :
    Keyed (hits ++ hits') (hits'.foldl (fun map hit => setProperty hit.spec hit map) map) := by
  induction hits' generalizing hits map with
  | nil => rwa [List.append_nil]
  | cons hit hits' ih =>
    rw [List.append_cons]
    exact ih (h.set hit)

variable {p : Platform} {input : AcquireSkillsInput} {pre tr : Calls}

/-- Gathering asks the registry to search, and keeps the last hit of each name and version. -/
theorem gatherHits_keyed {queries : List String} {map : List (String × PackSearchHitV1)} :
    (gatherHits queries map).Sat fun tr res => (∀ c ∈ tr, ∃ q, c.1 = .search q) ∧
      ∀ hits out, Keyed hits map → res = .ok out → Keyed (hits ++ tr.flatMap answeredHits) out := by
  induction queries generalizing map with
  | nil =>
    refine ⟨by simp, ?_⟩
    rintro hits out hkeyed ⟨⟩
    simpa using hkeyed
  | cons query queries ih =>
    intro answer
    cases answer with
    | error message => exact ⟨by simp, fun _ _ _ h => nomatch h⟩
    | ok found =>
      refine Prog.Sat.mono ih fun tr res h => ⟨List.forall_mem_cons.mpr ⟨⟨query, rfl⟩, h.1⟩, ?_⟩
      intro hits out hkeyed hout
      rw [List.flatMap_cons, ← List.append_assoc]
      exact h.2 _ out hkeyed.setAll hout

theorem collectHits_listed {queries : List String} :
    (collectHits p queries).Sat fun tr res => (∀ c ∈ tr, ∃ q, c.1 = .search q) ∧
      ∀ hits, res = .ok hits → ∀ hit ∈ hits, listed tr hit.spec = some hit := by
  refine Prog.Sat.bind gatherHits_keyed (fun tr out h => ?_) fun tr e h => ⟨h.1, fun _ he => nomatch he⟩
  refine ⟨by simpa using h.1, ?_⟩
  rintro hits ⟨⟩ hit hhit
  obtain ⟨⟨spec, hit⟩, he, rfl⟩ := List.mem_map.mp (mem_sortBy.mp hhit)
  have hkeyed : Keyed (tr.flatMap answeredHits) out := h.2 [] out ⟨List.nodup_nil, fun _ => rfl⟩ rfl
  have hlast : lastHit (tr.flatMap answeredHits) spec = some hit := by
    rw [← hkeyed.lookup]
    exact Traverse.lookup_of_mem hkeyed.nodup he
  have hspec : hit.spec = spec := by simpa using List.find?_some hlast
  rw [List.append_nil, hspec]
  exact hlast

/-! ### Staging -/

variable (p) in
/-- A dependency is staged right after the pull of the pack that was inspected, and is that of the hit
the pack was pulled for. -/
def Backed (before : Calls) : Answered SessionCall SessionCall.Answer → Prop
  | ⟨.stage d, _⟩ => ∃ earlier hit pack metadata, before = earlier ++ [⟨.pull hit.spec, .ok pack⟩] ∧
      listed earlier hit.spec = some hit ∧ inspectPack p pack.bytes hit = some metadata ∧
      packDependencyFromManifest (hitManifest hit pack.bytes) .skill = .ok d
  | _ => True

theorem backed_of_search {before : Calls} {c : Answered SessionCall SessionCall.Answer} (h : ∃ q, c.1 = .search q) :
    Backed p before c := by
  obtain ⟨c, r⟩ := c
  obtain ⟨q, rfl⟩ := h
  trivial

section Steps

variable {a : Acquisition} {item : RankedHit} {bytes : List UInt8} {metadata : CapabilityMetadataV1} {usable : List JsValue}

theorem stagePack_calls : (stagePack item bytes metadata usable a).Sat fun tr _ =>
    tr = [] ∨ ∃ d answer, tr = [⟨.stage d, answer⟩] ∧
      packDependencyFromManifest (hitManifest item.hit bytes) .skill = .ok d := by
  unfold stagePack
  refine Prog.Sat.ofExcept_bind (fun d hd => ?_) fun e _ => .inl rfl
  intro answer
  cases answer with
  | error message => exact .inr ⟨d, _, rfl, hd⟩
  | ok u =>
    refine Prog.Sat.ofExcept_bind (fun left _ => ?_) fun e _ => .inr ⟨d, _, rfl, hd⟩
    exact .inr ⟨d, _, rfl, hd⟩

theorem considerBytes_calls : (considerBytes p input item bytes a).Sat fun tr _ =>
    tr = [] ∨ ∃ d answer metadata, tr = [⟨.stage d, answer⟩] ∧ inspectPack p bytes item.hit = some metadata ∧
      packDependencyFromManifest (hitManifest item.hit bytes) .skill = .ok d := by
  unfold considerBytes
  split
  · exact .inl rfl
  · rename_i metadata hinspect
    refine Prog.Sat.ofExcept_bind (fun found _ => ?_) fun e _ => .inl rfl
    split
    · exact .inl rfl
    · refine Prog.Sat.mono stagePack_calls fun tr res h => h.imp id ?_
      rintro ⟨d, answer, rfl, hd⟩
      exact ⟨d, answer, metadata, rfl, hinspect, hd⟩

/-- **One hit**: what is staged is backed, and nothing is searched for. -/
theorem consider_backed (hlisted : listed pre item.hit.spec = some item.hit) :
    (consider p input item a).Sat fun tr _ => Each (Backed p) pre tr ∧ ∀ c ∈ tr, answeredHits c = [] := by
  unfold consider
  split
  · exact ⟨each_nil _, by simp⟩
  · intro answer
    cases answer with
    | error message => exact ⟨⟨trivial, each_nil _⟩, by simp [answeredHits]⟩
    | ok pack =>
      refine Prog.Sat.mono considerBytes_calls fun tr res h => ?_
      rcases h with rfl | ⟨d, answer, metadata, rfl, hinspect, hd⟩
      · exact ⟨⟨trivial, each_nil _⟩, by simp [answeredHits]⟩
      · exact ⟨⟨trivial, ⟨pre, item.hit, pack, metadata, rfl, hlisted, hinspect, hd⟩, each_nil _⟩, by simp [answeredHits]⟩

end Steps

/-- **All hits**, by the step for one. -/
theorem considerAll_backed {items : List RankedHit} :
    ∀ {pre : Calls} {a : Acquisition}, (∀ item ∈ items, listed pre item.hit.spec = some item.hit) →
      (considerAll p input items a).Sat fun tr _ => Each (Backed p) pre tr := by
  induction items with
  | nil => exact fun _ => trivial
  | cons item items ih =>
    intro pre a hlisted
    obtain ⟨hitem, hitems⟩ := List.forall_mem_cons.mp hlisted
    unfold considerAll
    split
    · trivial
    · refine (consider_backed hitem).bind (fun tr a' h => ?_) fun tr e h => h.1
      have hlater : ∀ item ∈ items, listed (pre ++ tr) item.hit.spec = some item.hit := fun item hi => by
        rw [listed_append_of_quiet h.2]
        exact hitems item hi
      exact (ih hlater).mono fun tr' res h' => (each_append ..).mpr ⟨h.1, h'⟩

/-- **Acquiring** stages backed dependencies only. -/
theorem acquireSkills_backed : (acquireSkills p input).Sat fun tr _ => Each (Backed p) [] tr := by
  unfold acquireSkills
  refine Prog.Sat.ofExcept_bind (fun gaps _ => ?_) fun e _ => each_nil _
  dsimp only
  split
  · trivial
  refine Prog.Sat.ofExcept_bind (fun _ _ => ?_) fun e _ => each_nil _
  refine collectHits_listed.bind (fun tr hits h => ?_) fun tr e h => ?_
  · have hsearches : Each (Backed p) [] tr := each_of_forall fun c hc _ => backed_of_search (h.1 c hc)
    have hlisted : ∀ item ∈ rankHits p hits input.task gaps (missingPreferredSkills input.task input.index),
        listed ([] ++ tr) item.hit.spec = some item.hit := fun item hi => h.2 hits rfl _ (mem_rankHits hi)
    refine (considerAll_backed hlisted).bind (fun tr' a h' => ?_) fun tr' e h' => ?_
    · rw [Prog.pure_def, Prog.sat_ret, List.append_nil]
      exact (each_append ..).mpr ⟨hsearches, h'⟩
    · exact (each_append ..).mpr ⟨hsearches, h'⟩
  · exact each_of_forall fun c hc _ => backed_of_search (h.1 c hc)

/-! ### Truthful dependencies -/

/-- The dependency is that of the pack: its digest is that of the bytes, its name and version are those of
the manifest. -/
structure Truthful (sha256 : List UInt8 → String) (pack : PackBytesV1) (d : PackDependencyV1) : Prop where
  sha256 : d.sha256 = sha256 pack.bytes
  name : d.name = pack.manifest.name
  version : d.version = pack.manifest.version

/-- The hit says of a pack what its manifest says. -/
structure Agrees (hit : PackSearchHitV1) (manifest : PackManifestV1) : Prop where
  sha256 : hit.sha256 = manifest.sha256
  name : hit.name = manifest.name
  version : hit.version = manifest.version

theorem dependency_eq {hit : PackSearchHitV1} {bytes : List UInt8} {d : PackDependencyV1}
    (h : packDependencyFromManifest (hitManifest hit bytes) .skill = .ok d) :
    d.sha256 = hit.sha256 ∧ d.name = hit.name ∧ d.version = hit.version := by
  obtain ⟨rfl, -⟩ := TypeScript.normalize_eq_ok h
  exact ⟨rfl, rfl, rfl⟩

theorem pull_cancel {earlier earlier' : Calls} {spec spec' : String} {pack pack' : PackBytesV1}
    (h : earlier ++ [⟨.pull spec, .ok pack⟩] = earlier' ++ [⟨.pull spec', .ok pack'⟩]) :
    earlier = earlier' ∧ spec = spec' ∧ pack = pack' := by
  obtain ⟨hearlier, hlast⟩ := List.append_inj' h rfl
  obtain ⟨hcall, -⟩ := List.cons.inj hlast
  cases hcall
  exact ⟨hearlier, rfl, rfl⟩

/-- **The digests of acquired dependencies.** In every run with a registry whose packs match the digests of
their manifests, every dependency is staged right after the pull of its pack. All of them say what was pulled
if and only if, for every pack that is pulled and then staged, the hit it was pulled for agrees with its
manifest. -/
theorem staged_truthful_iff (p : Platform) (input : AcquireSkillsInput) (sha256 : List UInt8 → String) {tr : Calls}
    {res : Except String (SkillAcquisitionReceiptV1 × List CapabilityMetadataV1)}
    (h : Prog.Runs (acquireSkills p input) tr res)
    (hhonest : ∀ spec pack, ⟨.pull spec, .ok pack⟩ ∈ tr → pack.manifest.sha256 = sha256 pack.bytes) :
    (∀ before d answer after, tr = before ++ ⟨.stage d, answer⟩ :: after →
      ∃ earlier spec pack, before = earlier ++ [⟨.pull spec, .ok pack⟩] ∧ Truthful sha256 pack d) ↔
    ∀ earlier spec pack d answer after, tr = earlier ++ ⟨.pull spec, .ok pack⟩ :: ⟨.stage d, answer⟩ :: after →
      ∀ hit, listed earlier spec = some hit → Agrees hit pack.manifest := by
  have hbacked := Prog.sat_iff_runs.mp acquireSkills_backed tr res h
  simp only [each_iff_split, List.nil_append] at hbacked
  constructor
  · intro htruthful earlier spec pack d answer after htr hit hlisted
    have hsplit : tr = (earlier ++ [⟨.pull spec, .ok pack⟩]) ++ ⟨.stage d, answer⟩ :: after := by
      rw [htr, List.append_assoc, List.singleton_append]
    obtain ⟨earlier', spec', pack', hlast', hsame⟩ := htruthful _ d answer after hsplit
    obtain ⟨earlier'', hit'', pack'', -, hlast'', hlisted'', -, hd⟩ := hbacked _ _ _ hsplit
    obtain ⟨rfl, rfl, rfl⟩ := pull_cancel hlast'
    obtain ⟨rfl, rfl, rfl⟩ := pull_cancel hlast''
    rw [hlisted''] at hlisted
    cases hlisted
    obtain ⟨h1, h2, h3⟩ := dependency_eq hd
    have hdigest := hhonest hit.spec pack (by rw [htr]; simp)
    exact ⟨by rw [← h1, hsame.sha256, hdigest], by rw [← h2, hsame.name], by rw [← h3, hsame.version]⟩
  · intro hagrees before d answer after htr
    obtain ⟨earlier, hit, pack, -, rfl, hlisted, -, hd⟩ := hbacked _ _ _ htr
    have hsplit : tr = earlier ++ ⟨.pull hit.spec, .ok pack⟩ :: ⟨.stage d, answer⟩ :: after := by
      rw [htr, List.append_assoc, List.singleton_append]
    have hsame := hagrees _ _ _ _ _ _ hsplit hit hlisted
    obtain ⟨h1, h2, h3⟩ := dependency_eq hd
    have hdigest := hhonest hit.spec pack (by rw [hsplit]; simp)
    exact ⟨earlier, hit.spec, pack, rfl, by rw [h1, hsame.sha256, hdigest], by rw [h2, hsame.name],
      by rw [h3, hsame.version]⟩

/-! ### An index that lags behind -/

/-- From what the sample run acquires. -/
def sampleInput : AcquireSkillsInput where
  task := sampleOptions.task
  index := {}
  authority := { capabilities := ["web"], tools := [], namespaces := [] }
  trust := normalizeTrust (some { registry := some (.mode .acquireAnyVerified) })
  selected := []

/-- The digest of 64 equal letters that the manifests of the sample have. -/
def sampleDigest (_ : List UInt8) : String := sampleManifest.sha256

/-- The pack in an index that has `sha256` for it. -/
def indexHit (sha256 : String) : PackSearchHitV1 where
  name := "acme/cite"
  publisher := "acme"
  slug := "cite"
  version := "1.0.0"
  sha256 := sha256

/-- A registry with such an index. -/
def indexAnswers (sha256 : String) : (c : SessionCall) → c.Answer
  | .acquiredPacks => ([] : List CapabilityMetadataV1)
  | .record _ => ()
  | .capabilities => ⟨true⟩
  | .promoted => ([] : List JsValue)
  | .freeze _ => .ok "root"
  | .search _ => .ok [indexHit sha256]
  | .pull _ => .ok { manifest := sampleManifest, bytes := ([] : List UInt8) }
  | .activateStaged | .stage _ | .hook _ => .ok ()
  | .retrieve _ | .semanticRerank _ _ => .ok ([] : List EvidenceItemV1)
  | .recall _ _ => .ok ([] : List MemoryItemV1)

/-- The calls of acquiring from it. -/
def indexCalls (sha256 : String) : Calls := (acquireSkills samplePlatform sampleInput).calls (indexAnswers sha256)

theorem indexCalls_honest {sha256 spec : String} {pack : PackBytesV1}
    (h : ⟨.pull spec, .ok pack⟩ ∈ indexCalls sha256) : pack.manifest = sampleManifest := by
  have hanswer := Prog.mem_calls h
  cases hanswer
  rfl

theorem indexCalls_listed {sha256 spec : String} {earlier after : Calls} {hit : PackSearchHitV1}
    (h : indexCalls sha256 = earlier ++ after) (hlisted : listed earlier spec = some hit) : hit = indexHit sha256 := by
  obtain ⟨⟨c, r⟩, hmem, hhit⟩ := List.mem_flatMap.mp (List.mem_reverse.mp (List.mem_of_find?_eq_some hlisted))
  obtain rfl : r = indexAnswers sha256 c := Prog.mem_calls (h ▸ List.mem_append_left _ hmem)
  cases c <;> simp_all [answeredHits, indexAnswers]

/-- The digests of the dependencies that calls stage. -/
def stagedDigests (tr : Calls) : List String :=
  tr.filterMap fun c => match c.1 with
    | .stage d => some d.sha256
    | _ => none

theorem exists_stage {tr : Calls} {digest : String} (h : stagedDigests tr = [digest]) :
    ∃ before d answer after, tr = before ++ ⟨.stage d, answer⟩ :: after ∧ d.sha256 = digest := by
  obtain ⟨⟨c, r⟩, hmem, hd⟩ := List.mem_filterMap.mp (h ▸ List.mem_singleton_self digest : digest ∈ stagedDigests tr)
  obtain ⟨before, after, rfl⟩ := List.append_of_mem hmem
  cases c <;> cases hd
  exact ⟨before, _, r, after, rfl, rfl⟩

/-- With an index that has the digest of the manifest, what is staged is what was pulled. -/
theorem staged_truthful_sample : ∃ before d answer after earlier spec pack,
    indexCalls sampleManifest.sha256 = before ++ ⟨.stage d, answer⟩ :: after ∧
      before = earlier ++ [⟨.pull spec, .ok pack⟩] ∧ Truthful sampleDigest pack d := by
  obtain ⟨before, d, answer, after, hsplit, -⟩ := @exists_stage (indexCalls sampleManifest.sha256)
    sampleManifest.sha256 (by decide +kernel)
  have hall := (staged_truthful_iff samplePlatform sampleInput sampleDigest (Prog.runs_calls ..) ?_).mpr ?_
    before d answer after hsplit
  · obtain ⟨earlier, spec, pack, hbefore, htruthful⟩ := hall
    exact ⟨before, d, answer, after, earlier, spec, pack, hsplit, hbefore, htruthful⟩
  · intro spec pack hpull
    rw [indexCalls_honest hpull]
    rfl
  · intro earlier spec pack d answer after htr hit hlisted
    obtain rfl := indexCalls_listed htr hlisted
    have hpull : ⟨.pull spec, .ok pack⟩ ∈ indexCalls sampleManifest.sha256 := by
      rw [indexCalls, htr]
      simp
    rw [indexCalls_honest hpull]
    exact ⟨rfl, rfl, rfl⟩

/-- **With an index that lags behind, the digest of another pack is staged.** -/
theorem staged_stale : ¬ ∀ (p : Platform) (input : AcquireSkillsInput) (sha256 : List UInt8 → String) (tr : Calls)
    (res : Except String (SkillAcquisitionReceiptV1 × List CapabilityMetadataV1)),
    Prog.Runs (acquireSkills p input) tr res →
    (∀ spec pack, ⟨.pull spec, .ok pack⟩ ∈ tr → pack.manifest.sha256 = sha256 pack.bytes) →
    ∀ before d answer after, tr = before ++ ⟨.stage d, answer⟩ :: after →
      ∃ earlier spec pack, before = earlier ++ [⟨.pull spec, .ok pack⟩] ∧ Truthful sha256 pack d := by
  intro h
  obtain ⟨before, d, answer, after, hsplit, hd⟩ := @exists_stage
    (indexCalls (String.ofList (List.replicate 64 'b'))) (String.ofList (List.replicate 64 'b')) (by decide +kernel)
  obtain ⟨earlier, spec, pack, hbefore, htruthful⟩ := h samplePlatform sampleInput sampleDigest _ _
    (Prog.runs_calls ..) (fun spec pack hpull => by rw [indexCalls_honest hpull]; rfl) before d answer after hsplit
  have hdigest : String.ofList (List.replicate 64 'b') = sampleManifest.sha256 := hd.symm.trans htruthful.sha256
  revert hdigest
  decide

end Knolo.Skills
