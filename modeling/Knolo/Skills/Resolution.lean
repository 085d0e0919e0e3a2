import Knolo.Skills.IndexUpdates

/-!
# What a resolution selects

`packages/agents/src/skills/resolver.ts`: what `resolveSkills` makes of the skills of an index, and that it
does not depend on the order in which the packs of the index were added.

* `Keyed.after` — in an index, each skill is under the id that it says, and no two are under one.
* `resolveSkills_spec` — what is selected, rejected and ranked where a resolution returns.
* `resolveSkills_perm` — packs in another order give the same result.
* `resolveSkills_sound` — both, for the indexes that are built.
-/

namespace Knolo.Skills.IndexUpdates

open Script Harness Library Library.Fallible Library.StableSort Library.Traverse CapabilityIndex

/-! ### Orders on identifiers -/

/-- `localeCompare` is a total order on identifiers. -/
structure OrdersIdentifiers (p : Platform) : Prop where
  trans : Std.TransCmp fun a b : {s : String // isIdentifier s = true} => p.collate a b
  distinct : ∀ a b : {s : String // isIdentifier s = true}, p.collate a b = .eq → a = b

/-! ### Indexes -/

variable {p : Platform} {index index' : CapabilityIndex} {m : CapabilityMetadataV1}

theorem sameKey_text {key : Option JsValue} {id : String} : sameKey key (some (.string id)) = true ↔ key = some (.string id) := by
  cases key with
  | none => simp [sameKey]
  | some v => cases v <;> simp [sameKey]

theorem sameKey_comm (a b : Option JsValue) : sameKey a b = sameKey b a := by
  have hone : ∀ {a b : Option JsValue}, sameKey a b = true → sameKey b a = true := by
    intro a b h
    unfold sameKey at h
    split at h
    all_goals simp_all [sameKey]
  exact Bool.eq_iff_iff.mpr ⟨hone, hone⟩

/-- Each skill is under the id that it says, and no two are under one. -/
structure Keyed (index : CapabilityIndex) : Prop where
  named : ∀ e ∈ index.bySkillId, property e.2.skill "id" = .ok e.1
  distinct : index.bySkillId.Pairwise fun e e' => sameKey e.1 e'.1 = false

theorem keyed_empty : Keyed {} := ⟨fun _ h => (nomatch h), .nil⟩

theorem keeps_addSkill (packId : String) (skill : JsValue) : Method.Keeps Keyed (addSkill p packId skill) := by
  intro index hkeyed
  refine (addSkill_sat packId skill).mono fun _ index' _ h => ?_
  rcases h with ⟨⟨hnull, hfree⟩, -, rfl⟩ | ⟨-, -, rfl⟩
  · simp only [CapabilityIndex.entry, Option.map_eq_none_iff, List.find?_eq_none] at hfree
    refine ⟨fun e he => ?_, List.pairwise_append.mpr ⟨hkeyed.distinct, List.pairwise_singleton _ _, fun e he e' he' => ?_⟩⟩
    · rcases List.mem_append.mp he with he | he
      · exact hkeyed.named e he
      · obtain rfl := List.mem_singleton.mp he
        exact property_id hnull
    · obtain rfl := List.mem_singleton.mp he'
      simpa using hfree e he
  · exact hkeyed

/-- What a call leaves is keyed, also when it throws. -/
theorem keeps_add (m : CapabilityMetadataV1) : Method.Keeps Keyed (add p m) := by
  refine Method.Keeps.read_bind fun index _ => (Method.keeps_ofExcept _).bind fun _ => Method.Keeps.bind ?_ fun _ => ?_
  · exact Method.keeps_modify fun _ h => ⟨h.named, h.distinct⟩
  · exact Method.Keeps.forM _ fun skill => keeps_addSkill m.packId skill

theorem keeps_perform (call : Update) : Method.Keeps Keyed (perform p call) := by
  cases call with
  | add m => exact keeps_add m
  | tryAdd m =>
    refine Method.Keeps.bind (Method.Keeps.read_bind fun index _ => ?_) fun _ => Method.keeps_pure _
    split
    · exact Method.keeps_pure _
    · refine (Method.keeps_ofExcept _).bind fun taken => ?_
      split
      · exact Method.keeps_pure _
      · exact (keeps_add m).bind fun _ => Method.keeps_pure _

/-- **Every index that is built is keyed**, whatever its calls have thrown. -/
theorem keyed_after (calls : List Update) : Keyed (after p {} calls) := by
  refine Session.run_induct (I := fun _ session => Keyed session.state) keyed_empty calls ?_
  intro pre call post _ hpre
  exact Session.after_of_sat_of_isEmpty (T := fun index' _ => Keyed index') (keeps_perform call _ hpre)

/-! ### Packs that are added -/

/-- When a pack is added. -/
theorem add_eq_ok : index.add p m = .ok index' ↔
    index.hasPack m.packId = false ∧ Fresh index m.skills ∧ index' = installed index m := by
  obtain ⟨r, hr⟩ := returns_of_empty (add p m) index
  have hagrees := add_agrees r hr
  constructor
  · intro h
    rw [h] at hagrees
    rcases add_sat r hr with ⟨-, ⟨e, he⟩, -⟩ | ⟨hnew, hfresh, hok, hindex⟩ | ⟨-, -, ⟨e, he⟩, -⟩
    · rw [he] at hagrees
      cases hagrees
    · rw [hok] at hagrees
      exact ⟨hnew, hfresh, (Except.ok.inj hagrees).symm.trans hindex⟩
    · rw [he] at hagrees
      cases hagrees
  · rintro ⟨hnew, hfresh, rfl⟩
    rcases add_sat r hr with ⟨hpack, -⟩ | ⟨-, -, hok, hindex⟩ | ⟨-, hstale, -⟩
    · rw [hnew] at hpack
      cases hpack
    · rw [← hagrees, hok, hindex]
      rfl
    · exact absurd hfresh hstale

/-- Packs that can be in one index. -/
structure Compatible (packs : List CapabilityMetadataV1) : Prop where
  nodup : (packs.map (·.packId)).Nodup
  readable : ∀ m ∈ packs, ∀ skill ∈ m.skills, skill ≠ .null
  distinct : (packs.flatMap entriesOf).Pairwise fun e e' => sameKey e.1 e'.1 = false

/-- The index of packs. -/
def indexOf (packs : List CapabilityMetadataV1) : CapabilityIndex where
  packs := packs
  bySkillId := packs.flatMap entriesOf

theorem hasPack_indexOf {packs : List CapabilityMetadataV1} {packId : String} :
    (indexOf packs).hasPack packId = false ↔ packId ∉ packs.map (·.packId) := by
  rw [Bool.eq_false_iff, Ne, CapabilityIndex.hasPack, List.any_eq_true]
  simp only [decide_eq_true_eq, List.mem_map, indexOf]

/-- The skills of a pack can be taken where no id is that of a skill before. -/
theorem fresh_indexOf {packs : List CapabilityMetadataV1} : Fresh (indexOf packs) m.skills ↔
    (∀ skill ∈ m.skills, skill ≠ .null) ∧ (entriesOf m).Pairwise (fun e e' => sameKey e.1 e'.1 = false) ∧
      ∀ e ∈ packs.flatMap entriesOf, ∀ e' ∈ entriesOf m, sameKey e.1 e'.1 = false := by
  have hentry : ∀ id, (indexOf packs).entry id = none ↔ ∀ e ∈ packs.flatMap entriesOf, sameKey e.1 id = false := by
    intro id
    simp only [CapabilityIndex.entry, Option.map_eq_none_iff, List.find?_eq_none, Bool.not_eq_true]
    rfl
  have hapart : (entriesOf m).Pairwise (fun e e' => sameKey e.1 e'.1 = false) ↔
      m.skills.Pairwise fun a b => sameKey (idOf a) (idOf b) = false := List.pairwise_map
  rw [hapart]
  constructor
  · rintro ⟨hfree, hpairs⟩
    refine ⟨fun skill hskill => (hfree skill hskill).1, hpairs, fun e he e' he' => ?_⟩
    obtain ⟨skill, hskill, rfl⟩ := List.mem_map.mp he'
    exact (hentry _).mp (hfree skill hskill).2 e he
  · rintro ⟨hread, hpairs, hcross⟩
    refine ⟨fun skill hskill => ⟨hread skill hskill, (hentry _).mpr fun e he => ?_⟩, hpairs⟩
    exact hcross e he _ (List.mem_map_of_mem hskill)

theorem compatible_append {packs : List CapabilityMetadataV1} : Compatible (packs ++ [m]) ↔
    Compatible packs ∧ (indexOf packs).hasPack m.packId = false ∧ Fresh (indexOf packs) m.skills := by
  have hflat : (packs ++ [m]).flatMap entriesOf = packs.flatMap entriesOf ++ entriesOf m := by simp
  rw [hasPack_indexOf, fresh_indexOf]
  constructor
  · rintro ⟨hnodup, hread, hdistinct⟩
    rw [List.map_append, List.map_singleton, ← List.concat_eq_append, List.nodup_concat] at hnodup
    rw [hflat, List.pairwise_append] at hdistinct
    refine ⟨⟨hnodup.2, fun m' hm' => hread m' (List.mem_append_left _ hm'), hdistinct.1⟩, hnodup.1, ?_, hdistinct.2⟩
    exact hread m (by simp)
  · rintro ⟨⟨hnodup, hread, hdistinct⟩, hnew, hreadm, hapart, hcross⟩
    refine ⟨?_, fun m' hm' => ?_, ?_⟩
    · rw [List.map_append, List.map_singleton, ← List.concat_eq_append, List.nodup_concat]
      exact ⟨hnew, hnodup⟩
    · rcases List.mem_append.mp hm' with hm' | hm'
      · exact hread m' hm'
      · rw [List.mem_singleton.mp hm']
        exact hreadm
    · rw [hflat, List.pairwise_append]
      exact ⟨hdistinct, hapart, hcross⟩

/-- **When packs make an index, and which.** -/
theorem ofMetadata_eq_ok {packs : List CapabilityMetadataV1} :
    CapabilityIndex.ofMetadata p packs = .ok index ↔ Compatible packs ∧ index = indexOf packs := by
  induction packs using List.reverseRecOn generalizing index with
  | nil =>
    constructor
    · intro h
      cases h
      exact ⟨⟨List.nodup_nil, fun _ h => (nomatch h), .nil⟩, rfl⟩
    · rintro ⟨-, rfl⟩
      rfl
  | append_singleton packs m ih =>
    have hinstalled : installed (indexOf packs) m = indexOf (packs ++ [m]) := by
      simp [installed, indexOf]
    have hstep : CapabilityIndex.ofMetadata p (packs ++ [m]) = .ok index ↔
        ∃ before, CapabilityIndex.ofMetadata p packs = .ok before ∧ before.add p m = .ok index := by
      rw [CapabilityIndex.ofMetadata, List.foldlM_append, bind_eq_ok]
      simp only [List.foldlM_cons, List.foldlM_nil, bind_pure, CapabilityIndex.ofMetadata]
    rw [hstep, compatible_append]
    constructor
    · rintro ⟨before, hbefore, hadd⟩
      obtain ⟨hcompatible, rfl⟩ := ih.mp hbefore
      obtain ⟨hnew, hfresh, rfl⟩ := add_eq_ok.mp hadd
      exact ⟨⟨hcompatible, hnew, hfresh⟩, hinstalled⟩
    · rintro ⟨⟨hcompatible, hnew, hfresh⟩, rfl⟩
      exact ⟨indexOf packs, ih.mpr ⟨hcompatible, rfl⟩, add_eq_ok.mpr ⟨hnew, hfresh, hinstalled.symm⟩⟩

/-- Packs that can be in one index can be in any order. -/
theorem Compatible.perm {packs packs' : List CapabilityMetadataV1} (hp : packs.Perm packs') (h : Compatible packs) :
    Compatible packs' where
  nodup := (hp.map _).nodup_iff.mp h.nodup
  readable := fun m hm => h.readable m (hp.mem_iff.mpr hm)
  distinct := by
    refine ((hp.flatMap_right entriesOf).pairwise_iff fun {a b} hab => ?_).mp h.distinct
    rw [sameKey_comm]
    exact hab

theorem keyed_indexOf {packs : List CapabilityMetadataV1} (h : Compatible packs) : Keyed (indexOf packs) where
  named := by
    intro e he
    obtain ⟨m, hm, he⟩ := List.mem_flatMap.mp he
    obtain ⟨skill, hskill, rfl⟩ := List.mem_map.mp he
    exact property_id (h.readable m hm skill hskill)
  distinct := h.distinct

/-! ### Lookups -/

/-- Two entries under one id are one. -/
theorem Keyed.inj (h : Keyed index) {e e' : Option JsValue × IndexedSkillV1} (he : e ∈ index.bySkillId) (he' : e' ∈ index.bySkillId)
    (hkey : sameKey e.1 e'.1 = true) : e = e' := by
  by_contra hne
  have hsymm : Std.Symm fun e e' : Option JsValue × IndexedSkillV1 => sameKey e.1 e'.1 = false :=
    ⟨fun a b hab => by rw [sameKey_comm]; exact hab⟩
  have hapart := List.Pairwise.forall h.distinct he he' hne
  rw [hkey] at hapart
  cases hapart

/-- A skill is found under its id. -/
theorem Keyed.skill_eq (h : Keyed index) {id : String} {entry : IndexedSkillV1} :
    index.skill id = some entry ↔ (some (.string id), entry) ∈ index.bySkillId := by
  simp only [CapabilityIndex.skill, CapabilityIndex.entry, Option.map_eq_some_iff]
  constructor
  · rintro ⟨e, he, rfl⟩
    have hfound := List.find?_some he
    rw [← sameKey_text.mp hfound]
    exact List.mem_of_find?_eq_some he
  · intro hmem
    have hself : sameKey (some (.string id)) (some (.string id)) = true := sameKey_text.mpr rfl
    obtain ⟨e, he⟩ : ∃ e, index.bySkillId.find? (fun e => sameKey e.1 (some (.string id))) = some e :=
      Option.isSome_iff_exists.mp (List.find?_isSome.mpr ⟨(some (.string id), entry), hmem, hself⟩)
    have hfound := List.find?_some he
    exact ⟨e, he, by rw [h.inj (List.mem_of_find?_eq_some he) hmem hfound]⟩

/-- What is found does not depend on the order of the entries. -/
theorem Keyed.skill_perm (h : Keyed index) (h' : Keyed index') (hp : index.bySkillId.Perm index'.bySkillId) :
    index.skill = index'.skill := by
  funext id
  ext entry
  rw [h.skill_eq, h'.skill_eq, hp.mem_iff]

/-! ### What a resolution makes of an index -/

section Resolved

variable {task : TaskV1} {authority : EffectiveAuthorityV1} {trust : SkillTrustPolicyV1} {resolution : SkillResolutionModeV1}
  {resolved : ResolvedSkills}

/-- The skills of an index that is listed. -/
theorem skills_perm {listed : List IndexedSkillV1} (h : index.skills p = .ok listed) :
    listed.Perm (index.bySkillId.map Prod.snd) := by
  unfold CapabilityIndex.skills at h
  split at h
  · rename_i entries hentries
    cases h
    have hsnd : entries.map Prod.snd = index.bySkillId.map Prod.snd := by
      refine map_eq_of_mapM (fun e b hb => ?_) hentries
      obtain ⟨id, -, rfl⟩ := Option.map_eq_some_iff.mp hb
      rfl
    rw [← hsnd]
    exact sortBy_perm.map _
  · split at h
    · rename_i e hindex
      cases h
      rw [hindex]
      rfl
    · cases h

/-- What is made of a skill of the index. -/
inductive Judged (p : Platform) (task : TaskV1) (authority : EffectiveAuthorityV1) (entry : IndexedSkillV1) (skill : SkillDefinitionV1) :
    SkillRejectedV1 ⊕ RankedSkill → Prop where
  /-- The authority does not cover it, and it is not pinned. -/
  | rejected : authorized skill authority = false → skill.id ∉ task.preferredSkills →
      Judged p task authority entry skill (.inl ⟨skill.id, .authority⟩)
  /-- The authority covers it. -/
  | ranked : authorized skill authority = true → Judged p task authority entry skill
      (.inr ⟨skill, scoreSkill p.toLanguage skill task.objective task (task.preferredSkills.contains skill.id),
        task.preferredSkills.contains skill.id⟩)

theorem judged_of_rankEntry {entry : IndexedSkillV1} {r : SkillRejectedV1 ⊕ RankedSkill}
    (h : rankEntry p task authority entry = .ok r) :
    ∃ skill, normalizeSkillDefinition p entry.skill = .ok skill ∧ Judged p task authority entry skill r := by
  obtain ⟨skill, hskill, h⟩ := bind_eq_ok.mp h
  refine ⟨skill, hskill, ?_⟩
  dsimp only at h
  split at h
  · rename_i hauth
    cases h
    exact .ranked hauth
  · rename_i hauth
    split at h
    · cases h
    · rename_i hpinned
      cases h
      exact .rejected (Bool.eq_false_iff.mpr hauth) (by simpa using hpinned)

/-- The id of what is made of a skill. -/
def judgedId : SkillRejectedV1 ⊕ RankedSkill → String
  | .inl rejected => rejected.id
  | .inr ranked => ranked.skill.id

theorem Judged.id_eq {entry : IndexedSkillV1} {skill : SkillDefinitionV1} {r : SkillRejectedV1 ⊕ RankedSkill}
    (h : Judged p task authority entry skill r) : judgedId r = skill.id := by
  cases h with
  | rejected => rfl
  | ranked => rfl

/-- What a resolution that returns has gone through. -/
structure Course (p : Platform) (task : TaskV1) (index : CapabilityIndex) (authority : EffectiveAuthorityV1)
    (resolved : ResolvedSkills) (missing : List (Option SkillRejectedV1)) (listed : List IndexedSkillV1)
    (entries : List (SkillRejectedV1 ⊕ RankedSkill)) (ranked : List RankedSkill) : Prop where
  pins : ∃ registry, task.preferredSkills.mapM (checkPinned index registry) = .ok missing
  lists : index.skills p = .ok listed
  judges : listed.mapM (rankEntry p task authority) = .ok entries
  ranks : ranked = sortBy (fun a b => (compare b.score a.score).then (p.collate a.skill.id b.skill.id))
    (entries.filterMap Sum.getRight?)
  items : resolved.items = (ranked.filter fun r => r.required || 0 < r.score).map RankedSkill.item
  selected : resolved.receipt.selected = (ranked.filter fun r => r.required || 0 < r.score).map RankedSkill.selected
  rejected : resolved.receipt.rejected =
    sortBy (fun a b => p.collate a.id b.id) (missing.filterMap id ++ entries.filterMap Sum.getLeft?)
  candidates : resolved.receipt.candidates = ranked.map fun r => (r.skill.id, r.score)

theorem course_of_resolveSkills (hresolution : resolution ≠ .none)
    (h : resolveSkills p task index authority trust resolution = .ok resolved) :
    ∃ missing listed entries ranked, Course p task index authority resolved missing listed entries ranked := by
  unfold resolveSkills at h
  dsimp only at h
  rw [if_neg hresolution] at h
  obtain ⟨missing, hmissing, h⟩ := bind_eq_ok.mp h
  obtain ⟨listed, hlisted, h⟩ := bind_eq_ok.mp h
  obtain ⟨entries, hentries, h⟩ := bind_eq_ok.mp h
  obtain ⟨gaps, -, h⟩ := bind_eq_ok.mp h
  cases h
  exact ⟨missing, listed, entries, _, ⟨_, hmissing⟩, hlisted, hentries, rfl, rfl, rfl, rfl, rfl⟩

namespace Course

variable {missing : List (Option SkillRejectedV1)} {listed : List IndexedSkillV1} {entries : List (SkillRejectedV1 ⊕ RankedSkill)}
  {ranked : List RankedSkill}

/-- What is made of a skill that is listed. -/
theorem judged (h : Course p task index authority resolved missing listed entries ranked) :
    List.Forall₂ (fun entry r => ∃ skill, normalizeSkillDefinition p entry.skill = .ok skill ∧
      Judged p task authority entry skill r) listed entries :=
  (forall₂_of_mapM_ok h.judges).imp fun _ _ => judged_of_rankEntry

/-- **Everything in the index is judged, once.** -/
theorem keys (h : Course p task index authority resolved missing listed entries ranked) (hkeyed : Keyed index) :
    (entries.map fun r => some (JsValue.string (judgedId r))).Perm (index.bySkillId.map Prod.fst) := by
  have hentries : entries.map (fun r => some (JsValue.string (judgedId r))) = listed.map fun entry => idOf entry.skill := by
    have hjudged := h.judged
    clear h
    induction hjudged with
    | nil => rfl
    | cons hone _ ih =>
      obtain ⟨skill, hskill, hjudged⟩ := hone
      rw [List.map_cons, List.map_cons, ih, hjudged.id_eq, idOf, (normalizeSkillDefinition_input hskill).2]
      rfl
  have hindex : index.bySkillId.map Prod.fst = (index.bySkillId.map Prod.snd).map fun entry => idOf entry.skill := by
    rw [List.map_map]
    refine List.map_congr_left fun e he => ?_
    rw [Function.comp, idOf, hkeyed.named e he]
    rfl
  rw [hentries, hindex]
  exact (skills_perm h.lists).map _

/-- No two are judged under one id. -/
theorem nodup (h : Course p task index authority resolved missing listed entries ranked) (hkeyed : Keyed index) :
    (entries.map judgedId).Nodup := by
  have hdistinct : (index.bySkillId.map Prod.fst).Pairwise fun k k' => sameKey k k' = false :=
    List.pairwise_map.mpr hkeyed.distinct
  have hentries := ((h.keys hkeyed).symm.pairwise_iff fun {k k'} hk => by rw [sameKey_comm]; exact hk).mp hdistinct
  rw [List.pairwise_map] at hentries
  refine List.pairwise_map.mpr (hentries.imp fun {r r'} hne heq => ?_)
  rw [heq, sameKey_text.mpr rfl] at hne
  cases hne

/-- What was judged, of both kinds. -/
theorem judgedId_perm (entries : List (SkillRejectedV1 ⊕ RankedSkill)) :
    ((entries.filterMap Sum.getLeft?).map (·.id) ++ (entries.filterMap Sum.getRight?).map (·.skill.id)).Perm
      (entries.map judgedId) := by
  induction entries with
  | nil => rfl
  | cons r entries ih =>
    cases r with
    | inl rejected => exact ih.cons _
    | inr ranked => exact List.perm_middle.trans (ih.cons _)

/-- A skill that is ranked is one of the index that the authority covers, and its rank is as the task says. -/
theorem mem_ranked (h : Course p task index authority resolved missing listed entries ranked) {r : RankedSkill} (hr : r ∈ ranked) :
    .inr r ∈ entries ∧ (∃ e ∈ index.bySkillId, normalizeSkillDefinition p e.2.skill = .ok r.skill) ∧
      authorized r.skill authority = true ∧ r.required = task.preferredSkills.contains r.skill.id := by
  rw [h.ranks, mem_sortBy] at hr
  obtain ⟨r', hr', heq⟩ := List.mem_filterMap.mp hr
  cases r' with
  | inl rejected => cases heq
  | inr ranked =>
    cases heq
    obtain ⟨entry, hentry, hrank⟩ := exists_of_mapM h.judges _ hr'
    obtain ⟨skill, hskill, hjudged⟩ := judged_of_rankEntry hrank
    obtain ⟨e, he, rfl⟩ := List.mem_map.mp ((skills_perm h.lists).mem_iff.mp hentry)
    cases hjudged with
    | ranked hauth => exact ⟨hr', ⟨e, he, hskill⟩, hauth, rfl⟩

/-- What is rejected for the authority. -/
theorem rejected_authority (h : Course p task index authority resolved missing listed entries ranked) :
    (resolved.receipt.rejected.filter (·.reason = .authority)).Perm (entries.filterMap Sum.getLeft?) := by
  have hleft : ∀ r ∈ entries.filterMap Sum.getLeft?, r.reason = .authority := by
    intro r hr
    obtain ⟨r', hr', heq⟩ := List.mem_filterMap.mp hr
    obtain ⟨entry, -, hrank⟩ := exists_of_mapM h.judges _ hr'
    obtain ⟨skill, -, hjudged⟩ := judged_of_rankEntry hrank
    cases hjudged with
    | rejected => cases heq; rfl
    | ranked => cases heq
  have hmissing : ∀ r ∈ missing.filterMap id, r.reason = .missing := by
    intro r hr
    obtain ⟨r', hr', heq⟩ := List.mem_filterMap.mp hr
    obtain ⟨registry, hpins⟩ := h.pins
    obtain ⟨pinned, -, hpin⟩ := exists_of_mapM hpins _ hr'
    unfold checkPinned at hpin
    split_ifs at hpin
    · cases hpin
      cases heq
    · cases hpin
      cases heq
      rfl
  rw [h.rejected]
  refine (sortBy_perm.filter _).trans ?_
  rw [List.filter_append, List.filter_eq_nil_iff.mpr fun r hr => by simp [hmissing r hr], List.nil_append,
    List.filter_eq_self.mpr fun r hr => by simp [hleft r hr]]

/-- A skill that is pinned is ranked, or listed as missing. -/
theorem pinned (h : Course p task index authority resolved missing listed entries ranked) (hkeyed : Keyed index) {id : String}
    (hid : id ∈ task.preferredSkills) :
    (∃ r ∈ ranked, r.skill.id = id ∧ r.required = true) ∨ ⟨id, .missing⟩ ∈ resolved.receipt.rejected := by
  by_cases hthere : (index.skill id).isSome = true
  · left
    obtain ⟨entry, hentry⟩ := Option.isSome_iff_exists.mp hthere
    have hkey : some (.string id) ∈ index.bySkillId.map Prod.fst := List.mem_map_of_mem (hkeyed.skill_eq.mp hentry)
    obtain ⟨r, hr, heq⟩ := List.mem_map.mp ((h.keys hkeyed).mem_iff.mpr hkey)
    obtain rfl : judgedId r = id := by
      injection heq with heq
      injection heq
    obtain ⟨entry, -, hrank⟩ := exists_of_mapM h.judges _ hr
    obtain ⟨skill, -, hjudged⟩ := judged_of_rankEntry hrank
    cases hjudged with
    | rejected _ hnot => exact absurd hid hnot
    | ranked =>
      refine ⟨_, ?_, rfl, List.contains_iff_mem.mpr hid⟩
      rw [h.ranks, mem_sortBy]
      exact List.mem_filterMap.mpr ⟨_, hr, rfl⟩
  · right
    obtain ⟨registry, hpins⟩ := h.pins
    obtain ⟨i, hi, rfl⟩ := List.getElem_of_mem hid
    have hpair := List.forall₂_iff_get.mp (forall₂_of_mapM_ok hpins)
    have hpin := hpair.2 i hi (hpair.1 ▸ hi)
    rw [List.get_eq_getElem, checkPinned, if_neg hthere] at hpin
    split_ifs at hpin
    rw [h.rejected, mem_sortBy]
    refine List.mem_append_left _ (List.mem_filterMap.mpr ⟨_, List.get_mem _ _, (Except.ok.inj hpin).symm⟩)

/-- Skills are ranked by their scores, and by their ids where these are the same. -/
theorem ordered (h : Course p task index authority resolved missing listed entries ranked) (hkeyed : Keyed index)
    (horder : OrdersIdentifiers p) :
    ranked.Pairwise fun a b => b.score < a.score ∨ (b.score = a.score ∧ p.collate a.skill.id b.skill.id = .lt) := by
  have hidentifier : ∀ r ∈ entries.filterMap Sum.getRight?, isIdentifier r.skill.id = true := by
    intro r hr
    obtain ⟨-, ⟨e, -, hskill⟩, -⟩ := h.mem_ranked (h.ranks ▸ mem_sortBy.mpr hr)
    exact (normalizeSkillDefinition_input hskill).1
  have hids : (ranked.map (·.skill.id)).Nodup := by
    have hperm : (ranked.map (·.skill.id)).Perm ((entries.filterMap Sum.getRight?).map (·.skill.id)) := by
      rw [h.ranks]
      exact sortBy_perm.map _
    refine hperm.nodup_iff.mpr ?_
    exact ((judgedId_perm entries).nodup_iff.mpr (h.nodup hkeyed)).of_append_right
  have hscores : Std.TransCmp fun a b : {r : RankedSkill // isIdentifier r.skill.id = true} => compare b.1.score a.1.score :=
    transCmp_on (inferInstance : Std.TransCmp fun m n : ℕ => compare n m)
      fun r : {r : RankedSkill // isIdentifier r.skill.id = true} => r.1.score
  have hcollate := transCmp_on horder.trans fun r : {r : RankedSkill // isIdentifier r.skill.id = true} => ⟨r.1.skill.id, r.2⟩
  have hcmp : Std.TransCmp fun a b : {r : RankedSkill // isIdentifier r.skill.id = true} =>
      (compare b.1.score a.1.score).then (p.collate a.1.skill.id b.1.skill.id) :=
    inferInstanceAs (Std.TransCmp (compareLex
      (fun a b : {r : RankedSkill // isIdentifier r.skill.id = true} => compare b.1.score a.1.score)
      fun a b => p.collate a.1.skill.id b.1.skill.id))
  have hsorted := @pairwise_sortBy_of RankedSkill
    (fun a b => (compare b.score a.score).then (p.collate a.skill.id b.skill.id)) _ _ hcmp hidentifier
  rw [← h.ranks] at hsorted
  refine (hsorted.and (List.pairwise_map.mp hids)).imp_of_mem fun {a b} ha hb hab => ?_
  obtain ⟨hle, hne⟩ := hab
  rcases Nat.lt_trichotomy b.score a.score with hlt | heq | hgt
  · exact .inl hlt
  · refine .inr ⟨heq, ?_⟩
    rw [heq, Nat.compare_eq_eq.mpr rfl] at hle
    cases hcollation : p.collate a.skill.id b.skill.id with
    | lt => rfl
    | eq =>
      have hmem : ∀ r ∈ ranked, isIdentifier r.skill.id = true := fun r hr =>
        hidentifier r (mem_sortBy.mp (h.ranks ▸ hr))
      exact absurd (congrArg Subtype.val (horder.distinct ⟨_, hmem a ha⟩ ⟨_, hmem b hb⟩ hcollation)) hne
    | gt =>
      rw [hcollation] at hle
      cases hle
  · rw [Nat.compare_eq_gt.mpr hgt] at hle
    cases hle

end Course

/-- What a resolution says of the skills of an index: those that are selected are within the authority; each
skill is rejected for the authority or a candidate, once; the candidates that are pinned or have a positive
score are selected, by their scores and then their ids; and a pinned skill is selected or missing. -/
structure Resolution (p : Platform) (task : TaskV1) (index : CapabilityIndex) (authority : EffectiveAuthorityV1)
    (resolved : ResolvedSkills) : Prop where
  allowed : ∀ s ∈ resolved.receipt.selected, ∃ e ∈ index.bySkillId, ∃ skill, normalizeSkillDefinition p e.2.skill = .ok skill ∧
    skill.id = s.id ∧ (∀ c ∈ skill.requiredCapabilities, c ∈ authority.capabilities) ∧
      ∀ tool ∈ skill.requiredTools, tool ∈ authority.tools
  once : (((resolved.receipt.rejected.filter (·.reason = .authority)).map (·.id) ++
    resolved.receipt.candidates.map Prod.fst).map fun id => some (JsValue.string id)).Perm (index.bySkillId.map Prod.fst)
  distinct : ((resolved.receipt.rejected.filter (·.reason = .authority)).map (·.id) ++
    resolved.receipt.candidates.map Prod.fst).Nodup
  selected : resolved.receipt.selected.map (fun s => (s.id, s.score)) =
    resolved.receipt.candidates.filter fun c => task.preferredSkills.contains c.1 || 0 < c.2
  items : resolved.items.map (fun item => (item.id, item.required)) =
    resolved.receipt.selected.map fun s => (s.id, task.preferredSkills.contains s.id)
  ordered : resolved.receipt.selected.Pairwise fun a b => b.score < a.score ∨ (b.score = a.score ∧ p.collate a.id b.id = .lt)
  pinned : ∀ id ∈ task.preferredSkills, (∃ s ∈ resolved.receipt.selected, s.id = id) ∨
    ⟨id, .missing⟩ ∈ resolved.receipt.rejected

/-- **What a resolution that returns has made of a keyed index.** -/
theorem resolveSkills_spec (horder : OrdersIdentifiers p) (hkeyed : Keyed index) (hresolution : resolution ≠ .none)
    (h : resolveSkills p task index authority trust resolution = .ok resolved) : Resolution p task index authority resolved := by
  obtain ⟨missing, listed, entries, ranked, hcourse⟩ := course_of_resolveSkills hresolution h
  have hsplit : ((resolved.receipt.rejected.filter (·.reason = .authority)).map (·.id) ++
      resolved.receipt.candidates.map Prod.fst).Perm (entries.map judgedId) := by
    have hcandidates : (resolved.receipt.candidates.map Prod.fst).Perm
        ((entries.filterMap Sum.getRight?).map (·.skill.id)) := by
      rw [hcourse.candidates, List.map_map, hcourse.ranks]
      exact sortBy_perm.map _
    exact ((hcourse.rejected_authority.map _).append hcandidates).trans (Course.judgedId_perm entries)
  have hrequired : ∀ r ∈ ranked, r.required = task.preferredSkills.contains r.skill.id := fun r hr =>
    (hcourse.mem_ranked hr).2.2.2
  refine ⟨?_, ?_, ?_, ?_, ?_, ?_, ?_⟩
  · intro s hs
    rw [hcourse.selected] at hs
    obtain ⟨r, hr, rfl⟩ := List.mem_map.mp hs
    obtain ⟨-, ⟨e, he, hskill⟩, hauth, -⟩ := hcourse.mem_ranked (List.mem_of_mem_filter hr)
    obtain ⟨hcapabilities, htools⟩ := Bool.and_eq_true_iff.mp hauth
    refine ⟨e, he, r.skill, hskill, rfl, fun c hc => ?_, fun tool htool => ?_⟩
    · exact List.contains_iff_mem.mp (List.all_eq_true.mp hcapabilities c hc)
    · exact List.contains_iff_mem.mp (List.all_eq_true.mp htools tool htool)
  · have hkeys := hcourse.keys hkeyed
    have hmap : (entries.map fun r => some (JsValue.string (judgedId r))) =
        (entries.map judgedId).map fun id => some (JsValue.string id) := by rw [List.map_map]; rfl
    rw [hmap] at hkeys
    exact (hsplit.map _).trans hkeys
  · exact hsplit.nodup_iff.mpr (hcourse.nodup hkeyed)
  · rw [hcourse.selected, hcourse.candidates, List.map_map, List.filter_map]
    refine congrArg _ (List.filter_congr fun r hr => ?_)
    rw [hrequired r hr]
    rfl
  · rw [hcourse.selected, hcourse.items, List.map_map, List.map_map]
    refine List.map_congr_left fun r hr => ?_
    exact congrArg (Prod.mk r.skill.id) (hrequired r (List.mem_of_mem_filter hr))
  · rw [hcourse.selected, List.pairwise_map]
    exact (hcourse.ordered hkeyed horder).filter _
  · intro id hid
    rcases hcourse.pinned hkeyed hid with ⟨r, hr, rfl, hpin⟩ | hmissing
    · left
      rw [hcourse.selected]
      exact ⟨r.selected, List.mem_map_of_mem (List.mem_filter.mpr ⟨hr, by rw [hpin]; rfl⟩), rfl⟩
    · exact .inr hmissing

/-! ### Packs in another order -/

/-- A resolution looks at an index through its lookups and its list. -/
theorem resolveSkills_congr (hskill : index.skill = index'.skill) (hskills : index.skills p = index'.skills p) :
    resolveSkills p task index authority trust resolution = resolveSkills p task index' authority trust resolution := by
  have hpinned : checkPinned index = checkPinned index' := by
    funext registry pinned
    rw [checkPinned, checkPinned, hskill]
  have hgaps : capabilityGaps task index = capabilityGaps task index' := by
    funext ids
    rw [capabilityGaps, capabilityGaps, hskill]
  have hmissing : missingPreferredSkills task index = missingPreferredSkills task index' := by
    rw [missingPreferredSkills, missingPreferredSkills, hskill]
  unfold resolveSkills
  rw [hpinned, hgaps, hmissing, hskills]

/-- Skills whose ids are identifiers are listed in one order. -/
theorem skills_eq_of_perm (horder : OrdersIdentifiers p) (hkeyed : Keyed index)
    (hids : ∀ e ∈ index.bySkillId, ∃ id, isIdentifier id = true ∧ e.1 = some (.string id))
    (hp : index.bySkillId.Perm index'.bySkillId) : index.skills p = index'.skills p := by
  set entryOf : Option JsValue × IndexedSkillV1 → String × IndexedSkillV1 := fun e => ((e.1.bind asText).getD "", e.2)
  have hlists : ∀ l : List (Option JsValue × IndexedSkillV1), (∀ e ∈ l, ∃ id, isIdentifier id = true ∧ e.1 = some (.string id)) →
      l.mapM (fun e => (e.1.bind asText).map fun id => (id, e.2)) = some (l.map entryOf) := by
    intro l hl
    induction l with
    | nil => rfl
    | cons e l ih =>
      obtain ⟨⟨id, -, hid⟩, hl⟩ := List.forall_mem_cons.mp hl
      rw [List.mapM_cons, ih hl, hid]
      simp only [entryOf, List.map_cons, hid]
      rfl
  have hids' : ∀ e ∈ index'.bySkillId, ∃ id, isIdentifier id = true ∧ e.1 = some (.string id) := fun e he =>
    hids e (hp.mem_iff.mpr he)
  have hcmp : Std.TransCmp fun a b : {e : String × IndexedSkillV1 // isIdentifier e.1 = true} => p.collate a.1.1 b.1.1 :=
    transCmp_on horder.trans fun e : {e : String × IndexedSkillV1 // isIdentifier e.1 = true} => ⟨e.1.1, e.2⟩
  have hidentifier : ∀ e ∈ index.bySkillId.map entryOf, isIdentifier e.1 = true := by
    intro e he
    obtain ⟨e', he', rfl⟩ := List.mem_map.mp he
    obtain ⟨id, hid, hkey⟩ := hids e' he'
    simp only [entryOf, hkey]
    exact hid
  have hsorted := @sortBy_eq_of_perm_of _ (fun a b : String × IndexedSkillV1 => p.collate a.1 b.1) _ _ _ hcmp
    (hp.map entryOf) hidentifier ?_
  · unfold CapabilityIndex.skills
    rw [hlists _ hids, hlists _ hids']
    dsimp only
    rw [hsorted]
  -- entries that compare equal have one id, and there is one entry for it
  · intro a ha b hb hab
    have heq : a.1 = b.1 := congrArg Subtype.val (horder.distinct ⟨a.1, hidentifier a ha⟩ ⟨b.1, hidentifier b hb⟩ hab)
    obtain ⟨e, he, rfl⟩ := List.mem_map.mp ha
    obtain ⟨e', he', rfl⟩ := List.mem_map.mp hb
    obtain ⟨id, -, hkey⟩ := hids e he
    obtain ⟨id', -, hkey'⟩ := hids e' he'
    simp only [entryOf, hkey, hkey'] at heq
    obtain rfl : id = id' := heq
    rw [hkeyed.inj he he' (by rw [hkey, hkey']; exact sameKey_text.mpr rfl)]

/-- **Packs in another order give the same result.** -/
theorem resolveSkills_perm (horder : OrdersIdentifiers p) {packs packs' : List CapabilityMetadataV1} (hp : packs.Perm packs')
    (hcompatible : Compatible packs) (hresolution : resolution ≠ .none)
    (h : resolveSkills p task (indexOf packs) authority trust resolution = .ok resolved) :
    resolveSkills p task (indexOf packs') authority trust resolution = .ok resolved := by
  have hkeyed := keyed_indexOf hcompatible
  have hkeyed' := keyed_indexOf (hcompatible.perm hp)
  have hentries : (indexOf packs).bySkillId.Perm (indexOf packs').bySkillId := hp.flatMap_right entriesOf
  obtain ⟨missing, listed, entries, ranked, hcourse⟩ := course_of_resolveSkills hresolution h
  have hids : ∀ e ∈ (indexOf packs).bySkillId, ∃ id, isIdentifier id = true ∧ e.1 = some (.string id) := by
    intro e he
    have hkey : e.1 ∈ (indexOf packs).bySkillId.map Prod.fst := List.mem_map_of_mem he
    obtain ⟨r, hr, heq⟩ := List.mem_map.mp ((hcourse.keys hkeyed).mem_iff.mpr hkey)
    obtain ⟨entry, -, hrank⟩ := exists_of_mapM hcourse.judges _ hr
    obtain ⟨skill, hskill, hjudged⟩ := judged_of_rankEntry hrank
    refine ⟨judgedId r, ?_, heq.symm⟩
    rw [hjudged.id_eq]
    exact (normalizeSkillDefinition_input hskill).1
  rw [← h]
  exact (resolveSkills_congr (hkeyed.skill_perm hkeyed' hentries) (skills_eq_of_perm horder hkeyed hids hentries)).symm

/-- **A resolution is sound, complete, and does not depend on the order of packs.** Of every index that calls
of `add` and `tryAdd` build, also where some of them have thrown, a resolution that returns has made what
`Resolution` says; and packs that make an index make one in any order, with the same result. -/
theorem resolveSkills_sound (horder : OrdersIdentifiers p) (hresolution : resolution ≠ .none) :
    (∀ calls resolved, resolveSkills p task (after p {} calls) authority trust resolution = .ok resolved →
      Resolution p task (after p {} calls) authority resolved) ∧
    ∀ packs packs' index, packs.Perm packs' → CapabilityIndex.ofMetadata p packs = .ok index →
      ∃ index', CapabilityIndex.ofMetadata p packs' = .ok index' ∧ ∀ resolved,
        resolveSkills p task index authority trust resolution = .ok resolved ↔
          resolveSkills p task index' authority trust resolution = .ok resolved := by
  refine ⟨fun calls resolved h => resolveSkills_spec horder (keyed_after calls) hresolution h, ?_⟩
  intro packs packs' index hp hindex
  obtain ⟨hcompatible, rfl⟩ := ofMetadata_eq_ok.mp hindex
  have hcompatible' := hcompatible.perm hp
  refine ⟨indexOf packs', ofMetadata_eq_ok.mpr ⟨hcompatible', rfl⟩, fun resolved => ?_⟩
  exact ⟨resolveSkills_perm horder hp hcompatible hresolution, resolveSkills_perm horder hp.symm hcompatible' hresolution⟩

end Resolved

/-! ### Two packs -/

/-- A skill that needs the web. -/
def webSkill (id : String) : JsValue :=
  .object [("version", .number (.finite 1)), ("id", .string id), ("skillVersion", .string "1.0.0"), ("triggers", .array []),
    ("domains", .array []), ("instructions", .string "Cite every source."), ("requiredCapabilities", .array [.string "web"]),
    ("requiredTools", .array []), ("knowledgeRefs", .array []),
    ("provenance", .object [("source", .string "local-pack"), ("packId", .string "local")])]

/-- A pack with one skill. -/
def webPack (packId id : String) : CapabilityMetadataV1 where
  packId := packId
  role := .skill
  capabilities := []
  tools := []
  namespaces := []
  skills := [webSkill id]

/-- A task that pins a skill which is there, and one which is missing. -/
def webTask : TaskV1 where
  successCriteria := []
  objective := ""
  preferredSkills := ["quote", "absent"]

theorem samplePlatform_orders : OrdersIdentifiers samplePlatform where
  trans := transCmp_on (inferInstance : Std.TransCmp fun a b : String => compare a b) Subtype.val
  distinct := fun _ _ h => Subtype.ext (Std.LawfulEqOrd.eq_of_compare h)

/-- Two packs in both orders: the pinned skill is selected, and the other is a candidate. -/
theorem resolveSkills_sound_sample : ∃ index index' resolved,
    CapabilityIndex.ofMetadata samplePlatform [webPack "a" "quote", webPack "b" "cite"] = .ok index ∧
    CapabilityIndex.ofMetadata samplePlatform [webPack "b" "cite", webPack "a" "quote"] = .ok index' ∧
    resolveSkills samplePlatform webTask index ⟨["web"], [], []⟩ ⟨.discover, [], .disabled⟩ .local = .ok resolved ∧
    resolveSkills samplePlatform webTask index' ⟨["web"], [], []⟩ ⟨.discover, [], .disabled⟩ .local = .ok resolved ∧
    resolved.receipt.selected.map (·.id) = ["quote"] ∧ resolved.receipt.candidates.map Prod.fst = ["quote", "cite"] ∧
    resolved.receipt.rejected = [⟨"absent", .missing⟩] := by
  have hrun : (CapabilityIndex.ofMetadata samplePlatform [webPack "a" "quote", webPack "b" "cite"] >>= fun index =>
      resolveSkills samplePlatform webTask index ⟨["web"], [], []⟩ ⟨.discover, [], .disabled⟩ .local).toOption.map
        (fun r => (r.receipt.selected.map (·.id), r.receipt.candidates.map Prod.fst, r.receipt.rejected)) =
      some (["quote"], ["quote", "cite"], [⟨"absent", .missing⟩]) := by decide +kernel
  obtain ⟨resolved, hresolved, hids⟩ := Option.map_eq_some_iff.mp hrun
  obtain ⟨index, hindex, hresolved⟩ := bind_eq_ok.mp (toOption_eq_some.mp hresolved)
  simp only [Prod.mk.injEq] at hids
  obtain ⟨index', hindex', hsame⟩ := (@resolveSkills_sound samplePlatform webTask ⟨["web"], [], []⟩ ⟨.discover, [], .disabled⟩ .local
    samplePlatform_orders (by decide)).2 _ _ _ (List.Perm.swap _ _ []) hindex
  exact ⟨index, index', resolved, hindex, hindex', hresolved, (hsame resolved).mp hresolved, hids⟩

end Knolo.Skills.IndexUpdates
