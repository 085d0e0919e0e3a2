import Knolo.Library.Method
import Knolo.Skills.Session

/-!
# Updates of the capability index

`packages/agents/src/capabilities/catalog.ts`: what `add` and `tryAdd` leave of an index, also when they
throw. The pack is set before its skills are checked, so that a call that throws at a skill leaves a pack
without its skills.

* `add_agrees`, `tryAdd_agrees` — when a call returns, the index is that of `CapabilityIndex.add`.
* `add_atomic_iff`, `tryAdd_atomic_iff` — when a call installs a whole pack or leaves the index as it is.
* `updates_atomic_iff` — and what is indexed where all calls are so.
-/

namespace Knolo.Skills.IndexUpdates

open Script Harness Library Library.Fallible CapabilityIndex

/-! ### Calls -/

/-- A call of an index: it may throw, and keeps what it has changed. -/
abbrev IndexM := Method CapabilityIndex Empty String Empty

section Calls

variable (p : Platform)

/-- A skill of a pack is set, unless its id is taken. -/
def addSkill (packId : String) (skill : JsValue) : IndexM PUnit := do
  let id ← Method.ofExcept (property skill "id")
  let index ← Method.read
  Method.ofExcept (ensure (index.entry id).isNone s!"duplicate skill in capability index: {text p.toLanguage id}")
  Method.modify fun index => { index with bySkillId := index.bySkillId ++ [(id, ⟨skill, packId⟩)] }
  return ⟨⟩

/-- `add`: the pack is set, then its skills. -/
def add (metadata : CapabilityMetadataV1) : IndexM PUnit := do
  let index ← Method.read
  Method.ofExcept (ensure (index.hasPack metadata.packId = false) s!"duplicate pack in capability index: {metadata.packId}")
  Method.modify fun index => { index with packs := index.packs ++ [metadata] }
  metadata.skills.forM (addSkill p metadata.packId)

/-- `tryAdd`. -/
def tryAdd (metadata : CapabilityMetadataV1) : IndexM Bool := do
  let index ← Method.read
  if index.hasPack metadata.packId then return false
  let taken ← Method.ofExcept
    (metadata.skills.anyM fun skill => do return (index.entry (← property skill "id")).isSome)
  if taken then return false
  add p metadata
  return true

end Calls

/-! ### Packs that can be added -/

/-- The id of a skill that has properties. -/
def idOf (skill : JsValue) : Option JsValue := ((property skill "id").toOption).join

/-- The entries of a pack's skills. -/
def entriesOf (m : CapabilityMetadataV1) : List (Option JsValue × IndexedSkillV1) :=
  m.skills.map fun skill => (idOf skill, ⟨skill, m.packId⟩)

/-- Skills that an index can take: they have properties, their ids are not taken, and no two have one id. -/
structure Fresh (index : CapabilityIndex) (skills : List JsValue) : Prop where
  free : ∀ skill ∈ skills, skill ≠ .null ∧ index.entry (idOf skill) = none
  apart : skills.Pairwise fun a b => sameKey (idOf a) (idOf b) = false

/-- An index with a whole pack more. -/
def installed (index : CapabilityIndex) (m : CapabilityMetadataV1) : CapabilityIndex where
  packs := index.packs ++ [m]
  bySkillId := index.bySkillId ++ entriesOf m

/-- A skill whose id is taken comes before any that has no properties. -/
def Taken (index : CapabilityIndex) (skills : List JsValue) : Prop :=
  ∃ before skill after, skills = before ++ skill :: after ∧ (∀ s ∈ before, s ≠ .null) ∧ skill ≠ .null ∧
    index.entry (idOf skill) ≠ none

variable {p : Platform} {index index' : CapabilityIndex} {m : CapabilityMetadataV1} {skill : JsValue} {skills : List JsValue}

theorem property_eq (h : skill ≠ .null) (key : String) : ∃ v, property skill key = .ok v := by
  cases skill with
  | null => exact absurd rfl h
  | object ps => exact ⟨_, rfl⟩
  | bool | number | string | array => exact ⟨_, rfl⟩

theorem property_id (h : skill ≠ .null) : property skill "id" = .ok (idOf skill) := by
  obtain ⟨v, hv⟩ := property_eq h "id"
  rw [idOf, hv]
  rfl

theorem property_null (key : String) : ∃ e, property .null key = .error e := ⟨_, rfl⟩

/-- What is taken after one more skill. -/
theorem entry_append {id id' : Option JsValue} {entry : IndexedSkillV1} :
    ({ index with bySkillId := index.bySkillId ++ [(id, entry)] } : CapabilityIndex).entry id' = none ↔
      index.entry id' = none ∧ sameKey id id' = false := by
  simp only [CapabilityIndex.entry, List.find?_append, Option.map_eq_none_iff, Option.or_eq_none_iff, List.find?_singleton]
  refine and_congr_right fun _ => ?_
  cases sameKey id id' <;> simp

theorem fresh_cons (packId : String) : Fresh index (skill :: skills) ↔ (skill ≠ .null ∧ index.entry (idOf skill) = none) ∧
    Fresh { index with bySkillId := index.bySkillId ++ [(idOf skill, ⟨skill, packId⟩)] } skills := by
  constructor
  · rintro ⟨hfree, hapart⟩
    obtain ⟨hskill, hfree⟩ := List.forall_mem_cons.mp hfree
    obtain ⟨hone, hapart⟩ := List.pairwise_cons.mp hapart
    exact ⟨hskill, fun s hs => ⟨(hfree s hs).1, entry_append.mpr ⟨(hfree s hs).2, hone s hs⟩⟩, hapart⟩
  · rintro ⟨hskill, hfree, hapart⟩
    refine ⟨List.forall_mem_cons.mpr ⟨hskill, fun s hs => ⟨(hfree s hs).1, (entry_append.mp (hfree s hs).2).1⟩⟩, ?_⟩
    exact List.pairwise_cons.mpr ⟨fun s hs => (entry_append.mp (hfree s hs).2).2, hapart⟩

/-! ### What the calls do -/

/-- A skill is set, or it is an error and nothing changes. -/
theorem addSkill_sat (packId : String) (skill : JsValue) : (addSkill p packId skill).Sat index fun res index' _ =>
    ((skill ≠ .null ∧ index.entry (idOf skill) = none) ∧ res = .ok ⟨⟩ ∧
        index' = { index with bySkillId := index.bySkillId ++ [(idOf skill, ⟨skill, packId⟩)] }) ∨
      (¬(skill ≠ .null ∧ index.entry (idOf skill) = none) ∧ (∃ e, res = .error e) ∧ index' = index) := by
  unfold addSkill
  refine Method.Sat.ofExcept_bind (fun id hid => ?_) fun e he => ?_
  · have hnull : skill ≠ .null := by
      rintro rfl
      cases hid
    obtain rfl : idOf skill = id := Except.ok.inj ((property_id hnull).symm.trans hid)
    refine Method.sat_read_bind.mpr (Method.Sat.ofExcept_bind (fun _ hok => ?_) fun e he => ?_)
    · have hfree : index.entry (idOf skill) = none := Option.isNone_iff_eq_none.mp (ensure_eq_ok.mp hok)
      exact Method.sat_modify_bind.mpr (Method.sat_pure.mpr (.inl ⟨⟨hnull, hfree⟩, rfl, rfl⟩))
    · have htaken := not_of_ensure_error he
      exact .inr ⟨fun h => htaken (Option.isNone_iff_eq_none.mpr h.2), ⟨e, rfl⟩, rfl⟩
  · have hnull : skill = .null := by
      by_contra hnull
      rw [property_id hnull] at he
      cases he
    exact .inr ⟨fun h => h.1 hnull, ⟨e, rfl⟩, rfl⟩

/-- The skills of a pack are set, up to the first that cannot be. -/
theorem forM_addSkill_sat (packId : String) (skills : List JsValue) : ∀ {index : CapabilityIndex},
    (skills.forM (addSkill p packId)).Sat index fun res index' _ =>
      (Fresh index skills ∧ res = .ok ⟨⟩ ∧ index' = { index with
          bySkillId := index.bySkillId ++ skills.map fun skill => (idOf skill, ⟨skill, packId⟩) }) ∨
        (¬ Fresh index skills ∧ (∃ e, res = .error e) ∧ index'.packs = index.packs) := by
  induction skills with
  | nil =>
    intro index
    refine Method.sat_pure.mpr (.inl ⟨⟨fun _ h => (nomatch h), .nil⟩, rfl, ?_⟩)
    rw [List.map_nil, List.append_nil]
  | cons skill skills ih =>
    intro index
    refine Method.Sat.bind (addSkill_sat packId skill) ?_ ?_
    · rintro _ _ l (⟨hskill, -, rfl⟩ | ⟨-, ⟨e, he⟩, -⟩)
      · refine ih.mono fun res index' _ h => ?_
        rcases h with ⟨hrest, rfl, rfl⟩ | ⟨hrest, herror, hpacks⟩
        · refine .inl ⟨(fresh_cons packId).mpr ⟨hskill, hrest⟩, rfl, ?_⟩
          rw [List.map_cons, List.append_assoc]
          rfl
        · exact .inr ⟨fun h => hrest ((fresh_cons packId).mp h).2, herror, hpacks⟩
      · cases he
    · rintro e _ l (⟨-, h, -⟩ | ⟨hskill, -, rfl⟩)
      · cases h
      · exact .inr ⟨fun h => hskill ((fresh_cons packId).mp h).1, ⟨e, rfl⟩, rfl⟩

/-- What `add` does. -/
theorem add_sat : (add p m).Sat index fun res index' _ =>
    (index.hasPack m.packId = true ∧ (∃ e, res = .error e) ∧ index' = index) ∨
      (index.hasPack m.packId = false ∧ Fresh index m.skills ∧ res = .ok ⟨⟩ ∧ index' = installed index m) ∨
      (index.hasPack m.packId = false ∧ ¬ Fresh index m.skills ∧ (∃ e, res = .error e) ∧
        index'.packs = index.packs ++ [m]) := by
  unfold add
  refine Method.sat_read_bind.mpr (Method.Sat.ofExcept_bind (fun _ hok => ?_) fun e he => ?_)
  · have hnew := ensure_eq_ok.mp hok
    refine Method.sat_modify_bind.mpr ((forM_addSkill_sat m.packId m.skills).mono fun res index' _ h => ?_)
    rcases h with ⟨hfresh, rfl, rfl⟩ | ⟨hfresh, herror, hpacks⟩
    · exact .inr (.inl ⟨hnew, ⟨hfresh.free, hfresh.apart⟩, rfl, rfl⟩)
    · exact .inr (.inr ⟨hnew, fun h => hfresh ⟨h.free, h.apart⟩, herror, hpacks⟩)
  · exact .inl ⟨Bool.eq_true_of_not_eq_false (not_of_ensure_error he), ⟨e, rfl⟩, rfl⟩

theorem taken_cons (hskill : skill ≠ .null) (hfree : index.entry (idOf skill) = none) :
    Taken index (skill :: skills) ↔ Taken index skills := by
  constructor
  · rintro ⟨before, s, after, heq, hbefore, hs, htaken⟩
    cases before with
    | nil =>
      obtain ⟨rfl, -⟩ := List.cons.inj heq
      exact absurd hfree htaken
    | cons b before => exact ⟨before, s, after, (List.cons.inj heq).2, fun s hs => hbefore s (.tail _ hs), hs, htaken⟩
  · rintro ⟨before, s, after, rfl, hbefore, hs, htaken⟩
    exact ⟨skill :: before, s, after, rfl, List.forall_mem_cons.mpr ⟨hskill, hbefore⟩, hs, htaken⟩

/-- What `tryAdd` finds of the skills of a pack. -/
theorem anyM_cases (index : CapabilityIndex) (skills : List JsValue) :
    let taken : Except String Bool := skills.anyM fun skill => do return (index.entry (← property skill "id")).isSome
    (taken = .ok true ∧ Taken index skills) ∨
      (taken = .ok false ∧ ∀ s ∈ skills, s ≠ .null ∧ index.entry (idOf s) = none) ∨
        ((∃ e, taken = .error e) ∧ ¬ Taken index skills ∧ .null ∈ skills) := by
  induction skills with
  | nil => exact .inr (.inl ⟨rfl, fun _ h => (nomatch h)⟩)
  | cons skill skills ih =>
    dsimp only at ih ⊢
    rw [List.anyM_cons]
    by_cases hnull : skill = .null
    · subst hnull
      refine .inr (.inr ⟨⟨_, rfl⟩, ?_, .head _⟩)
      rintro ⟨before, s, after, heq, hbefore, hs, -⟩
      cases before with
      | nil => exact hs (List.cons.inj heq).1.symm
      | cons b before => exact hbefore b (.head _) (List.cons.inj heq).1.symm
    · rw [property_id hnull]
      cases hentry : index.entry (idOf skill) with
      | some e => exact .inl ⟨by rw [ok_bind, hentry]; rfl, [], skill, skills, rfl, fun _ h => (nomatch h), hnull, by simp [hentry]⟩
      | none =>
        rw [taken_cons hnull hentry, List.forall_mem_cons, ok_bind, hentry]
        rcases ih with ih | ⟨hfalse, hfree⟩ | ⟨herror, hnot, hmem⟩
        · exact .inl ih
        · exact .inr (.inl ⟨hfalse, ⟨hnull, rfl⟩, hfree⟩)
        · exact .inr (.inr ⟨herror, hnot, .tail _ hmem⟩)

/-- What `tryAdd` does. -/
theorem tryAdd_sat : (tryAdd p m).Sat index fun res index' _ =>
    ((index.hasPack m.packId = true ∨ Taken index m.skills) ∧ res = .ok false ∧ index' = index) ∨
      (index.hasPack m.packId = false ∧ Fresh index m.skills ∧ res = .ok true ∧ index' = installed index m) ∨
      (¬(index.hasPack m.packId = true ∨ Taken index m.skills) ∧ ¬ Fresh index m.skills ∧ (∃ e, res = .error e)) := by
  unfold tryAdd
  refine Method.sat_read_bind.mpr ?_
  by_cases hpack : index.hasPack m.packId = true
  · rw [if_pos hpack]
    exact Method.sat_pure.mpr (.inl ⟨.inl hpack, rfl, rfl⟩)
  rw [if_neg hpack]
  have hnew := Bool.eq_false_iff.mpr hpack
  have hcases := anyM_cases index m.skills
  dsimp only at hcases
  refine Method.Sat.ofExcept_bind (fun taken hscan => ?_) fun e he => ?_
  · rw [hscan] at hcases
    rcases hcases with ⟨hyes, htaken⟩ | ⟨hno, hfree⟩ | ⟨⟨e, he⟩, -⟩
    · cases hyes
      exact Method.sat_pure.mpr (.inl ⟨.inr htaken, rfl, rfl⟩)
    · cases hno
      have hnot : ¬(index.hasPack m.packId = true ∨ Taken index m.skills) := by
        rintro (h | ⟨before, s, after, hskills, -, -, htaken⟩)
        · exact hpack h
        · exact htaken (hfree s (by rw [hskills]; simp)).2
      refine Method.Sat.bind add_sat ?_ ?_
      · rintro _ index' l (⟨-, ⟨e, he⟩, -⟩ | ⟨-, hfresh, -, hindex⟩ | ⟨-, -, ⟨e, he⟩, -⟩)
        · cases he
        · exact Method.sat_pure.mpr (.inr (.inl ⟨hnew, hfresh, rfl, hindex⟩))
        · cases he
      · rintro e index' l (⟨h, -⟩ | ⟨-, -, he, -⟩ | ⟨-, hfresh, -, -⟩)
        · exact absurd h hpack
        · cases he
        · exact .inr (.inr ⟨hnot, hfresh, e, rfl⟩)
    · cases he
  · rw [he] at hcases
    rcases hcases with ⟨h, -⟩ | ⟨h, -⟩ | ⟨-, hnot, hnull⟩
    · cases h
    · cases h
    · refine .inr (.inr ⟨?_, fun hfresh => (hfresh.free .null hnull).1 rfl, e, rfl⟩)
      rintro (h | h)
      · exact hpack h
      · exact hnot h

/-! ### Agreement with the index that a run uses -/

theorem addSkill_agrees (packId : String) (skill : JsValue) : (addSkill p packId skill).Sat index fun res index' _ =>
    res.map (fun _ => index') = CapabilityIndex.addSkill p packId index skill := by
  unfold addSkill CapabilityIndex.addSkill
  refine Method.Sat.ofExcept_bind (fun id hid => ?_) fun e he => ?_
  · rw [hid, ok_bind]
    refine Method.sat_read_bind.mpr (Method.Sat.ofExcept_bind (fun _ hok => ?_) fun e he => ?_)
    · rw [hok]
      exact Method.sat_modify_bind.mpr (Method.sat_pure.mpr rfl)
    · rw [he]
      rfl
  · rw [he]
    rfl

theorem forM_addSkill_agrees (packId : String) (skills : List JsValue) : ∀ {index : CapabilityIndex},
    (skills.forM (addSkill p packId)).Sat index fun res index' _ =>
      res.map (fun _ => index') = skills.foldlM (CapabilityIndex.addSkill p packId) index := by
  induction skills with
  | nil =>
    intro index
    exact Method.sat_pure.mpr rfl
  | cons skill skills ih =>
    intro index
    rw [List.foldlM_cons]
    refine Method.Sat.bind (addSkill_agrees packId skill) (fun _ index' _ h => ?_) fun e index' _ h => ?_
    · rw [← h]
      exact ih
    · rw [← h]
      rfl

/-- `add` returns what the index of a run has, and throws what it throws. -/
theorem add_agrees : (add p m).Sat index fun res index' _ => res.map (fun _ => index') = index.add p m := by
  unfold add CapabilityIndex.add
  refine Method.sat_read_bind.mpr (Method.Sat.ofExcept_bind (fun _ hok => ?_) fun e he => ?_)
  · rw [hok, ok_bind]
    exact Method.sat_modify_bind.mpr (forM_addSkill_agrees m.packId m.skills)
  · rw [he]
    rfl

/-- So does `tryAdd`. -/
theorem tryAdd_agrees : (tryAdd p m).Sat index fun res index' _ => res.map (fun _ => index') = index.tryAdd p m := by
  unfold tryAdd CapabilityIndex.tryAdd
  refine Method.sat_read_bind.mpr ?_
  by_cases hpack : index.hasPack m.packId = true
  · rw [if_pos hpack, if_pos hpack]
    exact Method.sat_pure.mpr rfl
  rw [if_neg hpack, if_neg hpack]
  refine Method.Sat.ofExcept_bind (fun taken htaken => ?_) fun e he => ?_
  · rw [htaken, ok_bind]
    cases taken with
    | true => exact Method.sat_pure.mpr rfl
    | false =>
      refine Method.Sat.bind add_agrees (fun _ index' _ h => ?_) fun e index' _ h => ?_
      · exact Method.sat_pure.mpr h
      · exact h
  · rw [he]
    rfl

/-! ### Atomic calls -/

/-- `add` throws and leaves the index as it is, or installs the whole pack. -/
def AddAtomic (p : Platform) (index : CapabilityIndex) (m : CapabilityMetadataV1) : Prop :=
  (add p m).Sat index fun res index' _ => ((∃ e, res = .error e) ∧ index' = index) ∨ (res = .ok ⟨⟩ ∧ index' = installed index m)

/-- `tryAdd` does not throw: it returns `false` and leaves the index as it is, or `true` and has installed the
whole pack. -/
def TryAddAtomic (p : Platform) (index : CapabilityIndex) (m : CapabilityMetadataV1) : Prop :=
  (tryAdd p m).Sat index fun res index' _ => (res = .ok false ∧ index' = index) ∨ (res = .ok true ∧ index' = installed index m)

theorem returns_of_empty {α : Type} (q : IndexM α) (index : CapabilityIndex) : ∃ r, q index = .ok r := by
  cases h : q index with
  | ok r => exact ⟨r, rfl⟩
  | error d => exact d.elim

/-- **When `add` is atomic**: the pack is there already, or its skills can all be taken. -/
theorem add_atomic_iff : AddAtomic p index m ↔ index.hasPack m.packId = true ∨ Fresh index m.skills := by
  obtain ⟨r, hr⟩ := returns_of_empty (add p m) index
  have hspec := add_sat r hr
  constructor
  · intro h
    rcases hspec with ⟨hpack, -⟩ | ⟨-, hfresh, -⟩ | ⟨-, -, ⟨e, he⟩, hpacks⟩
    · exact .inl hpack
    · exact .inr hfresh
    · rcases h r hr with ⟨-, hindex⟩ | ⟨hok, -⟩
      · rw [hindex] at hpacks
        exact absurd hpacks.symm (by simp)
      · rw [he] at hok
        cases hok
  · intro h r' hr'
    obtain rfl : r = r' := Except.ok.inj (hr.symm.trans hr')
    rcases hspec with ⟨-, he, hindex⟩ | ⟨-, -, hok, hindex⟩ | ⟨hpack, hfresh, -⟩
    · exact .inl ⟨he, hindex⟩
    · exact .inr ⟨hok, hindex⟩
    · rcases h with h | h
      · rw [hpack] at h
        cases h
      · exact absurd h hfresh

/-- **When `tryAdd` is atomic**: the pack is there already, or a taken id is found before a skill that has no
properties, or all its skills can be taken. -/
theorem tryAdd_atomic_iff : TryAddAtomic p index m ↔
    index.hasPack m.packId = true ∨ Taken index m.skills ∨ Fresh index m.skills := by
  obtain ⟨r, hr⟩ := returns_of_empty (tryAdd p m) index
  have hspec := tryAdd_sat r hr
  rw [← or_assoc]
  constructor
  · intro h
    rcases hspec with ⟨hleft, -⟩ | ⟨-, hfresh, -⟩ | ⟨-, -, e, he⟩
    · exact .inl hleft
    · exact .inr hfresh
    · rcases h r hr with ⟨hok, -⟩ | ⟨hok, -⟩
      · rw [he] at hok
        cases hok
      · rw [he] at hok
        cases hok
  · intro h r' hr'
    obtain rfl : r = r' := Except.ok.inj (hr.symm.trans hr')
    rcases hspec with ⟨-, hok, hindex⟩ | ⟨-, -, hok, hindex⟩ | ⟨hleft, hfresh, -⟩
    · exact .inl ⟨hok, hindex⟩
    · exact .inr ⟨hok, hindex⟩
    · exact absurd h (by tauto)

/-! ### Runs -/

/-- A call that changes an index. -/
inductive Update where
  | add (metadata : CapabilityMetadataV1)
  | tryAdd (metadata : CapabilityMetadataV1)

/-- A call, whatever it answers. -/
def perform (p : Platform) : Update → IndexM Unit
  | .add m => add p m
  | .tryAdd m => do
    let _ ← tryAdd p m
    return ()

/-- An index after calls, in order. -/
def after (p : Platform) (index : CapabilityIndex) (calls : List Update) : CapabilityIndex :=
  (Session.run (perform p) ⟨index, []⟩ calls).state

/-- The condition on a call: the pack is there already, its skills can all be taken, or, for `tryAdd`, a taken
id is found before a skill that has no properties. -/
def Update.Met (index : CapabilityIndex) : Update → Prop
  | .add m => index.hasPack m.packId = true ∨ Fresh index m.skills
  | .tryAdd m => index.hasPack m.packId = true ∨ Taken index m.skills ∨ Fresh index m.skills

/-- The skills of each pack are what is indexed under it, every skill is indexed under a pack, and no two have
one id. -/
structure Indexed (index : CapabilityIndex) : Prop where
  under : ∀ m ∈ index.packs, index.bySkillId.filter (·.2.packId = m.packId) = entriesOf m
  owned : ∀ e ∈ index.bySkillId, index.hasPack e.2.packId = true
  distinct : index.bySkillId.Pairwise fun e e' => sameKey e.1 e'.1 = false

theorem indexed_empty : Indexed {} := ⟨fun _ h => (nomatch h), fun _ h => (nomatch h), .nil⟩

theorem mem_entriesOf {e : Option JsValue × IndexedSkillV1} (h : e ∈ entriesOf m) : e.2.packId = m.packId := by
  obtain ⟨skill, -, rfl⟩ := List.mem_map.mp h
  rfl

/-- A whole pack more keeps what is indexed. -/
theorem Indexed.installed (h : Indexed index) (hnew : index.hasPack m.packId = false) (hfresh : Fresh index m.skills) :
    Indexed (installed index m) := by
  have hother : ∀ m' ∈ index.packs, m'.packId ≠ m.packId := by
    intro m' hm' heq
    have hthere : index.hasPack m.packId = true := List.any_eq_true.mpr ⟨m', hm', by simpa using heq⟩
    rw [hnew] at hthere
    cases hthere
  have hall : (entriesOf m).filter (·.2.packId = m.packId) = entriesOf m :=
    List.filter_eq_self.mpr fun e he => by simpa using mem_entriesOf he
  refine ⟨fun m' hm' => ?_, fun e he => ?_, ?_⟩
  · show (index.bySkillId ++ entriesOf m).filter _ = _
    rw [List.filter_append]
    rcases List.mem_append.mp hm' with hm' | hm'
    · have hnone : (entriesOf m).filter (·.2.packId = m'.packId) = [] := by
        refine List.filter_eq_nil_iff.mpr fun e he => ?_
        have hne := hother m' hm'
        rw [← mem_entriesOf he] at hne
        simpa using hne.symm
      rw [hnone, List.append_nil, h.under m' hm']
    · obtain rfl := List.mem_singleton.mp hm'
      have hnone : index.bySkillId.filter (·.2.packId = m'.packId) = [] := by
        refine List.filter_eq_nil_iff.mpr fun e he heq => ?_
        have hthere := h.owned e he
        rw [of_decide_eq_true heq, hnew] at hthere
        cases hthere
      rw [hnone, hall, List.nil_append]
  · have hmore : ∀ id, index.hasPack id = true → (IndexUpdates.installed index m).hasPack id = true := by
      intro id hid
      show (index.packs ++ [m]).any _ = true
      rw [List.any_append]
      exact Bool.or_eq_true_iff.mpr (.inl hid)
    rcases List.mem_append.mp he with he | he
    · exact hmore _ (h.owned e he)
    · rw [mem_entriesOf he]
      show (index.packs ++ [m]).any _ = true
      simp
  · refine List.pairwise_append.mpr ⟨h.distinct, ?_, fun e he e' he' => ?_⟩
    · exact List.pairwise_map.mpr hfresh.apart
    · obtain ⟨skill, hskill, rfl⟩ := List.mem_map.mp he'
      have hfree := (hfresh.free skill hskill).2
      simp only [CapabilityIndex.entry, Option.map_eq_none_iff, List.find?_eq_none] at hfree
      simpa using hfree e he

/-- A call that meets its condition leaves the index, or installs a whole pack. -/
theorem Update.Met.sat {call : Update} (h : call.Met index) : (perform p call).Sat index fun _ index' _ =>
    index' = index ∨ ∃ m, index.hasPack m.packId = false ∧ Fresh index m.skills ∧ index' = installed index m := by
  cases call with
  | add m =>
    refine add_sat.mono fun res index' _ hspec => ?_
    rcases hspec with ⟨-, -, hindex⟩ | ⟨hnew, hfresh, -, hindex⟩ | ⟨hnew, hfresh, -⟩
    · exact .inl hindex
    · exact .inr ⟨m, hnew, hfresh, hindex⟩
    · rcases h with h | h
      · rw [hnew] at h
        cases h
      · exact absurd h hfresh
  | tryAdd m =>
    have hspec : (IndexUpdates.tryAdd p m).Sat index fun _ index' _ =>
        index' = index ∨ ∃ m, index.hasPack m.packId = false ∧ Fresh index m.skills ∧ index' = installed index m := by
      refine tryAdd_sat.mono fun res index' _ hspec => ?_
      rcases hspec with ⟨-, -, hindex⟩ | ⟨hnew, hfresh, -, hindex⟩ | ⟨hleft, hfresh, -⟩
      · exact .inl hindex
      · exact .inr ⟨m, hnew, hfresh, hindex⟩
      · exact absurd (or_assoc.mpr h) (not_or.mpr ⟨hleft, hfresh⟩)
    exact hspec.bind (fun _ _ _ h => Method.sat_pure.mpr h) fun _ _ _ h => h

/-- Calls that all meet their conditions keep what is indexed. -/
theorem indexed_after {calls : List Update} (hmet : ∀ pre call, pre ++ [call] <+: calls → call.Met (after p {} pre)) :
    Indexed (after p {} calls) := by
  refine Session.run_induct (I := fun _ session => Indexed session.state) indexed_empty calls ?_
  rintro pre call post rfl hpre
  have hcall : call.Met (after p {} pre) := hmet pre call (by simp)
  refine Session.after_of_sat_of_isEmpty (T := fun index' _ => Indexed index') (hcall.sat.mono fun _ index' _ h => ?_)
  rcases h with rfl | ⟨m, hnew, hfresh, rfl⟩
  · exact hpre
  · exact hpre.installed hnew hfresh

/-- `addPacks`: every pack is read and added, up to the first that throws. -/
def addPacks (p : Platform) (packs : List JsValue) : IndexM PUnit :=
  packs.forM fun pack => do add p (← Method.ofExcept (capabilityMetadataFromPack pack))

theorem after_cons (call : Update) (calls : List Update) :
    after p index (call :: calls) = after p (after p index [call]) calls := by
  have hlog : Session.after (perform p) ⟨index, []⟩ call = ⟨(Session.after (perform p) ⟨index, []⟩ call).state, []⟩ :=
    Session.ext rfl (Subsingleton.elim _ _)
  exact congrArg (fun session => (Session.run (perform p) session calls).state) hlog

/-- Adding packs is a run of calls of `add`. -/
theorem addPacks_run (packs : List JsValue) : ∀ {index : CapabilityIndex}, (addPacks p packs).Sat index fun _ index' _ =>
    ∃ added : List CapabilityMetadataV1, index' = after p index (added.map Update.add) := by
  induction packs with
  | nil =>
    intro index
    exact Method.sat_pure.mpr ⟨[], rfl⟩
  | cons pack packs ih =>
    intro index
    refine Method.Sat.bind (P := fun _ index' _ => index' = index ∨ ∃ m, index' = after p index [.add m]) ?_ ?_ ?_
    · refine Method.Sat.ofExcept_bind (fun m _ r hr => .inr ⟨m, ?_⟩) fun e _ => .inl rfl
      show r.state = (Session.after (perform p) ⟨index, []⟩ (.add m)).state
      simp only [Session.after, perform, hr]
    · rintro _ index' l (rfl | ⟨m, rfl⟩)
      · exact ih
      · refine ih.mono fun _ index'' _ h => ?_
        obtain ⟨added, rfl⟩ := h
        exact ⟨m :: added, (after_cons _ _).symm⟩
    · rintro e index' l (rfl | ⟨m, rfl⟩)
      · exact ⟨[], rfl⟩
      · exact ⟨[m], rfl⟩

/-- **When updates are atomic.** `add` is where the pack is there or all its skills can be taken; `tryAdd` is
also where a taken id comes before a skill that has no properties. In every run of calls of which each is so,
every index that is reached has the skills of each pack under it, and under no other. -/
theorem updates_atomic_iff (p : Platform) :
    (∀ index m, AddAtomic p index m ↔ index.hasPack m.packId = true ∨ Fresh index m.skills) ∧
      (∀ index m, TryAddAtomic p index m ↔ index.hasPack m.packId = true ∨ Taken index m.skills ∨ Fresh index m.skills) ∧
      ∀ calls, (∀ pre call, pre ++ [call] <+: calls → call.Met (after p {} pre)) →
        ∀ pre, pre <+: calls → Indexed (after p {} pre) :=
  ⟨fun _ _ => add_atomic_iff, fun _ _ => tryAdd_atomic_iff, fun _ hmet _ hpre =>
    indexed_after fun pre' call hcall => hmet pre' call (hcall.trans hpre)⟩

/-- A pack that has one skill twice. -/
def repeatedPack : CapabilityMetadataV1 where
  packId := "acme/cite"
  role := .skill
  capabilities := []
  tools := []
  namespaces := []
  skills := [sampleSkill, sampleSkill]

/-- **A pack that repeats a skill** is set with the first of its skills by a call that throws. -/
theorem repeated_skill_kept : ¬ AddAtomic samplePlatform {} repeatedPack ∧ ¬ TryAddAtomic samplePlatform {} repeatedPack ∧
    ¬ Indexed (after samplePlatform {} [.tryAdd repeatedPack]) := by
  have hstale : ¬ Fresh {} repeatedPack.skills := fun h => absurd h.apart (by decide +kernel)
  refine ⟨fun h => ?_, fun h => ?_, fun h => ?_⟩
  · rcases add_atomic_iff.mp h with hpack | hfresh
    · cases hpack
    · exact hstale hfresh
  · rcases tryAdd_atomic_iff.mp h with hpack | ⟨_, _, _, -, -, -, htaken⟩ | hfresh
    · cases hpack
    · exact htaken rfl
    · exact hstale hfresh
  · have hunder := congrArg List.length (h.under repeatedPack (.head _))
    revert hunder
    decide +kernel

end Knolo.Skills.IndexUpdates
