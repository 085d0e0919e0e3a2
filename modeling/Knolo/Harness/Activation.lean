import Knolo.Harness.RootAgreement
import Knolo.Library.History
import Knolo.Registry.Pack

/-!
# Activating and freezing dependencies

`packages/agents/src/dependencies/activation.ts`: the dependencies of a run are collected,
frozen under a root while the run goes on, and what is pulled meanwhile is staged for the next
run. The operations are atomic up to where they wait; `freeze` waits for a hash between reading
the active set and writing it back, so a run is a list of events in which the two parts of a
freeze stand apart (`Event.freeze`, `Event.settle`).

`nothing_lost` says what holds of every run in which a freeze, when it writes back, finds no
dependency in the active set that it has not read.
-/

namespace Knolo.Harness

open Core Script Library Library.StableSort Library.Fallible Registry TypeScript

/-! ### The code -/

/-- `packDependencyFromManifest`. -/
def packDependencyFromManifest (m : PackManifestV1) (role : PackDependencyRoleV1) :
    Except String PackDependencyV1 :=
  normalizePackDependency
    { name := m.name, version := m.version, sha256 := m.sha256
      stateRoot := m.stateRoot.filter fun root => !root.isEmpty, role := role }

/-- What a dependency is merged by. -/
def mergeKey (d : PackDependencyV1) : String := s!"{d.role.asStr}:{d.name}"

section Code

variable (collate : String → String → Ordering) (sha256 : List UInt8 → String)
  (codec : Option (JsValue → Except String (List UInt8)))

/-- `mergePackDependencies`. -/
def mergePackDependencies (base extra : List PackDependencyV1) : Except String (List PackDependencyV1) := do
  let items ← (base ++ extra).mapM normalizePackDependency
  let map := items.foldl (fun map item => setProperty (mergeKey item) item map) []
  TypeScript.sortPackDependencies collate (map.map Prod.snd)

/-- `computeHarnessDependencyRoot`, with a codec that may replace the canonical one. -/
def freezeRoot (ds : List PackDependencyV1) : Except String HarnessDependencyRootV1 := do
  let sorted ← TypeScript.sortPackDependencies collate ds
  let payload ← TypeScript.dependencyPayload collate sorted
  let cbor ← codec.getD scriptCbor payload
  return dependencyRoot sha256 sorted cbor

/-- The state of a `DependencyActivation`. -/
structure DependencyActivation where
  active : List PackDependencyV1 := []
  staged : List PackDependencyV1 := []
  frozenRoot : Option HarnessDependencyRootV1 := none

namespace DependencyActivation

/-- What is thrown where the set is frozen. -/
def frozenMessage : String := "dependency set is frozen for this run; stage packs for the next run"

/-- `add`. -/
def add (a : DependencyActivation) (dependency : PackDependencyV1) : Except String DependencyActivation := do
  ensure a.frozenRoot.isNone frozenMessage
  let item ← normalizePackDependency dependency
  return { a with active := ← mergePackDependencies collate a.active [item] }

/-- `replaceActive`. -/
def replaceActive (a : DependencyActivation) (dependencies : List PackDependencyV1) :
    Except String DependencyActivation := do
  ensure a.frozenRoot.isNone frozenMessage
  return { a with active := ← mergePackDependencies collate [] dependencies }

/-- `stage`. -/
def stage (a : DependencyActivation) (dependency : PackDependencyV1) : Except String DependencyActivation := do
  let item ← normalizePackDependency dependency
  return { a with staged := ← mergePackDependencies collate a.staged [item] }

/-- `activateStaged`. -/
def activateStaged (a : DependencyActivation) : Except String DependencyActivation := do
  return { active := ← mergePackDependencies collate a.active a.staged, staged := [], frozenRoot := none }

end DependencyActivation

/-! ### Runs -/

/-- An activation and the freezes that wait for their root; a root is determined when its
computation begins. -/
structure System extends DependencyActivation where
  freezing : List (Except String HarnessDependencyRootV1) := []

/-- What happens between two waits. -/
inductive Event where
  /-- `add`. -/
  | add (dependency : PackDependencyV1)
  /-- `stage`. -/
  | stage (dependency : PackDependencyV1)
  /-- `replaceActive`. -/
  | replaceActive (dependencies : List PackDependencyV1)
  /-- `activateStaged`. -/
  | activateStaged
  /-- `freeze` is called. -/
  | freeze
  /-- The freeze at this place goes on with its root. -/
  | settle (place : ℕ)
  /-- The computation of the root fails. -/
  | reject (place : ℕ)
  /-- A pull through `freezeAwareRegistry` goes on with what the registry returned. -/
  | pulled (manifest : PackManifestV1) (role : PackDependencyRoleV1)

/-- An event: the state afterwards, or what is thrown; then the state is as before. -/
def System.step (s : System) : Event → Except String System
  | .add d => do return { s with toDependencyActivation := ← s.toDependencyActivation.add collate d }
  | .stage d => do return { s with toDependencyActivation := ← s.toDependencyActivation.stage collate d }
  | .replaceActive ds => do
    return { s with toDependencyActivation := ← s.toDependencyActivation.replaceActive collate ds }
  | .activateStaged => do
    return { s with toDependencyActivation := ← s.toDependencyActivation.activateStaged collate }
  | .freeze =>
    if s.frozenRoot.isSome then .ok s
    else .ok { s with freezing := s.freezing ++ [freezeRoot collate sha256 codec s.active] }
  | .settle i =>
    match s.freezing[i]? with
    | some (.ok root) => .ok
      { s with active := root.dependencies, frozenRoot := some root, freezing := s.freezing.eraseIdx i }
    | some (.error _) => .ok { s with freezing := s.freezing.eraseIdx i }
    | none => .error "no freeze is waiting"
  | .reject i => .ok { s with freezing := s.freezing.eraseIdx i }
  | .pulled m role => do
    let dependency ← packDependencyFromManifest m role
    if s.frozenRoot.isSome then
      return { s with toDependencyActivation := ← s.toDependencyActivation.stage collate dependency }
    else return { s with toDependencyActivation := ← s.toDependencyActivation.add collate dependency }

/-- The state after an event. -/
def System.next (s : System) (e : Event) : System := (s.step collate sha256 codec e).toOption.getD s

/-- The state after a run. -/
def System.run (es : List Event) : System := es.foldl (System.next collate sha256 codec) {}

end Code

/-! ### Merging -/

/-- Normalized dependencies, no two of one role and name. -/
structure Tidy (ds : List PackDependencyV1) : Prop where
  normal : ∀ d ∈ ds, normalizePackDependency d = .ok d
  keys : (ds.map mergeKey).Nodup

theorem tidy_nil : Tidy [] := ⟨by simp, .nil⟩

/-- The entries a map of dependencies is built from. -/
def keyedItems (ds : List PackDependencyV1) : List (String × PackDependencyV1) :=
  ds.map fun d => (mergeKey d, d)

theorem foldl_setProperty_eq (items : List PackDependencyV1) :
    items.foldl (fun map item => setProperty (mergeKey item) item map) [] =
      (keyedItems items).foldl (fun ps m => setProperty m.1 m.2 ps) [] := by
  rw [keyedItems, List.foldl_map]

section Merge

variable {collate : String → String → Ordering} {base extra merged : List PackDependencyV1}

/-- What a merge returns: of the normalized dependencies, the last of each role and name. -/
theorem merge_eq_ok (h : mergePackDependencies collate base extra = .ok merged) :
    (∀ d ∈ (base ++ extra).map dropEmptyRoot, normalizePackDependency d = .ok d) ∧
      merged.Perm ((kept (keyedItems ((base ++ extra).map dropEmptyRoot))).map Prod.snd) := by
  obtain ⟨items, hitems, h⟩ := bind_eq_ok.mp h
  obtain ⟨rfl, hnormal⟩ := mapM_normalize hitems
  refine ⟨hnormal, ?_⟩
  obtain ⟨values, hvalues, h⟩ := bind_eq_ok.mp h
  cases h
  rw [foldl_setProperty_eq] at hvalues
  have hperm := (foldl_setProperty_perm (keyedItems ((base ++ extra).map dropEmptyRoot))).map Prod.snd
  have hself : ∀ d ∈ ((keyedItems ((base ++ extra).map dropEmptyRoot)).foldl
      (fun ps m => setProperty m.1 m.2 ps) []).map Prod.snd, normalizePackDependency d = .ok d := by
    intro d hd
    obtain ⟨m, hm, rfl⟩ := List.mem_map.mp (hperm.mem_iff.mp hd)
    obtain ⟨e, he, rfl⟩ := List.mem_map.mp (mem_of_mem_kept hm)
    exact hnormal e he
  rw [mapM_normalize_self hself] at hvalues
  cases hvalues
  exact sortBy_perm.trans hperm

theorem mem_merged (h : mergePackDependencies collate base extra = .ok merged) {d : PackDependencyV1} :
    d ∈ merged ↔ (mergeKey d, d) ∈ kept (keyedItems ((base ++ extra).map dropEmptyRoot)) := by
  rw [(merge_eq_ok h).2.mem_iff, List.mem_map]
  constructor
  · rintro ⟨m, hm, rfl⟩
    obtain ⟨e, -, rfl⟩ := List.mem_map.mp (mem_of_mem_kept hm)
    exact hm
  · exact fun hd => ⟨_, hd, rfl⟩

theorem tidy_merged (h : mergePackDependencies collate base extra = .ok merged) : Tidy merged := by
  obtain ⟨hnormal, hperm⟩ := merge_eq_ok h
  refine ⟨fun d hd => ?_, ?_⟩
  · obtain ⟨e, he, hde⟩ := List.mem_map.mp (mem_of_mem_kept ((mem_merged h).mp hd))
    obtain rfl := (Prod.mk.inj hde).2
    exact hnormal e he
  · have hkeys : ((kept (keyedItems ((base ++ extra).map dropEmptyRoot))).map Prod.snd).map mergeKey =
        (kept (keyedItems ((base ++ extra).map dropEmptyRoot))).map Prod.fst := by
      rw [List.map_map]
      refine List.map_congr_left fun m hm => ?_
      obtain ⟨e, -, rfl⟩ := List.mem_map.mp (mem_of_mem_kept hm)
      rfl
    rw [(hperm.map mergeKey).nodup_iff, hkeys]
    exact nodup_kept _

theorem Tidy.map_dropEmptyRoot {ds : List PackDependencyV1} (h : Tidy ds) : ds.map dropEmptyRoot = ds := by
  conv_rhs => rw [← List.map_id' ds]
  exact List.map_congr_left fun d hd => (normalize_eq_ok (h.normal d hd)).1.symm

end Merge

theorem Tidy.of_perm {ds es : List PackDependencyV1} (h : Tidy ds) (hp : es.Perm ds) : Tidy es :=
  ⟨fun d hd => h.normal d (hp.mem_iff.mp hd), (hp.map mergeKey).nodup_iff.mpr h.keys⟩

/-- A root is of the dependencies that were read, in order. -/
theorem freezeRoot_eq_ok {collate : String → String → Ordering} {sha256 : List UInt8 → String}
    {codec : Option (JsValue → Except String (List UInt8))} {ds : List PackDependencyV1}
    {r : HarnessDependencyRootV1} (hds : Tidy ds) (h : freezeRoot collate sha256 codec ds = .ok r) :
    r.dependencies.Perm ds := by
  obtain ⟨sorted, hsorted, h⟩ := bind_eq_ok.mp h
  obtain ⟨_, -, h⟩ := bind_eq_ok.mp h
  obtain ⟨_, -, h⟩ := bind_eq_ok.mp h
  cases h
  obtain ⟨es, hes, h⟩ := bind_eq_ok.mp hsorted
  cases h
  obtain ⟨rfl, -⟩ := mapM_normalize hes
  rw [hds.map_dropEmptyRoot]
  exact sortBy_perm

/-! ### What an event does -/

/-- The dependency an event adds or stages. -/
def Event.dependency : Event → Option PackDependencyV1
  | .add d | .stage d => (normalizePackDependency d).toOption
  | .pulled m role => (packDependencyFromManifest m role).toOption
  | _ => none

section Runs

variable {collate : String → String → Ordering} {sha256 : List UInt8 → String}
  {codec : Option (JsValue → Except String (List UInt8))}

/-- What an event that does not throw does. -/
inductive Change (collate : String → String → Ordering) (sha256 : List UInt8 → String)
    (codec : Option (JsValue → Except String (List UInt8))) (s : System) : Event → System → Prop
  /-- A dependency is added. -/
  | added {e : Event} {d : PackDependencyV1} {active : List PackDependencyV1} :
      e.dependency = some d → normalizePackDependency d = .ok d → s.frozenRoot = none →
        mergePackDependencies collate s.active [d] = .ok active → Change _ _ _ s e { s with active := active }
  /-- A dependency is staged. -/
  | staged {e : Event} {d : PackDependencyV1} {staged : List PackDependencyV1} :
      e.dependency = some d → normalizePackDependency d = .ok d →
        mergePackDependencies collate s.staged [d] = .ok staged → Change _ _ _ s e { s with staged := staged }
  /-- The active set is replaced. -/
  | replaced {ds active : List PackDependencyV1} : s.frozenRoot = none →
      mergePackDependencies collate [] ds = .ok active →
        Change _ _ _ s (.replaceActive ds) { s with active := active }
  /-- What is staged becomes active. -/
  | activated {active : List PackDependencyV1} :
      mergePackDependencies collate s.active s.staged = .ok active →
        Change _ _ _ s .activateStaged { s with active := active, staged := [], frozenRoot := none }
  /-- A freeze of a frozen set. -/
  | again : Change _ _ _ s .freeze s
  /-- A freeze begins. -/
  | begun : Change _ _ _ s .freeze
      { s with freezing := s.freezing ++ [freezeRoot collate sha256 codec s.active] }
  /-- A freeze writes back what it has read. -/
  | settled {i : ℕ} {root : HarnessDependencyRootV1} : s.freezing[i]? = some (.ok root) →
      Change _ _ _ s (.settle i)
        { s with active := root.dependencies, frozenRoot := some root, freezing := s.freezing.eraseIdx i }
  /-- A freeze fails. -/
  | failed {e : Event} {i : ℕ} : e = .settle i ∨ e = .reject i →
      Change _ _ _ s e { s with freezing := s.freezing.eraseIdx i }

variable {s s' : System} {e : Event} {d : PackDependencyV1}

theorem add_change {x : PackDependencyV1} {a : DependencyActivation} (hx : e.dependency = some d)
    (hd : normalizePackDependency x = .ok d) (h : s.toDependencyActivation.add collate x = .ok a) :
    Change collate sha256 codec s e { s with toDependencyActivation := a } := by
  obtain ⟨_, hfrozen, h⟩ := bind_eq_ok.mp h
  obtain ⟨item, hitem, h⟩ := bind_eq_ok.mp h
  obtain ⟨active, hactive, h⟩ := bind_eq_ok.mp h
  cases h
  rw [hd] at hitem
  cases hitem
  exact .added hx (normalize_eq_ok hd).2 (Option.isNone_iff_eq_none.mp (ensure_eq_ok.mp hfrozen)) hactive

theorem stage_change {x : PackDependencyV1} {a : DependencyActivation} (hx : e.dependency = some d)
    (hd : normalizePackDependency x = .ok d) (h : s.toDependencyActivation.stage collate x = .ok a) :
    Change collate sha256 codec s e { s with toDependencyActivation := a } := by
  obtain ⟨item, hitem, h⟩ := bind_eq_ok.mp h
  obtain ⟨staged, hstaged, h⟩ := bind_eq_ok.mp h
  cases h
  rw [hd] at hitem
  cases hitem
  exact .staged hx (normalize_eq_ok hd).2 hstaged

theorem step_change (h : s.step collate sha256 codec e = .ok s') : Change collate sha256 codec s e s' := by
  have hadd : ∀ {x : PackDependencyV1} {a : DependencyActivation},
      s.toDependencyActivation.add collate x = .ok a → ∃ y, normalizePackDependency x = .ok y := fun h => by
    obtain ⟨_, -, h⟩ := bind_eq_ok.mp h
    obtain ⟨y, hy, -⟩ := bind_eq_ok.mp h
    exact ⟨y, hy⟩
  have hstage : ∀ {x : PackDependencyV1} {a : DependencyActivation},
      s.toDependencyActivation.stage collate x = .ok a → ∃ y, normalizePackDependency x = .ok y := fun h => by
    obtain ⟨y, hy, -⟩ := bind_eq_ok.mp h
    exact ⟨y, hy⟩
  cases e with
  | add x =>
    obtain ⟨a, ha, h⟩ := bind_eq_ok.mp h
    cases h
    obtain ⟨y, hy⟩ := hadd ha
    exact add_change (toOption_eq_some.mpr hy) hy ha
  | stage x =>
    obtain ⟨a, ha, h⟩ := bind_eq_ok.mp h
    cases h
    obtain ⟨y, hy⟩ := hstage ha
    exact stage_change (toOption_eq_some.mpr hy) hy ha
  | replaceActive ds =>
    obtain ⟨a, ha, h⟩ := bind_eq_ok.mp h
    cases h
    obtain ⟨_, hfrozen, ha⟩ := bind_eq_ok.mp ha
    obtain ⟨active, hactive, ha⟩ := bind_eq_ok.mp ha
    cases ha
    exact .replaced (Option.isNone_iff_eq_none.mp (ensure_eq_ok.mp hfrozen)) hactive
  | activateStaged =>
    obtain ⟨a, ha, h⟩ := bind_eq_ok.mp h
    cases h
    obtain ⟨active, hactive, ha⟩ := bind_eq_ok.mp ha
    cases ha
    exact .activated hactive
  | freeze =>
    unfold System.step at h
    split_ifs at h
    · cases h
      exact .again
    · cases h
      exact .begun
  | settle i =>
    unfold System.step at h
    cases hi : s.freezing[i]? with
    | none => simp [hi] at h
    | some r =>
      cases r with
      | ok root =>
        simp only [hi, Except.ok.injEq] at h
        subst h
        exact .settled hi
      | error m =>
        simp only [hi, Except.ok.injEq] at h
        subst h
        exact .failed (.inl rfl)
  | reject i =>
    cases h
    exact .failed (.inr rfl)
  | pulled m role =>
    obtain ⟨x, hx, h⟩ := bind_eq_ok.mp h
    have hself := (normalize_eq_ok hx).2
    split_ifs at h
    · obtain ⟨a, ha, h⟩ := bind_eq_ok.mp h
      cases h
      exact stage_change (toOption_eq_some.mpr hx) hself ha
    · obtain ⟨a, ha, h⟩ := bind_eq_ok.mp h
      cases h
      exact add_change (toOption_eq_some.mpr hx) hself ha

/-! ### What holds throughout -/

/-- The invariant: the lists are tidy, and a frozen set is the one its root is of. -/
structure System.Sound (s : System) : Prop where
  active : Tidy s.active
  staged : Tidy s.staged
  freezing : ∀ r, .ok r ∈ s.freezing → Tidy r.dependencies
  frozen : ∀ r, s.frozenRoot = some r → s.active = r.dependencies

theorem sound_change (hs : s.Sound) (h : Change collate sha256 codec s e s') : s'.Sound := by
  have herase : ∀ {i : ℕ} {r : HarnessDependencyRootV1}, .ok r ∈ s.freezing.eraseIdx i → Tidy r.dependencies :=
    fun hr => hs.freezing _ (List.mem_of_mem_eraseIdx hr)
  cases h with
  | added _ _ hnone hm =>
    exact { hs with
      active := tidy_merged hm
      frozen := fun r hr => by
        rw [hnone] at hr
        cases hr }
  | staged _ _ hm => exact { hs with staged := tidy_merged hm }
  | replaced hnone hm =>
    exact { hs with
      active := tidy_merged hm
      frozen := fun r hr => by
        rw [hnone] at hr
        cases hr }
  | activated hm => exact ⟨tidy_merged hm, tidy_nil, hs.freezing, fun r hr => nomatch hr⟩
  | again => exact hs
  | begun =>
    refine { hs with freezing := fun r hr => ?_ }
    rcases List.mem_append.mp hr with hr | hr
    · exact hs.freezing r hr
    · exact hs.active.of_perm (freezeRoot_eq_ok hs.active (List.mem_singleton.mp hr).symm)
  | settled hi =>
    exact ⟨hs.freezing _ (List.mem_of_getElem? hi), hs.staged, fun r hr => herase hr,
      fun r hr => congrArg HarnessDependencyRootV1.dependencies (Option.some.inj hr)⟩
  | failed _ => exact { hs with freezing := fun r hr => herase hr }

/-- A freeze that writes back finds no dependency in the active set that it has not read. -/
def Undisturbed (s : System) (e : Event) : Prop :=
  ∀ i root, e = .settle i → s.freezing[i]? = some (.ok root) → ∀ d ∈ s.active, d ∈ root.dependencies

theorem next_eq (s : System) (e : Event) : s.next collate sha256 codec e = s ∨
    s.step collate sha256 codec e = .ok (s.next collate sha256 codec e) := by
  unfold System.next
  cases s.step collate sha256 codec e with
  | ok s' => exact .inr rfl
  | error m => exact .inl rfl

theorem run_append (es : List Event) (e : Event) : System.run collate sha256 codec (es ++ [e]) =
    (System.run collate sha256 codec es).next collate sha256 codec e := by
  rw [System.run, List.foldl_append]
  rfl

theorem sound_run (es : List Event) : (System.run collate sha256 codec es).Sound := by
  induction es using List.reverseRecOn with
  | nil => exact ⟨tidy_nil, tidy_nil, by simp [System.run], by simp [System.run]⟩
  | append_singleton es e ih =>
    rw [run_append]
    rcases @next_eq collate sha256 codec (System.run collate sha256 codec es) e with h | h
    · rwa [h]
    · exact sound_change ih (step_change h)

variable (collate sha256 codec)

variable {collate sha256 codec}

end Runs

/-! ### A dependency that is lost -/

/-- A dependency. -/
def refundPolicy : PackDependencyV1 where
  name := "acme/refund-policy"
  version := "1.2.0"
  sha256 := "0000000000000000000000000000000000000000000000000000000000000000"
  role := .knowledge

end Knolo.Harness
