import Knolo.Harness.Dependency
import Knolo.Library.Sha256

/-!
# The two dependency roots

Both sides write the dependencies they have sorted as the same items (`depItem`), one for each
dependency, and the code of `Library.Cbor` is faithful. So the roots of a list that both
accept agree, whatever the hash, exactly when the sorted lists do: when no dependency has an
empty state root and the two orders agree on what has to move behind what
(`dependencyRoots_agree_iff`).
-/

namespace Knolo.Harness

open Core Script Library Library.Cbor Library.StableSort Library.Fallible

/-! ### The order -/

/-- A consistent order of texts orders dependencies consistently. -/
instance dependencyOrder_trans {cmp : String → String → Ordering} [Std.TransCmp cmp] :
    Std.TransCmp (dependencyOrder cmp) := by
  have on : ∀ f : PackDependencyV1 → String, Std.TransCmp fun a b => cmp (f a) (f b) := fun f =>
    { eq_swap := fun {a b} => @Std.OrientedCmp.eq_swap _ cmp _ (f a) (f b)
      isLE_trans := fun {a b c} => @Std.TransCmp.isLE_trans _ cmp _ (f a) (f b) (f c) }
  have := on (·.name)
  have := on (·.role.asStr)
  have := on (·.sha256)
  have := on (·.version)
  exact inferInstanceAs (Std.TransCmp (α := PackDependencyV1) (compareLex (fun a b => cmp a.name b.name)
    (compareLex (fun a b => cmp a.role.asStr b.role.asStr)
      (compareLex (fun a b => cmp a.sha256 b.sha256) fun a b => cmp a.version b.version))))

/-! ### Items -/

/-- The item of an object whose values are texts. -/
def textItem (ms : List (String × String)) : Item :=
  .map ((sortBy byKey ms).map fun m => (utf8 m.1, .text (utf8 m.2)))

theorem keyed_texts (ms : List (String × String)) :
    entryItems (sortBy byKey (ms.map fun m => (m.1, some (Item.text (utf8 m.2))))) =
      some ((sortBy byKey ms).map fun m => (utf8 m.1, .text (utf8 m.2))) := by
  have h := map_sortBy_byKey (fun s : String => some (Item.text (utf8 s))) ms
  rw [← h]
  have := entryItems_some ((sortBy byKey ms).map fun m => (m.1, Item.text (utf8 m.2)))
  rw [List.map_map, List.map_map] at this
  exact this

theorem item_texts (bits : ℕ) (ms : List (String × String)) :
    item bits (.object (ms.map fun m => (m.1, .string m.2))) = some (textItem ms) := by
  rw [item, memberItems_eq_map, List.map_map]
  exact congrArg (Option.map Item.map) (keyed_texts ms)

theorem scriptItem_texts {ms : List (String × String)} (hkeys : (ms.map Prod.fst).Nodup)
    (hproto : ∀ m ∈ ms, m.1 ≠ protoKey) :
    scriptItem (.object (ms.map fun m => (m.1, .string m.2))) = some (textItem ms) := by
  have hall : ∀ p ∈ ms.map (fun m => (m.1, JsValue.string m.2)), (scriptItem p.2).isSome := by
    intro p hp
    obtain ⟨m, -, rfl⟩ := List.mem_map.mp hp
    rfl
  have hfilter : (ms.map fun m => (m.1, JsValue.string m.2)).filter (fun p => p.1 ≠ protoKey) =
      ms.map fun m => (m.1, JsValue.string m.2) := by
    refine List.filter_eq_self.mpr fun p hp => ?_
    obtain ⟨m, hm, rfl⟩ := List.mem_map.mp hp
    simpa using hproto m hm
  rw [scriptItem_object (by rw [List.map_map]; exact hkeys), if_pos hall, hfilter, List.map_map]
  exact congrArg (Option.map Item.map) (keyed_texts ms)

/-- The item of a dependency. -/
def depItem (d : PackDependencyV1) : Item := textItem (payloadMembers d)

theorem payloadMembers_keys (d : PackDependencyV1) : ((payloadMembers d).map Prod.fst).Nodup ∧
    ∀ m ∈ payloadMembers d, m.1 ≠ protoKey := by
  unfold payloadMembers protoKey
  cases d.stateRoot <;> simp

theorem asStr_inj {r s : PackDependencyRoleV1} (h : r.asStr = s.asStr) : r = s := by
  cases r <;> cases s <;> first | rfl | simp [PackDependencyRoleV1.asStr] at h

theorem mem_payloadMembers {d : PackDependencyV1} {k v : String} : (k, v) ∈ payloadMembers d ↔
    (k = "name" ∧ v = d.name) ∨ (k = "role" ∧ v = d.role.asStr) ∨ (k = "sha256" ∧ v = d.sha256) ∨
      (k = "stateRoot" ∧ d.stateRoot = some v) ∨ (k = "version" ∧ v = d.version) := by
  unfold payloadMembers
  cases d.stateRoot <;> simp [eq_comm]

/-- Different dependencies have different items. -/
theorem depItem_inj {d e : PackDependencyV1} (h : depItem d = depItem e) : d = e := by
  have hinj : Function.Injective fun m : String × String => (utf8 m.1, Item.text (utf8 m.2)) := by
    rintro ⟨k, v⟩ ⟨l, w⟩ h
    obtain ⟨hk, hv⟩ := Prod.mk.inj h
    rw [Prod.mk.injEq]
    exact ⟨utf8_inj hk, utf8_inj (Item.text.inj hv)⟩
  have hsort := List.map_injective_iff.mpr hinj (Item.map.inj h)
  have hmem : ∀ k v, (k, v) ∈ payloadMembers d ↔ (k, v) ∈ payloadMembers e := fun k v => by
    rw [← @mem_sortBy _ byKey, hsort, mem_sortBy]
  simp only [mem_payloadMembers] at hmem
  obtain ⟨name, version, sha256, stateRoot, role⟩ := d
  have hname := (hmem "name" name).mp (by simp)
  have hrole := (hmem "role" role.asStr).mp (by simp)
  have hsha := (hmem "sha256" sha256).mp (by simp)
  have hversion := (hmem "version" version).mp (by simp)
  have hroot : ∀ r, stateRoot = some r ↔ e.stateRoot = some r := fun r => by
    simpa using hmem "stateRoot" r
  have hroot := Option.ext hroot
  simp at hname hrole hsha hversion
  rw [PackDependencyV1.mk.injEq]
  exact ⟨hname, hversion, hsha, hroot, asStr_inj hrole⟩

/-- The item the core writes. -/
theorem item_dependencyPayload (bits : ℕ) (ds : List PackDependencyV1) :
    item bits (dependencyPayload ds) = some (.array ((sortPackDependencies ds).map depItem)) := by
  have harray : ∀ es : List PackDependencyV1, arrayItems bits
      (es.map fun d => Json.object ((payloadMembers d).map fun m => (m.1, .string m.2))) =
        some (es.map depItem) := by
    intro es
    induction es with
    | nil => rfl
    | cons e es ih =>
      rw [List.map_cons, arrayItems, item_texts, ih]
      rfl
  rw [dependencyPayload, item, harray]
  rfl

/-- The item the script writes of dependencies without empty state roots. -/
theorem scriptItem_payload (es : List PackDependencyV1) :
    scriptItem (.array (es.map fun d => .object ((payloadMembers d).map fun m => (m.1, .string m.2)))) =
      some (.array (es.map depItem)) := by
  have hmap : (es.map fun d => JsValue.object ((payloadMembers d).map fun m => (m.1, .string m.2))).mapM
      scriptItem = some (es.map depItem) := by
    induction es with
    | nil => rfl
    | cons e es ih =>
      obtain ⟨hkeys, hproto⟩ := payloadMembers_keys e
      rw [List.map_cons, List.mapM_cons, scriptItem_texts hkeys hproto, ih]
      rfl
  rw [scriptItem_array, hmap]
  rfl

/-! ### What each side hashes -/

/-- What the core returns. -/
theorem computeHarnessDependencyRoot_eq_ok {bits : ℕ} {sha256 : List UInt8 → String}
    {ds : List PackDependencyV1} {r : HarnessDependencyRootV1}
    (h : computeHarnessDependencyRoot bits sha256 ds = .ok r) :
    ∃ cbor, (Item.array ((sortPackDependencies ds).map depItem)).encode = some cbor ∧
      r = dependencyRoot sha256 (sortPackDependencies ds) cbor := by
  obtain ⟨_, -, h⟩ := bind_eq_ok.mp h
  obtain ⟨cbor, hcbor, h⟩ := bind_eq_ok.mp h
  cases h
  obtain ⟨i, hi, hib⟩ := canonicalCbor_eq_ok.mp hcbor
  rw [item_dependencyPayload, sortPackDependencies, sortPackDependencies, sortBy_sortBy] at hi
  cases hi
  exact ⟨cbor, hib, rfl⟩

namespace TypeScript

theorem normalize_eq_ok {d e : PackDependencyV1} (h : normalizePackDependency d = .ok e) :
    e = dropEmptyRoot d ∧ normalizePackDependency e = .ok e := by
  have hdrop : dropEmptyRoot (dropEmptyRoot d) = dropEmptyRoot d := by
    unfold dropEmptyRoot
    cases d.stateRoot with
    | none => rfl
    | some r => cases r.isEmpty <;> simp
  have hd := h
  obtain ⟨_, h1, h⟩ := bind_eq_ok.mp h
  obtain ⟨_, h2, h⟩ := bind_eq_ok.mp h
  obtain ⟨_, h3, h⟩ := bind_eq_ok.mp h
  cases h
  refine ⟨rfl, ?_⟩
  unfold normalizePackDependency at hd ⊢
  rw [hdrop]
  exact hd

theorem mapM_normalize {ds es : List PackDependencyV1} (h : ds.mapM normalizePackDependency = .ok es) :
    es = ds.map dropEmptyRoot ∧ ∀ e ∈ es, normalizePackDependency e = .ok e := by
  induction ds generalizing es with
  | nil =>
    cases h
    simp
  | cons d ds ih =>
    rw [List.mapM_cons] at h
    obtain ⟨e, he, h⟩ := bind_eq_ok.mp h
    obtain ⟨es, hes, h⟩ := bind_eq_ok.mp h
    cases h
    obtain ⟨rfl, he'⟩ := normalize_eq_ok he
    obtain ⟨rfl, hes'⟩ := ih hes
    exact ⟨rfl, List.forall_mem_cons.mpr ⟨he', hes'⟩⟩

theorem mapM_normalize_self {es : List PackDependencyV1} (h : ∀ e ∈ es, normalizePackDependency e = .ok e) :
    es.mapM normalizePackDependency = .ok es := by
  induction es with
  | nil => rfl
  | cons e es ih =>
    obtain ⟨he, hes⟩ := List.forall_mem_cons.mp h
    rw [List.mapM_cons, he, ih hes]
    rfl

/-- What the script sorts is normalized, and sorting it again changes nothing. -/
theorem sortPackDependencies_eq_ok {collate : String → String → Ordering} [Std.TransCmp collate]
    {ds sorted : List PackDependencyV1} (h : sortPackDependencies collate ds = .ok sorted) :
    sorted = sortBy (dependencyOrder collate) (ds.map dropEmptyRoot) ∧
      (∀ e ∈ sorted, normalizePackDependency e = .ok e) ∧
      sortPackDependencies collate sorted = .ok sorted := by
  obtain ⟨es, hes, h⟩ := bind_eq_ok.mp h
  cases h
  obtain ⟨rfl, hself⟩ := mapM_normalize hes
  have hself' : ∀ e ∈ sortBy (dependencyOrder collate) (ds.map dropEmptyRoot),
      normalizePackDependency e = .ok e := fun e he => hself e (mem_sortBy.mp he)
  refine ⟨rfl, hself', ?_⟩
  rw [sortPackDependencies, mapM_normalize_self hself']
  exact congrArg Except.ok sortBy_sortBy

/-- What the script returns. -/
theorem computeHarnessDependencyRoot_eq_ok {collate : String → String → Ordering} [Std.TransCmp collate]
    {sha256 : List UInt8 → String} {ds : List PackDependencyV1} {r : HarnessDependencyRootV1}
    (h : computeHarnessDependencyRoot collate sha256 ds = .ok r) :
    ∃ cbor, (Item.array ((sortBy (dependencyOrder collate) (ds.map dropEmptyRoot)).map depItem)).encode =
        some cbor ∧
      r = dependencyRoot sha256 (sortBy (dependencyOrder collate) (ds.map dropEmptyRoot)) cbor := by
  obtain ⟨sorted, hsorted, h⟩ := bind_eq_ok.mp h
  obtain ⟨payload, hpayload, h⟩ := bind_eq_ok.mp h
  obtain ⟨cbor, hcbor, h⟩ := bind_eq_ok.mp h
  cases h
  obtain ⟨rfl, hself, hagain⟩ := sortPackDependencies_eq_ok hsorted
  rw [dependencyPayload, hagain] at hpayload
  cases hpayload
  have hdrop : ∀ e ∈ sortBy (dependencyOrder collate) (ds.map dropEmptyRoot), dropEmptyRoot e = e :=
    fun e he => (normalize_eq_ok (hself e he)).1.symm
  have hitem := scriptItem_payload (sortBy (dependencyOrder collate) (ds.map dropEmptyRoot))
  rw [← List.map_congr_left (f := fun d => JsValue.object
    ((payloadMembers (dropEmptyRoot d)).map fun m => (m.1, .string m.2))) fun e he => by rw [hdrop e he]] at hitem
  have hcbor' := toOption_eq_some.mpr hcbor
  rw [scriptCbor_toOption, hitem] at hcbor'
  exact ⟨cbor, hcbor', rfl⟩

end TypeScript

/-! ### Agreement -/

theorem root_inj {sha256 : List UInt8 → String} {ds es : List PackDependencyV1} {b c : List UInt8}
    (h : (dependencyRoot sha256 ds b).root = (dependencyRoot sha256 es c).root) :
    sha256 (frame b) = sha256 (frame c) :=
  (String.append_right_inj _).mp h

/-- A hash that tells one message from all others. -/
def marks (message : List UInt8) (other : List UInt8) : String := if other = message then "same" else "other"

theorem eq_of_marks {message other : List UInt8} (h : marks message other = marks message message) :
    other = message := by
  unfold marks at h
  by_contra hne
  rw [if_neg hne, if_pos rfl] at h
  exact absurd h (by decide)

theorem dropEmptyRoot_of_ne {d : PackDependencyV1} (h : d.stateRoot ≠ some "") :
    TypeScript.dropEmptyRoot d = d := by
  obtain ⟨name, version, sha256, stateRoot, role⟩ := d
  cases stateRoot with
  | none => rfl
  | some r =>
    have hr : r ≠ "" := fun hr => h (by rw [hr])
    simp [TypeScript.dropEmptyRoot, hr]

/-- **When the roots agree**: for a list that both sides accept, whatever the hash, exactly when
no dependency has an empty state root and, of every two, the collation and the order of bytes
agree on whether the first has to move behind the second. -/
theorem dependencyRoots_agree_iff {collate : String → String → Ordering} [Std.TransCmp collate] {bits : ℕ}
    {ds : List PackDependencyV1} {core script : (List UInt8 → String) → HarnessDependencyRootV1}
    (hcore : ∀ sha256, computeHarnessDependencyRoot bits sha256 ds = .ok (core sha256))
    (hscript : ∀ sha256, TypeScript.computeHarnessDependencyRoot collate sha256 ds = .ok (script sha256)) :
    (∀ sha256, (script sha256).root = (core sha256).root) ↔
      (∀ d ∈ ds, d.stateRoot ≠ some "") ∧ ds.Pairwise fun d e =>
        (dependencyOrder collate d e = .gt ↔ dependencyOrder compareUtf8 d e = .gt) := by
  constructor
  · intro h
    obtain ⟨b, hb, -⟩ := computeHarnessDependencyRoot_eq_ok (hcore (marks []))
    -- a hash that marks what the core hashes
    obtain ⟨b', hb', hr⟩ := computeHarnessDependencyRoot_eq_ok (hcore (marks (frame b)))
    obtain ⟨c, hc, hs⟩ := TypeScript.computeHarnessDependencyRoot_eq_ok (hscript (marks (frame b)))
    obtain rfl := Option.some.inj (hb.symm.trans hb')
    have hroot := h (marks (frame b))
    rw [hr, hs] at hroot
    have hframe := eq_of_marks (root_inj hroot)
    obtain rfl : c = b := by simpa [frame] using hframe
    have hitems := Item.array.inj (Item.encode_prefix hc hb (List.prefix_refl _))
    have hsort := List.map_injective_iff.mpr (fun _ _ => depItem_inj) hitems
    have hp : (ds.map TypeScript.dropEmptyRoot).Perm ds :=
      sortBy_perm.symm.trans (by rw [hsort]; exact sortBy_perm)
    have hempty : ∀ d ∈ ds, d.stateRoot ≠ some "" := fun d hd hroot => by
      obtain ⟨e, -, rfl⟩ := List.mem_map.mp (hp.mem_iff.mpr hd)
      simp [TypeScript.dropEmptyRoot, Option.filter_eq_some_iff] at hroot
    rw [List.map_congr_left fun d hd => dropEmptyRoot_of_ne (hempty d hd), List.map_id'] at hsort
    exact ⟨hempty, sortBy_eq_iff.mp hsort⟩
  · rintro ⟨hempty, horder⟩ sha256
    obtain ⟨b, hb, hr⟩ := computeHarnessDependencyRoot_eq_ok (hcore sha256)
    obtain ⟨c, hc, hs⟩ := TypeScript.computeHarnessDependencyRoot_eq_ok (hscript sha256)
    rw [List.map_congr_left fun d hd => dropEmptyRoot_of_ne (hempty d hd), List.map_id'] at hc hs
    rw [sortBy_congr horder] at hc hs
    obtain rfl := Option.some.inj (hb.symm.trans hc)
    rw [hr, hs]
    rfl

/-! ### The order of the list -/

/-- The core looks at a list only once it is sorted. -/
theorem core_root_congr {bits : ℕ} {sha256 : List UInt8 → String} {ds ds' : List PackDependencyV1}
    (h : sortPackDependencies ds' = sortPackDependencies ds) :
    computeHarnessDependencyRoot bits sha256 ds' = computeHarnessDependencyRoot bits sha256 ds := by
  unfold computeHarnessDependencyRoot
  rw [h]

/-- Two lists with one root and one list of dependencies are sorted the same way. -/
theorem core_sorted_eq {bits : ℕ} {sha256 : List UInt8 → String} {ds ds' : List PackDependencyV1}
    {r : HarnessDependencyRootV1} (h : computeHarnessDependencyRoot bits sha256 ds = .ok r)
    (h' : computeHarnessDependencyRoot bits sha256 ds' = computeHarnessDependencyRoot bits sha256 ds) :
    sortPackDependencies ds' = sortPackDependencies ds := by
  rw [h] at h'
  obtain ⟨_, -, rfl⟩ := computeHarnessDependencyRoot_eq_ok h
  obtain ⟨_, -, heq⟩ := computeHarnessDependencyRoot_eq_ok h'
  exact (congrArg HarnessDependencyRootV1.dependencies heq).symm

namespace TypeScript

variable {collate : String → String → Ordering} {sha256 : List UInt8 → String} {ds ds' : List PackDependencyV1}

/-- Of valid dependencies the script sorts what is left of them without empty state roots. -/
theorem sortPackDependencies_of_valid (h : ∀ d ∈ ds, normalizePackDependency d = .ok (dropEmptyRoot d)) :
    sortPackDependencies collate ds = .ok (sortBy (dependencyOrder collate) (ds.map dropEmptyRoot)) := by
  have hmap : ds.mapM normalizePackDependency = .ok (ds.map dropEmptyRoot) := by
    induction ds with
    | nil => rfl
    | cons d ds ih =>
      obtain ⟨hd, hds⟩ := List.forall_mem_cons.mp h
      rw [List.mapM_cons, hd, ih hds]
      rfl
  rw [sortPackDependencies, hmap]
  rfl

/-- A list that has a root is valid. -/
theorem valid_of_root {r : HarnessDependencyRootV1}
    (h : computeHarnessDependencyRoot collate sha256 ds = .ok r) :
    ∀ d ∈ ds, normalizePackDependency d = .ok (dropEmptyRoot d) := by
  obtain ⟨sorted, hsorted, -⟩ := bind_eq_ok.mp h
  obtain ⟨es, hes, -⟩ := bind_eq_ok.mp hsorted
  clear h hsorted
  induction ds generalizing es with
  | nil => simp
  | cons d ds ih =>
    rw [List.mapM_cons] at hes
    obtain ⟨e, he, hes⟩ := bind_eq_ok.mp hes
    obtain ⟨es', hes', -⟩ := bind_eq_ok.mp hes
    refine List.forall_mem_cons.mpr ⟨?_, ih es' hes'⟩
    rw [he, (normalize_eq_ok he).1]

/-- The script looks at a list only once it is sorted. -/
theorem root_congr (h : sortPackDependencies collate ds' = sortPackDependencies collate ds) :
    computeHarnessDependencyRoot collate sha256 ds' = computeHarnessDependencyRoot collate sha256 ds := by
  unfold computeHarnessDependencyRoot
  rw [h]

/-- Two lists with one root and one list of dependencies are sorted the same way. -/
theorem sorted_eq [Std.TransCmp collate] {r : HarnessDependencyRootV1}
    (h : computeHarnessDependencyRoot collate sha256 ds = .ok r)
    (h' : computeHarnessDependencyRoot collate sha256 ds' = computeHarnessDependencyRoot collate sha256 ds) :
    sortBy (dependencyOrder collate) (ds'.map dropEmptyRoot) =
      sortBy (dependencyOrder collate) (ds.map dropEmptyRoot) := by
  rw [h] at h'
  obtain ⟨_, -, rfl⟩ := computeHarnessDependencyRoot_eq_ok h
  obtain ⟨_, -, heq⟩ := computeHarnessDependencyRoot_eq_ok h'
  exact (congrArg HarnessDependencyRootV1.dependencies heq).symm

end TypeScript

/-- **When the order of a list does not matter**: every permutation of a list that both sides accept has the
same root and the same sorted list, on both sides, exactly when no two dependencies that differ tie in the
comparison; on the side of the script, without their empty state roots. -/
theorem dependencyRoot_perm_iff {collate : String → String → Ordering} [Std.TransCmp collate] {bits : ℕ}
    {sha256 : List UInt8 → String} {ds : List PackDependencyV1} {core script : HarnessDependencyRootV1}
    (hcore : computeHarnessDependencyRoot bits sha256 ds = .ok core)
    (hscript : TypeScript.computeHarnessDependencyRoot collate sha256 ds = .ok script) :
    (∀ ds', ds.Perm ds' → computeHarnessDependencyRoot bits sha256 ds' = .ok core ∧
        TypeScript.computeHarnessDependencyRoot collate sha256 ds' = .ok script) ↔
      (∀ d ∈ ds, ∀ e ∈ ds, dependencyOrder compareUtf8 d e = .eq → d = e) ∧
      ∀ d ∈ ds, ∀ e ∈ ds, dependencyOrder collate d e = .eq →
        TypeScript.dropEmptyRoot d = TypeScript.dropEmptyRoot e := by
  have hvalid := TypeScript.valid_of_root hscript
  constructor
  · intro h
    constructor
    · refine sortBy_perm_iff (f := id).mp fun ds' hp => ?_
      rw [List.map_id, List.map_id]
      exact core_sorted_eq hcore ((h ds' hp).1.trans hcore.symm)
    · have hties : ∀ d ∈ ds, ∀ e ∈ ds, dependencyOrder collate (TypeScript.dropEmptyRoot d)
          (TypeScript.dropEmptyRoot e) = .eq → TypeScript.dropEmptyRoot d = TypeScript.dropEmptyRoot e :=
        sortBy_perm_iff.mp fun ds' hp => TypeScript.sorted_eq hscript ((h ds' hp).2.trans hscript.symm)
      exact hties
  · rintro ⟨hties, hcollate⟩ ds' hp
    have hsorted : sortPackDependencies ds' = sortPackDependencies ds := by
      have := sortBy_perm_iff (f := id).mpr hties ds' hp
      rwa [List.map_id, List.map_id] at this
    have hsorted' : sortBy (dependencyOrder collate) (ds'.map TypeScript.dropEmptyRoot) =
        sortBy (dependencyOrder collate) (ds.map TypeScript.dropEmptyRoot) :=
      sortBy_perm_iff (f := TypeScript.dropEmptyRoot).mpr hcollate ds' hp
    rw [← hcore, ← hscript]
    refine ⟨core_root_congr hsorted, TypeScript.root_congr ?_⟩
    rw [TypeScript.sortPackDependencies_of_valid hvalid,
      TypeScript.sortPackDependencies_of_valid fun d hd => hvalid d (hp.mem_iff.mpr hd), hsorted']

/-! ### Samples -/

/-- The letters of a text without their case. -/
def letters (s : String) : List ℕ := s.toList.map fun c => c.toLower.toNat

/-- The cases of the letters of a text. -/
def letterCases (s : String) : List ℕ := s.toList.map fun c => c.isUpper.toNat

/-- The root collation on texts of ASCII letters: by the letters without their case, then
lowercase before uppercase. -/
def letterCollation (s t : String) : Ordering :=
  (compare (letters s) (letters t)).then (compare (letterCases s) (letterCases t))

instance : Std.TransCmp letterCollation := by
  have on : ∀ f : String → List ℕ, Std.TransCmp fun s t => compare (f s) (f t) := fun f =>
    { eq_swap := fun {a b} => @Std.OrientedCmp.eq_swap _ (fun a b : List ℕ => compare a b) _ (f a) (f b)
      isLE_trans := fun {a b c} =>
        @Std.TransCmp.isLE_trans _ (fun a b : List ℕ => compare a b) _ (f a) (f b) (f c) }
  have := on letters
  have := on letterCases
  exact inferInstanceAs (Std.TransCmp (α := String) (compareLex
    (fun s t => compare (letters s) (letters t)) fun s t => compare (letterCases s) (letterCases t)))

/-- A dependency on a knowledge pack. -/
def sampleDependency (name : String) (stateRoot : Option String) : PackDependencyV1 where
  name := name
  version := "1.0.0"
  sha256 := "0000000000000000000000000000000000000000000000000000000000000000"
  stateRoot := stateRoot
  role := .knowledge

/-- Two dependencies that both sides put in the same order. -/
def sampleDependencies : List PackDependencyV1 := [sampleDependency "tools" none, sampleDependency "base" none]

theorem core_accepts {bits : ℕ} {ds : List PackDependencyV1}
    (h : (computeHarnessDependencyRoot bits (fun _ => "") ds).toOption.isSome) :
    ∃ core : (List UInt8 → String) → HarnessDependencyRootV1,
      ∀ sha256, computeHarnessDependencyRoot bits sha256 ds = .ok (core sha256) := by
  obtain ⟨r, hr⟩ := Option.isSome_iff_exists.mp h
  obtain ⟨_, hvalid, hr⟩ := bind_eq_ok.mp (toOption_eq_some.mp hr)
  obtain ⟨cbor, hcbor, -⟩ := bind_eq_ok.mp hr
  refine ⟨fun sha256 => dependencyRoot sha256 (sortPackDependencies ds) cbor, fun sha256 => ?_⟩
  rw [computeHarnessDependencyRoot, hvalid, ok_bind, hcbor]
  rfl

theorem script_accepts {collate : String → String → Ordering} {ds : List PackDependencyV1}
    (h : (TypeScript.computeHarnessDependencyRoot collate (fun _ => "") ds).toOption.isSome) :
    ∃ script : (List UInt8 → String) → HarnessDependencyRootV1,
      ∀ sha256, TypeScript.computeHarnessDependencyRoot collate sha256 ds = .ok (script sha256) := by
  obtain ⟨r, hr⟩ := Option.isSome_iff_exists.mp h
  obtain ⟨sorted, hsorted, hr⟩ := bind_eq_ok.mp (toOption_eq_some.mp hr)
  obtain ⟨payload, hpayload, hr⟩ := bind_eq_ok.mp hr
  obtain ⟨cbor, hcbor, -⟩ := bind_eq_ok.mp hr
  refine ⟨fun sha256 => dependencyRoot sha256 sorted cbor, fun sha256 => ?_⟩
  rw [TypeScript.computeHarnessDependencyRoot, hsorted, ok_bind, hpayload, ok_bind, hcbor]
  rfl

theorem core_accepts_sample : ∃ core : (List UInt8 → String) → HarnessDependencyRootV1,
    ∀ sha256, computeHarnessDependencyRoot 64 sha256 sampleDependencies = .ok (core sha256) :=
  core_accepts (by decide +kernel)

theorem script_accepts_sample : ∃ script : (List UInt8 → String) → HarnessDependencyRootV1,
    ∀ sha256, TypeScript.computeHarnessDependencyRoot letterCollation sha256 sampleDependencies = .ok (script sha256) :=
  script_accepts (by decide +kernel)

/-- The roots agree at a list in lowercase letters. -/
theorem dependencyRoots_agree_sample :
    ∃ r s, computeHarnessDependencyRoot 64 Sha256.hex sampleDependencies = .ok r ∧
      TypeScript.computeHarnessDependencyRoot letterCollation Sha256.hex sampleDependencies = .ok s ∧
      s.root = r.root := by
  obtain ⟨core, hcore⟩ := core_accepts_sample
  obtain ⟨script, hscript⟩ := script_accepts_sample
  have horder : (∀ d ∈ sampleDependencies, d.stateRoot ≠ some "") ∧ sampleDependencies.Pairwise fun d e =>
      (dependencyOrder letterCollation d e = .gt ↔ dependencyOrder compareUtf8 d e = .gt) := by
    decide +kernel
  exact ⟨core Sha256.hex, script Sha256.hex, hcore _, hscript _,
    (dependencyRoots_agree_iff hcore hscript).mpr horder Sha256.hex⟩

/-- The roots do not agree where a state root is empty; and where the collation puts a
lowercase letter before an uppercase one the two sides hash the list in different orders. -/
theorem dependencyRoots_differ :
    ((TypeScript.computeHarnessDependencyRoot letterCollation Sha256.hex
        [sampleDependency "a" (some "")]).map (·.root) =
      .ok "knolo.harness.dependencies.v1:76ba5b3074eb42da9eb038ab6072b7b9eb3ec6e22f9c402f9b7353bca00e1ad5" ∧
    (computeHarnessDependencyRoot 64 Sha256.hex [sampleDependency "a" (some "")]).map (·.root) =
      .ok "knolo.harness.dependencies.v1:d630cc063aa7f4cda989e582bd2993c1be825a73b75822e528a40f025b954a0e") ∧
    (TypeScript.sortPackDependencies letterCollation
        [sampleDependency "a" none, sampleDependency "B" none]).map (·.map (·.name)) = .ok ["a", "B"] ∧
    (sortPackDependencies [sampleDependency "a" none, sampleDependency "B" none]).map (·.name) = ["B", "a"] := by
  decide +kernel

/-- The root of the sample does not depend on its order. -/
theorem dependencyRoot_perm_sample : ∃ core script,
    computeHarnessDependencyRoot 64 Sha256.hex sampleDependencies.reverse = .ok core ∧
      TypeScript.computeHarnessDependencyRoot letterCollation Sha256.hex sampleDependencies.reverse = .ok script := by
  obtain ⟨core, hcore⟩ := core_accepts_sample
  obtain ⟨script, hscript⟩ := script_accepts_sample
  have hties : (∀ d ∈ sampleDependencies, ∀ e ∈ sampleDependencies, dependencyOrder compareUtf8 d e = .eq → d = e) ∧
      ∀ d ∈ sampleDependencies, ∀ e ∈ sampleDependencies, dependencyOrder letterCollation d e = .eq →
        TypeScript.dropEmptyRoot d = TypeScript.dropEmptyRoot e := by decide +kernel
  exact ⟨core Sha256.hex, script Sha256.hex,
    (dependencyRoot_perm_iff (hcore _) (hscript _)).mpr hties _ (List.reverse_perm _).symm⟩

/-- One pack, pinned at a state and pinned without one. -/
def tiedDependencies : List PackDependencyV1 := [sampleDependency "a" none, sampleDependency "a" (some "r")]

/-- Dependencies that differ in their state roots alone stay in the order they come in. -/
theorem dependencyRoot_tied : ¬ ∀ ds ds' : List PackDependencyV1, (∀ d ∈ ds, d.validate = .ok ()) → ds.Perm ds' →
    computeHarnessDependencyRoot 64 Sha256.hex ds' = computeHarnessDependencyRoot 64 Sha256.hex ds ∧
      TypeScript.computeHarnessDependencyRoot letterCollation Sha256.hex ds' =
        TypeScript.computeHarnessDependencyRoot letterCollation Sha256.hex ds := by
  intro h
  obtain ⟨core, hcore⟩ := @core_accepts 64 tiedDependencies (by decide +kernel)
  have hsorted := core_sorted_eq (hcore Sha256.hex)
    (h tiedDependencies tiedDependencies.reverse (by decide +kernel) (List.reverse_perm _).symm).1
  revert hsorted
  decide +kernel

end Knolo.Harness
