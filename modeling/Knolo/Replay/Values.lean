import Knolo.Experience.Promotion

/-!
# Values of a state, and what their JSON means

A state is a JavaScript value, and may hold what JSON has not: `undefined`, and numbers that are not
finite. `stringify` gives the tree that the text of `JSON.stringify` is written of (two texts are the
same if and only if their trees are, `JsonText.text_injective`), and `json` what this text means,
where the order of members is forgotten. `canonicalize` is the one of `packages/agents/src/replay`.

* `filled_eq_of_stringify`: canonical texts tell what values mean with `undefined` read as `null`.
* `json_eq_iff`: beyond that, values mean the same exactly when the same members are `undefined`.
-/

namespace Knolo.Replay

open Script Library.StableSort

/-- A number; `none` is `NaN`. -/
abbrev Number := Option JsNumber

/-- A JavaScript value without functions. -/
inductive Value where
  | undefined
  | null
  | bool (b : Bool)
  | number (x : Number)
  | string (s : String)
  | array (items : List Value)
  /-- An object: the names of its properties, in the order they were created in, and their values. -/
  | object (keys : List String) (value : String → Value)

/-- An object. -/
structure Record where
  keys : List String
  value : String → Value

/-- The object as a value. -/
def Record.toValue (r : Record) : Value := .object r.keys r.value

/-- `r[key]`. -/
def Record.get (r : Record) (key : String) : Value := if key ∈ r.keys then r.value key else .undefined

/-- An object literal. -/
def Record.of (members : List (String × Value)) : Record where
  keys := members.map (·.1)
  value key := (members.lookup key).getD .undefined

/-- The other properties, after one was destructured. -/
def Record.without (r : Record) (key : String) : Record := { r with keys := r.keys.filter (· ≠ key) }

/-- Properties in the order of their indices. -/
def byIndex (a b : String) : Ordering := compare (arrayIndex a) (arrayIndex b)

/-- `Object.keys`: array indices in ascending order, then the others as they were created. -/
def enumerated (keys : List String) : List String :=
  sortBy byIndex (keys.filter fun k => (arrayIndex k).isSome) ++ keys.filter fun k => (arrayIndex k).isNone

@[simp] theorem mem_enumerated {k : String} {keys : List String} : k ∈ enumerated keys ↔ k ∈ keys := by
  simp only [enumerated, List.mem_append, mem_sortBy, List.mem_filter]
  cases arrayIndex k <;> simp

namespace Value

/-- Induction over values: an array over its items, an object over the values of all names. -/
theorem induct {P : Value → Prop} (undefined : P .undefined) (null : P .null) (bool : ∀ b, P (.bool b))
    (number : ∀ x, P (.number x)) (string : ∀ s, P (.string s))
    (array : ∀ vs, (∀ v ∈ vs, P v) → P (.array vs))
    (object : ∀ ks f, (∀ k, P (f k)) → P (.object ks f)) (v : Value) : P v :=
  @Value.rec P (fun vs => ∀ v ∈ vs, P v) undefined null bool number string array object (by simp)
    (fun _ _ h hs => List.forall_mem_cons.mpr ⟨h, hs⟩) v

/-! ### Texts -/

/-- A number as it is written. -/
def numberTree : Number → JsValue
  | some (.finite q) => .number (.finite q)
  | some .negZero => .number (.finite 0)
  | some (.infinite _) | none => .null

mutual

/-- `JSON.stringify`; `undefined` has no text. -/
def stringify : Value → Option JsValue
  | .undefined => none
  | .null => some .null
  | .bool b => some (.bool b)
  | .number x => some (numberTree x)
  | .string s => some (.string s)
  | .array vs => some (.array (stringifyItems vs))
  | .object ks f => some (.object ((enumerated ks).filterMap fun k => (stringify (f k)).map fun v => (k, v)))

/-- The items of an array, where `undefined` is written as `null`. -/
def stringifyItems : List Value → List JsValue
  | [] => []
  | v :: vs => (stringify v).getD .null :: stringifyItems vs

end

mutual

/-- `canonicalize`. -/
def canonicalize : Value → Value
  | .undefined => .null
  | .null => .null
  | .bool b => .bool b
  | .number x => .number x
  | .string s => .string s
  | .array vs => .array (canonicalizeItems vs)
  | .object ks f => .object (Experience.sorted (enumerated ks)) fun k => canonicalize (f k)

/-- `canonicalize`, of all items. -/
def canonicalizeItems : List Value → List Value
  | [] => []
  | v :: vs => canonicalize v :: canonicalizeItems vs

end

end Value

/-! ### Meanings -/

/-- What a JSON text means. -/
inductive JsonValue where
  | null
  | bool (b : Bool)
  | number (q : ℚ)
  | string (s : String)
  | array (items : List JsonValue)
  | object (members : String → Option JsonValue)

mutual

/-- What the text of a tree means. -/
def meaning : JsValue → JsonValue
  | .null => .null
  | .bool b => .bool b
  | .number (.finite q) => .number q
  | .number .negZero => .number 0
  | .number (.infinite _) => .null
  | .string s => .string s
  | .array vs => .array (meaningItems vs)
  | .object ms => .object (meaningMembers ms)

def meaningItems : List JsValue → List JsonValue
  | [] => []
  | v :: vs => meaning v :: meaningItems vs

def meaningMembers : List (String × JsValue) → String → Option JsonValue
  | [], _ => none
  | (k, v) :: ms, key => if key = k then some (meaning v) else meaningMembers ms key

end

namespace Value

/-- A value as a JSON value. -/
def json (v : Value) : Option JsonValue := v.stringify.map meaning

/-- A value as a JSON value, with `undefined` read as `null`: what its canonical text means. -/
def filled (v : Value) : JsonValue := (v.canonicalize.stringify.map meaning).getD .null

/-! ### Parts -/

theorem stringifyItems_eq_map (vs : List Value) : stringifyItems vs = vs.map fun v => v.stringify.getD .null := by
  induction vs with
  | nil => rfl
  | cons v vs ih => rw [stringifyItems, ih, List.map_cons]

theorem canonicalizeItems_eq_map (vs : List Value) : canonicalizeItems vs = vs.map canonicalize := by
  induction vs with
  | nil => rfl
  | cons v vs ih => rw [canonicalizeItems, ih, List.map_cons]

theorem meaningItems_eq_map (vs : List JsValue) : meaningItems vs = vs.map meaning := by
  induction vs with
  | nil => rfl
  | cons v vs ih => rw [meaningItems, ih, List.map_cons]

/-- A member is found by its name. -/
theorem meaningMembers_filterMap (g : String → Option JsValue) (ks : List String) (key : String) :
    meaningMembers (ks.filterMap fun k => (g k).map fun v => (k, v)) key =
      if key ∈ ks then (g key).map meaning else none := by
  induction ks with
  | nil => rfl
  | cons k ks ih =>
    by_cases hkey : key = k
    · subst hkey
      rw [if_pos (List.mem_cons_self ..)]
      cases hg : g key with
      | none =>
        rw [List.filterMap_cons_none (by rw [hg]; rfl), ih, hg]
        simp
      | some v =>
        rw [List.filterMap_cons_some (by rw [hg]; rfl), meaningMembers, if_pos rfl]
        rfl
    · have hmem : key ∈ k :: ks ↔ key ∈ ks := by simp [hkey]
      cases hg : g k with
      | none =>
        rw [List.filterMap_cons_none (by rw [hg]; rfl), ih]
        simp only [hmem]
      | some v =>
        rw [List.filterMap_cons_some (by rw [hg]; rfl), meaningMembers, if_neg hkey, ih]
        simp only [hmem]

theorem json_array (vs : List Value) : (Value.array vs).json = some (.array (vs.map fun v => v.json.getD .null)) := by
  simp only [json, stringify, stringifyItems_eq_map, Option.map_some, meaning, meaningItems_eq_map, List.map_map]
  congr 3
  funext v
  cases hv : v.stringify <;> simp [hv, meaning]

theorem json_object (ks : List String) (f : String → Value) :
    (Value.object ks f).json = some (.object fun k => if k ∈ ks then (f k).json else none) := by
  simp only [json, stringify, Option.map_some, meaning]
  congr 2
  funext key
  rw [meaningMembers_filterMap]
  simp only [mem_enumerated]

/-- A canonical value has a text. -/
theorem exists_stringify_canonicalize (v : Value) : ∃ t, v.canonicalize.stringify = some t := by
  cases v <;> exact ⟨_, rfl⟩

theorem json_canonicalize (v : Value) : v.canonicalize.json = some v.filled := by
  obtain ⟨t, ht⟩ := exists_stringify_canonicalize v
  rw [json, filled, ht]
  rfl

theorem filled_array (vs : List Value) : (Value.array vs).filled = .array (vs.map filled) := by
  apply Option.some.inj
  have hitem : (fun v : Value => v.json.getD .null) ∘ canonicalize = filled := by
    funext v
    rw [Function.comp_apply, json_canonicalize, Option.getD_some]
  rw [← json_canonicalize, canonicalize, json_array, canonicalizeItems_eq_map, List.map_map, hitem]

theorem filled_object (ks : List String) (f : String → Value) :
    (Value.object ks f).filled = .object fun k => if k ∈ ks then some (f k).filled else none := by
  apply Option.some.inj
  rw [← json_canonicalize, canonicalize, json_object]
  simp only [json_canonicalize, Experience.sorted, mem_sortBy, mem_enumerated]

/-- **Canonical texts tell what values mean, with `undefined` read as `null`.** -/
theorem filled_eq_of_stringify {v w : Value} (h : v.canonicalize.stringify = w.canonicalize.stringify) :
    v.filled = w.filled := by
  rw [filled, filled, h]

/-! ### Undefined members -/

/-- A step into a value. -/
inductive Step where
  | key (k : String)
  | index (i : ℕ)
  deriving DecidableEq

/-- At the end of the path is a value that JSON leaves out: `undefined`, except as an item of an array. -/
def Gap : List Step → Value → Prop
  | [], .undefined => True
  | .key k :: p, .object ks f => k ∈ ks ∧ Gap p (f k)
  | .index i :: p, .array vs => p ≠ [] ∧ ∃ v, vs[i]? = some v ∧ Gap p v
  | _, _ => False

/-- Neither an array nor an object. -/
def IsLeaf : Value → Prop
  | .array _ | .object .. => False
  | _ => True

/-- The same members are `undefined`. -/
def SameGaps (v w : Value) : Prop := ∀ p, Gap p v ↔ Gap p w

theorem gap_nil_iff {v : Value} : Gap [] v ↔ v = .undefined := by
  cases v <;> simp [Gap]

theorem not_gap_cons {v : Value} (h : v.IsLeaf) (s : Step) (p : List Step) : ¬ Gap (s :: p) v := by
  cases v <;> cases s <;> simp_all [Gap, IsLeaf]

theorem json_eq_none_iff {v : Value} : v.json = none ↔ v = .undefined := by
  cases v <;> simp [json, stringify]

/-- A value without parts means the same either way, unless it is `undefined`. -/
theorem json_of_isLeaf {v : Value} (h : v.IsLeaf) (hne : v ≠ .undefined) : v.json = some v.filled := by
  cases v with
  | undefined => exact absurd rfl hne
  | array vs => exact h.elim
  | object ks f => exact h.elim
  | _ => rfl

/-- Canonical texts tell values without parts from arrays and objects. -/
theorem isLeaf_of_filled {v w : Value} (h : v.filled = w.filled) (hv : v.IsLeaf) : w.IsLeaf := by
  have hleaf : ∀ {u : Value}, u.IsLeaf → (∀ vs, u.filled ≠ .array vs) ∧ ∀ ms, u.filled ≠ .object ms := by
    intro u hu
    cases u with
    | array vs => exact hu.elim
    | object ks f => exact hu.elim
    | number x => rcases x with _ | _ | _ | _ <;> exact ⟨nofun, nofun⟩
    | _ => exact ⟨nofun, nofun⟩
  obtain ⟨harray, hobject⟩ := hleaf hv
  cases w with
  | array ws => exact absurd (h.trans (filled_array ws)) (harray _)
  | object ks f => exact absurd (h.trans (filled_object ks f)) (hobject _)
  | _ => trivial

theorem json_eq_iff_of_isLeaf {v w : Value} (h : v.filled = w.filled) (hv : v.IsLeaf) :
    v.json = w.json ↔ SameGaps v w := by
  have hw := isLeaf_of_filled h hv
  have hgaps : SameGaps v w ↔ (v = .undefined ↔ w = .undefined) := by
    constructor
    · intro hsame
      rw [← gap_nil_iff, ← gap_nil_iff]
      exact hsame []
    · intro hiff p
      cases p with
      | nil => rwa [gap_nil_iff, gap_nil_iff]
      | cons s p => exact iff_of_false (not_gap_cons hv s p) (not_gap_cons hw s p)
  rw [hgaps]
  constructor
  · intro hjson
    rw [← json_eq_none_iff, ← json_eq_none_iff, hjson]
  · intro hiff
    by_cases hu : v = .undefined
    · rw [json_eq_none_iff.mpr hu, json_eq_none_iff.mpr (hiff.mp hu)]
    · rw [json_of_isLeaf hv hu, json_of_isLeaf hw fun hu' => hu (hiff.mpr hu'), h]

/-- As an item of an array, `undefined` is as good as `null`. -/
theorem item_eq_iff {v w : Value} (h : v.filled = w.filled) (hiff : v.json = w.json ↔ SameGaps v w) :
    v.json.getD .null = w.json.getD .null ↔ ∀ p ≠ [], (Gap p v ↔ Gap p w) := by
  by_cases hleaf : v.IsLeaf
  · have hitem : ∀ {u : Value}, u.IsLeaf → u.json.getD .null = u.filled := by
      intro u hu
      by_cases hne : u = .undefined
      · subst hne
        rfl
      · rw [json_of_isLeaf hu hne, Option.getD_some]
    have hw := isLeaf_of_filled h hleaf
    rw [hitem hleaf, hitem hw]
    refine iff_of_true h fun p hp => ?_
    obtain ⟨s, p, rfl⟩ := List.exists_cons_of_ne_nil hp
    exact iff_of_false (not_gap_cons hleaf s p) (not_gap_cons hw s p)
  · have hv : v ≠ .undefined := by
      rintro rfl
      exact hleaf trivial
    have hw : w ≠ .undefined := by
      rintro rfl
      exact hleaf (isLeaf_of_filled h.symm trivial)
    obtain ⟨a, ha⟩ := Option.ne_none_iff_exists'.mp (mt json_eq_none_iff.mp hv)
    obtain ⟨b, hb⟩ := Option.ne_none_iff_exists'.mp (mt json_eq_none_iff.mp hw)
    have hgetD : v.json.getD .null = w.json.getD .null ↔ v.json = w.json := by
      rw [ha, hb, Option.getD_some, Option.getD_some, Option.some_inj]
    rw [hgetD, hiff]
    constructor
    · exact fun hsame p _ => hsame p
    · intro hall p
      by_cases hp : p = []
      · subst hp
        rw [gap_nil_iff, gap_nil_iff]
        exact iff_of_false hv hw
      · exact hall p hp

theorem json_eq_iff_of_items {vs ws : List Value} (hlength : vs.length = ws.length)
    (h : ∀ (i : ℕ) v w, vs[i]? = some v → ws[i]? = some w →
      (v.json.getD .null = w.json.getD .null ↔ ∀ p ≠ [], (Gap p v ↔ Gap p w))) :
    (Value.array vs).json = (Value.array ws).json ↔ SameGaps (.array vs) (.array ws) := by
  have hsome : ∀ {i : ℕ} {v : Value}, vs[i]? = some v → ∃ w, ws[i]? = some w := by
    intro i v hv
    obtain ⟨hi, -⟩ := List.getElem?_eq_some_iff.mp hv
    exact ⟨_, List.getElem?_eq_getElem (hlength ▸ hi)⟩
  have hsome' : ∀ {i : ℕ} {w : Value}, ws[i]? = some w → ∃ v, vs[i]? = some v := by
    intro i w hw
    obtain ⟨hi, -⟩ := List.getElem?_eq_some_iff.mp hw
    exact ⟨_, List.getElem?_eq_getElem (hlength.symm ▸ hi)⟩
  rw [json_array, json_array, Option.some_inj, JsonValue.array.injEq]
  constructor
  · intro hmap p
    cases p with
    | nil => simp [Gap]
    | cons s p =>
      cases s with
      | key k => simp [Gap]
      | index i =>
        have hitem : ∀ v w, vs[i]? = some v → ws[i]? = some w → p ≠ [] → (Gap p v ↔ Gap p w) := by
          intro v w hv hw hp
          refine (h i v w hv hw).mp ?_ p hp
          have hi := congrArg (·[i]?) hmap
          simpa only [List.getElem?_map, hv, hw, Option.map_some, Option.some_inj] using hi
        constructor
        · rintro ⟨hp, v, hv, hgap⟩
          obtain ⟨w, hw⟩ := hsome hv
          exact ⟨hp, w, hw, (hitem v w hv hw hp).mp hgap⟩
        · rintro ⟨hp, w, hw, hgap⟩
          obtain ⟨v, hv⟩ := hsome' hw
          exact ⟨hp, v, hv, (hitem v w hv hw hp).mpr hgap⟩
  · intro hsame
    refine List.ext_getElem? fun i => ?_
    rw [List.getElem?_map, List.getElem?_map]
    cases hv : vs[i]? with
    | none =>
      cases hw : ws[i]? with
      | none => rfl
      | some w =>
        obtain ⟨v, hv'⟩ := hsome' hw
        rw [hv] at hv'
        cases hv'
    | some v =>
      obtain ⟨w, hw⟩ := hsome hv
      rw [hw, Option.map_some, Option.map_some, Option.some_inj]
      refine (h i v w hv hw).mpr fun p hp => ?_
      have hi := hsame (.index i :: p)
      simpa [Gap, hv, hw, hp] using hi

theorem json_eq_iff_of_members {ks ls : List String} {f g : String → Value} (hkeys : ∀ k, k ∈ ks ↔ k ∈ ls)
    (h : ∀ k ∈ ks, ((f k).json = (g k).json ↔ SameGaps (f k) (g k))) :
    (Value.object ks f).json = (Value.object ls g).json ↔ SameGaps (.object ks f) (.object ls g) := by
  rw [json_object, json_object, Option.some_inj, JsonValue.object.injEq, funext_iff]
  constructor
  · intro hall p
    cases p with
    | nil => simp [Gap]
    | cons s p =>
      cases s with
      | index i => simp [Gap]
      | key k =>
        refine (and_congr_left' (hkeys k)).trans (and_congr_right fun hl => ?_)
        have hk := (hkeys k).mpr hl
        have hmember := hall k
        rw [if_pos hk, if_pos hl] at hmember
        exact (h k hk).mp hmember p
  · intro hsame k
    by_cases hk : k ∈ ks
    · have hl := (hkeys k).mp hk
      rw [if_pos hk, if_pos hl]
      refine (h k hk).mpr fun p => ?_
      have hpath := hsame (.key k :: p)
      simpa [Gap, hk, hl] using hpath
    · rw [if_neg hk, if_neg (mt (hkeys k).mpr hk)]

/-- **Where values mean the same with `undefined` read as `null`, they mean the same exactly if the same
members are `undefined`.** -/
theorem json_eq_iff (v : Value) : ∀ {w : Value}, v.filled = w.filled → (v.json = w.json ↔ SameGaps v w) := by
  induction v using induct with
  | array vs ih =>
    intro w h
    cases w with
    | array ws =>
      rw [filled_array, filled_array, JsonValue.array.injEq] at h
      refine json_eq_iff_of_items (by simpa using congrArg List.length h) fun i v w hv hw => ?_
      have hi := congrArg (·[i]?) h
      simp only [List.getElem?_map, hv, hw, Option.map_some, Option.some_inj] at hi
      exact item_eq_iff hi (ih v (List.mem_of_getElem? hv) hi)
    | object ls g =>
      rw [filled_array, filled_object] at h
      cases h
    | _ => exact (isLeaf_of_filled h.symm trivial).elim
  | object ks f ih =>
    intro w h
    cases w with
    | object ls g =>
      rw [filled_object, filled_object, JsonValue.object.injEq, funext_iff] at h
      have hkeys : ∀ k, k ∈ ks ↔ k ∈ ls := by
        intro k
        have hk := h k
        by_cases hks : k ∈ ks <;> by_cases hls : k ∈ ls <;> simp_all
      refine json_eq_iff_of_members hkeys fun k hk => ih k ?_
      have hmember := h k
      rwa [if_pos hk, if_pos ((hkeys k).mp hk), Option.some_inj] at hmember
    | array ws =>
      rw [filled_array, filled_object] at h
      cases h
    | _ => exact (isLeaf_of_filled h.symm trivial).elim
  | _ => exact fun h => json_eq_iff_of_isLeaf h trivial

end Value

end Knolo.Replay
