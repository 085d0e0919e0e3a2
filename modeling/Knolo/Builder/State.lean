import Knolo.Core.Patch
import Knolo.Library.Traverse
import Mathlib.Algebra.GroupWithZero.Nat

/-!
# The state boundary in the script

`validateState`, `readPath` and `valueType` of `packages/agents/src/builder/index.ts`: the script's
counterpart of `StateSchemaV1.validate`. The core follows a path as a JSON pointer, through members of
objects and items of arrays. The script splits the path and reads one JavaScript property after the
other, which also finds what is not part of the document: the length of a string or an array, a
character of a string, and whatever the prototypes of the language give (`Intrinsics`).

`validateState_agrees_iff` says for which paths the two agree on every schema and every state.
-/

namespace Knolo.Builder

open Core Library Library.Fallible Library.Traverse

/-! ### Reading -/

/-- The built-in values of the language, as far as property reads come to them: functions, prototypes,
numbers and characters. A read may throw, as that of `caller` of a function does. -/
structure Intrinsics where
  Value : Type
  /-- The JSON type of a value; a function has none. -/
  type : Value → Option ValueType
  /-- A property of a value, inherited ones included. -/
  get : Value → String → Except String (Option Value)
  /-- What the prototype of the values of a type gives. -/
  prototype : ValueType → String → Option Value
  /-- The length of an array or a string. -/
  length : Value
  /-- A string of one code unit. -/
  character : Value

/-- The length of a string, in UTF-16 code units. -/
def utf16Length (s : String) : ℕ := (s.toList.map fun c => if c.toNat < 0x10000 then 1 else 2).sum

/-- What a read has come to: a part of the state, or a built-in value. -/
inductive Reading (V : Type) where
  | document (v : Json)
  | outside (x : V)

/-- The part of a document that is its member or item `key`. -/
def ownMember (v : Json) (key : String) : Option Json :=
  match v with
  | .object ms => ms.lookup key
  | .array items => (Json.parseIndex key.toList).bind fun i => items[i]?
  | _ => none

namespace Intrinsics

variable (I : Intrinsics)

/-- What a document is read to have besides its members and items. -/
def inherited (v : Json) (key : String) : Option I.Value :=
  match v with
  | .null => none
  | .array _ => if key = "length" then some I.length else I.prototype .array key
  | .string s =>
    if key = "length" then some I.length
    else if ((Json.parseIndex key.toList).filter (· < utf16Length s)).isSome then some I.character
    else I.prototype .string key
  | _ => I.prototype v.valueType key

/-- `current[key]`, where `current` is not undefined; `null` has no properties. -/
def property (current : Reading I.Value) (key : String) : Except String (Option (Reading I.Value)) :=
  match current with
  | .document v =>
    match ownMember v key with
    | some w => .ok (some (.document w))
    | none => .ok ((I.inherited v key).map .outside)
  | .outside x => if I.type x = some .null then .ok none else (I.get x key).map (·.map .outside)

/-- One step of the reduction over the keys of a path; `none` is undefined. -/
def advance (current : Option (Reading I.Value)) (key : String) : Except String (Option (Reading I.Value)) :=
  match current with
  | none => .ok none
  | some r => I.property r key

/-- The keys of a path: what is between the slashes, without the first code unit. A character outside
the basic plane leaves half of it, and nothing has a property of such a name. -/
def keys (path : String) : Option (List String) :=
  match path.toList with
  | [] => some [""]
  | c :: cs => if c.toNat < 0x10000 then some ((cs.splitOn '/').map String.ofList) else none

/-- `readPath`. -/
def readPath (value : Json) (path : String) : Except String (Option (Reading I.Value)) :=
  match keys path with
  | none => .ok none
  | some ks => ks.foldlM I.advance (some (.document value))

/-- `valueType`. -/
def valueType (r : Reading I.Value) : Except String ValueType :=
  match r with
  | .document v => .ok v.valueType
  | .outside x =>
    match I.type x with
    | some t => .ok t
    | none => .error "state must contain JSON values"

/-- A required path must not be undefined. -/
def checkRequired (value : Json) (path : String) : Except String Unit := do
  let item ← I.readPath value path
  ensure item.isSome ("missing required state path " ++ path)

/-- A path that is not undefined must have its type. -/
def checkType (value : Json) (entry : String × ValueType) : Except String Unit := do
  match ← I.readPath value entry.1 with
  | none => .ok ()
  | some item => do
    let type ← I.valueType item
    ensure (type = entry.2) ("wrong state type at " ++ entry.1)

/-- `validateState`. -/
def validateState (schema : StateSchemaV1) (value : Json) : Except String Unit := do
  schema.required.toList.forM (I.checkRequired value)
  schema.paths.toList.forM (I.checkType value)

end Intrinsics

/-! ### Plain paths -/

/-- A token without escapes. -/
def Unescaped (t : List Char) : Prop := Json.unescapeTilde (Json.unescapeSlash t) = t

/-- Wherever a document has no `key`, reading on from there comes to nothing. -/
def Intrinsics.Silent (I : Intrinsics) (key : String) (rest : List String) : Prop :=
  ∀ v x, ownMember v key = none → I.inherited v key = some x →
    rest.foldlM I.advance (some (.outside x)) = .ok none

/-- A path that means the same on both sides: it begins with a slash, has no escapes and nowhere leaves
the document; or it begins outside the basic plane, and is found on neither side. -/
def Intrinsics.Plain (I : Intrinsics) (path : String) : Prop :=
  match path.toList with
  | [] => False
  | c :: cs =>
    if c = '/' then (∀ t ∈ cs.splitOn '/', Unescaped t) ∧
      ∀ before key rest, (cs.splitOn '/').map String.ofList = before ++ key :: rest → I.Silent key rest
    else 0x10000 ≤ c.toNat

namespace Intrinsics

variable {I : Intrinsics}

@[simp] theorem foldlM_advance_none (ks : List String) : ks.foldlM I.advance none = .ok none := by
  induction ks with
  | nil => rfl
  | cons k ks ih => exact ih

/-- A reference token is followed as the script reads a member or an item. -/
theorem walk_cons (t : List Char) (ts : List (List Char)) (v : Json) :
    Json.walk (t :: ts) v = (ownMember v (String.ofList t)).bind (Json.walk ts) := by
  cases v <;> simp [Json.walk, ownMember]

/-- **Keys that nowhere leave the document are followed as reference tokens.** -/
theorem foldlM_eq_walk {ts : List (List Char)} {v : Json}
    (h : ∀ before key rest, ts.map String.ofList = before ++ key :: rest → I.Silent key rest) :
    (ts.map String.ofList).foldlM I.advance (some (.document v)) = .ok ((Json.walk ts v).map .document) := by
  induction ts generalizing v with
  | nil => rfl
  | cons t ts ih =>
    have hrest := fun before key rest (heq : ts.map String.ofList = before ++ key :: rest) =>
      h (String.ofList t :: before) key rest (by rw [List.map_cons, heq, List.cons_append])
    rw [walk_cons, List.map_cons, List.foldlM_cons]
    cases hown : ownMember v (String.ofList t) with
    | some w =>
      have hstep : I.advance (some (.document v)) (String.ofList t) = .ok (some (.document w)) := by
        simp only [advance, property, hown]
      rw [hstep, ok_bind]
      exact ih hrest
    | none =>
      have hstep : I.advance (some (.document v)) (String.ofList t) =
          .ok ((I.inherited v (String.ofList t)).map .outside) := by
        simp only [advance, property, hown]
      rw [hstep, ok_bind]
      cases hx : I.inherited v (String.ofList t) with
      | none => exact foldlM_advance_none _
      | some x => exact h [] _ _ rfl v x hown hx

/-- A text that does not begin with a slash points at nothing. -/
theorem pointer_of_ne {path : String} {c : Char} {cs : List Char} (h : path.toList = c :: cs) (hc : c ≠ '/')
    (v : Json) : v.pointer path = none := by
  unfold Json.pointer
  split
  · rename_i hnil
    rw [hnil] at h
    cases h
  · rename_i hslash
    rw [hslash] at h
    cases h
    exact absurd rfl hc
  · rfl

/-- **A plain path reads the same on both sides.** -/
theorem Plain.readPath {path : String} (h : I.Plain path) (v : Json) :
    I.readPath v path = .ok ((v.pointer path).map .document) := by
  unfold Plain at h
  unfold Intrinsics.readPath keys
  cases hpath : path.toList with
  | nil => simp [hpath] at h
  | cons c cs =>
    simp only [hpath] at h ⊢
    by_cases hc : c = '/'
    · subst hc
      rw [if_pos rfl] at h
      have htokens : Json.tokens path = cs.splitOn '/' := by
        rw [Json.tokens, hpath, pointerTokens_slash]
        exact (List.map_congr_left fun t ht => h.1 t ht).trans (List.map_id _)
      rw [pointer_slash hpath, htokens]
      exact foldlM_eq_walk h.2
    · rw [if_neg hc] at h
      rw [if_neg (by omega), pointer_of_ne hpath hc]
      rfl

/-! ### Agreement -/

theorem validateState_eq_ok {schema : StateSchemaV1} {v : Json} : I.validateState schema v = .ok () ↔
    (∀ p ∈ schema.required, I.checkRequired v p = .ok ()) ∧
      ∀ p t, schema.paths[p]? = some t → I.checkType v (p, t) = .ok () := by
  simp only [validateState, check_bind_eq_ok, forM_eq_ok, Std.ExtTreeSet.mem_toList, Prod.forall,
    Std.ExtTreeMap.mem_toList_iff_getElem?_eq_some]

theorem validate_eq_ok {schema : StateSchemaV1} {v : Json} (hversion : schema.version = 1) :
    schema.validate v = .ok () ↔ (∀ p ∈ schema.required, Core.checkRequired v p = .ok ()) ∧
      ∀ p t, schema.paths[p]? = some t → Core.checkType v (p, t) = .ok () := by
  simp only [StateSchemaV1.validate, check_bind_eq_ok, ensure_eq_ok, hversion, forM_eq_ok, true_and,
    Std.ExtTreeSet.mem_toList, Prod.forall, Std.ExtTreeMap.mem_toList_iff_getElem?_eq_some]

theorem Plain.required_iff {path : String} (h : I.Plain path) (v : Json) :
    I.checkRequired v path = .ok () ↔ Core.checkRequired v path = .ok () := by
  rw [checkRequired, h.readPath, ok_bind, Core.checkRequired, ensure_eq_ok, ensure_eq_ok, Option.isSome_map]

theorem Plain.type_iff {path : String} (h : I.Plain path) (v : Json) (t : ValueType) :
    I.checkType v (path, t) = .ok () ↔ Core.checkType v (path, t) = .ok () := by
  rw [checkType, h.readPath, ok_bind, Core.checkType]
  cases v.pointer path with
  | none => simp
  | some w => simp only [Option.map_some, valueType, ok_bind, ensure_eq_ok]

/-- The two validations agree on a state. -/
def Agree (I : Intrinsics) (schema : StateSchemaV1) (v : Json) : Prop :=
  I.validateState schema v = .ok () ↔ schema.validate v = .ok ()

/-- Schemas of plain paths are read the same way. -/
theorem agree_of_plain {schema : StateSchemaV1} (hversion : schema.version = 1)
    (hrequired : ∀ p ∈ schema.required, I.Plain p) (hpaths : ∀ p ∈ schema.paths, I.Plain p) (v : Json) :
    I.Agree schema v := by
  unfold Agree
  rw [validateState_eq_ok, validate_eq_ok hversion]
  refine and_congr (forall₂_congr fun p hp => (hrequired p hp).required_iff v) ?_
  refine forall₂_congr fun p t => imp_congr_right fun ht => ?_
  have hmem : p ∈ schema.paths := by
    rw [Std.ExtTreeMap.mem_iff_isSome_getElem?, ht]
    rfl
  exact (hpaths p hmem).type_iff v t

/-! ### Schemas of one path -/

/-- The schema that asks for a path. -/
def requiring (path : String) : StateSchemaV1 :=
  { version := 1, id := ⟨"s", Eq.refl true⟩, paths := ∅, required := {path} }

/-- The schema that asks for the type of a path. -/
def typing (path : String) : StateSchemaV1 :=
  { version := 1, id := ⟨"s", Eq.refl true⟩, paths := {(path, .null)}, required := ∅ }

theorem mem_requiring {path p : String} : p ∈ (requiring path).required ↔ path = p := by
  simp [requiring]

theorem requiring_paths (path p : String) : (requiring path).paths[p]? = none := by simp [requiring]

theorem mem_typing {path p : String} : p ∈ (typing path).paths ↔ path = p := by
  simp [typing]

theorem agree_requiring {path : String} {v : Json} (h : I.Agree (requiring path) v) :
    (∃ r, I.readPath v path = .ok (some r)) ↔ (v.pointer path).isSome := by
  unfold Agree at h
  rw [validateState_eq_ok, validate_eq_ok rfl] at h
  simp only [mem_requiring, forall_eq', requiring_paths, reduceCtorEq, false_imp_iff, implies_true, and_true,
    Core.checkRequired, ensure_eq_ok] at h
  rw [← h, checkRequired]
  constructor
  · rintro ⟨r, hr⟩
    rw [hr]
    rfl
  · intro hok
    obtain ⟨item, hread, hsome⟩ := bind_eq_ok.mp hok
    obtain ⟨r, rfl⟩ := Option.isSome_iff_exists.mp (ensure_eq_ok.mp hsome)
    exact ⟨r, hread⟩

theorem agree_typing {path : String} {v : Json} (h : I.Agree (typing path) v) (hnone : v.pointer path = none) :
    ∃ item, I.readPath v path = .ok item := by
  unfold Agree at h
  rw [validateState_eq_ok, validate_eq_ok rfl] at h
  have hcore : (∀ p ∈ (typing path).required, Core.checkRequired v p = .ok ()) ∧
      ∀ p t, (typing path).paths[p]? = some t → Core.checkType v (p, t) = .ok () := by
    refine ⟨by simp [typing], fun p t hp => ?_⟩
    have hpath : p = path := by
      by_contra hne
      simp [typing, Ne.symm hne] at hp
    rw [Core.checkType, hpath, hnone]
  obtain ⟨item, hread, -⟩ := bind_eq_ok.mp ((h.mpr hcore).2 path .null (by simp [typing]))
  exact ⟨item, hread⟩

/-! ### States that leave the document -/

/-- A value below the keys. -/
def nest (ks : List String) (v : Json) : Json := ks.foldr (fun k w => .object [(k, w)]) v

theorem ownMember_nest (k : String) (ks : List String) (v : Json) :
    ownMember (nest (k :: ks) v) k = some (nest ks v) := by
  simp [nest, ownMember]

theorem foldlM_nest (ks rest : List String) (v : Json) :
    (ks ++ rest).foldlM I.advance (some (.document (nest ks v))) = rest.foldlM I.advance (some (.document v)) := by
  induction ks with
  | nil => rfl
  | cons k ks ih =>
    have hstep : I.advance (some (.document (nest (k :: ks) v))) k = .ok (some (.document (nest ks v))) := by
      simp only [advance, property, ownMember_nest]
    rw [List.cons_append, List.foldlM_cons, hstep, ok_bind]
    exact ih

theorem walk_nest (ts us : List (List Char)) (v : Json) :
    Json.walk (ts ++ us) (nest (ts.map String.ofList) v) = Json.walk us v := by
  induction ts with
  | nil => rfl
  | cons t ts ih =>
    rw [List.cons_append, walk_cons, List.map_cons, ownMember_nest]
    exact ih

/-- Below keys that are escapes, a pointer finds nothing. -/
theorem walk_nest_escaped {ts : List (List Char)} (h : ∃ t ∈ ts, ¬ Unescaped t) (v : Json) :
    Json.walk (ts.map fun t => Json.unescapeTilde (Json.unescapeSlash t)) (nest (ts.map String.ofList) v) = none := by
  induction ts with
  | nil =>
    obtain ⟨t, ht, -⟩ := h
    cases ht
  | cons t ts ih =>
    rw [List.map_cons, walk_cons, List.map_cons]
    by_cases ht : Unescaped t
    · rw [ht, ownMember_nest]
      obtain ⟨u, hu, hescaped⟩ := h
      rcases List.mem_cons.mp hu with rfl | hu
      · exact absurd ht hescaped
      · exact ih ⟨u, hu, hescaped⟩
    · have hne : (String.ofList (Json.unescapeTilde (Json.unescapeSlash t)) == String.ofList t) = false :=
        beq_eq_false_iff_ne.mpr fun heq => ht (String.ofList_injective heq)
      have hown : ownMember (nest (String.ofList t :: ts.map String.ofList) v)
          (String.ofList (Json.unescapeTilde (Json.unescapeSlash t))) = none := by
        simp only [nest, ownMember, List.foldr_cons, List.lookup_cons, hne, List.lookup_nil]
      rw [hown]
      rfl

/-- **Where the two agree on the schemas of a path, the path is plain.** -/
theorem plain_of_agree {path : String} (hrequiring : ∀ v, I.Agree (requiring path) v)
    (htyping : ∀ v, I.Agree (typing path) v) : I.Plain path := by
  have hreq := fun v => agree_requiring (hrequiring v)
  unfold Plain
  cases hpath : path.toList with
  | nil =>
    -- the empty pointer is the document itself, while the script reads its member of the empty name
    have hread : I.readPath .null path = .ok none := by
      simp [readPath, keys, hpath, advance, property, ownMember, inherited]
    have hsome : (Json.null.pointer path).isSome := by
      simp [Json.pointer, hpath]
    obtain ⟨r, hr⟩ := (hreq .null).mpr hsome
    rw [hread] at hr
    cases hr
  | cons c cs =>
    dsimp only
    have hkeys : c.toNat < 0x10000 → ∀ v, I.readPath v path =
        ((cs.splitOn '/').map String.ofList).foldlM I.advance (some (.document v)) := by
      intro hc v
      simp [readPath, keys, hpath, hc]
    split_ifs with hc
    · subst hc
      have hread := hkeys (by decide)
      have hunescaped : ∀ t ∈ cs.splitOn '/', Unescaped t := by
        by_contra hescaped
        push Not at hescaped
        have hpointer : (nest ((cs.splitOn '/').map String.ofList) .null).pointer path = none := by
          rw [pointer_slash hpath, Json.tokens, hpath, pointerTokens_slash]
          exact walk_nest_escaped hescaped _
        have hfound := foldlM_nest (I := I) ((cs.splitOn '/').map String.ofList) [] .null
        rw [List.append_nil, ← hread] at hfound
        have := (hreq _).mp ⟨_, hfound⟩
        rw [hpointer] at this
        cases this
      refine ⟨hunescaped, fun before key rest hsplit v x hown hx => ?_⟩
      obtain ⟨bs, ks, hcs, rfl, hks⟩ := List.map_eq_append_iff.mp hsplit
      obtain ⟨k, rs, rfl, rfl, rfl⟩ := List.map_eq_cons_iff.mp hks
      have hpointer : (nest (bs.map String.ofList) v).pointer path = none := by
        have htokens : Json.tokens path = bs ++ k :: rs := by
          rw [Json.tokens, hpath, pointerTokens_slash, ← hcs]
          exact (List.map_congr_left fun t ht => hunescaped t ht).trans (List.map_id _)
        rw [pointer_slash hpath, htokens, walk_nest, walk_cons, hown]
        rfl
      have hoff : I.readPath (nest (bs.map String.ofList) v) path =
          (rs.map String.ofList).foldlM I.advance (some (.outside x)) := by
        have hstep : I.advance (some (.document v)) (String.ofList k) = .ok (some (.outside x)) := by
          simp only [advance, property, hown, hx, Option.map_some]
        rw [hread, hcs, List.map_append, foldlM_nest, List.map_cons, List.foldlM_cons, hstep, ok_bind]
      obtain ⟨item, hitem⟩ := agree_typing (htyping _) hpointer
      rw [← hoff, hitem]
      cases item with
      | none => rfl
      | some r =>
        have := (hreq _).mp ⟨r, hitem⟩
        rw [hpointer] at this
        cases this
    · by_contra hbasic
      have hfound := foldlM_nest (I := I) ((cs.splitOn '/').map String.ofList) [] .null
      rw [List.append_nil, ← hkeys (by omega)] at hfound
      have := (hreq _).mp ⟨_, hfound⟩
      rw [pointer_of_ne hpath hc] at this
      cases this

end Intrinsics

/-- **The two validations agree on every schema over some paths, and every state, if and only if these
paths are plain.** -/
theorem validateState_agrees_iff (I : Intrinsics) (paths : Set String) :
    (∀ (schema : StateSchemaV1) (v : Json), schema.version = 1 → (∀ p ∈ schema.required, p ∈ paths) →
      (∀ p ∈ schema.paths, p ∈ paths) →
      (I.validateState schema v = .ok () ↔ schema.validate v = .ok ())) ↔ ∀ p ∈ paths, I.Plain p := by
  constructor
  · intro h p hp
    refine Intrinsics.plain_of_agree (fun v => h _ v rfl ?_ ?_) fun v => h _ v rfl ?_ ?_
    · intro q hq
      rwa [← Intrinsics.mem_requiring.mp hq]
    · simp [Intrinsics.requiring]
    · simp [Intrinsics.typing]
    · intro q hq
      rwa [← Intrinsics.mem_typing.mp hq]
  · intro h schema v hversion hrequired hpaths
    exact Intrinsics.agree_of_plain hversion (fun p hp => h p (hrequired p hp)) (fun p hp => h p (hpaths p hp)) v

/-- A language with numbers and characters and nothing on the prototypes. -/
def bareIntrinsics : Intrinsics where
  Value := ValueType
  type := some
  get _ _ := .ok none
  prototype _ _ := none
  length := .number
  character := .string

/-- The length of a string is a path to the script, and not to the core. -/
theorem length_accepted : ¬ ∀ (I : Intrinsics) (schema : StateSchemaV1) (v : Json), schema.version = 1 →
    (I.validateState schema v = .ok () ↔ schema.validate v = .ok ()) := by
  intro h
  have hiff := h bareIntrinsics (Intrinsics.requiring "/name/length") (.object [("name", .string "ada")]) rfl
  revert hiff
  decide +kernel

end Knolo.Builder
