import Knolo.Script.Values

/-!
# JSON documents and what they are read as

A document is the syntax tree of a JSON text: numbers as they are written, the members of an
object as they stand in the text, with keys that may repeat. `Document.parse` is `JSON.parse`,
`Document.serde` is `serde_json::from_str`. Both keep the last of several members with one key:
up to order, an object has the members that are not replaced later (`kept`).
-/

namespace Knolo.Script

open Core Library.StableSort

/-- The syntax tree of a JSON text. -/
inductive Document where
  | null
  | bool (b : Bool)
  | number (literal : Literal)
  | string (s : String)
  | array (items : List Document)
  | object (members : List (String × Document))

/-- A JavaScript value that `JSON.parse` returns; the properties of an object stand in the
order they were created in. -/
inductive JsValue where
  | null
  | bool (b : Bool)
  | number (x : JsNumber)
  | string (s : String)
  | array (items : List JsValue)
  | object (properties : List (String × JsValue))

namespace JsValue

mutual

/-- Equality of values is decidable. -/
def decEq : (a b : JsValue) → Decidable (a = b)
  | .null, .null => .isTrue rfl
  | .bool a, .bool b =>
    if h : a = b then .isTrue (by rw [h]) else .isFalse fun e => h (JsValue.bool.inj e)
  | .number a, .number b =>
    if h : a = b then .isTrue (by rw [h]) else .isFalse fun e => h (JsValue.number.inj e)
  | .string a, .string b =>
    if h : a = b then .isTrue (by rw [h]) else .isFalse fun e => h (JsValue.string.inj e)
  | .array a, .array b =>
    match decEqItems a b with
    | .isTrue h => .isTrue (by rw [h])
    | .isFalse h => .isFalse fun e => h (JsValue.array.inj e)
  | .object a, .object b =>
    match decEqProperties a b with
    | .isTrue h => .isTrue (by rw [h])
    | .isFalse h => .isFalse fun e => h (JsValue.object.inj e)
  | .null, .bool _ | .null, .number _ | .null, .string _ | .null, .array _ | .null, .object _
  | .bool _, .null | .bool _, .number _ | .bool _, .string _ | .bool _, .array _ | .bool _, .object _
  | .number _, .null | .number _, .bool _ | .number _, .string _ | .number _, .array _
  | .number _, .object _ | .string _, .null | .string _, .bool _ | .string _, .number _
  | .string _, .array _ | .string _, .object _ | .array _, .null | .array _, .bool _
  | .array _, .number _ | .array _, .string _ | .array _, .object _ | .object _, .null
  | .object _, .bool _ | .object _, .number _ | .object _, .string _ | .object _, .array _ =>
    .isFalse (by simp)

/-- Equality of arrays is decidable. -/
def decEqItems : (a b : List JsValue) → Decidable (a = b)
  | [], [] => .isTrue rfl
  | [], _ :: _ | _ :: _, [] => .isFalse (by simp)
  | x :: xs, y :: ys =>
    match decEq x y, decEqItems xs ys with
    | .isTrue h, .isTrue h' => .isTrue (by rw [h, h'])
    | .isFalse h, _ => .isFalse fun e => h (List.cons.inj e).1
    | _, .isFalse h => .isFalse fun e => h (List.cons.inj e).2

/-- Equality of properties is decidable. -/
def decEqProperties : (a b : List (String × JsValue)) → Decidable (a = b)
  | [], [] => .isTrue rfl
  | [], _ :: _ | _ :: _, [] => .isFalse (by simp)
  | (k, x) :: xs, (l, y) :: ys =>
    if hk : k = l then
      match decEq x y, decEqProperties xs ys with
      | .isTrue h, .isTrue h' => .isTrue (by rw [hk, h, h'])
      | .isFalse h, _ => .isFalse fun e => h (Prod.mk.inj (List.cons.inj e).1).2
      | _, .isFalse h => .isFalse fun e => h (List.cons.inj e).2
    else .isFalse fun e => hk (Prod.mk.inj (List.cons.inj e).1).1

end

instance : DecidableEq JsValue := decEq

end JsValue

section Members

variable {α β : Type}

/-- Set a property of an object: in place if it has it, else as its last. -/
def setProperty (key : String) (value : α) : List (String × α) → List (String × α)
  | [] => [(key, value)]
  | (k, v) :: ps => if k = key then (key, value) :: ps else (k, v) :: setProperty key value ps

/-- An array index, as a property key. -/
def arrayIndex (key : String) : Option ℕ := (Json.parseIndex key.toList).filter (· < 4294967295)

/-- Properties in the order of their indices. -/
def byIndex (p q : String × α) : Ordering := compare (arrayIndex p.1) (arrayIndex q.1)

/-- The own properties of an object as they are enumerated: array indices in ascending order,
then the others as they were created. -/
def ownProperties (ps : List (String × α)) : List (String × α) :=
  sortBy byIndex (ps.filter fun p => (arrayIndex p.1).isSome) ++
    ps.filter fun p => (arrayIndex p.1).isNone

theorem ownProperties_map (f : α → β) (ps : List (String × α)) :
    (ownProperties ps).map (fun p => (p.1, f p.2)) = ownProperties (ps.map fun p => (p.1, f p.2)) := by
  have hsort : ∀ qs : List (String × α), (sortBy byIndex qs).map (fun p => (p.1, f p.2)) =
      sortBy byIndex (qs.map fun p => (p.1, f p.2)) := fun _ => map_sortBy _ fun _ _ _ _ => rfl
  rw [ownProperties, ownProperties, List.map_append, List.filter_map, List.filter_map, hsort]
  rfl

theorem ownProperties_perm (ps : List (String × α)) : (ownProperties ps).Perm ps := by
  have h := List.filter_append_perm (fun p : String × α => (arrayIndex p.1).isSome) ps
  refine .trans (.append sortBy_perm ?_) h
  simp

/-- The members that no later member replaces. -/
def kept : List (String × α) → List (String × α)
  | [] => []
  | m :: ms => if m.1 ∈ ms.map Prod.fst then kept ms else m :: kept ms

theorem mem_of_mem_kept {m : String × α} : ∀ {ms : List (String × α)}, m ∈ kept ms → m ∈ ms
  | [], h => h
  | n :: ms, h => by
    unfold kept at h
    split_ifs at h
    · exact .tail _ (mem_of_mem_kept h)
    · rcases List.mem_cons.mp h with rfl | h
      · exact .head _
      · exact .tail _ (mem_of_mem_kept h)

theorem kept_map (f : α → β) (ms : List (String × α)) :
    kept (ms.map fun m => (m.1, f m.2)) = (kept ms).map fun m => (m.1, f m.2) := by
  induction ms with
  | nil => rfl
  | cons m ms ih =>
    have hkeys : (ms.map fun m => (m.1, f m.2)).map Prod.fst = ms.map Prod.fst := by
      rw [List.map_map]
      rfl
    rw [List.map_cons, kept, kept, hkeys, ih]
    split_ifs <;> rfl

theorem nodup_kept (ms : List (String × α)) : ((kept ms).map Prod.fst).Nodup := by
  induction ms with
  | nil => exact .nil
  | cons m ms ih =>
    unfold kept
    split_ifs with hm
    · exact ih
    · refine List.nodup_cons.mpr ⟨fun h => hm ?_, ih⟩
      obtain ⟨n, hn, hkey⟩ := List.mem_map.mp h
      exact List.mem_map.mpr ⟨n, mem_of_mem_kept hn, hkey⟩

theorem kept_eq_self {ms : List (String × α)} (h : (ms.map Prod.fst).Nodup) : kept ms = ms := by
  induction ms with
  | nil => rfl
  | cons m ms ih =>
    obtain ⟨hm, hms⟩ := List.nodup_cons.mp h
    rw [kept, if_neg hm, ih hms]

/-- Inserting members one after the other keeps the last of those with one key. -/
theorem foldl_perm {insert : String → α → List (String × α) → List (String × α)}
    {P : List (String × α) → Prop}
    (hinsert : ∀ k v acc, P acc → P (insert k v acc) ∧
      (insert k v acc).Perm ((k, v) :: acc.filter fun m => m.1 ≠ k)) :
    ∀ ms acc : List (String × α), P acc → (ms.foldl (fun acc m => insert m.1 m.2 acc) acc).Perm
      ((acc.filter fun m => m.1 ∉ ms.map Prod.fst) ++ kept ms) := by
  intro ms
  induction ms with
  | nil => intro acc _; simp [kept]
  | cons m ms ih =>
    intro acc hacc
    obtain ⟨hP, hp⟩ := hinsert m.1 m.2 acc hacc
    refine (ih _ hP).trans (((hp.filter _).append_right _).trans ?_)
    have hfilter : (acc.filter fun n => n.1 ≠ m.1).filter (fun n => n.1 ∉ ms.map Prod.fst) =
        acc.filter fun n => n.1 ∉ (m :: ms).map Prod.fst := by
      rw [List.filter_filter]
      refine List.filter_congr fun n _ => ?_
      rw [List.map_cons]
      by_cases h1 : n.1 = m.1 <;> by_cases h2 : n.1 ∈ ms.map Prod.fst <;>
        simp only [List.mem_cons, h1, h2, not_true, not_false_eq_true, decide_true, decide_false,
          or_true, true_or, or_false, Bool.and_false, Bool.and_true, ne_eq]
    rw [List.filter_cons, hfilter, kept]
    by_cases hm : m.1 ∈ ms.map Prod.fst
    · rw [if_neg (by simpa using hm), if_pos hm]
    · rw [if_pos (by simpa using hm), if_neg hm, List.cons_append]
      exact List.perm_middle.symm

theorem setProperty_perm (key : String) (value : α) {ps : List (String × α)}
    (h : (ps.map Prod.fst).Nodup) : ((setProperty key value ps).map Prod.fst).Nodup ∧
      (setProperty key value ps).Perm ((key, value) :: ps.filter fun p => p.1 ≠ key) := by
  have hp : (setProperty key value ps).Perm ((key, value) :: ps.filter fun p => p.1 ≠ key) := by
    induction ps with
    | nil => rfl
    | cons p ps ih =>
      obtain ⟨hk, hps⟩ := List.nodup_cons.mp h
      unfold setProperty
      by_cases hkey : p.1 = key
      · have hall : ps.filter (fun q => q.1 ≠ key) = ps := by
          refine List.filter_eq_self.mpr fun q hq => ?_
          rw [decide_eq_true_eq, ← hkey]
          exact fun he => hk (he ▸ List.mem_map_of_mem hq)
        rw [if_pos hkey, List.filter_cons, if_neg (by simpa using hkey), hall]
      · rw [if_neg hkey, List.filter_cons, if_pos (by simpa using hkey)]
        exact ((ih hps).cons p).trans (List.Perm.swap ..)
  refine ⟨(hp.map Prod.fst).nodup_iff.mpr (List.nodup_cons.mpr ⟨?_, ?_⟩), hp⟩
  · simp
  · exact h.sublist (List.filter_sublist.map _)

/-- What is there after a property was set. -/
theorem mem_setProperty {key : String} {value : α} {ps : List (String × α)} {e : String × α}
    (h : e ∈ setProperty key value ps) : e ∈ ps ∨ e = (key, value) := by
  induction ps with
  | nil => exact .inr (List.mem_singleton.mp h)
  | cons q ps ih =>
    obtain ⟨k, v⟩ := q
    simp only [setProperty] at h
    split_ifs at h
    · rcases List.mem_cons.mp h with rfl | h
      · exact .inr rfl
      · exact .inl (.tail _ h)
    · rcases List.mem_cons.mp h with rfl | h
      · exact .inl (.head _)
      · exact (ih h).imp_left (.tail _)

/-- What is set is found, and the rest as before. -/
theorem lookup_setProperty (key k : String) (value : α) (ps : List (String × α)) :
    (setProperty key value ps).lookup k = if k = key then some value else ps.lookup k := by
  have hcons : ∀ (k' : String) (v : α) (qs : List (String × α)),
      ((k', v) :: qs).lookup k = if k = k' then some v else qs.lookup k := by
    intro k' v qs
    by_cases h : k = k'
    · rw [if_pos h, h, List.lookup_cons_self]
    · rw [if_neg h, List.lookup_cons, beq_eq_false_iff_ne.mpr h]
  induction ps with
  | nil => exact hcons key value []
  | cons p ps ih =>
    obtain ⟨k', v⟩ := p
    unfold setProperty
    by_cases hk : k' = key
    · rw [if_pos hk, hcons, hcons, hk]
      by_cases h : k = key
      · rw [if_pos h, if_pos h]
      · rw [if_neg h, if_neg h, if_neg h]
    · rw [if_neg hk, hcons, hcons, ih]
      by_cases h : k = k'
      · rw [if_pos h, if_neg fun he => hk (h.symm.trans he), if_pos h]
      · rw [if_neg h, if_neg h]

/-- The properties an object is created with, one after the other. -/
theorem foldl_setProperty_perm (ms : List (String × α)) :
    (ms.foldl (fun ps m => setProperty m.1 m.2 ps) []).Perm (kept ms) := by
  have h := foldl_perm (P := fun ps : List (String × α) => (ps.map Prod.fst).Nodup)
    (fun k v ps hps => setProperty_perm k v hps) ms [] .nil
  rwa [List.filter_nil, List.nil_append] at h

end Members

/-- A key below all others is the key of none. -/
theorem filter_ne_of_lt {key : String} {ms : Members} (h : ∀ m ∈ ms, compare key m.1 = .lt) :
    ms.filter (fun m => m.1 ≠ key) = ms := by
  refine List.filter_eq_self.mpr fun m hm => ?_
  rw [decide_eq_true_eq]
  rintro rfl
  have := h m hm
  rw [Std.ReflOrd.compare_self] at this
  cases this

/-- Insertion into members in key order. -/
theorem insert_perm (key : String) (value : Json) {ms : Members}
    (h : ms.Pairwise fun m n => compare m.1 n.1 = .lt) :
    ((Members.insert key value ms).Pairwise fun m n => compare m.1 n.1 = .lt) ∧
      (Members.insert key value ms).Perm ((key, value) :: ms.filter fun m => m.1 ≠ key) := by
  induction ms with
  | nil => exact ⟨List.pairwise_singleton .., .refl _⟩
  | cons m ms ih =>
    obtain ⟨k, v⟩ := m
    obtain ⟨hk, hms⟩ := List.pairwise_cons.mp h
    unfold Members.insert
    cases hc : compare key k with
    | lt =>
      have hall : ∀ m ∈ (k, v) :: ms, compare key m.1 = .lt :=
        List.forall_mem_cons.mpr ⟨hc, fun m hm => Std.TransCmp.lt_trans hc (hk m hm)⟩
      refine ⟨List.pairwise_cons.mpr ⟨hall, h⟩, ?_⟩
      rw [filter_ne_of_lt hall]
    | eq =>
      obtain rfl := Std.LawfulEqOrd.eq_of_compare hc
      refine ⟨List.pairwise_cons.mpr ⟨hk, hms⟩, ?_⟩
      rw [List.filter_cons, if_neg (by simp), filter_ne_of_lt hk]
    | gt =>
      obtain ⟨hp, hperm⟩ := ih hms
      have hne : k ≠ key := by
        rintro rfl
        rw [Std.ReflOrd.compare_self] at hc
        cases hc
      refine ⟨List.pairwise_cons.mpr ⟨fun m hm => ?_, hp⟩, ?_⟩
      · rcases List.mem_cons.mp (hperm.mem_iff.mp hm) with rfl | hm
        · exact Std.OrientedCmp.lt_of_gt hc
        · exact hk m (List.mem_of_mem_filter hm)
      · rw [List.filter_cons, if_pos (by simpa using hne)]
        exact (hperm.cons _).trans (List.Perm.swap ..)

/-- The map a list of members is collected into. -/
theorem foldl_insert_perm (ms : Members) :
    (ms.foldl (fun map m => Members.insert m.1 m.2 map) []).Perm (kept ms) := by
  have h := foldl_perm (P := fun ms : Members => ms.Pairwise fun m n => compare m.1 n.1 = .lt)
    (fun k v ms hms => insert_perm k v hms) ms [] .nil
  rwa [List.filter_nil, List.nil_append] at h

/-! ### The two readings -/

mutual

/-- `JSON.parse`. -/
def Document.parse : Document → JsValue
  | .null => .null
  | .bool b => .bool b
  | .number l => .number l.number
  | .string s => .string s
  | .array ds => .array (parseItems ds)
  | .object ms => .object ((parseMembers ms).foldl (fun ps m => setProperty m.1 m.2 ps) [])

def Document.parseItems : List Document → List JsValue
  | [] => []
  | d :: ds => d.parse :: parseItems ds

def Document.parseMembers : List (String × Document) → List (String × JsValue)
  | [] => []
  | (k, d) :: ms => (k, d.parse) :: parseMembers ms

end

mutual

/-- `serde_json::from_str`; `double` gives the bits of a double. -/
def Document.serde (double : Literal → UInt64) : Document → Json
  | .null => .null
  | .bool b => .bool b
  | .number l => .number (l.serde double)
  | .string s => .string s
  | .array ds => .array (serdeItems double ds)
  | .object ms => .object ((serdeMembers double ms).foldl (fun map m => Members.insert m.1 m.2 map) [])

def Document.serdeItems (double : Literal → UInt64) : List Document → List Json
  | [] => []
  | d :: ds => d.serde double :: serdeItems double ds

def Document.serdeMembers (double : Literal → UInt64) : List (String × Document) → List (String × Json)
  | [] => []
  | (k, d) :: ms => (k, d.serde double) :: serdeMembers double ms

end

namespace Document

/-- Induction over documents: an array over its items, an object over its members. -/
theorem induct {P : Document → Prop} (null : P .null) (bool : ∀ b, P (.bool b))
    (number : ∀ l, P (.number l)) (string : ∀ s, P (.string s))
    (array : ∀ ds, (∀ d ∈ ds, P d) → P (.array ds))
    (object : ∀ ms, (∀ m ∈ ms, P m.2) → P (.object ms)) (d : Document) : P d :=
  @Document.rec P (fun ds => ∀ d ∈ ds, P d) (fun ms => ∀ m ∈ ms, P m.2) (fun m => P m.2)
    null bool number string array object (by simp) (fun _ _ h hs => List.forall_mem_cons.mpr ⟨h, hs⟩)
    (by simp) (fun _ _ h hs => List.forall_mem_cons.mpr ⟨h, hs⟩) (fun _ _ h => h) d

theorem parseItems_eq_map (ds : List Document) : parseItems ds = ds.map parse := by
  induction ds with
  | nil => rfl
  | cons d ds ih => rw [parseItems, ih, List.map_cons]

theorem parseMembers_eq_map (ms : List (String × Document)) :
    parseMembers ms = ms.map fun m => (m.1, m.2.parse) := by
  induction ms with
  | nil => rfl
  | cons m ms ih => rw [parseMembers, ih, List.map_cons]

theorem serdeItems_eq_map (double : Literal → UInt64) (ds : List Document) :
    serdeItems double ds = ds.map (serde double) := by
  induction ds with
  | nil => rfl
  | cons d ds ih => rw [serdeItems, ih, List.map_cons]

theorem serdeMembers_eq_map (double : Literal → UInt64) (ms : List (String × Document)) :
    serdeMembers double ms = ms.map fun m => (m.1, m.2.serde double) := by
  induction ms with
  | nil => rfl
  | cons m ms ih => rw [serdeMembers, ih, List.map_cons]

/-- The properties of a parsed object. -/
theorem parse_properties_perm (ms : List (String × Document)) :
    ((parseMembers ms).foldl (fun ps m => setProperty m.1 m.2 ps) []).Perm
      ((kept ms).map fun m => (m.1, m.2.parse)) := by
  rw [← kept_map, parseMembers_eq_map]
  exact foldl_setProperty_perm _

/-- The members of an object that was read. -/
theorem serde_members_perm (double : Literal → UInt64) (ms : List (String × Document)) :
    ((serdeMembers double ms).foldl (fun map m => Members.insert m.1 m.2 map) []).Perm
      ((kept ms).map fun m => (m.1, m.2.serde double)) := by
  rw [← kept_map, serdeMembers_eq_map]
  exact foldl_insert_perm _

end Document

end Knolo.Script
