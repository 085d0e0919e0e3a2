import Knolo.Core.Patch
import Knolo.Library.Diamond
import Knolo.Library.Traverse

/-!
# Patches that commute

Patches of nodes that were made against one revision, at paths of which none contains another. Each can be applied
after the others once its base is the new revision, and the order does not matter.

The members of an object are kept in the order of their keys, each once (`Json.Ordered`): the source keeps them in
a `BTreeMap`.

* `applyParts_join` — two operations.
* `merge_perm` — any number of patches, in any order.
-/

namespace Knolo.Core

open Library Library.Fallible Library.Traverse

/-! ### Members in order -/

namespace Members

/-- Members are in the order of their keys, each once. -/
def Sorted (ms : Members) : Prop := ms.Pairwise fun m n => compare m.1 n.1 = .lt

instance : DecidablePred Sorted := fun ms => inferInstanceAs (Decidable (ms.Pairwise _))

variable {key other : String} {value : Json} {ms ms' : Members}

theorem lookup_eq_none_of_lt (h : ∀ m ∈ ms, compare key m.1 = .lt) : ms.lookup key = none := by
  rw [List.lookup_eq_none_iff]
  intro m hm
  have hlt := h m hm
  rw [bne_iff_ne]
  rintro rfl
  simp at hlt

/-- The first of members in order has the least key. -/
theorem Sorted.lookup_of_lt {m : String × Json} (h : Sorted (m :: ms)) (hlt : compare key m.1 = .lt) :
    List.lookup key (m :: ms) = none := by
  refine lookup_eq_none_of_lt fun n hn => ?_
  rcases List.mem_cons.mp hn with rfl | hn
  · exact hlt
  · exact Std.TransCmp.lt_trans hlt ((List.pairwise_cons.mp h).1 n hn)

/-- Members in order are determined by what is found under each key. -/
theorem Sorted.ext (h : Sorted ms) (h' : Sorted ms') (heq : ∀ key, ms.lookup key = ms'.lookup key) : ms = ms' := by
  induction ms generalizing ms' with
  | nil =>
    cases ms' with
    | nil => rfl
    | cons n ms' =>
      have hn := heq n.1
      rw [List.lookup_cons_self] at hn
      cases hn
  | cons m ms ih =>
    obtain ⟨k, v⟩ := m
    have hk := heq k
    rw [List.lookup_cons_self] at hk
    cases ms' with
    | nil => cases hk
    | cons n ms' =>
      obtain ⟨k', v'⟩ := n
      cases hcmp : compare k k' with
      | lt =>
        rw [h'.lookup_of_lt hcmp] at hk
        cases hk
      | gt =>
        have hk' := heq k'
        rw [List.lookup_cons_self, h.lookup_of_lt (Std.OrientedCmp.lt_of_gt hcmp)] at hk'
        cases hk'
      | eq =>
        obtain rfl : k = k' := Std.LawfulEqCmp.eq_of_compare hcmp
        rw [List.lookup_cons_self, Option.some.injEq] at hk
        subst hk
        obtain ⟨hm, hms⟩ := List.pairwise_cons.mp h
        obtain ⟨hn, hms'⟩ := List.pairwise_cons.mp h'
        refine congrArg _ (ih hms hms' fun key => ?_)
        by_cases hkey : key = k
        · subst hkey
          rw [lookup_eq_none_of_lt hm, lookup_eq_none_of_lt hn]
        · have hrest := heq key
          rwa [List.lookup_cons, List.lookup_cons, beq_eq_false_iff_ne.mpr hkey] at hrest

theorem mem_of_lookup (h : ms.lookup key = some value) : (key, value) ∈ ms := by
  obtain ⟨before, after, rfl, -⟩ := List.lookup_eq_some_iff.mp h
  simp

/-- What a member is after an operation on it. -/
def put (key : String) : Option Json → Members → Members
  | some value, ms => insert key value ms
  | none, ms => erase key ms

theorem lookup_put_self (key : String) (x : Option Json) (ms : Members) : (put key x ms).lookup key = x := by
  cases x with
  | none => exact lookup_erase_self key ms
  | some value => exact lookup_insert_self key value ms

theorem lookup_put_ne (h : other ≠ key) (x : Option Json) (ms : Members) :
    (put key x ms).lookup other = ms.lookup other := by
  cases x with
  | none => exact lookup_erase_ne h ms
  | some value => exact lookup_insert_ne h value ms

theorem mem_insert {m : String × Json} (h : m ∈ insert key value ms) : m = (key, value) ∨ m ∈ ms := by
  induction ms with
  | nil => exact .inl (List.mem_singleton.mp h)
  | cons n ms ih =>
    obtain ⟨k, v⟩ := n
    rw [insert] at h
    cases hcmp : compare key k with
    | lt => simpa [hcmp] using h
    | eq =>
      rw [hcmp] at h
      rcases List.mem_cons.mp h with h | h
      · exact .inl h
      · exact .inr (.tail _ h)
    | gt =>
      rw [hcmp] at h
      rcases List.mem_cons.mp h with h | h
      · exact .inr (h ▸ .head _)
      · exact (ih h).imp_right (.tail _)

theorem Sorted.put (h : Sorted ms) (key : String) (x : Option Json) : Sorted (put key x ms) := by
  cases x with
  | none => exact h.filter _
  | some value =>
    induction ms with
    | nil => exact List.pairwise_singleton ..
    | cons n ms ih =>
      obtain ⟨k, v⟩ := n
      obtain ⟨hn, hms⟩ := List.pairwise_cons.mp h
      rw [Members.put, insert]
      cases hcmp : compare key k with
      | lt =>
        refine List.pairwise_cons.mpr ⟨fun m hm => ?_, h⟩
        rcases List.mem_cons.mp hm with rfl | hm
        · exact hcmp
        · exact Std.TransCmp.lt_trans hcmp (hn m hm)
      | eq =>
        obtain rfl : key = k := Std.LawfulEqCmp.eq_of_compare hcmp
        exact List.pairwise_cons.mpr ⟨hn, hms⟩
      | gt =>
        refine List.pairwise_cons.mpr ⟨fun m hm => ?_, ih hms⟩
        rcases mem_insert hm with rfl | hm
        · exact Std.OrientedCmp.lt_of_gt hcmp
        · exact hn m hm

/-- Operations on different members commute. -/
theorem Sorted.put_put_ne (h : Sorted ms) (hne : key ≠ other) (x y : Option Json) :
    Members.put other y (Members.put key x ms) = Members.put key x (Members.put other y ms) := by
  refine ((h.put ..).put ..).ext ((h.put ..).put ..) fun k => ?_
  by_cases hk : k = key
  · subst hk
    rw [lookup_put_ne hne, lookup_put_self, lookup_put_self]
  · rw [lookup_put_ne hk]
    by_cases hk' : k = other
    · subst hk'
      rw [lookup_put_self, lookup_put_self]
    · rw [lookup_put_ne hk', lookup_put_ne hk, lookup_put_ne hk']

/-- Of two operations on a member the second counts. -/
theorem Sorted.put_put (h : Sorted ms) (x y : Option Json) :
    Members.put key y (Members.put key x ms) = Members.put key y ms := by
  refine ((h.put ..).put ..).ext (h.put ..) fun k => ?_
  by_cases hk : k = key
  · subst hk
    rw [lookup_put_self, lookup_put_self]
  · rw [lookup_put_ne hk, lookup_put_ne hk, lookup_put_ne hk]

end Members

/-- Every object of a value has its members in order. -/
inductive Json.Ordered : Json → Prop
  | null : Ordered .null
  | bool {b : Bool} : Ordered (.bool b)
  | number {n : JsonNumber} : Ordered (.number n)
  | string {s : String} : Ordered (.string s)
  | array {items : List Json} : (∀ v ∈ items, Ordered v) → Ordered (.array items)
  | object {ms : Members} : ms.Sorted → (∀ m ∈ ms, Ordered m.2) → Ordered (.object ms)

/-- So has every value that an operation sets. -/
def PatchOperation.Ordered (op : PatchOperation) : Prop := ∀ v, op = .set v → v.Ordered

/-! ### Two operations -/

section Parts

variable {path path' : String} {op op' : PatchOperation} {root root' a b : Json} {p : String} {ts us : List String}

/-- What an operation makes of a member, at or below it. -/
def applyMember (path : String) (op : PatchOperation) : List String → Option Json → Except CoreError (Option Json)
  | [], old =>
    match op with
    | .set v => .ok (some v)
    | .remove => if old.isNone then .error (.invalidPatch ("missing path " ++ path)) else .ok none
  | next :: ts, some child => (applyParts path op (next :: ts) child).map some
  | _ :: _, none => .error (.invalidPatch ("missing parent for " ++ path))

/-- An operation is performed on a member of an object. -/
theorem applyParts_eq_ok : applyParts path op (p :: ts) root = .ok root' ↔
    ∃ ms x, root = .object ms ∧ applyMember path op ts (ms.lookup p) = .ok x ∧ root' = .object (Members.put p x ms) := by
  cases root with
  | object ms =>
    have happly : applyParts path op (p :: ts) (.object ms) =
        (applyMember path op ts (ms.lookup p)).map fun x => .object (Members.put p x ms) := by
      cases ts with
      | nil =>
        cases op with
        | set v => rfl
        | remove =>
          rw [applyParts, applyMember]
          split <;> rfl
      | cons next ts =>
        simp only [applyParts]
        cases ms.lookup p with
        | none => rfl
        | some child =>
          simp only [applyMember]
          cases applyParts path op (next :: ts) child <;> rfl
    rw [happly]
    constructor
    · intro h
      obtain ⟨x, hx, rfl⟩ := map_eq_ok.mp h
      exact ⟨ms, x, rfl, hx, rfl⟩
    · rintro ⟨_, x, ⟨⟩, hx, rfl⟩
      exact map_eq_ok.mpr ⟨x, hx, rfl⟩
  | _ => cases ts <;> simp [applyParts]

/-- Below a member the operation is performed on what is there. -/
theorem applyMember_eq_ok {next : String} {old x : Option Json} (h : applyMember path op (next :: ts) old = .ok x) :
    ∃ child child', old = some child ∧ x = some child' ∧ applyParts path op (next :: ts) child = .ok child' := by
  cases old with
  | none => cases h
  | some child =>
    obtain ⟨child', hchild, rfl⟩ := map_eq_ok.mp h
    exact ⟨child, child', rfl, rfl, hchild⟩

theorem Json.Ordered.member {ms : Members} {child : Json} (h : (Json.object ms).Ordered) (hp : ms.lookup p = some child) :
    child.Ordered := by
  cases h with
  | object _ hms => exact hms (p, child) (Members.mem_of_lookup hp)

/-- **Two operations** at paths of which none contains the other: each can be performed after the other, and both
orders come to the same. -/
theorem applyParts_join (hroot : root.Ordered) (hts : ¬ ts <+: us) (hus : ¬ us <+: ts)
    (ha : applyParts path op ts root = .ok a) (hb : applyParts path' op' us root = .ok b) :
    ∃ c, applyParts path' op' us a = .ok c ∧ applyParts path op ts b = .ok c := by
  induction ts generalizing us root a b with
  | nil => exact absurd List.nil_prefix hts
  | cons p ts ih =>
    cases us with
    | nil => exact absurd List.nil_prefix hus
    | cons q us =>
      obtain ⟨ms, x, rfl, hx, rfl⟩ := applyParts_eq_ok.mp ha
      obtain ⟨_, y, ⟨⟩, hy, rfl⟩ := applyParts_eq_ok.mp hb
      have hsorted : Members.Sorted ms := by
        cases hroot with
        | object h _ => exact h
      by_cases hpq : p = q
      · subst hpq
        rw [List.cons_prefix_cons, and_iff_right rfl] at hts hus
        obtain ⟨t, ts, rfl⟩ := List.exists_cons_of_ne_nil (l := ts) (by rintro rfl; exact hts List.nil_prefix)
        obtain ⟨u, us, rfl⟩ := List.exists_cons_of_ne_nil (l := us) (by rintro rfl; exact hus List.nil_prefix)
        obtain ⟨child, a', hchild, rfl, ha'⟩ := applyMember_eq_ok hx
        obtain ⟨_, b', hchild', rfl, hb'⟩ := applyMember_eq_ok hy
        obtain rfl := Option.some.inj (hchild'.symm.trans hchild)
        obtain ⟨c, hac, hbc⟩ := ih (hroot.member hchild) hts hus ha' hb'
        refine ⟨.object (Members.put p (some c) ms), applyParts_eq_ok.mpr ⟨_, some c, rfl, ?_, ?_⟩,
          applyParts_eq_ok.mpr ⟨_, some c, rfl, ?_, ?_⟩⟩
        · rw [Members.lookup_put_self, applyMember, hac]
          rfl
        · rw [hsorted.put_put]
        · rw [Members.lookup_put_self, applyMember, hbc]
          rfl
        · rw [hsorted.put_put]
      · refine ⟨.object (Members.put q y (Members.put p x ms)), applyParts_eq_ok.mpr ⟨_, y, rfl, ?_, rfl⟩,
          applyParts_eq_ok.mpr ⟨_, x, rfl, ?_, ?_⟩⟩
        · rwa [Members.lookup_put_ne (Ne.symm hpq)]
        · rwa [Members.lookup_put_ne hpq]
        · rw [hsorted.put_put_ne hpq]

/-- An operation keeps a document in order. -/
theorem applyParts_ordered (hroot : root.Ordered) (hop : op.Ordered) (h : applyParts path op ts root = .ok root') :
    root'.Ordered := by
  induction ts generalizing root root' with
  | nil => cases h
  | cons p ts ih =>
    obtain ⟨ms, x, rfl, hx, rfl⟩ := applyParts_eq_ok.mp h
    obtain ⟨hsorted, hms⟩ : Members.Sorted ms ∧ ∀ m ∈ ms, m.2.Ordered := by
      cases hroot with
      | object h h' => exact ⟨h, h'⟩
    have hvalue : ∀ v, x = some v → v.Ordered := by
      rintro v rfl
      cases ts with
      | nil =>
        cases op with
        | set w =>
          cases hx
          exact hop v rfl
        | remove =>
          rw [applyMember] at hx
          split at hx <;> cases hx
      | cons t ts =>
        obtain ⟨child, child', hchild, heq, happly⟩ := applyMember_eq_ok hx
        cases heq
        exact ih (hms (p, child) (Members.mem_of_lookup hchild)) happly
    refine .object (hsorted.put p x) fun m hm => ?_
    cases x with
    | none => exact hms m (List.mem_of_mem_filter hm)
    | some v =>
      rcases Members.mem_insert hm with rfl | hm
      · exact hvalue v rfl
      · exact hms m hm

end Parts

/-! ### Operations at pointers -/

section Pointers

variable {path path' q : String} {op op' : PatchOperation} {root root' a b c : Json}

theorem applyOp_slash {cs : List Char} (hcs : path.toList = '/' :: cs) (root : Json) : applyOp root path op =
    if '~' ∈ cs ∨ [] ∈ cs.splitOn '/' then .error (.invalidPatch ("invalid path " ++ path))
    else applyParts path op ((cs.splitOn '/').map String.ofList) root := by
  unfold applyOp
  split
  · rename_i cs' hcs'
    obtain ⟨-, rfl⟩ := List.cons_eq_cons.mp (hcs'.symm.trans hcs)
    rfl
  · rename_i hne
    exact absurd hcs (hne cs)

theorem tokens_slash {cs : List Char} (hcs : path.toList = '/' :: cs) (h : '~' ∉ cs) :
    Json.tokens path = cs.splitOn '/' := by
  rw [Json.tokens, hcs, pointerTokens_slash]
  refine (List.map_congr_left fun t ht => ?_).trans (List.map_id _)
  have htilde : '~' ∉ t := fun hc => h (mem_of_mem_splitOn ht hc)
  rw [unescapeSlash_of_not_mem htilde, unescapeTilde_of_not_mem htilde, id]

/-- Whether an operation can be performed depends on its path, and then on the document. -/
theorem applyOp_eq (h : applyOp root path op = .ok root') (root₁ : Json) :
    applyOp root₁ path op = applyParts path op ((Json.tokens path).map String.ofList) root₁ := by
  obtain ⟨⟨cs, hcs⟩, -⟩ := applyOp_eq_ok h
  rw [applyOp_slash hcs] at h ⊢
  by_cases hvalid : '~' ∈ cs ∨ [] ∈ cs.splitOn '/'
  · rw [if_pos hvalid] at h
    cases h
  · rw [if_neg hvalid, tokens_slash hcs (not_or.mp hvalid).1]

theorem prefix_of_map_ofList {ts us : List (List Char)} (h : ts.map String.ofList <+: us.map String.ofList) : ts <+: us := by
  obtain ⟨vs, hvs, heq⟩ := List.prefix_map_iff.mp h
  have hsame : ts = vs := List.map_injective_iff.mpr (fun _ _ => String.ofList_injective) heq
  rwa [hsame]

/-- Operations at unrelated paths commute. -/
theorem applyOp_diamond : Diamond (fun v (e : String × PatchOperation) => applyOp v e.1 e.2) Json.Ordered
    (fun e => e.2.Ordered) fun e e' => ¬ Related e.1 e'.1 where
  keep := by
    intro s a e hs he ha
    obtain ⟨-, happly⟩ := applyOp_eq_ok ha
    exact applyParts_ordered hs he happly
  join := by
    intro s a b e e' hs he ha hb
    obtain ⟨-, ha'⟩ := applyOp_eq_ok ha
    obtain ⟨-, hb'⟩ := applyOp_eq_ok hb
    obtain ⟨hbelow, habove⟩ := not_or.mp he
    obtain ⟨c, hac, hbc⟩ := applyParts_join hs (fun h => hbelow (prefix_of_map_ofList h))
      (fun h => habove (prefix_of_map_ofList h)) ha' hb'
    exact ⟨c, (applyOp_eq hb a).trans hac, (applyOp_eq ha b).trans hbc⟩

/-- The type of what a pointer reads. -/
def kind (v : Json) (q : String) : Option ValueType := (v.pointer q).map Json.valueType

/-- **The frame of an operation**, for types: they change at its path and below. -/
theorem walk_applyParts_kind {ts qs : List (List Char)} (h : applyParts path op (ts.map String.ofList) root = .ok root')
    (hbelow : ¬ ts <+: qs) : (Json.walk qs root').map Json.valueType = (Json.walk qs root).map Json.valueType := by
  induction ts generalizing root root' qs with
  | nil => exact absurd List.nil_prefix hbelow
  | cons t ts ih =>
    obtain ⟨ms, x, rfl, hx, rfl⟩ := applyParts_eq_ok.mp h
    cases qs with
    | nil => rfl
    | cons q qs =>
      rw [Json.walk, Json.walk]
      by_cases hq : q = t
      · subst hq
        rw [List.cons_prefix_cons, and_iff_right rfl] at hbelow
        obtain ⟨u, ts, rfl⟩ := List.exists_cons_of_ne_nil (l := ts) (by rintro rfl; exact hbelow List.nil_prefix)
        obtain ⟨child, child', hchild, rfl, happly⟩ := applyMember_eq_ok hx
        rw [Members.lookup_put_self, hchild, Option.bind_some, Option.bind_some]
        exact ih happly hbelow
      · rw [Members.lookup_put_ne fun heq => hq (String.ofList_injective heq)]

theorem kind_applyOp (h : applyOp root path op = .ok root') (hbelow : ¬ Json.tokens path <+: Json.tokens q) :
    kind root' q = kind root q := by
  obtain ⟨-, happly⟩ := applyOp_eq_ok h
  have hwalk := walk_applyParts_kind happly hbelow
  unfold kind Json.pointer
  split
  · rename_i hroot
    rwa [Json.tokens, hroot] at hwalk
  · rename_i cs hcs
    rwa [Json.tokens, hcs] at hwalk
  · rfl

theorem kind_operations {ops : List (String × PatchOperation)} (h : ops.foldlM (fun v e => applyOp v e.1 e.2) root = .ok root')
    (hbelow : ∀ e ∈ ops, ¬ Json.tokens e.1 <+: Json.tokens q) : kind root' q = kind root q := by
  induction ops generalizing root with
  | nil =>
    cases h
    rfl
  | cons e ops ih =>
    rw [List.foldlM_cons] at h
    obtain ⟨mid, hstep, h⟩ := bind_eq_ok.mp h
    rw [ih h fun e' he' => hbelow e' (.tail _ he'), kind_applyOp hstep (hbelow e (.head _))]

/-- A document is valid by the types of what its pointers read. -/
theorem validate_eq_ok {schema : StateSchemaV1} {v : Json} : schema.validate v = .ok () ↔ schema.version = 1 ∧
    (∀ q ∈ schema.required.toList, (kind v q).isSome) ∧ ∀ e ∈ schema.paths.toList, ∀ t, kind v e.1 = some t → t = e.2 := by
  have hrequired : ∀ q, checkRequired v q = .ok () ↔ (kind v q).isSome := by
    intro q
    rw [checkRequired, ensure_eq_ok, kind, Option.isSome_map]
  have htype : ∀ e, checkType v e = .ok () ↔ ∀ t, kind v e.1 = some t → t = e.2 := by
    intro e
    rw [checkType, kind]
    cases v.pointer e.1 <;> simp
  unfold StateSchemaV1.validate
  rw [check_bind_eq_ok, check_bind_eq_ok, ensure_eq_ok, forM_eq_ok, forM_eq_ok]
  simp only [hrequired, htype]

/-- A document is valid whose types are each that of one valid document or of another. -/
theorem validate_of_kinds {schema : StateSchemaV1} (ha : schema.validate a = .ok ()) (hb : schema.validate b = .ok ())
    (hkind : ∀ q, kind c q = kind a q ∨ kind c q = kind b q) : schema.validate c = .ok () := by
  rw [validate_eq_ok] at ha hb ⊢
  obtain ⟨hversion, hreqa, htypea⟩ := ha
  obtain ⟨-, hreqb, htypeb⟩ := hb
  refine ⟨hversion, fun q hq => ?_, fun e he t ht => ?_⟩
  · rcases hkind q with heq | heq
    · rw [heq]
      exact hreqa q hq
    · rw [heq]
      exact hreqb q hq
  · rcases hkind e.1 with heq | heq
    · exact htypea e he t (heq ▸ ht)
    · exact htypeb e he t (heq ▸ ht)

end Pointers

/-! ### Patches -/

/-- A node's patch, with what the node declares to write and what is recorded of it. -/
structure Edit where
  patch : StatePatch
  writes : Std.ExtTreeSet String
  provenance : ProvenanceV1

namespace Edit

/-- The values it sets have their members in order. -/
def Ordered (e : Edit) : Prop := ∀ o ∈ e.patch.operations.toList, o.2.Ordered

/-- No path of one is related to a path of the other. -/
def Apart (e e' : Edit) : Prop :=
  ∀ o ∈ e.patch.operations.toList, ∀ o' ∈ e'.patch.operations.toList, ¬ Related o.1 o'.1

theorem Apart.symm {e e' : Edit} (h : e.Apart e') : e'.Apart e := fun o ho o' ho' hrelated => h o' ho' o ho hrelated.symm

/-- The patch is made against a revision. -/
def against (e : Edit) (revision : ℕ) : StatePatch := { e.patch with baseRevision := revision }

/-- What the reducer does to the document. -/
def perform (schema : StateSchemaV1) (value : Json) (e : Edit) : Except CoreError Json := do
  let value ← applyOperations e.patch e.writes value
  schema.validate value
  return value

variable {schema : StateSchemaV1} {v v' : Json} {e : Edit}

theorem perform_eq_ok : e.perform schema v = .ok v' ↔
    (∀ o ∈ e.patch.operations.toList, o.1 ∈ e.writes) ∧
      e.patch.operations.toList.foldlM (fun v o => applyOp v o.1 o.2) v = .ok v' ∧ schema.validate v' = .ok () := by
  have hops : applyOperations e.patch e.writes v = .ok v' ↔ (∀ o ∈ e.patch.operations.toList, o.1 ∈ e.writes) ∧
      e.patch.operations.toList.foldlM (fun v o => applyOp v o.1 o.2) v = .ok v' := by
    constructor
    · intro h
      have hwrites := mem_of_operations h
      exact ⟨hwrites, (operations_eq hwrites).symm.trans h⟩
    · rintro ⟨hwrites, h⟩
      exact (operations_eq hwrites).trans h
  rw [← and_assoc, ← hops]
  unfold perform
  constructor
  · intro h
    obtain ⟨value, happly, h⟩ := bind_eq_ok.mp h
    obtain ⟨hvalid, h⟩ := check_bind_eq_ok.mp h
    cases h
    exact ⟨happly, hvalid⟩
  · rintro ⟨happly, hvalid⟩
    exact bind_eq_ok.mpr ⟨v', happly, check_bind_eq_ok.mpr ⟨hvalid, rfl⟩⟩

/-- **Patches at unrelated paths commute**, validation included. -/
theorem perform_diamond (schema : StateSchemaV1) : Diamond (perform schema) Json.Ordered Ordered
    fun e e' => e.Ordered ∧ e'.Ordered ∧ e.Apart e' where
  keep := by
    intro s a e hs he ha
    obtain ⟨-, hops, -⟩ := perform_eq_ok.mp ha
    exact applyOp_diamond.keep_foldlM hs he hops
  join := by
    rintro s a b e e' hs ⟨he, he', hapart⟩ ha hb
    obtain ⟨hwrites, hopsa, hvalida⟩ := perform_eq_ok.mp ha
    obtain ⟨hwrites', hopsb, hvalidb⟩ := perform_eq_ok.mp hb
    obtain ⟨c, hac, hbc⟩ := applyOp_diamond.foldlM.join hs ⟨he, he', hapart⟩ hopsa hopsb
    have hvalid : schema.validate c = .ok () := by
      refine validate_of_kinds hvalida hvalidb fun q => ?_
      by_cases hq : ∃ o ∈ e.patch.operations.toList, Json.tokens o.1 <+: Json.tokens q
      · obtain ⟨o, ho, hbelow⟩ := hq
        exact .inl (kind_operations hac fun o' ho' hbelow' =>
          hapart o ho o' ho' (List.prefix_or_prefix_of_prefix hbelow hbelow'))
      · push Not at hq
        exact .inr (kind_operations hbc hq)
    exact ⟨c, perform_eq_ok.mpr ⟨hwrites', hac, hvalid⟩, perform_eq_ok.mpr ⟨hwrites, hbc, hvalid⟩⟩

/-- An accepted patch reads back, where no other of its operations is related. -/
theorem pointer_perform_self (h : e.perform schema v = .ok v') {o : String × PatchOperation}
    (ho : o ∈ e.patch.operations.toList)
    (hother : ∀ o' ∈ e.patch.operations.toList, o'.1 ≠ o.1 → ¬ Related o'.1 o.1) : v'.pointer o.1 = o.2.result := by
  obtain ⟨hwrites, hops, -⟩ := perform_eq_ok.mp h
  have hsorted : e.patch.operations.toList.Pairwise fun a b => compare a.1 b.1 = .lt :=
    Std.ExtTreeMap.ordered_keys_toList
  rw [← operations_eq hwrites] at hops
  obtain ⟨before, after, hsplit⟩ := List.append_of_mem ho
  rw [hsplit] at hops hsorted hother
  obtain ⟨path, op⟩ := o
  refine pointer_operations_self hops fun o' ho' => hother o' (by simp [ho']) ?_
  rintro rfl
  rw [List.pairwise_append, List.pairwise_cons] at hsorted
  simpa using hsorted.2.1.1 o' ho'

/-- Patches leave what they are not related to as it is. -/
theorem pointer_performs_frame {edits : List Edit} {q : String} (h : edits.foldlM (perform schema) v = .ok v')
    (hq : ∀ e ∈ edits, ∀ o ∈ e.patch.operations.toList, ¬ Related o.1 q) : v'.pointer q = v.pointer q := by
  induction edits generalizing v with
  | nil =>
    cases h
    rfl
  | cons e edits ih =>
    rw [List.foldlM_cons] at h
    obtain ⟨mid, hstep, h⟩ := bind_eq_ok.mp h
    obtain ⟨hwrites, hops, -⟩ := perform_eq_ok.mp hstep
    rw [← operations_eq hwrites] at hops
    rw [ih h fun e' he' => hq e' (.tail _ he'), pointer_operations_frame hops (hq e (.head _))]

end Edit

/-! ### Snapshots -/

section Merge

variable {schema : StateSchemaV1} {s m : StateSnapshot} {e : Edit} {edits edits' : List Edit}

/-- Reduce one patch after the other, each made against the revision that the last has left. -/
def merge (schema : StateSchemaV1) (s : StateSnapshot) (edits : List Edit) : Except Abort StateSnapshot :=
  edits.foldlM (fun s e => reduce s (e.against s.revision) e.writes schema e.provenance) s

/-- A patch is reduced as it is performed, below the greatest revision. -/
theorem reduce_against (schema : StateSchemaV1) (s : StateSnapshot) (e : Edit) :
    reduce s (e.against s.revision) e.writes schema e.provenance = do
      let value ← liftError (e.perform schema s.value)
      let revision ← checkedAdd u64Max s.revision 1
      return { schemaId := s.schemaId, revision, value, provenance := some e.provenance } := by
  have hops : applyOperations (e.against s.revision) e.writes s.value = applyOperations e.patch e.writes s.value := rfl
  unfold reduce StateSnapshot.apply Edit.perform
  have hbase : (e.against s.revision).baseRevision = s.revision := rfl
  rw [hops, ensure, if_pos hbase]
  cases applyOperations e.patch e.writes s.value with
  | error err => rfl
  | ok value =>
    dsimp only [bind, Except.bind, pure, Except.pure, liftError]
    cases schema.validate value <;> rfl

theorem reduce_against_eq_ok (h : reduce s (e.against s.revision) e.writes schema e.provenance = .ok m) :
    e.perform schema s.value = .ok m.value ∧ m.revision = s.revision + 1 ∧ m.schemaId = s.schemaId := by
  rw [reduce_against] at h
  obtain ⟨value, hvalue, h⟩ := bind_eq_ok.mp h
  obtain ⟨revision, hrevision, h⟩ := bind_eq_ok.mp h
  cases h
  exact ⟨liftError_eq_ok.mp hvalue, (checkedAdd_eq_ok hrevision).1, rfl⟩

/-- Patches are reduced as they are performed, while there are revisions. -/
theorem exists_merge {v : Json} (h : edits.foldlM (Edit.perform schema) s.value = .ok v)
    (hmax : s.revision + edits.length ≤ u64Max) :
    ∃ m, merge schema s edits = .ok m ∧ m.value = v ∧ m.revision = s.revision + edits.length := by
  induction edits generalizing s with
  | nil =>
    cases h
    exact ⟨s, rfl, rfl, rfl⟩
  | cons e edits ih =>
    rw [List.foldlM_cons] at h
    obtain ⟨value, hvalue, h⟩ := bind_eq_ok.mp h
    rw [List.length_cons] at hmax ⊢
    have hstep : reduce s (e.against s.revision) e.writes schema e.provenance =
        .ok { schemaId := s.schemaId, revision := s.revision + 1, value, provenance := some e.provenance } := by
      rw [reduce_against, hvalue, checkedAdd, if_pos (by omega)]
      rfl
    obtain ⟨m, hm, rfl, hrevision⟩ := ih (s := ⟨s.schemaId, s.revision + 1, value, some e.provenance⟩) h (by dsimp only; omega)
    refine ⟨m, ?_, rfl, by rw [hrevision]; dsimp only; omega⟩
    rw [merge, List.foldlM_cons]
    exact bind_eq_ok.mpr ⟨_, hstep, hm⟩

/-- **No update is lost**, whatever the order: patches made against one revision, at paths of which none contains
another, each of which the reducer would accept alone. In every order the reducer accepts them all, and the document
is the same; it satisfies the schema, reads at each path what the operation there has set, and elsewhere as before. -/
theorem merge_perm (hperm : edits.Perm edits') (hs : s.value.Ordered) (hedits : ∀ e ∈ edits, e.Ordered)
    (hapart : edits.Pairwise Edit.Apart) (hmax : s.revision + edits.length ≤ u64Max)
    (halone : ∀ e ∈ edits, ∃ m, reduce s (e.against s.revision) e.writes schema e.provenance = .ok m) :
    ∃ m m', merge schema s edits = .ok m ∧ merge schema s edits' = .ok m' ∧ m'.value = m.value ∧
      m'.revision = m.revision ∧ m.revision = s.revision + edits.length ∧ m.value.Ordered ∧
      (∀ e ∈ edits, ∀ o ∈ e.patch.operations.toList,
        (∀ other ∈ e.patch.operations.toList, other.1 ≠ o.1 → ¬ Related other.1 o.1) → m.value.pointer o.1 = o.2.result) ∧
      ∀ q, (∀ e ∈ edits, ∀ o ∈ e.patch.operations.toList, ¬ Related o.1 q) → m.value.pointer q = s.value.pointer q := by
  have hperform : ∀ e ∈ edits, ∃ v, e.perform schema s.value = .ok v := by
    intro e he
    obtain ⟨m, hm⟩ := halone e he
    exact ⟨m.value, (reduce_against_eq_ok hm).1⟩
  have hindep : edits.Pairwise fun e e' => e.Ordered ∧ e'.Ordered ∧ e.Apart e' :=
    hapart.imp_of_mem fun he he' happ => ⟨hedits _ he, hedits _ he', happ⟩
  have hdiamond := Edit.perform_diamond schema
  have horder : ∀ {edits'}, edits.Perm edits' →
      ∃ v, edits.foldlM (Edit.perform schema) s.value = .ok v ∧ edits'.foldlM (Edit.perform schema) s.value = .ok v :=
    fun hperm => hdiamond.perm (fun e e' h => ⟨h.2.1, h.1, h.2.2.symm⟩) hperm hs hedits hindep hperform
  obtain ⟨v, hv, hv'⟩ := horder hperm
  obtain ⟨m, hm, rfl, hrevision⟩ := exists_merge hv hmax
  obtain ⟨m', hm', hvalue, hrevision'⟩ := exists_merge hv' (hperm.length_eq ▸ hmax)
  refine ⟨m, m', hm, hm', hvalue, by rw [hrevision, hrevision', hperm.length_eq], hrevision,
    hdiamond.keep_foldlM hs hedits hv, fun e he o ho hother => ?_, fun q hq => Edit.pointer_performs_frame hv hq⟩
  -- the same document, in an order in which this patch comes last
  obtain ⟨before, after, hsplit⟩ := List.append_of_mem he
  have hlast : edits.Perm ((before ++ after) ++ [e]) := by
    rw [hsplit]
    exact List.perm_middle.trans (List.perm_append_singleton ..).symm
  obtain ⟨w, hw, hw'⟩ := horder hlast
  obtain rfl : m.value = w := Except.ok.inj (hv.symm.trans hw)
  rw [List.foldlM_append] at hw'
  obtain ⟨mid, -, hw'⟩ := bind_eq_ok.mp hw'
  rw [List.foldlM_cons] at hw'
  obtain ⟨w, hstep, hw'⟩ := bind_eq_ok.mp hw'
  cases hw'
  exact Edit.pointer_perform_self hstep ho hother

/-- The schema of the sample documents. -/
def sampleSchema : StateSchemaV1 :=
  { version := 1, id := ⟨"s", Eq.refl true⟩, paths := {("/n", .number), ("/m", .object)}, required := {"/n"} }

/-- A node that counts. -/
def countEdit : Edit :=
  { patch := samplePatch, writes := {"/n"}
    provenance := { executionId := ⟨"e", Eq.refl true⟩, nodeId := ⟨"a", Eq.refl true⟩, eventSequence := 1 } }

/-- A node that notes. -/
def noteEdit : Edit :=
  { patch := { baseRevision := 4, operations := {("/m/a", .remove), ("/m/b", .set (.string "seen"))} }
    writes := {"/m/a", "/m/b"}
    provenance := { executionId := ⟨"e", Eq.refl true⟩, nodeId := ⟨"b", Eq.refl true⟩, eventSequence := 2 } }

theorem countEdit_operations : countEdit.patch.operations.toList = [("/n", .set (.number (.posInt 1)))] := by
  decide +kernel

theorem noteEdit_operations :
    noteEdit.patch.operations.toList = [("/m/a", .remove), ("/m/b", .set (.string "seen"))] := by
  decide +kernel

/-- Both are accepted in either order. -/
theorem merge_perm_sample : ∃ m m', merge sampleSchema sampleSnapshot [countEdit, noteEdit] = .ok m ∧
    merge sampleSchema sampleSnapshot [noteEdit, countEdit] = .ok m' ∧ m'.value = m.value ∧
      m.value.pointer "/n" = some (.number (.posInt 1)) ∧ m.value.pointer "/m/b" = some (.string "seen") := by
  have hs : sampleSnapshot.value.Ordered := by
    refine .object (by decide +kernel) fun m hm => ?_
    simp only [List.mem_cons, List.not_mem_nil, or_false] at hm
    rcases hm with rfl | rfl
    · refine .object (by decide +kernel) fun m hm => ?_
      rw [List.mem_singleton] at hm
      exact hm ▸ .null
    · exact .number
  have hcount : countEdit.Ordered := by
    rw [Edit.Ordered, countEdit_operations]
    rintro o ho v hv
    rw [List.mem_singleton] at ho
    subst ho
    cases hv
    exact .number
  have hnote : noteEdit.Ordered := by
    rw [Edit.Ordered, noteEdit_operations]
    rintro o ho v hv
    simp only [List.mem_cons, List.not_mem_nil, or_false] at ho
    rcases ho with rfl | rfl
    · cases hv
    · cases hv
      exact .string
  have hapart : countEdit.Apart noteEdit := by
    rw [Edit.Apart, countEdit_operations, noteEdit_operations]
    unfold Related
    decide +kernel
  have halone : ∀ e ∈ [countEdit, noteEdit],
      ∃ m, reduce sampleSnapshot (e.against sampleSnapshot.revision) e.writes sampleSchema e.provenance = .ok m := by
    simp only [List.forall_mem_cons]
    exact ⟨exists_of_isOk (by decide +kernel), exists_of_isOk (by decide +kernel), by simp⟩
  obtain ⟨m, m', hm, hm', hvalue, -, -, -, hself, -⟩ := merge_perm (List.Perm.swap noteEdit countEdit []) hs
    (by simp [hcount, hnote]) (by simpa using hapart) (by decide) halone
  refine ⟨m, m', hm, hm', hvalue, ?_, ?_⟩
  · have hpath := hself countEdit (by simp) ("/n", .set (.number (.posInt 1)))
    rw [countEdit_operations] at hpath
    exact hpath (by simp) (by simp)
  · have hpath := hself noteEdit (by simp) ("/m/b", .set (.string "seen"))
    rw [noteEdit_operations] at hpath
    refine hpath (by simp) ?_
    unfold Related
    decide +kernel

end Merge

end Knolo.Core
