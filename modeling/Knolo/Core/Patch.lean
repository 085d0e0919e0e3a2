import Knolo.Core.State

/-!
# What a patch changes

The reducer of `knolo-agent-core/src/state/mod.rs` seen from outside, through the JSON pointers of
the documents before and after it.

* `walk_applyParts_self`, `walk_applyParts_frame` — what one operation writes, and what it leaves alone.
* `reduce_sound` — the same of a whole patch.
-/

namespace Knolo.Core

open Library.Fallible

/-! ### Members of an object -/

namespace Members

variable {key other : String} {value : Json} {ms : Members}

theorem lookup_insert_self (key : String) (value : Json) (ms : Members) :
    (insert key value ms).lookup key = some value := by
  induction ms with
  | nil => simp [insert]
  | cons m ms ih =>
    obtain ⟨k, v⟩ := m
    rw [insert]
    cases hcmp : compare key k with
    | lt => simp
    | eq => simp
    | gt =>
      have hne : key ≠ k := by
        intro h
        subst h
        simp at hcmp
      simpa [List.lookup_cons, beq_eq_false_iff_ne.mpr hne] using ih

theorem lookup_insert_ne (hne : other ≠ key) (value : Json) (ms : Members) :
    (insert key value ms).lookup other = ms.lookup other := by
  have hbeq : (other == key) = false := beq_eq_false_iff_ne.mpr hne
  induction ms with
  | nil => simp [insert, hne]
  | cons m ms ih =>
    obtain ⟨k, v⟩ := m
    rw [insert]
    cases hcmp : compare key k with
    | lt => simp [List.lookup_cons, hbeq]
    | eq =>
      have hk : key = k := Std.LawfulEqCmp.eq_of_compare hcmp
      subst hk
      simp [List.lookup_cons, hbeq]
    | gt => simp [List.lookup_cons, ih]

theorem lookup_erase_self (key : String) (ms : Members) : (erase key ms).lookup key = none := by
  rw [List.lookup_eq_none_iff]
  intro m hm
  have hne : m.1 ≠ key := by simpa using (List.mem_filter.mp hm).2
  simpa using Ne.symm hne

theorem lookup_erase_ne (hne : other ≠ key) (ms : Members) : (erase key ms).lookup other = ms.lookup other := by
  induction ms with
  | nil => rfl
  | cons m ms ih =>
    obtain ⟨k, v⟩ := m
    unfold erase at ih ⊢
    by_cases hk : k = key
    · have hbeq : (other == key) = false := beq_eq_false_iff_ne.mpr hne
      simpa [hk, List.lookup_cons, hbeq] using ih
    · simp only [List.filter_cons, hk, ne_eq, not_false_eq_true, decide_true, if_true, List.lookup_cons]
      rw [ih]

end Members

/-! ### Reading what an operation has written -/

/-- What a path reads after the operation at it. -/
def PatchOperation.result : PatchOperation → Option Json
  | .set v => some v
  | .remove => none

/-- The reference tokens of a pointer. -/
def Json.tokens (p : String) : List (List Char) := pointerTokens p.toList

section Parts

variable {path : String} {op : PatchOperation} {last : String} {root root' : Json} {ts qs : List (List Char)}

/-- An operation at one member is performed on an object, and replaces or removes the member. -/
theorem applyParts_last (h : applyParts path op [last] root = .ok root') :
    ∃ ms ms', root = .object ms ∧ root' = .object ms' ∧ ms'.lookup last = op.result ∧
      ∀ other, other ≠ last → ms'.lookup other = ms.lookup other := by
  cases root with
  | object ms =>
    cases op with
    | set v =>
      cases h
      exact ⟨ms, _, rfl, rfl, Members.lookup_insert_self .., fun other hne => Members.lookup_insert_ne hne ..⟩
    | remove =>
      simp only [applyParts] at h
      split at h
      · cases h
      · cases h
        exact ⟨ms, _, rfl, rfl, Members.lookup_erase_self .., fun other hne => Members.lookup_erase_ne hne _⟩
  | _ => cases h

/-- An operation further down is performed on a member of an object, which is replaced. -/
theorem applyParts_cons {p next : String} {parts : List String}
    (h : applyParts path op (p :: next :: parts) root = .ok root') :
    ∃ ms child child', root = .object ms ∧ ms.lookup p = some child ∧
      applyParts path op (next :: parts) child = .ok child' ∧ root' = .object (Members.insert p child' ms) := by
  cases root with
  | object ms =>
    simp only [applyParts] at h
    cases hchild : ms.lookup p with
    | none =>
      rw [hchild] at h
      cases h
    | some child =>
      simp only [hchild] at h
      cases happly : applyParts path op (next :: parts) child with
      | error e =>
        rw [happly] at h
        cases h
      | ok child' =>
        rw [happly] at h
        cases h
        exact ⟨ms, child, child', rfl, hchild, happly, rfl⟩
  | _ => cases h

/-- **The path of an operation reads what the operation has written.** -/
theorem walk_applyParts_self (h : applyParts path op (ts.map String.ofList) root = .ok root') :
    Json.walk ts root' = op.result := by
  induction ts generalizing root root' with
  | nil => cases h
  | cons t ts ih =>
    cases ts with
    | nil =>
      obtain ⟨ms, ms', rfl, rfl, hself, -⟩ := applyParts_last h
      rw [Json.walk, hself]
      cases op <;> rfl
    | cons u ts =>
      obtain ⟨ms, child, child', rfl, hchild, happly, rfl⟩ := applyParts_cons h
      rw [Json.walk, Members.lookup_insert_self, Option.bind_some]
      exact ih happly

/-- **The frame of an operation**: what neither contains its path nor lies below it reads as before. -/
theorem walk_applyParts_frame (h : applyParts path op (ts.map String.ofList) root = .ok root')
    (hbelow : ¬ ts <+: qs) (habove : ¬ qs <+: ts) : Json.walk qs root' = Json.walk qs root := by
  induction ts generalizing root root' qs with
  | nil => exact absurd (List.nil_prefix) hbelow
  | cons t ts ih =>
    cases qs with
    | nil => exact absurd (List.nil_prefix) habove
    | cons q qs =>
      have hkey : q ≠ t → String.ofList q ≠ String.ofList t := fun hne heq => hne (String.ofList_injective heq)
      cases ts with
      | nil =>
        obtain ⟨ms, ms', rfl, rfl, -, hother⟩ := applyParts_last h
        have hne : q ≠ t := by
          rintro rfl
          exact hbelow ⟨qs, rfl⟩
        rw [Json.walk, Json.walk, hother _ (hkey hne)]
      | cons u ts =>
        obtain ⟨ms, child, child', rfl, hchild, happly, rfl⟩ := applyParts_cons h
        rw [Json.walk, Json.walk]
        by_cases hq : q = t
        · subst hq
          rw [List.cons_prefix_cons, and_iff_right rfl] at hbelow habove
          rw [Members.lookup_insert_self, hchild, Option.bind_some, Option.bind_some]
          exact ih happly hbelow habove
        · rw [Members.lookup_insert_ne (hkey hq)]

end Parts

/-! ### Paths -/

theorem unescapeSlash_of_not_mem {t : List Char} (h : '~' ∉ t) : Json.unescapeSlash t = t := by
  induction t with
  | nil => rfl
  | cons c t ih =>
    rw [List.mem_cons, not_or] at h
    rw [Json.unescapeSlash]
    · rw [ih h.2]
    · rintro t' rfl -
      exact h.1 rfl

theorem unescapeTilde_of_not_mem {t : List Char} (h : '~' ∉ t) : Json.unescapeTilde t = t := by
  induction t with
  | nil => rfl
  | cons c t ih =>
    rw [List.mem_cons, not_or] at h
    rw [Json.unescapeTilde]
    · rw [ih h.2]
    · rintro t' rfl -
      exact h.1 rfl

/-- The characters between separators are those of the text. -/
theorem mem_of_mem_splitOn {cs t : List Char} {c : Char} (ht : t ∈ cs.splitOn '/') (hc : c ∈ t) : c ∈ cs := by
  induction cs generalizing t with
  | nil => simp_all
  | cons d cs ih =>
    rw [List.splitOn_cons_eq_if_modifyHead] at ht
    by_cases hd : d = '/'
    · simp only [hd, beq_self_eq_true, if_true, List.mem_cons] at ht
      rcases ht with rfl | ht
      · cases hc
      · exact List.mem_cons_of_mem _ (ih ht hc)
    · simp only [beq_eq_false_iff_ne.mpr hd, Bool.false_eq_true, if_false] at ht
      cases hsplit : cs.splitOn '/' with
      | nil =>
        rw [hsplit] at ht
        cases ht
      | cons u us =>
        rw [hsplit, List.modifyHead_cons, List.mem_cons] at ht
        rcases ht with rfl | ht
        · rcases List.mem_cons.mp hc with rfl | hc
          · exact List.mem_cons_self ..
          · exact List.mem_cons_of_mem _ (ih (hsplit ▸ List.mem_cons_self ..) hc)
        · exact List.mem_cons_of_mem _ (ih (hsplit ▸ List.mem_cons_of_mem _ ht) hc)

theorem pointerTokens_slash (cs : List Char) :
    Json.pointerTokens ('/' :: cs) = (cs.splitOn '/').map fun t => Json.unescapeTilde (Json.unescapeSlash t) := by
  simp [Json.pointerTokens, List.splitOn_cons_eq_if_modifyHead]

/-- A path that an operation is performed at is followed as the pointer it is. -/
theorem applyOp_eq_ok {root root' : Json} {path : String} {op : PatchOperation} (h : applyOp root path op = .ok root') :
    (∃ cs, path.toList = '/' :: cs) ∧
      applyParts path op ((Json.tokens path).map String.ofList) root = .ok root' := by
  unfold applyOp at h
  split at h
  · rename_i cs hcs
    dsimp only at h
    split at h
    · cases h
    · rename_i hvalid
      rw [not_or] at hvalid
      refine ⟨⟨cs, hcs⟩, ?_⟩
      have htokens : Json.tokens path = cs.splitOn '/' := by
        rw [Json.tokens, hcs, pointerTokens_slash]
        refine (List.map_congr_left fun t ht => ?_).trans (List.map_id _)
        have htilde : '~' ∉ t := fun hc => hvalid.1 (mem_of_mem_splitOn ht hc)
        rw [unescapeSlash_of_not_mem htilde, unescapeTilde_of_not_mem htilde, id]
      rw [htokens]
      exact h
  · cases h

/-- One of two pointers contains the other. -/
def Related (p q : String) : Prop := Json.tokens p <+: Json.tokens q ∨ Json.tokens q <+: Json.tokens p

theorem pointer_slash {path : String} {cs : List Char} (h : path.toList = '/' :: cs) (v : Json) :
    v.pointer path = Json.walk (Json.tokens path) v := by
  simp only [Json.pointer, Json.tokens, h]

theorem pointer_applyOp_self {root root' : Json} {path : String} {op : PatchOperation}
    (h : applyOp root path op = .ok root') : root'.pointer path = op.result := by
  obtain ⟨⟨cs, hcs⟩, happly⟩ := applyOp_eq_ok h
  rw [pointer_slash hcs]
  exact walk_applyParts_self happly

theorem pointer_applyOp_frame {root root' : Json} {path q : String} {op : PatchOperation}
    (h : applyOp root path op = .ok root') (hq : ¬ Related path q) : root'.pointer q = root.pointer q := by
  obtain ⟨-, happly⟩ := applyOp_eq_ok h
  obtain ⟨hbelow, habove⟩ := not_or.mp hq
  have hwalk := walk_applyParts_frame happly hbelow habove
  unfold Json.pointer
  split
  · rename_i hroot
    exact absurd (by simp [Json.tokens, hroot, Json.pointerTokens]) habove
  · rename_i cs hcs
    rw [Json.tokens, hcs] at hwalk
    exact hwalk
  · rfl

/-! ### Reducing -/

/-- Operations at other paths leave a pointer as it is. -/
theorem pointer_operations_frame {allowed : Std.ExtTreeSet String} {ops : List (String × PatchOperation)}
    {root root' : Json} {q : String} (h : ops.foldlM (applyDeclared allowed) root = .ok root')
    (hq : ∀ e ∈ ops, ¬ Related e.1 q) : root'.pointer q = root.pointer q := by
  induction ops generalizing root with
  | nil =>
    cases h
    rfl
  | cons e ops ih =>
    rw [List.foldlM_cons] at h
    obtain ⟨mid, hstep, h⟩ := bind_eq_ok.mp h
    rw [ih h fun e' he' => hq e' (List.mem_cons_of_mem _ he')]
    unfold applyDeclared at hstep
    split at hstep
    · exact pointer_applyOp_frame hstep (hq e (List.mem_cons_self ..))
    · cases hstep

/-- Every operation of a patch that was applied is at a declared path. -/
theorem mem_of_operations {allowed : Std.ExtTreeSet String} {ops : List (String × PatchOperation)} {root root' : Json}
    (h : ops.foldlM (applyDeclared allowed) root = .ok root') : ∀ e ∈ ops, e.1 ∈ allowed := by
  induction ops generalizing root with
  | nil => simp
  | cons e ops ih =>
    rw [List.foldlM_cons] at h
    obtain ⟨mid, hstep, h⟩ := bind_eq_ok.mp h
    intro e' he'
    rcases List.mem_cons.mp he' with rfl | he'
    · unfold applyDeclared at hstep
      split at hstep
      · assumption
      · cases hstep
    · exact ih h e' he'

/-- Operations at declared paths are performed whether or not they are asked to be declared. -/
theorem operations_eq {allowed : Std.ExtTreeSet String} {ops : List (String × PatchOperation)} {root : Json}
    (h : ∀ e ∈ ops, e.1 ∈ allowed) :
    ops.foldlM (applyDeclared allowed) root = ops.foldlM (fun v e => applyOp v e.1 e.2) root := by
  induction ops generalizing root with
  | nil => rfl
  | cons e ops ih =>
    have hdeclared : applyDeclared allowed root e = applyOp root e.1 e.2 :=
      if_pos (Std.ExtTreeSet.contains_iff_mem.mpr (h e (List.mem_cons_self ..)))
    rw [List.foldlM_cons, List.foldlM_cons, hdeclared]
    refine congrArg _ (funext fun mid => ?_)
    exact ih fun e' he' => h e' (List.mem_cons_of_mem _ he')

/-- What the last operation at a path has written is not written over. -/
theorem pointer_operations_self {allowed : Std.ExtTreeSet String} {before after : List (String × PatchOperation)}
    {root root' : Json} {path : String} {op : PatchOperation}
    (h : (before ++ (path, op) :: after).foldlM (applyDeclared allowed) root = .ok root')
    (hafter : ∀ e ∈ after, ¬ Related e.1 path) : root'.pointer path = op.result := by
  rw [List.foldlM_append] at h
  obtain ⟨mid, -, h⟩ := bind_eq_ok.mp h
  rw [List.foldlM_cons] at h
  obtain ⟨written, hstep, h⟩ := bind_eq_ok.mp h
  rw [pointer_operations_frame h hafter]
  unfold applyDeclared at hstep
  split at hstep
  · exact pointer_applyOp_self hstep
  · cases hstep

/-- **The reducer applies the patch and nothing else.** A patch it accepts was made against the
revision, at declared paths; it is applied in the order of the paths, to a document that satisfies
the schema. A path that is related to no other path reads what its operation has written, and a
pointer related to none reads as before. -/
theorem reduce_sound {snapshot s' : StateSnapshot} {patch : StatePatch} {writes : Std.ExtTreeSet String}
    {schema : StateSchemaV1} {provenance : ProvenanceV1}
    (h : reduce snapshot patch writes schema provenance = .ok s') :
    patch.baseRevision = snapshot.revision ∧ (∀ path ∈ patch.operations, path ∈ writes) ∧
    s'.revision = snapshot.revision + 1 ∧ schema.validate s'.value = .ok () ∧
    patch.operations.toList.Pairwise (fun a b => compare a.1 b.1 = .lt) ∧
    patch.operations.toList.foldlM (fun v e => applyOp v e.1 e.2) snapshot.value = .ok s'.value ∧
    (∀ path op, patch.operations[path]? = some op →
      (∀ other ∈ patch.operations, other ≠ path → ¬ Related other path) → s'.value.pointer path = op.result) ∧
    (∀ q, (∀ path ∈ patch.operations, ¬ Related path q) → s'.value.pointer q = snapshot.value.pointer q) := by
  obtain ⟨hbase, hops, hvalid, -, hrev, -, -⟩ := StateSnapshot.apply_eq_ok h
  have hmem : ∀ e ∈ patch.operations.toList, e.1 ∈ patch.operations := by
    rintro ⟨path, op⟩ he
    exact Std.ExtTreeMap.mem_iff_isSome_getElem?.mpr
      (by rw [Std.ExtTreeMap.mem_toList_iff_getElem?_eq_some.mp he]; rfl)
  have hdeclared := mem_of_operations hops
  have hsorted : patch.operations.toList.Pairwise fun a b => compare a.1 b.1 = .lt :=
    Std.ExtTreeMap.ordered_keys_toList
  refine ⟨hbase, fun path hpath => ?_, hrev, hvalid, hsorted, ?_, fun path op hop hothers => ?_, fun q hq => ?_⟩
  · have hop := Std.ExtTreeMap.getElem?_eq_some_getElem hpath
    exact hdeclared (path, _) (Std.ExtTreeMap.mem_toList_iff_getElem?_eq_some.mpr hop)
  · rw [← operations_eq hdeclared]
    exact hops
  · obtain ⟨before, after, hsplit⟩ :=
      List.append_of_mem (Std.ExtTreeMap.mem_toList_iff_getElem?_eq_some.mpr hop)
    rw [applyOperations, hsplit] at hops
    refine pointer_operations_self hops fun e he => ?_
    refine hothers e.1 (hmem e (by rw [hsplit]; simp [he])) ?_
    rintro rfl
    rw [hsplit, List.pairwise_append, List.pairwise_cons] at hsorted
    simpa using hsorted.2.1.1 e he
  · exact pointer_operations_frame hops fun e he => hq e.1 (hmem e he)

/-- A patch of one member. -/
def samplePatch : StatePatch :=
  { baseRevision := 4, operations := {("/n", .set (.number (.posInt 1)))} }

/-- A document with that member and another one. -/
def sampleSnapshot : StateSnapshot :=
  { schemaId := ⟨"s", Eq.refl true⟩, revision := 4, provenance := none
    value := .object [("m", .object [("a", .null)]), ("n", .number (.posInt 0))] }

/-- The patch applied to the document. -/
def sampleReduced : Except Abort StateSnapshot :=
  reduce sampleSnapshot samplePatch {"/n"}
    { version := 1, id := ⟨"s", Eq.refl true⟩, paths := {("/n", .number)}, required := {"/n"} }
    { executionId := ⟨"e", Eq.refl true⟩, nodeId := ⟨"a", Eq.refl true⟩, eventSequence := 1 }

/-- The member is replaced, and the other one is not. -/
theorem reduce_sound_sample : ∃ s' : StateSnapshot, sampleReduced = .ok s' ∧
    s'.value.pointer "/n" = some (.number (.posInt 1)) ∧
    s'.value.pointer "/m/a" = sampleSnapshot.value.pointer "/m/a" := by
  cases h : sampleReduced with
  | error e =>
    have hok : sampleReduced.isOk = true := by decide +kernel
    rw [h] at hok
    cases hok
  | ok s' =>
    have hmem : ∀ path ∈ samplePatch.operations, path = "/n" := by simp [samplePatch]
    obtain ⟨-, -, -, -, -, -, hself, hframe⟩ := reduce_sound h
    refine ⟨s', rfl, hself "/n" (.set (.number (.posInt 1))) (by simp [samplePatch]) ?_, hframe "/m/a" ?_⟩
    · intro other hother hne
      exact absurd (hmem other hother) hne
    · intro path hpath
      rw [hmem path hpath]
      unfold Related
      decide +kernel

end Knolo.Core
