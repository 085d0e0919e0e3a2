import Knolo.Core.Patch
import Knolo.Library.PathWrites
import Knolo.Library.Traverse
import Mathlib.Data.Nat.Digits.Lemmas

/-!
# Redaction

`knolo-agent-core/src/redaction/mod.rs`: before a document reaches a log or a reviewer, what is at
certain pointers is replaced.

* `parseIndex_inj`, `exists_parseIndex` — an item of an array has one name in a pointer;
* `eq_of_outlines` — a document is known by what its pointers read;
* `redaction_noninterferes` — documents that differ only at redacted pointers are redacted to the
  same document; a pointer that is unrelated to those that are redacted reads the same; and to
  redact twice is to redact once.
-/

namespace Knolo.Core

open Library

/-! ### Indices -/

namespace Json

theorem toNat_of_isDigit {c : Char} (h : c.isDigit = true) : 48 ≤ c.toNat ∧ c.toNat ≤ 57 := by
  simp only [Char.isDigit, Bool.and_eq_true, decide_eq_true_eq] at h
  exact ⟨h.1, h.2⟩

/-- The number that digits write, the last digit first. -/
theorem foldl_digits (token : List Char) : token.foldl (fun n d => 10 * n + (d.toNat - 48)) 0 =
    Nat.ofDigits 10 (token.reverse.map fun d => d.toNat - 48) := by
  induction token using List.reverseRecOn with
  | nil => rfl
  | append_singleton cs c ih =>
    rw [List.foldl_append, List.foldl_cons, List.foldl_nil, ih, List.reverse_append, List.reverse_singleton,
      List.singleton_append, List.map_cons, Nat.ofDigits_cons]
    exact Nat.add_comm _ _

/-- An index is written by its digits. -/
theorem digits_of_parseIndex {t : List Char} {i : ℕ} (h : parseIndex t = some i) :
    t = if i = 0 then ['0'] else (Nat.digits 10 i).reverse.map fun d => Char.ofNat (d + 48) := by
  unfold parseIndex at h
  split at h
  · cases h
  · rename_i c cs
    split_ifs at h with hzero hall
    · simp only [Option.some.injEq] at h
      rw [foldl_digits] at h
      have hdigit : ∀ d ∈ c :: cs, d.isDigit = true := List.all_eq_true.mp hall
      have hback : ∀ d ∈ c :: cs, Char.ofNat (d.toNat - 48 + 48) = d := by
        intro d hd
        rw [Nat.sub_add_cancel (toNat_of_isDigit (hdigit d hd)).1, Char.ofNat_toNat]
      by_cases hc : c = '0'
      · obtain rfl : cs = [] := by
          by_contra hcs
          exact hzero ⟨hc, hcs⟩
        subst hc
        rw [← h]
        rfl
      · have hlast : c.toNat - 48 ≠ 0 := by
          intro h0
          refine hc ?_
          rw [← hback c (.head _), h0]
        have hdigits : Nat.digits 10 i = (c :: cs).reverse.map fun d => d.toNat - 48 := by
          rw [← h]
          refine Nat.digits_ofDigits 10 (by omega) _ ?_ ?_
          · intro l hl
            obtain ⟨d, hd, rfl⟩ := List.mem_map.mp hl
            have := toNat_of_isDigit (hdigit d (List.mem_reverse.mp hd))
            omega
          · intro hne
            simpa using hlast
        have hi : i ≠ 0 := by
          rintro rfl
          simp at hdigits
        rw [if_neg hi, hdigits, ← List.map_reverse, List.reverse_reverse, List.map_map]
        exact ((List.map_congr_left hback).trans (List.map_id _)).symm

/-- **An item of an array has one name.** -/
theorem parseIndex_inj {t u : List Char} {i : ℕ} (ht : parseIndex t = some i) (hu : parseIndex u = some i) : t = u := by
  rw [digits_of_parseIndex ht, digits_of_parseIndex hu]

theorem toNat_digit {d : ℕ} (h : d < 10) : (Char.ofNat (d + 48)).toNat = d + 48 := by
  interval_cases d <;> rfl

/-- Every index has a name. -/
theorem exists_parseIndex (i : ℕ) : ∃ t, parseIndex t = some i := by
  by_cases hi : i = 0
  · exact ⟨['0'], by rw [hi]; rfl⟩
  · have hlt : ∀ d ∈ Nat.digits 10 i, d < 10 := fun d hd => Nat.digits_lt_base (by omega) hd
    have hne : Nat.digits 10 i ≠ [] := Nat.digits_ne_nil_iff_ne_zero.mpr hi
    obtain ⟨ds, d, hds⟩ := List.eq_nil_or_concat (Nat.digits 10 i) |>.resolve_left hne
    rw [List.concat_eq_append] at hds
    have hlast : d ≠ 0 := by
      have := Nat.getLast_digit_ne_zero 10 hi
      simpa [hds] using this
    refine ⟨(Nat.digits 10 i).reverse.map fun d => Char.ofNat (d + 48), ?_⟩
    have hall : ∀ c ∈ (Nat.digits 10 i).reverse.map (fun d => Char.ofNat (d + 48)), c.isDigit = true := by
      intro c hc
      obtain ⟨e, he, rfl⟩ := List.mem_map.mp hc
      have hval := toNat_digit (hlt e (List.mem_reverse.mp he))
      have := hlt e (List.mem_reverse.mp he)
      interval_cases e <;> rfl
    have hvalue : ((Nat.digits 10 i).reverse.map fun d => Char.ofNat (d + 48)).foldl
        (fun n d => 10 * n + (d.toNat - 48)) 0 = i := by
      rw [foldl_digits, ← List.map_reverse, List.reverse_reverse, List.map_map]
      have hid : (Nat.digits 10 i).map ((fun c : Char => c.toNat - 48) ∘ fun d => Char.ofNat (d + 48)) =
          Nat.digits 10 i := by
        refine (List.map_congr_left fun e he => ?_).trans (List.map_id _)
        rw [Function.comp, toNat_digit (hlt e he), Nat.add_sub_cancel, id]
      rw [hid, Nat.ofDigits_digits]
    rw [hds, List.reverse_append, List.reverse_singleton, List.singleton_append, List.map_cons] at hall hvalue ⊢
    have hzero : Char.ofNat (d + 48) ≠ '0' := by
      intro h0
      have hval := toNat_digit (hlt d (by rw [hds]; simp))
      rw [h0] at hval
      exact hlast (by simpa using hval.symm)
    simp only [parseIndex, hzero, false_and, if_false, List.all_eq_true.mpr hall, if_true, hvalue]

/-! ### Documents and their parts -/

/-- What is under a reference token. -/
def child (t : List Char) : Json → Option Json
  | .object ms => ms.lookup (String.ofList t)
  | .array items => (parseIndex t).bind fun i => items[i]?
  | _ => none

/-- Another value for what is under a reference token. -/
def setChild (t : List Char) (y : Json) : Json → Json
  | .object ms => .object (ms.map fun m => if m.1 = String.ofList t then (m.1, y) else m)
  | .array items => .array (match parseIndex t with
    | some i => items.set i y
    | none => items)
  | v => v

/-- A document without what is in its members and items. -/
def outline : Json → Json
  | .object ms => .object (ms.map fun m => (m.1, .null))
  | .array items => .array (items.map fun _ => .null)
  | v => v

theorem lookup_replace (key other : String) (y : Json) (ms : Members) :
    (ms.map fun m => if m.1 = key then (m.1, y) else m).lookup other =
      if other = key then (ms.lookup other).map fun _ => y else ms.lookup other := by
  induction ms with
  | nil => simp
  | cons m ms ih =>
    obtain ⟨k, v⟩ := m
    have hhead : (if k = key then (k, y) else (k, v)) = (k, if k = key then y else v) := by split <;> rfl
    rw [List.map_cons, hhead]
    by_cases ho : other = k
    · subst ho
      by_cases hk : other = key <;> simp [hk]
    · rw [List.lookup_cons, List.lookup_cons, beq_eq_false_iff_ne.mpr ho]
      exact ih

theorem lookup_isSome_iff (key : String) (ms : Members) : (ms.lookup key).isSome = true ↔ key ∈ ms.map Prod.fst := by
  induction ms with
  | nil => simp
  | cons m ms ih =>
    obtain ⟨k, v⟩ := m
    by_cases hk : key = k
    · simp [hk]
    · have hbeq : (key == k) = false := beq_eq_false_iff_ne.mpr hk
      rw [List.lookup_cons, hbeq, List.map_cons, List.mem_cons]
      exact ih.trans (or_iff_right hk).symm

/-- The parts of a document. -/
def parts : Parts (List Char) Json where
  child := child
  setChild := setChild
  outline := outline
  child_set_self := by
    intro t y v h
    cases v with
    | object ms =>
      obtain ⟨x, hx⟩ := Option.isSome_iff_exists.mp h
      have hx : ms.lookup (String.ofList t) = some x := hx
      rw [setChild, child, lookup_replace, if_pos rfl, hx]
      rfl
    | array items =>
      obtain ⟨x, hx⟩ := Option.isSome_iff_exists.mp h
      obtain ⟨i, hi, hx⟩ := Option.bind_eq_some_iff.mp hx
      obtain ⟨hlt, -⟩ := List.getElem?_eq_some_iff.mp hx
      simp [setChild, child, hi, hlt]
    | null | bool | number | string => cases h
  child_set_ne := by
    intro t u y v hne
    cases v with
    | object ms =>
      have hkey : String.ofList u ≠ String.ofList t := fun h => hne (String.ofList_injective h)
      rw [setChild, child, lookup_replace, if_neg hkey]
      rfl
    | array items =>
      rw [setChild, child, child]
      cases ht : parseIndex t with
      | none => rfl
      | some i =>
        refine Option.bind_congr fun j hu => ?_
        have hij : i ≠ j := fun hij => hne (parseIndex_inj hu (hij ▸ ht))
        rw [List.getElem?_set_ne hij]
    | null | bool | number | string => rfl
  outline_set := by
    intro t y v _
    cases v with
    | object ms =>
      rw [setChild, outline, outline, List.map_map]
      refine congrArg Json.object (List.map_congr_left fun m _ => ?_)
      rw [Function.comp]
      split <;> rfl
    | array items =>
      rw [setChild, outline, outline, List.map_const', List.map_const']
      split
      · rw [List.length_set]
      · rfl
    | null | bool | number | string => rfl
  child_of_outline := by
    intro t v w h
    cases v <;> cases w <;> simp only [outline, reduceCtorEq, Json.object.injEq, Json.array.injEq] at h <;> try rfl
    · rename_i items items'
      have hlen : items.length = items'.length := by simpa using congrArg List.length h
      rw [child, child]
      cases parseIndex t with
      | none => rfl
      | some i =>
        rw [Option.bind_some, Option.bind_some]
        by_cases hi : i < items.length
        · rw [List.getElem?_eq_getElem hi, List.getElem?_eq_getElem (hlen ▸ hi)]
          rfl
        · rw [List.getElem?_eq_none (by omega), List.getElem?_eq_none (by omega)]
    · rename_i ms ms'
      have hkeys : ms.map Prod.fst = ms'.map Prod.fst := by
        simpa [List.map_map, Function.comp_def] using congrArg (List.map Prod.fst) h
      rw [child, child, Bool.eq_iff_iff, lookup_isSome_iff, lookup_isSome_iff, hkeys]

theorem walk_parts (ts : List (List Char)) (v : Json) : parts.walk ts v = walk ts v := by
  induction ts generalizing v with
  | nil => rw [walk, Parts.walk]
  | cons t ts ih =>
    have hfun : parts.walk ts = walk ts := funext ih
    rw [Parts.walk, hfun]
    cases v <;> rfl

/-- A document whose objects have one member for each key, as a map has. -/
def Distinct (v : Json) : Prop := ∀ ts ms, walk ts v = some (.object ms) → (ms.map Prod.fst).Nodup

theorem Distinct.child {t : List Char} {v x : Json} (h : v.Distinct) (hx : v.child t = some x) : x.Distinct := by
  intro ts ms hms
  refine h (t :: ts) ms ?_
  have hx : parts.child t v = some x := hx
  rw [← walk_parts, Parts.walk, hx]
  exact (walk_parts ts x).trans hms

theorem members_eq {ms : Members} (h : (ms.map Prod.fst).Nodup) :
    (ms.map Prod.fst).map (fun key => (key, (ms.lookup key).getD .null)) = ms := by
  rw [List.map_map]
  refine (List.map_congr_left fun m hm => ?_).trans (List.map_id _)
  rw [Function.comp, Traverse.lookup_of_mem h hm]
  rfl

/-- A document is known by its outline and its parts. -/
theorem eq_of_children {v w : Json} (hv : v.Distinct) (hw : w.Distinct) (h : outline v = outline w)
    (hchild : ∀ t, child t v = child t w) : v = w := by
  cases v with
  | object ms =>
    cases w with
    | object ms' =>
      have hkeys : ms.map Prod.fst = ms'.map Prod.fst := by
        simpa [List.map_map, Function.comp_def] using congrArg (List.map Prod.fst) (Json.object.inj h)
      have hlookup : ∀ key, ms.lookup key = ms'.lookup key := fun key => by
        simpa [Json.child] using hchild key.toList
      rw [← members_eq (hv [] ms rfl), ← members_eq (hw [] ms' rfl), hkeys]
      simp only [hlookup]
    | null | bool | number | string | array => cases h
  | array items =>
    cases w with
    | array items' =>
      refine congrArg Json.array (List.ext_getElem? fun i => ?_)
      obtain ⟨t, ht⟩ := exists_parseIndex i
      simpa [Json.child, ht] using hchild t
    | null | bool | number | string | object => cases h
  | null | bool | number | string =>
    cases w with
    | null | bool | number | string => exact h
    | array | object => cases h

theorem sizeOf_child {t : List Char} {v x : Json} (h : child t v = some x) : sizeOf x < sizeOf v := by
  cases v with
  | object ms =>
    have hm : (String.ofList t, x) ∈ ms := by
      obtain ⟨before, after, rfl, -⟩ := List.lookup_eq_some_iff.mp h
      simp
    have := List.sizeOf_lt_of_mem hm
    simp only [Prod.mk.sizeOf_spec, Json.object.sizeOf_spec] at this ⊢
    omega
  | array items =>
    obtain ⟨i, -, hx⟩ := Option.bind_eq_some_iff.mp h
    have := List.sizeOf_lt_of_mem (List.mem_of_getElem? hx)
    simp only [Json.array.sizeOf_spec]
    omega
  | null | bool | number | string => cases h

/-- **A document is known by what its pointers read.** -/
theorem eq_of_outlines {v w : Json} (hv : v.Distinct) (hw : w.Distinct)
    (h : ∀ ts, (parts.walk ts v).map outline = (parts.walk ts w).map outline) : v = w := by
  induction hn : sizeOf v using Nat.strong_induction_on generalizing v w with
  | _ n ih =>
    refine eq_of_children hv hw (Option.some_injective _ (h [])) fun t => ?_
    have hsome : (child t v).isSome = (child t w).isSome :=
      parts.child_of_outline (Option.some_injective _ (h []))
    cases hx : child t v with
    | none =>
      rw [hx] at hsome
      exact (Option.isNone_iff_eq_none.mp (Option.isSome_eq_false_iff.mp hsome.symm)).symm
    | some x =>
      rw [hx] at hsome
      obtain ⟨y, hy⟩ := Option.isSome_iff_exists.mp hsome.symm
      rw [hy]
      refine congrArg some (ih _ (hn ▸ sizeOf_child hx) (hv.child hx) (hw.child hy) (fun ts => ?_) rfl)
      have hts := h (t :: ts)
      rwa [Parts.walk, Parts.walk, show parts.child t v = some x from hx, show parts.child t w = some y from hy] at hts

/-- `Value::pointer_mut`, and an assignment to what it finds. -/
def assign (v : Json) (p : String) (s : Json) : Option Json :=
  match p.toList with
  | [] => some s
  | '/' :: cs => parts.put (pointerTokens ('/' :: cs)) s v
  | _ => none

/-- The reference tokens of a text, if it is a pointer. -/
def reference (p : String) : Option (List (List Char)) :=
  match p.toList with
  | [] => some []
  | '/' :: cs => some (pointerTokens ('/' :: cs))
  | _ => none

theorem assign_eq (v : Json) (p : String) (s : Json) :
    v.assign p s = (reference p).bind fun ts => parts.put ts s v := by
  unfold assign reference
  split <;> rfl

theorem pointer_eq (v : Json) (p : String) : v.pointer p = (reference p).bind fun ts => parts.walk ts v := by
  simp only [walk_parts]
  cases hp : p.toList with
  | nil => simp [pointer, reference, hp, walk]
  | cons c cs =>
    by_cases hc : c = '/'
    · simp [pointer, reference, hp, hc]
    · simp [pointer, reference, hp, hc]

end Json

/-! ### Rules -/

/-- What is redacted, and what stands in its place. -/
structure RedactionRulesV1 where
  jsonPointers : Std.ExtTreeSet String
  replacement : String

namespace RedactionRulesV1

open Json

variable (rules : RedactionRulesV1)

/-- `RedactionRulesV1::apply`. -/
def apply (value : Json) : Json :=
  rules.jsonPointers.toList.foldl
    (fun output pointer => (output.assign pointer (.string rules.replacement)).getD output) value

/-- The paths that are redacted. -/
def paths : List (List (List Char)) := rules.jsonPointers.toList.filterMap reference

theorem apply_eq (value : Json) : rules.apply value = parts.putAll rules.paths (.string rules.replacement) value := by
  rw [apply, paths, Parts.putAll, List.foldl_filterMap]
  congr 1
  funext output pointer
  rw [assign_eq]
  cases reference pointer <;> rfl

theorem mem_paths {ts : List (List Char)} : ts ∈ rules.paths ↔ ∃ r ∈ rules.jsonPointers, reference r = some ts := by
  simp only [paths, List.mem_filterMap, Std.ExtTreeSet.mem_toList]

/-- Two documents that differ only in what is at the redacted pointers: beside these, and above
them, they have the same values, the same keys and the same number of items. -/
def DifferOnlyAt (v w : Json) : Prop :=
  ∀ ts, (∀ r ∈ rules.jsonPointers, ∀ us, reference r = some us → ¬ us <+: ts) →
    (walk ts v).map outline = (walk ts w).map outline

/-- One of two pointers is a prefix of the other. -/
def Overlap (r q : String) : Prop :=
  ∃ us ts, reference r = some us ∧ reference q = some ts ∧ (us <+: ts ∨ ts <+: us)

variable {rules} {v w : Json}

theorem covered_iff {ts : List (List Char)} :
    ¬ Parts.Covered rules.paths ts ↔ ∀ r ∈ rules.jsonPointers, ∀ us, reference r = some us → ¬ us <+: ts := by
  constructor
  · intro h r hr us hus hpre
    exact h ⟨us, rules.mem_paths.mpr ⟨r, hr, hus⟩, hpre⟩
  · rintro h ⟨us, hmem, hpre⟩
    obtain ⟨r, hr, hus⟩ := rules.mem_paths.mp hmem
    exact h r hr us hus hpre

theorem differOnlyAt_iff : rules.DifferOnlyAt v w ↔ parts.Agree rules.paths v w := by
  simp only [DifferOnlyAt, Parts.Agree, covered_iff, walk_parts]
  exact Iff.rfl

theorem child_string (s : String) (t : List Char) : parts.child t (.string s) = none := rfl

/-- A redacted document has the keys of the document, beside what stands for redacted values. -/
theorem distinct_apply (h : v.Distinct) : (rules.apply v).Distinct := by
  intro ts ms hms
  rw [← walk_parts, apply_eq] at hms
  by_cases hcovered : Parts.Covered rules.paths ts
  · obtain ⟨p, hp, q, rfl⟩ := Parts.exists_first hcovered
    rw [Parts.walk_putAll_below (child_string _) hp] at hms
    obtain ⟨-, -, hms⟩ := Option.bind_eq_some_iff.mp hms
    cases q <;> cases hms
  · have houtline := Parts.outline_putAll (P := parts) (s := .string rules.replacement) (v := v) hcovered
    rw [hms, Option.map_some] at houtline
    obtain ⟨x, hx, hsame⟩ := Option.map_eq_some_iff.mp houtline.symm
    cases x with
    | object ms' =>
      have hkeys : ms'.map Prod.fst = ms.map Prod.fst := by
        simpa [List.map_map, Function.comp_def] using congrArg (List.map Prod.fst) (Json.object.inj hsame)
      rw [← hkeys]
      rw [walk_parts] at hx
      exact h ts ms' hx
    | null | bool | number | string | array => cases hsame

/-- Documents that differ only at redacted pointers are redacted to one document. -/
theorem apply_congr (hv : v.Distinct) (hw : w.Distinct) (h : rules.DifferOnlyAt v w) :
    rules.apply v = rules.apply w := by
  refine eq_of_outlines (distinct_apply hv) (distinct_apply hw) fun ts => ?_
  rw [apply_eq, apply_eq]
  exact Parts.outline_putAll_congr (child_string _) (differOnlyAt_iff.mp h) ts

/-- A document and its redaction differ only at redacted pointers. -/
theorem differOnlyAt_apply (v : Json) : rules.DifferOnlyAt (rules.apply v) v := by
  refine differOnlyAt_iff.mpr fun ts hts => ?_
  rw [apply_eq]
  exact Parts.outline_putAll hts

theorem pointer_apply {q : String} (hq : ∀ r ∈ rules.jsonPointers, ¬ Overlap r q) :
    (rules.apply v).pointer q = v.pointer q := by
  rw [pointer_eq, pointer_eq, apply_eq]
  refine Option.bind_congr fun ts hts => Parts.walk_putAll_frame fun us hus => ?_
  obtain ⟨r, hr, hus⟩ := rules.mem_paths.mp hus
  exact ⟨fun hpre => hq r hr ⟨us, ts, hus, hts, .inl hpre⟩, fun hpre => hq r hr ⟨us, ts, hus, hts, .inr hpre⟩⟩

/-- **Redaction is noninterfering and local.** Documents that differ only in what is at redacted
pointers, present or not, have the same redaction; a pointer that overlaps none that is redacted
reads the same before and after; and redacting twice is redacting once. -/
theorem redaction_noninterferes (rules : RedactionRulesV1) :
    (∀ v w : Json, v.Distinct → w.Distinct → rules.DifferOnlyAt v w → rules.apply v = rules.apply w) ∧
    (∀ (v : Json) (q : String), (∀ r ∈ rules.jsonPointers, ¬ Overlap r q) →
      (rules.apply v).pointer q = v.pointer q) ∧
    ∀ v : Json, v.Distinct → rules.apply (rules.apply v) = rules.apply v :=
  ⟨fun _ _ => apply_congr, fun _ _ => pointer_apply,
    fun v hv => apply_congr (distinct_apply hv) hv (differOnlyAt_apply v)⟩

/-! ### A name that is redacted -/

/-- A document with a name. -/
def sampleDocument (name : String) : Json := .object [("id", .number (.posInt 7)), ("name", .string name)]

/-- The rules that redact it. -/
def sampleRules : RedactionRulesV1 := ⟨.ofList ["/name"], "redacted"⟩

theorem sampleDocument_distinct (name : String) : (sampleDocument name).Distinct := by
  intro ts ms h
  cases ts with
  | nil =>
    cases h
    simp
  | cons t ts =>
    obtain ⟨x, hx, hms⟩ := Option.bind_eq_some_iff.mp h
    have hleaf : x = .number (.posInt 7) ∨ x = .string name := by
      obtain ⟨before, after, hmem, -⟩ := List.lookup_eq_some_iff.mp hx
      have hin : (String.ofList t, x) ∈ [("id", Json.number (.posInt 7)), ("name", .string name)] := by
        rw [hmem]
        simp
      simp only [List.mem_cons, Prod.mk.injEq, List.not_mem_nil, or_false] at hin
      exact hin.imp (·.2) (·.2)
    rcases hleaf with rfl | rfl <;> cases ts <;> cases hms

theorem sampleDocument_differ (name other : String) :
    sampleRules.DifferOnlyAt (sampleDocument name) (sampleDocument other) := by
  intro ts hts
  have hname := hts "/name" (by simp [sampleRules]) ["name".toList] (by decide)
  cases ts with
  | nil => rfl
  | cons t ts =>
    have hne : String.ofList t ≠ "name" := by
      intro heq
      refine hname ⟨ts, ?_⟩
      rw [← heq, String.toList_ofList]
      rfl
    simp [sampleDocument, walk, List.lookup_cons, beq_eq_false_iff_ne.mpr hne]

/-- The name does not matter to who reads the redacted document, and the number is left. -/
theorem redaction_sample :
    sampleRules.apply (sampleDocument "Ann") = sampleRules.apply (sampleDocument "Bob") ∧
      (sampleRules.apply (sampleDocument "Ann")).pointer "/id" = some (.number (.posInt 7)) ∧
      sampleRules.apply (sampleRules.apply (sampleDocument "Ann")) = sampleRules.apply (sampleDocument "Ann") := by
  obtain ⟨hsame, hlocal, htwice⟩ := redaction_noninterferes sampleRules
  have hid : (sampleRules.apply (sampleDocument "Ann")).pointer "/id" = (sampleDocument "Ann").pointer "/id" := by
    refine hlocal _ _ fun r hr => ?_
    obtain rfl : "/name" = r := by simpa [sampleRules] using hr
    rintro ⟨us, ts, hus, hts, hpre⟩
    have hname : reference "/name" = some ["name".toList] := by decide
    have hnumber : reference "/id" = some ["id".toList] := by decide
    rw [hname] at hus
    rw [hnumber] at hts
    cases hus
    cases hts
    revert hpre
    decide
  refine ⟨hsame _ _ ?_ ?_ (sampleDocument_differ _ _), hid.trans (by decide), htwice _ ?_⟩ <;>
    exact sampleDocument_distinct _

end RedactionRulesV1

end Knolo.Core
