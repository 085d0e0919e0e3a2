import Knolo.Harness.ScriptCbor
import Knolo.Library.Traverse

/-!
# The two canonical CBOR encoders

`cbor.ts` and `cbor.rs` are handed the same document by `JSON.parse` and `serde_json`. On which
documents do they agree, that is reject on both sides or produce the same bytes?

They read a number differently (`1.0` and `-0` are integers only to the script), the script
drops a member whose key is `__proto__`, and a 32-bit target casts integers to its `usize`
before it checks them. `canonicalCbor_agree_iff` says these are all the differences: the encoders
agree on both targets exactly at the documents without such a part (`Plain`), and at those
that both sides refuse.
-/

namespace Knolo.Harness

open Core Script Library Library.Cbor Library.StableSort Library.Traverse

/-! ### Parts of documents -/

/-- What is asked of the parts of a document that are not replaced. -/
structure Demand where
  /-- Of a number. -/
  number : Literal → Prop
  /-- Of a length: of a text, an array or an object. -/
  length : ℕ → Prop
  /-- Of a key. -/
  key : String → Prop
  /-- Members with these keys are passed over. -/
  skips : String → Bool

mutual

/-- A document meets a demand. -/
def Holds (q : Demand) : Document → Prop
  | .null | .bool _ => True
  | .number l => q.number l
  | .string s => q.length (utf8 s).length
  | .array ds => q.length ds.length ∧ HoldsItems q ds
  | .object ms => q.length ((kept ms).filter fun m => !q.skips m.1).length ∧ HoldsMembers q ms

/-- The same of all items. -/
def HoldsItems (q : Demand) : List Document → Prop
  | [] => True
  | d :: ds => Holds q d ∧ HoldsItems q ds

/-- The same of all members that no later member replaces. -/
def HoldsMembers (q : Demand) : List (String × Document) → Prop
  | [] => True
  | (k, d) :: ms => (k ∈ ms.map Prod.fst ∨ q.skips k = true ∨
      (q.key k ∧ q.length (utf8 k).length ∧ Holds q d)) ∧ HoldsMembers q ms

end

theorem holdsItems_iff {q : Demand} {ds : List Document} : HoldsItems q ds ↔ ∀ d ∈ ds, Holds q d := by
  induction ds with
  | nil => simp [HoldsItems]
  | cons d ds ih => simp [HoldsItems, ih]

theorem holdsMembers_iff {q : Demand} {ms : List (String × Document)} : HoldsMembers q ms ↔
    ∀ m ∈ kept ms, q.skips m.1 = true ∨ (q.key m.1 ∧ q.length (utf8 m.1).length ∧ Holds q m.2) := by
  induction ms with
  | nil => simp [HoldsMembers, kept]
  | cons m ms ih =>
    rw [HoldsMembers, ih, kept]
    by_cases hm : m.1 ∈ ms.map Prod.fst
    · rw [if_pos hm]
      exact ⟨fun h => h.2, fun h => ⟨.inl hm, h⟩⟩
    · rw [if_neg hm, List.forall_mem_cons]
      exact and_congr_left fun _ => or_iff_right hm

/-! ### The demands -/

/-- The integers that have a head. -/
def HasHead (z : ℤ) : Prop := -2 ^ 32 ≤ z ∧ z < 2 ^ 32

/-- Written as an integer other than `-0`, in the range of `i64`. -/
def IsI64 (l : Literal) : Prop :=
  l.isInteger ∧ if l.negative then 0 < l.whole ∧ l.whole ≤ 2 ^ 63 else l.whole < 2 ^ 63

/-- Every number is a safe integer to the script. -/
def scriptReads : Demand where
  number l := l.number.safeInteger.isSome
  length _ := True
  key _ := True
  skips _ := false

/-- What the script writes has heads: it does not write members with the key `__proto__`. -/
def scriptFits : Demand where
  number l := ∀ z, l.number.safeInteger = some z → HasHead z
  length n := n < 2 ^ 32
  key _ := True
  skips k := k = protoKey

/-- What the core accepts where `usize` has 32 bits: numbers need not have a head. -/
def wasmAccepts : Demand where
  number := IsI64
  length n := n < 2 ^ 32
  key _ := True
  skips _ := false

/-- What both sides read the same: integers that are written as such and have a head, and
keys other than `__proto__`. -/
def plain : Demand where
  number l := IsI64 l ∧ HasHead l.integer
  length _ := True
  key k := k ≠ protoKey
  skips _ := false

/-- The script refuses a document. -/
def ScriptRefuses (d : Document) : Prop := ¬ (Holds scriptReads d ∧ Holds scriptFits d)

/-- The core refuses a document even where `usize` has 32 bits. -/
def WasmRefuses (d : Document) : Prop := ¬ Holds wasmAccepts d

/-- A document without a part that the two sides read differently. -/
def Plain (d : Document) : Prop := Holds plain d

/-! ### Arrays and objects -/

/-- The items of members, in the order of their keys. -/
def keyed {α : Type} (f : α → Option Item) (ms : List (String × α)) : Option (List (List UInt8 × Item)) :=
  entryItems (sortBy byKey (ms.map fun m => (m.1, f m.2)))

theorem entryItems_eq_some {es : List (String × Option Item)} {is : List (List UInt8 × Item)}
    (h : entryItems es = some is) : ∃ ps : List (String × Item),
      es = ps.map (fun p => (p.1, some p.2)) ∧ is = ps.map fun p => (utf8 p.1, p.2) := by
  induction es generalizing is with
  | nil =>
    cases h
    exact ⟨[], rfl, rfl⟩
  | cons e es ih =>
    obtain ⟨k, i⟩ := e
    simp only [entryItems, Option.bind_eq_bind, Option.bind_eq_some_iff, Option.pure_def,
      Option.some.injEq] at h
    obtain ⟨i, rfl, js, hjs, rfl⟩ := h
    obtain ⟨ps, rfl, rfl⟩ := ih hjs
    exact ⟨(k, i) :: ps, rfl, rfl⟩

section Keyed

variable {α : Type} {f : α → Option Item} {ms : List (String × α)}

theorem exists_items (h : ∀ m ∈ ms, (f m.2).isSome) : ∃ ps : List (String × Item),
    ms.map (fun m => (m.1, f m.2)) = ps.map fun p => (p.1, some p.2) := by
  induction ms with
  | nil => exact ⟨[], rfl⟩
  | cons m ms ih =>
    obtain ⟨hm, hms⟩ := List.forall_mem_cons.mp h
    obtain ⟨ps, hps⟩ := ih hms
    obtain ⟨i, hi⟩ := Option.isSome_iff_exists.mp hm
    exact ⟨(m.1, i) :: ps, by rw [List.map_cons, List.map_cons, hps, hi]⟩

/-- Members that all have an item have one together. -/
theorem keyed_isSome (h : ∀ m ∈ ms, (f m.2).isSome) : (keyed f ms).isSome := by
  obtain ⟨ps, hps⟩ := exists_items h
  rw [keyed, hps, ← map_sortBy_byKey, entryItems_some]
  rfl

/-- The entries are the members' keys and items. -/
theorem keyed_eq_some {es : List (List UInt8 × Item)} (h : keyed f ms = some es) :
    es.length = ms.length ∧ (∀ m ∈ ms, ∃ i, f m.2 = some i ∧ (utf8 m.1, i) ∈ es) ∧
      ∀ e ∈ es, ∃ m ∈ ms, f m.2 = some e.2 ∧ utf8 m.1 = e.1 := by
  obtain ⟨ps, hps, rfl⟩ := entryItems_eq_some h
  have hmem : ∀ e, e ∈ ms.map (fun m => (m.1, f m.2)) ↔ e ∈ ps.map fun p => (p.1, some p.2) :=
    fun e => by rw [← hps, mem_sortBy]
  refine ⟨?_, fun m hm => ?_, fun e he => ?_⟩
  · have := congrArg List.length hps
    rw [length_sortBy, List.length_map, List.length_map] at this
    rw [List.length_map, this]
  · obtain ⟨p, hp, he⟩ := List.mem_map.mp ((hmem _).mp (List.mem_map_of_mem hm))
    obtain ⟨hk, hi⟩ := Prod.mk.inj he
    exact ⟨p.2, hi.symm, List.mem_map.mpr ⟨p, hp, by rw [hk]⟩⟩
  · obtain ⟨p, hp, rfl⟩ := List.mem_map.mp he
    obtain ⟨m, hm, he⟩ := List.mem_map.mp ((hmem _).mpr (List.mem_map_of_mem hp))
    obtain ⟨hk, hi⟩ := Prod.mk.inj he
    exact ⟨m, hm, hi, by rw [hk]⟩

end Keyed

variable (double : Literal → UInt64)

/-- The item of an object that the core reads. -/
theorem item_object (bits : ℕ) (ms : List (String × Document)) :
    item bits ((Document.object ms).serde double) =
      (keyed (fun d => item bits (d.serde double)) (kept ms)).map .map := by
  rw [Document.serde, item, memberItems_eq_map, keyed]
  congr 2
  have hp := (Document.serde_members_perm double ms).map fun m => (m.1, item bits m.2)
  rw [List.map_map] at hp
  refine sortBy_byKey_perm hp (hp.map Prod.fst |>.nodup_iff.mpr ?_)
  rw [List.map_map]
  exact nodup_kept ms

/-- The item of an object that the script reads. -/
theorem scriptItem_parse_object (ms : List (String × Document)) :
    scriptItem (Document.object ms).parse = if ∀ m ∈ kept ms, (scriptItem m.2.parse).isSome then
      (keyed (fun d : Document => scriptItem d.parse) ((kept ms).filter fun m => m.1 ≠ protoKey)).map .map
      else none := by
  have hp := Document.parse_properties_perm ms
  have hkeys := (hp.map Prod.fst).nodup_iff.mpr (by rw [List.map_map]; exact nodup_kept ms)
  have hall : (∀ p ∈ (Document.parseMembers ms).foldl (fun ps m => setProperty m.1 m.2 ps) [],
      (scriptItem p.2).isSome) ↔ ∀ m ∈ kept ms, (scriptItem m.2.parse).isSome := by
    simp only [hp.mem_iff, List.mem_map, forall_exists_index, and_imp, forall_apply_eq_imp_iff₂]
  rw [Document.parse, scriptItem_object hkeys]
  refine if_congr hall ?_ rfl
  rw [keyed]
  congr 2
  have hp' := (hp.filter fun p => p.1 ≠ protoKey).map fun p => (p.1, scriptItem p.2)
  refine (sortBy_byKey_perm hp' ?_).trans ?_
  · rw [List.map_map]
    exact hkeys.sublist (List.filter_sublist.map _)
  · rw [List.filter_map, List.map_map]
    rfl

/-- The item of an array that the core reads. -/
theorem item_array (bits : ℕ) (ds : List Document) : item bits ((Document.array ds).serde double) =
    (ds.mapM fun d => item bits (d.serde double)).map .array := by
  have harray : ∀ vs : List Json, arrayItems bits vs = vs.mapM (item bits) := by
    intro vs
    induction vs with
    | nil => rfl
    | cons v vs ih => rw [arrayItems, List.mapM_cons, ih]
  rw [Document.serde, item, harray, Document.serdeItems_eq_map, List.mapM_map]
  rfl

/-- The item of an array of the script. -/
theorem scriptItem_array (vs : List JsValue) :
    scriptItem (.array vs) = (vs.mapM scriptItem).map .array := by
  rw [← asCborItems_toOption, scriptItem, asCbor, toOption_bind]
  cases (asCborItems vs).toOption <;> rfl

/-- The item of an array that the script reads. -/
theorem scriptItem_parse_array (ds : List Document) : scriptItem (Document.array ds).parse =
    (ds.mapM fun d => scriptItem d.parse).map .array := by
  rw [Document.parse, scriptItem_array, Document.parseItems_eq_map, List.mapM_map]
  rfl

/-! ### Numbers -/

theorem asI64_serde {l : Literal} (h : IsI64 l) : asI64 (l.serde double) = some l.integer := by
  obtain ⟨hint, h⟩ := h
  unfold Literal.serde Literal.integer
  rw [if_pos hint]
  cases hneg : l.negative with
  | false =>
    rw [hneg, if_neg Bool.false_ne_true] at h
    rw [if_neg Bool.false_ne_true, if_pos (by omega), if_neg Bool.false_ne_true, asI64, if_pos h]
  | true =>
    rw [hneg, if_pos rfl] at h
    rw [if_pos rfl, if_pos ⟨by omega, h.2⟩, if_pos rfl, asI64]

theorem isI64_of_asI64 {l : Literal} {z : ℤ} (h : asI64 (l.serde double) = some z) :
    IsI64 l ∧ z = l.integer := by
  unfold Literal.serde at h
  split_ifs at h with hint hneg hwhole hwhole
  · cases h
    exact ⟨⟨hint, by rw [if_pos hneg]; omega⟩, by rw [Literal.integer, if_pos hneg]⟩
  · cases h
  · simp only [asI64] at h
    split_ifs at h with hlt
    cases h
    exact ⟨⟨hint, by rw [if_neg hneg]; exact hlt⟩, by rw [Literal.integer, if_neg hneg]⟩
  · cases h
  · cases h

theorem isI64_bounds {l : Literal} (h : IsI64 l) : -2 ^ 63 ≤ l.integer ∧ l.integer < 2 ^ 63 := by
  obtain ⟨-, h⟩ := h
  unfold Literal.integer
  split_ifs at h ⊢ <;> omega

theorem scriptItem_number (x : JsNumber) : scriptItem (.number x) = x.safeInteger.map scriptInteger := by
  rw [scriptItem, asCbor]
  cases x.safeInteger <;> rfl

theorem scriptInteger_fits {z : ℤ} : (scriptInteger z).Fits ↔ HasHead z := by
  unfold scriptInteger HasHead
  split_ifs <;> simp only [Item.Fits] <;> omega

/-! ### What each side accepts -/

theorem scriptItem_isSome (d : Document) : (scriptItem d.parse).isSome ↔ Holds scriptReads d := by
  induction d using Document.induct with
  | null | bool _ | string _ => simp [Document.parse, scriptItem, asCbor, Except.toOption, Holds, scriptReads]
  | number l =>
    rw [Document.parse, scriptItem_number, Option.isSome_map]
    rfl
  | array ds ih =>
    rw [scriptItem_parse_array, Option.isSome_map, mapM_isSome, Holds, holdsItems_iff]
    exact (forall₂_congr ih).trans (and_iff_right trivial).symm
  | object ms ih =>
    have hms : (∀ m ∈ kept ms, (scriptItem m.2.parse).isSome) ↔ HoldsMembers scriptReads ms := by
      rw [holdsMembers_iff]
      refine forall₂_congr fun m hm => (ih m (mem_of_mem_kept hm)).trans ?_
      simp [scriptReads]
    rw [scriptItem_parse_object, Holds, ← hms]
    refine Iff.trans ?_ (and_iff_right trivial).symm
    split_ifs with hall
    · rw [Option.isSome_map]
      exact iff_of_true (keyed_isSome fun m hm => hall m (List.mem_of_mem_filter hm)) hall
    · exact iff_of_false (by simp) hall

/-- What the script writes of a document has heads. -/
theorem fits_scriptItem : ∀ {d : Document} {i : Item}, scriptItem d.parse = some i →
    (i.Fits ↔ Holds scriptFits d) := by
  intro d
  induction d using Document.induct with
  | null | bool _ | string _ =>
    intro i h
    cases h
    rfl
  | number l =>
    intro i h
    rw [Document.parse, scriptItem_number] at h
    obtain ⟨z, hz, rfl⟩ := Option.map_eq_some_iff.mp h
    rw [scriptInteger_fits, Holds, scriptFits]
    simp only [hz, Option.some.injEq, forall_eq']
  | array ds ih =>
    intro i h
    rw [scriptItem_parse_array] at h
    obtain ⟨is, his, rfl⟩ := Option.map_eq_some_iff.mp h
    obtain ⟨hlen, h1, h2⟩ := mapM_eq_some his
    rw [Item.Fits, Item.fitsItems_iff, Holds, holdsItems_iff, hlen]
    refine and_congr_right fun _ => ⟨fun h d hd => ?_, fun h i hi => ?_⟩
    · obtain ⟨i, hi, hd'⟩ := h1 d hd
      exact (ih d hd hd').mp (h i hi)
    · obtain ⟨d, hd, hd'⟩ := h2 i hi
      exact (ih d hd hd').mpr (h d hd)
  | object ms ih =>
    intro i h
    rw [scriptItem_parse_object] at h
    split_ifs at h
    obtain ⟨es, hes, rfl⟩ := Option.map_eq_some_iff.mp h
    obtain ⟨hlen, h1, h2⟩ := keyed_eq_some hes
    have hskip : ((kept ms).filter fun m => !scriptFits.skips m.1) =
        (kept ms).filter fun m => m.1 ≠ protoKey := by
      refine List.filter_congr fun m _ => ?_
      simp [scriptFits]
    rw [Item.Fits, Item.fitsEntries_iff, Holds, holdsMembers_iff, hskip, hlen]
    refine and_congr_right fun _ => ⟨fun h m hm => ?_, fun h e he => ?_⟩
    · by_cases hk : m.1 = protoKey
      · exact .inl (by simpa [scriptFits] using hk)
      · obtain ⟨i, hi, he⟩ := h1 m (List.mem_filter.mpr ⟨hm, by simpa using hk⟩)
        obtain ⟨hkey, hfits⟩ := h _ he
        exact .inr ⟨trivial, hkey, (ih m (mem_of_mem_kept hm) hi).mp hfits⟩
    · obtain ⟨m, hm, hi, hkey⟩ := h2 e he
      obtain ⟨hm, hk⟩ := List.mem_filter.mp hm
      rcases h m hm with hp | ⟨-, hlen, hfits⟩
      · simp [scriptFits] at hp hk
        exact absurd hp hk
      · exact ⟨hkey ▸ hlen, (ih m (mem_of_mem_kept hm) hi).mpr hfits⟩

/-- What the core accepts on any target, it accepts where `usize` has 32 bits. -/
theorem wasmAccepts_of_fits {bits : ℕ} : ∀ {d : Document} {i : Item},
    item bits (d.serde double) = some i → i.Fits → Holds wasmAccepts d := by
  intro d
  induction d using Document.induct with
  | null | bool _ | string _ =>
    intro i h hfits
    cases h
    exact hfits
  | number l =>
    intro i h _
    obtain ⟨z, hz, -⟩ := Option.map_eq_some_iff.mp h
    exact (isI64_of_asI64 double hz).1
  | array ds ih =>
    intro i h hfits
    rw [item_array] at h
    obtain ⟨is, his, rfl⟩ := Option.map_eq_some_iff.mp h
    obtain ⟨hlen, h1, -⟩ := mapM_eq_some his
    rw [Item.Fits, Item.fitsItems_iff, hlen] at hfits
    rw [Holds, holdsItems_iff]
    refine ⟨hfits.1, fun d hd => ?_⟩
    obtain ⟨i, hi, hd'⟩ := h1 d hd
    exact ih d hd hd' (hfits.2 i hi)
  | object ms ih =>
    intro i h hfits
    rw [item_object] at h
    obtain ⟨es, hes, rfl⟩ := Option.map_eq_some_iff.mp h
    obtain ⟨hlen, h1, -⟩ := keyed_eq_some hes
    rw [Item.Fits, Item.fitsEntries_iff, hlen] at hfits
    rw [Holds, holdsMembers_iff]
    refine ⟨by simpa [wasmAccepts] using hfits.1, fun m hm => .inr ?_⟩
    obtain ⟨i, hi, he⟩ := h1 m hm
    obtain ⟨hkey, hfits⟩ := hfits.2 _ he
    exact ⟨trivial, hkey, ih m (mem_of_mem_kept hm) hi hfits⟩

theorem integerItem_fits (z : ℤ) : (integerItem 32 z).Fits := by
  unfold integerItem asUsize
  split_ifs <;> simp only [Item.Fits] <;> omega

/-- What the demand describes is accepted where `usize` has 32 bits. -/
theorem fits_of_wasmAccepts : ∀ {d : Document}, Holds wasmAccepts d →
    ∃ i, item 32 (d.serde double) = some i ∧ i.Fits := by
  intro d
  induction d using Document.induct with
  | null | bool _ | string _ => intro h; exact ⟨_, rfl, h⟩
  | number l =>
    intro h
    exact ⟨_, by rw [Document.serde, item, asI64_serde double h]; rfl, integerItem_fits _⟩
  | array ds ih =>
    intro h
    rw [Holds, holdsItems_iff] at h
    have hall : ∀ d ∈ ds, (item 32 (d.serde double)).isSome := fun d hd => by
      obtain ⟨i, hi, -⟩ := ih d hd (h.2 d hd)
      rw [hi]
      rfl
    obtain ⟨is, his⟩ := Option.isSome_iff_exists.mp (mapM_isSome.mpr hall)
    obtain ⟨hlen, -, h2⟩ := mapM_eq_some his
    refine ⟨.array is, by rw [item_array, his]; rfl, ?_⟩
    rw [Item.Fits, Item.fitsItems_iff, hlen]
    refine ⟨h.1, fun i hi => ?_⟩
    obtain ⟨d, hd, hi⟩ := h2 i hi
    obtain ⟨j, hj, hfits⟩ := ih d hd (h.2 d hd)
    rw [hi] at hj
    cases hj
    exact hfits
  | object ms ih =>
    intro h
    rw [Holds, holdsMembers_iff] at h
    have hms : ∀ m ∈ kept ms, (utf8 m.1).length < 2 ^ 32 ∧ Holds wasmAccepts m.2 := fun m hm =>
      ((h.2 m hm).resolve_left (by simp [wasmAccepts])).2
    have hall : ∀ m ∈ kept ms, (item 32 (m.2.serde double)).isSome := fun m hm => by
      obtain ⟨i, hi, -⟩ := ih m (mem_of_mem_kept hm) (hms m hm).2
      rw [hi]
      rfl
    obtain ⟨es, hes⟩ := Option.isSome_iff_exists.mp
      (keyed_isSome (f := fun d : Document => item 32 (d.serde double)) hall)
    obtain ⟨hlen, -, h2⟩ := keyed_eq_some hes
    refine ⟨.map es, by rw [item_object, hes]; rfl, ?_⟩
    rw [Item.Fits, Item.fitsEntries_iff, hlen]
    refine ⟨by simpa [wasmAccepts] using h.1, fun e he => ?_⟩
    obtain ⟨m, hm, hi, hkey⟩ := h2 e he
    obtain ⟨j, hj, hfits⟩ := ih m (mem_of_mem_kept hm) (hms m hm).2
    rw [hi] at hj
    cases hj
    exact ⟨hkey ▸ (hms m hm).1, hfits⟩

/-! ### Where both read the same -/

theorem integerItem_of_hasHead {bits : ℕ} (hbits : bits = 32 ∨ bits = 64) {z : ℤ} (h : HasHead z) :
    integerItem bits z = scriptInteger z := by
  obtain ⟨h0, h1⟩ := h
  unfold integerItem scriptInteger asUsize
  rcases hbits with rfl | rfl <;> split_ifs <;> congr 1 <;> omega

/-- **A plain document is one item to both sides.** -/
theorem item_of_plain {bits : ℕ} (hbits : bits = 32 ∨ bits = 64) : ∀ {d : Document}, Plain d →
    item bits (d.serde double) = scriptItem d.parse := by
  intro d
  induction d using Document.induct with
  | null | bool _ | string _ => intro _; rfl
  | number l =>
    rintro ⟨hi, hh⟩
    have hlt : l.whole < 2 ^ 53 := by
      unfold HasHead Literal.integer at hh
      split_ifs at hh <;> omega
    rw [Document.serde, item, asI64_serde double hi, Document.parse, scriptItem_number,
      Literal.safeInteger_of_integer hi.1 hlt, Option.map_some, Option.map_some,
      integerItem_of_hasHead hbits hh]
  | array ds ih =>
    intro h
    rw [Plain, Holds, holdsItems_iff] at h
    rw [item_array, scriptItem_parse_array]
    rw [mapM_congr fun d hd => ih d hd (h.2 d hd)]
  | object ms ih =>
    intro h
    rw [Plain, Holds, holdsMembers_iff] at h
    have hms : ∀ m ∈ kept ms, m.1 ≠ protoKey ∧ Plain m.2 := fun m hm =>
      ⟨((h.2 m hm).resolve_left (by simp [plain])).1, ((h.2 m hm).resolve_left (by simp [plain])).2.2⟩
    have hfilter : (kept ms).filter (fun m => m.1 ≠ protoKey) = kept ms :=
      List.filter_eq_self.mpr fun m hm => by simpa using (hms m hm).1
    have heq : ∀ m ∈ kept ms, item bits (m.2.serde double) = scriptItem m.2.parse := fun m hm =>
      ih m (mem_of_mem_kept hm) (hms m hm).2
    have hkeyed : keyed (fun d => item bits (d.serde double)) (kept ms) =
        keyed (fun d : Document => scriptItem d.parse) (kept ms) := by
      rw [keyed, keyed]
      congr 2
      exact List.map_congr_left fun m hm => by rw [heq m hm]
    rw [item_object, scriptItem_parse_object, hfilter, hkeyed]
    split_ifs with hall
    · rfl
    · cases hes : keyed (fun d : Document => scriptItem d.parse) (kept ms) with
      | none => rfl
      | some es =>
        refine absurd (fun m hm => ?_) hall
        obtain ⟨i, hi, -⟩ := (keyed_eq_some hes).2.1 m hm
        exact Option.isSome_of_eq_some hi

/-- A document that is one item to both sides, which can be written, is plain. -/
theorem plain_of_item : ∀ {d : Document} {i : Item}, scriptItem d.parse = some i →
    item 64 (d.serde double) = some i → i.Fits → Plain d := by
  intro d
  induction d using Document.induct with
  | null | bool _ | string _ => intro _ _ _ _; trivial
  | number l =>
    intro i _ h hfits
    obtain ⟨z, hz, rfl⟩ := Option.map_eq_some_iff.mp h
    obtain ⟨hi, rfl⟩ := isI64_of_asI64 double hz
    refine ⟨hi, ?_⟩
    have hb := isI64_bounds hi
    unfold integerItem at hfits
    unfold HasHead
    split_ifs at hfits with h0
    · rw [asUsize_of_lt h0 hb.2, Item.Fits] at hfits
      omega
    · rw [asUsize_of_lt (by omega) (by omega), Item.Fits] at hfits
      omega
  | array ds ih =>
    intro i h h' hfits
    rw [scriptItem_parse_array] at h
    rw [item_array] at h'
    obtain ⟨is, his, rfl⟩ := Option.map_eq_some_iff.mp h
    obtain ⟨js, hjs, hij⟩ := Option.map_eq_some_iff.mp h'
    cases hij
    rw [Item.Fits, Item.fitsItems_iff] at hfits
    rw [Plain, Holds, holdsItems_iff]
    refine ⟨trivial, fun d hd => ?_⟩
    have heq := mapM_inj his hjs d hd
    obtain ⟨i, hi, hd'⟩ := (mapM_eq_some his).2.1 d hd
    exact ih d hd hd' (heq ▸ hd') (hfits.2 i hi)
  | object ms ih =>
    intro i h h' hfits
    rw [scriptItem_parse_object] at h
    rw [item_object] at h'
    split_ifs at h with hall
    obtain ⟨es, hes, rfl⟩ := Option.map_eq_some_iff.mp h
    obtain ⟨es', hes', hij⟩ := Option.map_eq_some_iff.mp h'
    cases hij
    obtain ⟨hlen, -, h2⟩ := keyed_eq_some hes
    obtain ⟨hlen', h1', -⟩ := keyed_eq_some hes'
    have hproto : ∀ m ∈ kept ms, m.1 ≠ protoKey := fun m hm => by
      simpa using List.length_filter_eq_length_iff.mp (hlen.symm.trans hlen') m hm
    rw [Item.Fits, Item.fitsEntries_iff] at hfits
    rw [Plain, Holds, holdsMembers_iff]
    refine ⟨trivial, fun m hm => .inr ⟨hproto m hm, trivial, ?_⟩⟩
    obtain ⟨i, hi, he⟩ := h1' m hm
    obtain ⟨m', hm', hi', hkey⟩ := h2 _ he
    have hmm : m' = m :=
      List.inj_on_of_nodup_map (nodup_kept ms) (List.mem_of_mem_filter hm') hm (utf8_inj hkey)
    subst hmm
    exact ih m' (mem_of_mem_kept hm) hi' hi (hfits.2 _ he).2

/-! ### The encoders -/

theorem scriptCbor_isSome (d : Document) : (scriptCbor d.parse).toOption.isSome ↔ ¬ ScriptRefuses d := by
  rw [ScriptRefuses, not_not, scriptCbor_toOption, ← scriptItem_isSome]
  cases h : scriptItem d.parse with
  | none => simp
  | some i =>
    rw [Option.bind_some, Item.encode_isSome, fits_scriptItem h]
    simp

theorem canonicalCbor_toOption (bits : ℕ) (v : Json) :
    (canonicalCbor bits v).toOption = (item bits v).bind Item.encode := encode_toOption bits v

theorem wasm_isSome (d : Document) :
    (canonicalCbor 32 (d.serde double)).toOption.isSome ↔ ¬ WasmRefuses d := by
  rw [WasmRefuses, not_not, canonicalCbor_toOption]
  constructor
  · intro h
    obtain ⟨b, hb⟩ := Option.isSome_iff_exists.mp h
    obtain ⟨i, hi, hb⟩ := Option.bind_eq_some_iff.mp hb
    exact wasmAccepts_of_fits double hi ((Item.encode_isSome i).mp (Option.isSome_of_eq_some hb))
  · intro h
    obtain ⟨i, hi, hfits⟩ := fits_of_wasmAccepts double h
    rw [hi, Option.bind_some]
    exact (Item.encode_isSome i).mpr hfits

/-- The two encoders agree on a document: they reject on both sides or produce the same
bytes. -/
def Agree (bits : ℕ) (d : Document) : Prop :=
  (scriptCbor d.parse).toOption = (canonicalCbor bits (d.serde double)).toOption

/-- **The encoders agree on both targets exactly at plain documents and at documents that
both sides refuse.** -/
theorem canonicalCbor_agree_iff (d : Document) : (Agree double 64 d ∧ Agree double 32 d) ↔
    Plain d ∨ (ScriptRefuses d ∧ WasmRefuses d) := by
  constructor
  · rintro ⟨h64, h32⟩
    by_cases hs : ScriptRefuses d
    · right
      refine ⟨hs, ?_⟩
      by_contra hw
      rw [← wasm_isSome double, ← h32, scriptCbor_isSome] at hw
      exact hw hs
    · left
      obtain ⟨b, hb⟩ := Option.isSome_iff_exists.mp ((scriptCbor_isSome d).mpr hs)
      rw [Agree, hb] at h64
      rw [scriptCbor_toOption] at hb
      rw [canonicalCbor_toOption] at h64
      obtain ⟨i, hi, hib⟩ := Option.bind_eq_some_iff.mp hb
      obtain ⟨j, hj, hjb⟩ := Option.bind_eq_some_iff.mp h64.symm
      obtain rfl := Item.encode_prefix hib hjb (List.prefix_refl b)
      exact plain_of_item double hi hj ((Item.encode_isSome i).mp (Option.isSome_of_eq_some hib))
  · rintro (hp | ⟨hs, hw⟩)
    · constructor
      · rw [Agree, scriptCbor_toOption, canonicalCbor_toOption, item_of_plain double (.inr rfl) hp]
      · rw [Agree, scriptCbor_toOption, canonicalCbor_toOption, item_of_plain double (.inl rfl) hp]
    · have hscript : (scriptCbor d.parse).toOption = none := by
        rw [← Option.not_isSome_iff_eq_none, scriptCbor_isSome]
        exact not_not_intro hs
      have hcore : ∀ bits, (canonicalCbor bits (d.serde double)).toOption = none := fun bits => by
        rw [canonicalCbor_toOption, Option.bind_eq_none_iff]
        intro i hi
        by_contra he
        have hfits := (Item.encode_isSome i).mp (Option.isSome_iff_ne_none.mpr he)
        exact hw (wasmAccepts_of_fits double hi hfits)
      exact ⟨hscript.trans (hcore 64).symm, hscript.trans (hcore 32).symm⟩

/-- `1.0`. -/
def pointDocument : Document := .number { whole := 1, fraction := some [0] }

/-- `{"__proto__": 1}`. -/
def protoDocument : Document := .object [("__proto__", .number { whole := 1 })]

/-- `4294967296`. -/
def wideDocument : Document := .number { whole := 4294967296 }

/-- The bits of `1.0`. -/
def pointBits : Literal → UInt64 := fun _ => 0x3ff0000000000000

/-- The encoders do not agree at `1.0`, which only the script accepts, at a member with the key
`__proto__`, which only the script drops, and at `4294967296`, which only a 32-bit target
accepts. -/
theorem encoders_differ :
    (¬ Agree pointBits 64 pointDocument ∧ scriptCbor pointDocument.parse = .ok [1] ∧
      canonicalCbor 64 (pointDocument.serde pointBits) = .error notSafe) ∧
    (¬ Agree pointBits 64 protoDocument ∧ scriptCbor protoDocument.parse = .ok [0xa0]) ∧
    (¬ Agree pointBits 32 wideDocument ∧ canonicalCbor 32 (wideDocument.serde pointBits) = .ok [0]) := by
  unfold Agree
  decide +kernel

end Knolo.Harness
