import Knolo.Harness.Cbor
import Knolo.Script.Documents

/-!
# Canonical CBOR in the script

`packages/agents/src/dependencies/cbor.ts`: the encoder of the TypeScript package. A value is
first checked and copied (`asCbor`), then written (`encode`). The copy sets properties by
assignment, which for the key `__proto__` does not create a property: such a member is checked
and then dropped.

What is written is the item of the copy (`CborValue.encode_toOption`), in the code of
`Library.Cbor`.
-/

namespace Knolo.Harness

open Script Library Library.Cbor Library.StableSort

/-- What the encoder writes: `null`, booleans, texts, safe integers, arrays, objects. -/
inductive CborValue where
  | null
  | bool (b : Bool)
  | string (s : String)
  | number (z : ℤ)
  | array (items : List CborValue)
  | object (properties : List (String × CborValue))

/-- The key whose assignment sets the prototype. -/
def protoKey : String := "__proto__"

/-- `out[key] = value` on a new object. -/
def assign {α : Type} (out : List (String × α)) (p : String × α) : List (String × α) :=
  if p.1 = protoKey then out else setProperty p.1 p.2 out

/-- The values of properties that were converted, if all were. -/
def collect {ε α : Type} : List (String × Except ε α) → Except ε (List (String × α))
  | [] => .ok []
  | (key, value) :: ps => do return (key, ← value) :: (← collect ps)

mutual

/-- Check and copy a value. -/
def asCbor : JsValue → Except String CborValue
  | .null => .ok .null
  | .bool b => .ok (.bool b)
  | .string s => .ok (.string s)
  | .number x =>
    match x.safeInteger with
    | some z => .ok (.number z)
    | none => .error "canonical CBOR numbers must be safe integers"
  | .array items => do return .array (← asCborItems items)
  | .object record => do
    return .object ((← collect (ownProperties (asCborProperties record))).foldl assign [])

/-- Check and copy items. -/
def asCborItems : List JsValue → Except String (List CborValue)
  | [] => .ok []
  | v :: vs => do return (← asCbor v) :: (← asCborItems vs)

/-- Check and copy the values of properties. -/
def asCborProperties : List (String × JsValue) → List (String × Except String CborValue)
  | [] => []
  | (key, v) :: ps => (key, asCbor v) :: asCborProperties ps

end

namespace CborValue

/-- The length has no head. -/
def tooLong : String := "canonical CBOR length exceeds 32-bit encoding"

mutual

/-- Write a value. -/
def encode : CborValue → Except String (List UInt8)
  | .null => .ok [0xf6]
  | .bool b => .ok [if b then 0xf5 else 0xf4]
  | .string s => encodeText tooLong s
  | .number z => if 0 ≤ z then encodeLength tooLong 0 z.toNat else encodeLength tooLong 1 (-1 - z).toNat
  | .array items => do return (← encodeLength tooLong 4 items.length) ++ (← encodeItems items)
  | .object value => do
    let entries := sortBy byKey (ownProperties (encodeProperties value))
    return (← encodeLength tooLong 5 entries.length) ++ (← encodeEntries tooLong entries)

/-- The items of an array, one after the other. -/
def encodeItems : List CborValue → Except String (List UInt8)
  | [] => .ok []
  | v :: vs => do return (← encode v) ++ (← encodeItems vs)

/-- The properties of an object, each with its encoding. -/
def encodeProperties : List (String × CborValue) → List (String × Except String (List UInt8))
  | [] => []
  | (key, v) :: ps => (key, encode v) :: encodeProperties ps

end

end CborValue

/-- `canonicalCbor`. -/
def scriptCbor (value : JsValue) : Except String (List UInt8) := do (← asCbor value).encode

/-! ### Items -/

/-- The item of an integer. -/
def scriptInteger (z : ℤ) : Item := if 0 ≤ z then .unsigned z.toNat else .negative (-1 - z).toNat

namespace CborValue

mutual

/-- The item a value is written as. -/
def item : CborValue → Item
  | .null => .null
  | .bool b => .bool b
  | .string s => .text (utf8 s)
  | .number z => scriptInteger z
  | .array items => .array (itemList items)
  | .object value => .map ((sortBy byKey (ownProperties (itemProperties value))).map fun p => (utf8 p.1, p.2))

/-- The items of an array. -/
def itemList : List CborValue → List Item
  | [] => []
  | v :: vs => v.item :: itemList vs

/-- The items of properties. -/
def itemProperties : List (String × CborValue) → List (String × Item)
  | [] => []
  | (key, v) :: ps => (key, v.item) :: itemProperties ps

end

theorem itemList_eq_map (vs : List CborValue) : itemList vs = vs.map item := by
  induction vs with
  | nil => rfl
  | cons v vs ih => rw [itemList, ih, List.map_cons]

theorem itemProperties_eq_map (ps : List (String × CborValue)) :
    itemProperties ps = ps.map fun p => (p.1, p.2.item) := by
  induction ps with
  | nil => rfl
  | cons p ps ih => rw [itemProperties, ih, List.map_cons]

end CborValue

/-- Entries that all have an item. -/
theorem entryItems_some (ps : List (String × Item)) :
    entryItems (ps.map fun p => (p.1, some p.2)) = some (ps.map fun p => (utf8 p.1, p.2)) := by
  induction ps with
  | nil => rfl
  | cons p ps ih => simp [entryItems, ih]

namespace CborValue

mutual

/-- **The encoder writes the item of a value.** -/
theorem encode_toOption : ∀ v : CborValue, v.encode.toOption = v.item.encode
  | .null => rfl
  | .bool b => by cases b <;> rfl
  | .string s => encodeText_toOption ..
  | .number z => by
    rw [encode, item, scriptInteger]
    split_ifs
    · exact encodeLength_toOption ..
    · exact encodeLength_toOption ..
  | .array items => by
    rw [encode, toOption_bind, encodeLength_toOption, item, Item.encode]
    simp only [toOption_bind, encodeItems_toOption items, itemList_eq_map, List.length_map]
    rfl
  | .object value => by
    have hitems : (ownProperties (encodeProperties value)).map (fun e => (e.1, e.2.toOption)) =
        ((ownProperties (itemProperties value)).map fun p => (p.1, some p.2)).map
          fun e => (e.1, e.2.bind Item.encode) := by
      rw [ownProperties_map, encodeProperties_toOption value, ← ownProperties_map, List.map_map]
      rfl
    have hlen : (ownProperties (encodeProperties value)).length =
        (ownProperties (itemProperties value)).length := by
      simpa using congrArg List.length hitems
    rw [encode, toOption_bind, encodeLength_toOption, length_sortBy, hlen, item, Item.encode]
    simp only [toOption_bind, encodeEntries_toOption tooLong hitems, ← map_sortBy_byKey some,
      entryItems_some, Option.bind_some, List.length_map, length_sortBy]
    rfl

theorem encodeItems_toOption : ∀ vs : List CborValue,
    (encodeItems vs).toOption = Item.encodeItems (itemList vs)
  | [] => rfl
  | v :: vs => by
    simp only [encodeItems, toOption_bind, encode_toOption v, encodeItems_toOption vs]
    rfl

theorem encodeProperties_toOption : ∀ ps : List (String × CborValue),
    (encodeProperties ps).map (fun e => (e.1, e.2.toOption)) =
      (itemProperties ps).map fun e => (e.1, e.2.encode)
  | [] => rfl
  | (key, v) :: ps => by
    rw [encodeProperties, itemProperties, List.map_cons, List.map_cons, encode_toOption v,
      encodeProperties_toOption ps]

end

end CborValue

/-- The item a value is written as, if it is accepted. -/
def scriptItem (value : JsValue) : Option Item := (asCbor value).toOption.map CborValue.item

theorem scriptCbor_toOption (value : JsValue) :
    (scriptCbor value).toOption = (scriptItem value).bind Item.encode := by
  rw [scriptCbor, scriptItem, toOption_bind]
  cases (asCbor value).toOption with
  | none => rfl
  | some v => exact v.encode_toOption

/-! ### Objects -/

theorem asCborItems_toOption (vs : List JsValue) :
    (asCborItems vs).toOption.map CborValue.itemList = vs.mapM scriptItem := by
  induction vs with
  | nil => rfl
  | cons v vs ih =>
    rw [asCborItems, List.mapM_cons, ← ih, scriptItem, toOption_bind]
    simp only [toOption_bind]
    cases (asCbor v).toOption <;> cases (asCborItems vs).toOption <;> rfl

theorem asCborProperties_eq_map (ps : List (String × JsValue)) :
    asCborProperties ps = ps.map fun p => (p.1, asCbor p.2) := by
  induction ps with
  | nil => rfl
  | cons p ps ih => rw [asCborProperties, ih, List.map_cons]

/-- What is collected are the values, one of each property. -/
theorem collect_eq_ok {ε α : Type} {ps : List (String × Except ε α)} {qs : List (String × α)} :
    collect ps = .ok qs ↔ ps = qs.map fun q => (q.1, .ok q.2) := by
  induction ps generalizing qs with
  | nil => cases qs <;> simp [collect]
  | cons p ps ih =>
    obtain ⟨k, v⟩ := p
    cases v with
    | error e => cases qs <;> simp [collect, bind, Except.bind]
    | ok a =>
      cases hps : collect ps with
      | error e =>
        cases qs with
        | nil => simp [collect, hps, bind, Except.bind]
        | cons q qs => simp [collect, hps, bind, Except.bind, ← ih]
      | ok rs =>
        cases qs with
        | nil => simp [collect, hps, bind, Except.bind, pure, Except.pure]
        | cons q qs =>
          obtain ⟨l, b⟩ := q
          simp [collect, hps, bind, Except.bind, pure, Except.pure, ← ih, and_assoc]

theorem foldl_assign_perm {α : Type} {ps : List (String × α)} (h : (ps.map Prod.fst).Nodup) :
    (ps.foldl assign []).Perm (ps.filter fun p => p.1 ≠ protoKey) := by
  have hfold : ∀ (qs acc : List (String × α)), qs.foldl assign acc =
      (qs.filter fun p => p.1 ≠ protoKey).foldl (fun out p => setProperty p.1 p.2 out) acc := by
    intro qs
    induction qs with
    | nil => intro acc; rfl
    | cons q qs ih =>
      intro acc
      rw [List.foldl_cons, ih, assign, List.filter_cons]
      by_cases hq : q.1 = protoKey
      · rw [if_pos hq, if_neg (by simpa using hq)]
      · rw [if_neg hq, if_pos (by simpa using hq), List.foldl_cons]
  have hp := foldl_setProperty_perm (ps.filter fun p => p.1 ≠ protoKey)
  rw [kept_eq_self (h.sublist (List.filter_sublist.map _))] at hp
  rw [hfold]
  exact hp

/-- The copies of properties that are all accepted. -/
theorem exists_copies {ps : List (String × JsValue)} (h : ∀ p ∈ ps, (scriptItem p.2).isSome) :
    ∃ vs : List (String × CborValue), ps.map (fun p => (p.1, asCbor p.2)) = vs.map fun v => (v.1, .ok v.2) := by
  induction ps with
  | nil => exact ⟨[], rfl⟩
  | cons p ps ih =>
    obtain ⟨hp, hps⟩ := List.forall_mem_cons.mp h
    obtain ⟨vs, hvs⟩ := ih hps
    cases hv : asCbor p.2 with
    | error e => simp [scriptItem, hv, Except.toOption] at hp
    | ok v => exact ⟨(p.1, v) :: vs, by rw [List.map_cons, List.map_cons, hvs, hv]⟩

/-- The copy of an object is accepted if all its properties are, and has the items of those
whose key is not `__proto__`. -/
theorem scriptItem_object {ps : List (String × JsValue)} (h : (ps.map Prod.fst).Nodup) :
    scriptItem (.object ps) = if ∀ p ∈ ps, (scriptItem p.2).isSome then
      (entryItems (sortBy byKey ((ps.filter fun p => p.1 ≠ protoKey).map fun p =>
        (p.1, scriptItem p.2)))).map .map else none := by
  split_ifs with hall
  · obtain ⟨vs, hvs⟩ := exists_copies hall
    have hkeys : vs.map Prod.fst = ps.map Prod.fst := by
      have := congrArg (List.map Prod.fst) hvs
      rw [List.map_map, List.map_map] at this
      exact this.symm
    have hcollect : collect (ownProperties (asCborProperties ps)) = .ok (ownProperties vs) := by
      rw [asCborProperties_eq_map, hvs, collect_eq_ok, ownProperties_map]
    have hnodup : ((ownProperties vs).map Prod.fst).Nodup :=
      ((ownProperties_perm vs).map _).nodup_iff.mpr (hkeys ▸ h)
    -- the items of the kept properties, before and after the copy
    have hitems : (ps.filter fun p => p.1 ≠ protoKey).map (fun p => (p.1, scriptItem p.2)) =
        ((vs.filter fun v => v.1 ≠ protoKey).map fun v => (v.1, v.2.item)).map fun p => (p.1, some p.2) := by
      have := congrArg (fun l : List (String × Except String CborValue) => (l.filter fun p => p.1 ≠ protoKey).map
        fun p => (p.1, p.2.toOption.map CborValue.item)) hvs
      simp only [List.filter_map, List.map_map] at this ⊢
      exact this
    have hp : (ownProperties (((ownProperties vs).foldl assign []).map fun v => (v.1, v.2.item))).Perm
        ((vs.filter fun v => v.1 ≠ protoKey).map fun v => (v.1, v.2.item)) :=
      (ownProperties_perm _).trans (((foldl_assign_perm hnodup).trans ((ownProperties_perm vs).filter _)).map _)
    have hkept : (((vs.filter fun v => v.1 ≠ protoKey).map fun v => (v.1, v.2.item)).map Prod.fst).Nodup := by
      rw [List.map_map]
      exact (hkeys ▸ h : (vs.map Prod.fst).Nodup).sublist (List.filter_sublist.map _)
    rw [hitems, ← map_sortBy_byKey, entryItems_some, sortBy_byKey_perm hp.symm hkept,
      scriptItem, asCbor, hcollect]
    simp only [bind, Except.bind, pure, Except.pure, Except.toOption, Option.map_some, CborValue.item,
      CborValue.itemProperties_eq_map]
  · rw [scriptItem, asCbor]
    cases hc : collect (ownProperties (asCborProperties ps)) with
    | error e => rfl
    | ok qs =>
      refine absurd (fun p hp => ?_) hall
      rw [collect_eq_ok, asCborProperties_eq_map] at hc
      have hmem : (p.1, asCbor p.2) ∈ qs.map fun q => (q.1, (.ok q.2 : Except String CborValue)) := by
        rw [← hc]
        exact (ownProperties_perm _).mem_iff.mpr (List.mem_map_of_mem hp)
      obtain ⟨q, -, hq⟩ := List.mem_map.mp hmem
      rw [scriptItem, ← (Prod.mk.inj hq).2]
      rfl

end Knolo.Harness
