import Knolo.Core.Contract
import Knolo.Core.Json
import Knolo.Library.Cbor
import Knolo.Library.StableSort
import Mathlib.Data.List.Perm.Basic

/-!
# Canonical CBOR

`knolo-agent-core/src/harness/cbor.rs`: the bytes a JSON value is hashed as.

The encoder is an instance of the code of `Library.Cbor`: it reads a value as an item
(`item`), with the members of an object in the byte order of their keys, and writes the item
(`canonicalCbor_eq_ok`). So what is accepted is encoded faithfully
(`canonicalCbor_faithful`): equal encodings are of equal values, no encoding is a proper prefix
of another, and the order in which the members of an object were inserted leaves no trace.

The width of `usize` is a parameter, since the source casts integers to it.
-/

namespace Knolo.Harness

open Core Library Library.Cbor Library.StableSort

/-! ### Texts -/

/-- The bytes of a text. -/
def utf8 (s : String) : List UInt8 := s.toByteArray.data.toList

theorem utf8_inj {s t : String} (h : utf8 s = utf8 t) : s = t :=
  String.toByteArray_inj.mp (ByteArray.ext (Array.toList_inj.mp h))

/-- Texts in the order of their bytes. -/
def compareUtf8 (left right : String) : Ordering := compare (utf8 left) (utf8 right)

instance : Std.TransCmp compareUtf8 where
  eq_swap := (inferInstance : Std.OrientedCmp fun a b : List UInt8 => compare a b).eq_swap
  isLE_trans := (inferInstance : Std.TransCmp fun a b : List UInt8 => compare a b).isLE_trans

theorem eq_of_compareUtf8 {s t : String} (h : compareUtf8 s t = .eq) : s = t :=
  utf8_inj ((inferInstance : Std.LawfulEqCmp fun a b : List UInt8 => compare a b).eq_of_compare h)

/-- Entries in the order of their keys. -/
def byKey {α : Type} (left right : String × α) : Ordering := compareUtf8 left.1 right.1

instance {α : Type} : Std.TransCmp (byKey (α := α)) where
  eq_swap := (inferInstance : Std.OrientedCmp compareUtf8).eq_swap
  isLE_trans := (inferInstance : Std.TransCmp compareUtf8).isLE_trans

/-- Sorting looks at the keys of entries only. -/
theorem map_sortBy_byKey {α β : Type} (f : α → β) (entries : List (String × α)) :
    (sortBy byKey entries).map (fun e => (e.1, f e.2)) =
      sortBy byKey (entries.map fun e => (e.1, f e.2)) :=
  map_sortBy _ fun _ _ _ _ => rfl

/-! ### What both encoders write -/

section Heads

variable {ε : Type} (tooLong : ε)

/-- A head: the major type and the length; `tooLong` is the error. -/
def encodeLength (major length : ℕ) : Except ε (List UInt8) :=
  if length < 24 then .ok [.ofNat (major <<< 5 ||| length)]
  else if length ≤ 0xff then .ok [.ofNat (major <<< 5 ||| 24), .ofNat length]
  else if length ≤ 0xffff then
    .ok [.ofNat (major <<< 5 ||| 25), .ofNat (length >>> 8), .ofNat (length &&& 0xff)]
  else if length ≤ 0xffffffff then
    .ok [.ofNat (major <<< 5 ||| 26), .ofNat (length >>> 24), .ofNat (length >>> 16),
      .ofNat (length >>> 8), .ofNat length]
  else .error tooLong

/-- A text: its length, then its bytes. -/
def encodeText (text : String) : Except ε (List UInt8) := do
  return (← encodeLength tooLong 3 (utf8 text).length) ++ utf8 text

/-- Keys and encoded members, one after the other. -/
def encodeEntries : List (String × Except ε (List UInt8)) → Except ε (List UInt8)
  | [] => .ok []
  | (key, item) :: entries => do
    return (← encodeText tooLong key) ++ ((← item) ++ (← encodeEntries entries))

/-- An encoder of heads writes the heads of the code. -/
theorem encodeLength_toOption (major length : ℕ) :
    (encodeLength tooLong major length).toOption = head major length := by
  unfold encodeLength head argument
  split_ifs <;> simp only [Except.toOption, Option.map_some, Option.map_none]
  rw [show (0xff : ℕ) = 2 ^ 8 - 1 from rfl, Nat.and_two_pow_sub_one_eq_mod,
    ofNat_inj.mpr (Nat.mod_mod_of_dvd length (by decide : 256 ∣ 2 ^ 8))]

theorem toOption_bind {α β : Type} (x : Except ε α) (f : α → Except ε β) :
    (x >>= f).toOption = x.toOption.bind fun a => (f a).toOption := by
  cases x <;> rfl

theorem encodeText_toOption (text : String) :
    (encodeText tooLong text).toOption = Item.encodeText (utf8 text) := by
  rw [encodeText, toOption_bind, encodeLength_toOption]
  unfold Item.encodeText
  cases head 3 (utf8 text).length <;> rfl

/-- The items of keys and values, if all values have one. -/
def entryItems : List (String × Option Item) → Option (List (List UInt8 × Item))
  | [] => some []
  | (key, item) :: entries => do return (utf8 key, ← item) :: (← entryItems entries)

/-- Sorting entries and writing them out is sorting their items and encoding these. -/
theorem encodeEntries_toOption {entries : List (String × Except ε (List UInt8))}
    {items : List (String × Option Item)}
    (h : entries.map (fun e => (e.1, e.2.toOption)) = items.map fun e => (e.1, e.2.bind Item.encode)) :
    (encodeEntries tooLong (sortBy byKey entries)).toOption =
      (entryItems (sortBy byKey items)).bind Item.encodeEntries := by
  have key : ∀ (es : List (String × Except ε (List UInt8))) (is : List (String × Option Item)),
      es.map (fun e => (e.1, e.2.toOption)) = is.map (fun e => (e.1, e.2.bind Item.encode)) →
        (encodeEntries tooLong es).toOption = (entryItems is).bind Item.encodeEntries := by
    intro es
    induction es with
    | nil =>
      intro is h
      obtain rfl := List.map_eq_nil_iff.mp h.symm
      rfl
    | cons e es ih =>
      rintro (_ | ⟨i, is⟩) h
      · cases h
      obtain ⟨k, v⟩ := e
      obtain ⟨l, j⟩ := i
      simp only [List.map_cons, List.cons.injEq, Prod.mk.injEq] at h
      obtain ⟨⟨rfl, hv⟩, h⟩ := h
      simp only [encodeEntries, toOption_bind, encodeText_toOption, hv, ih is h, entryItems]
      cases j with
      | none => simp
      | some j =>
        cases entryItems is with
        | none => simp
        | some l =>
          rfl
  refine key _ _ ?_
  rw [map_sortBy_byKey Except.toOption, h, map_sortBy_byKey fun i : Option Item => i.bind Item.encode]

end Heads

/-! ### The encoder of the core -/

/-- `as_i64`. -/
def asI64 : JsonNumber → Option ℤ
  | .posInt n => if n < 2 ^ 63 then some n else none
  | .negInt z => some z
  | .float _ => none

/-- `as usize`: the integer modulo the width. -/
def asUsize (bits : ℕ) (z : ℤ) : ℕ := (z % 2 ^ bits).toNat

/-- The number is not an integer. -/
def notSafe : CoreError := .schemaViolation "canonical CBOR numbers must be safe integers"

/-- The length has no head. -/
def tooLong : CoreError := .schemaViolation "canonical CBOR length exceeds 32-bit encoding"

/-- A number. -/
def encodeNumber (bits : ℕ) (number : JsonNumber) : Except CoreError (List UInt8) :=
  match asI64 number with
  | none => .error notSafe
  | some integer =>
    if 0 ≤ integer then encodeLength tooLong 0 (asUsize bits integer)
    else encodeLength tooLong 1 (asUsize bits (-1 - integer))

mutual

/-- The encoder; `bits` is the width of `usize`. -/
def encode (bits : ℕ) : Json → Except CoreError (List UInt8)
  | .null => .ok [0xf6]
  | .bool true => .ok [0xf5]
  | .bool false => .ok [0xf4]
  | .string text => encodeText tooLong text
  | .number number => encodeNumber bits number
  | .array items => do return (← encodeLength tooLong 4 items.length) ++ (← encodeItems bits items)
  | .object map => do
    let entries := sortBy byKey (encodeMembers bits map)
    return (← encodeLength tooLong 5 entries.length) ++ (← encodeEntries tooLong entries)

/-- The items of an array, one after the other. -/
def encodeItems (bits : ℕ) : List Json → Except CoreError (List UInt8)
  | [] => .ok []
  | item :: items => do return (← encode bits item) ++ (← encodeItems bits items)

/-- The members of an object, each with its encoding. -/
def encodeMembers (bits : ℕ) : List (String × Json) → List (String × Except CoreError (List UInt8))
  | [] => []
  | (key, item) :: map => (key, encode bits item) :: encodeMembers bits map

end

/-- The bytes of a value. -/
def canonicalCbor (bits : ℕ) (value : Json) : Except CoreError (List UInt8) := encode bits value

/-! ### Reading a value as an item -/

/-- The item of an integer. -/
def integerItem (bits : ℕ) (integer : ℤ) : Item :=
  if 0 ≤ integer then .unsigned (asUsize bits integer) else .negative (asUsize bits (-1 - integer))

mutual

/-- The item a value is encoded as, if all its numbers are integers. -/
def item (bits : ℕ) : Json → Option Item
  | .null => some .null
  | .bool b => some (.bool b)
  | .string text => some (.text (utf8 text))
  | .number number => (asI64 number).map (integerItem bits)
  | .array items => (arrayItems bits items).map .array
  | .object map => (entryItems (sortBy byKey (memberItems bits map))).map .map

/-- The items of an array. -/
def arrayItems (bits : ℕ) : List Json → Option (List Item)
  | [] => some []
  | v :: vs => do return (← item bits v) :: (← arrayItems bits vs)

/-- The items of the members of an object. -/
def memberItems (bits : ℕ) : List (String × Json) → List (String × Option Item)
  | [] => []
  | (key, v) :: map => (key, item bits v) :: memberItems bits map

end

theorem length_arrayItems {bits : ℕ} : ∀ {vs : List Json} {is : List Item},
    arrayItems bits vs = some is → is.length = vs.length := by
  intro vs
  induction vs with
  | nil =>
    intro is h
    cases h
    rfl
  | cons v vs ih =>
    intro is h
    simp only [arrayItems, Option.bind_eq_bind, Option.bind_eq_some_iff, Option.pure_def,
      Option.some.injEq] at h
    obtain ⟨i, -, js, hjs, rfl⟩ := h
    rw [List.length_cons, List.length_cons, ih hjs]

theorem length_entryItems : ∀ {es : List (String × Option Item)} {is : List (List UInt8 × Item)},
    entryItems es = some is → is.length = es.length := by
  intro es
  induction es with
  | nil =>
    intro is h
    cases h
    rfl
  | cons e es ih =>
    intro is h
    simp only [entryItems, Option.bind_eq_bind, Option.bind_eq_some_iff, Option.pure_def,
      Option.some.injEq] at h
    obtain ⟨i, -, js, hjs, rfl⟩ := h
    rw [List.length_cons, List.length_cons, ih hjs]

theorem encodeNumber_toOption (bits : ℕ) (number : JsonNumber) :
    (encodeNumber bits number).toOption = ((asI64 number).map (integerItem bits)).bind Item.encode := by
  unfold encodeNumber
  cases asI64 number with
  | none => rfl
  | some z =>
    simp only [Option.map_some, Option.bind_some, integerItem]
    split_ifs
    · exact encodeLength_toOption ..
    · exact encodeLength_toOption ..

mutual

/-- **The encoder writes the item it reads.** -/
theorem encode_toOption (bits : ℕ) : ∀ v : Json,
    (encode bits v).toOption = (item bits v).bind Item.encode
  | .null | .bool true | .bool false => rfl
  | .string text => encodeText_toOption ..
  | .number number => encodeNumber_toOption ..
  | .array items => by
    rw [encode, toOption_bind, encodeLength_toOption, item]
    simp only [toOption_bind, encodeItems_toOption bits items]
    cases h : arrayItems bits items with
    | none => simp
    | some is =>
      rw [← length_arrayItems h]
      rfl
  | .object map => by
    rw [encode, toOption_bind, encodeLength_toOption, item]
    simp only [toOption_bind, encodeEntries_toOption tooLong (encodeMembers_toOption bits map)]
    cases h : entryItems (sortBy byKey (memberItems bits map)) with
    | none => simp
    | some is =>
      have hlen := congrArg List.length (encodeMembers_toOption bits map)
      rw [List.length_map, List.length_map] at hlen
      rw [length_sortBy, hlen, ← @length_sortBy _ byKey, ← length_entryItems h]
      rfl

theorem encodeItems_toOption (bits : ℕ) : ∀ vs : List Json,
    (encodeItems bits vs).toOption = (arrayItems bits vs).bind Item.encodeItems
  | [] => rfl
  | v :: vs => by
    simp only [encodeItems, toOption_bind, encode_toOption bits v, encodeItems_toOption bits vs,
      arrayItems]
    cases item bits v with
    | none => rfl
    | some i =>
      cases arrayItems bits vs with
      | none => simp
      | some is => rfl

theorem encodeMembers_toOption (bits : ℕ) : ∀ ms : List (String × Json),
    (encodeMembers bits ms).map (fun e => (e.1, e.2.toOption)) =
      (memberItems bits ms).map fun e => (e.1, e.2.bind Item.encode)
  | [] => rfl
  | (key, v) :: ms => by
    rw [encodeMembers, memberItems, List.map_cons, List.map_cons, encode_toOption bits v,
      encodeMembers_toOption bits ms]

end

/-- A value is accepted with the bytes of its item. -/
theorem canonicalCbor_eq_ok {bits : ℕ} {v : Json} {b : List UInt8} :
    canonicalCbor bits v = .ok b ↔ ∃ i, item bits v = some i ∧ i.encode = some b := by
  have h := encode_toOption bits v
  rw [canonicalCbor, ← Option.bind_eq_some_iff, ← h]
  cases encode bits v <;> simp [Except.toOption]

/-! ### Values -/

/-- A number the JSON library can hold. -/
def ValidNumber : JsonNumber → Prop
  | .posInt n => n < 2 ^ 64
  | .negInt z => -2 ^ 63 ≤ z ∧ z < 0
  | .float _ => True

mutual

/-- A value the JSON library can hold: its integers are in range, and an object has one
member for each key. -/
def Valid : Json → Prop
  | .number n => ValidNumber n
  | .array items => ValidItems items
  | .object map => (map.map Prod.fst).Nodup ∧ ValidMembers map
  | _ => True

/-- The same of all items. -/
def ValidItems : List Json → Prop
  | [] => True
  | v :: vs => Valid v ∧ ValidItems vs

/-- The same of all members. -/
def ValidMembers : List (String × Json) → Prop
  | [] => True
  | (_, v) :: map => Valid v ∧ ValidMembers map

end

mutual

/-- Equality of values: the order of the members of an object does not count, at any
depth. -/
def Same : Json → Json → Prop
  | .array vs, .array ws => SameItems vs ws
  | .object ms, .object ns => ∃ ns', ns'.Perm ns ∧ SameMembers ms ns'
  | v, w => v = w

/-- The same of items. -/
def SameItems : List Json → List Json → Prop
  | [], [] => True
  | v :: vs, w :: ws => Same v w ∧ SameItems vs ws
  | _, _ => False

/-- The same of members. -/
def SameMembers : List (String × Json) → List (String × Json) → Prop
  | [], [] => True
  | (k, v) :: ms, (l, w) :: ns => k = l ∧ Same v w ∧ SameMembers ms ns
  | _, _ => False

end

theorem validMembers_iff {ms : List (String × Json)} : ValidMembers ms ↔ ∀ m ∈ ms, Valid m.2 := by
  induction ms with
  | nil => simp [ValidMembers]
  | cons m ms ih => simp [ValidMembers, ih]

theorem encodeMembers_eq_map (bits : ℕ) (ms : List (String × Json)) :
    encodeMembers bits ms = ms.map fun m => (m.1, encode bits m.2) := by
  induction ms with
  | nil => rfl
  | cons m ms ih => rw [encodeMembers, ih, List.map_cons]

theorem memberItems_eq_map (bits : ℕ) (ms : List (String × Json)) :
    memberItems bits ms = ms.map fun m => (m.1, item bits m.2) := by
  induction ms with
  | nil => rfl
  | cons m ms ih => rw [memberItems, ih, List.map_cons]

/-! ### The order of members -/

/-- Entries with one entry for each key are sorted in one way. -/
theorem sortBy_byKey_perm {α : Type} {es fs : List (String × α)} (hp : es.Perm fs)
    (hkeys : (es.map Prod.fst).Nodup) : sortBy byKey es = sortBy byKey fs := by
  refine sortBy_eq_of_perm hp fun e he f hf h => ?_
  exact List.inj_on_of_nodup_map hkeys he hf (eq_of_compareUtf8 h)

mutual

/-- **Insertion order leaves no trace**: equal values are encoded the same. -/
theorem encode_eq_of_same (bits : ℕ) : ∀ {v w : Json}, Valid v → Same v w → encode bits v = encode bits w
  | .array vs, .array ws, hv, h => by
    obtain ⟨hlen, hitems⟩ := encodeItems_eq_of_same bits hv h
    rw [encode, encode, hlen, hitems]
  | .object ms, .object ns, hv, h => by
    obtain ⟨hkeys, hms⟩ := hv
    obtain ⟨ns', hp, hsame⟩ := h
    have hmembers := encodeMembers_eq_of_same bits hms hsame
    have hsort : sortBy byKey (encodeMembers bits ms) = sortBy byKey (encodeMembers bits ns) := by
      refine sortBy_byKey_perm ?_ ?_
      · rw [hmembers, encodeMembers_eq_map, encodeMembers_eq_map]
        exact hp.map _
      · rw [encodeMembers_eq_map, List.map_map]
        exact hkeys
    rw [encode, encode, hsort]
  | .null, .null, _, _ => rfl
  | .bool _, .bool _, _, h | .number _, .number _, _, h | .string _, .string _, _, h => by
    cases h
    rfl

theorem encodeItems_eq_of_same (bits : ℕ) : ∀ {vs ws : List Json}, ValidItems vs → SameItems vs ws →
    vs.length = ws.length ∧ encodeItems bits vs = encodeItems bits ws
  | [], [], _, _ => ⟨rfl, rfl⟩
  | v :: vs, w :: ws, hv, h => by
    obtain ⟨hlen, hitems⟩ := encodeItems_eq_of_same bits hv.2 h.2
    rw [encodeItems, encodeItems, encode_eq_of_same bits hv.1 h.1, hitems]
    exact ⟨congrArg Nat.succ hlen, rfl⟩

theorem encodeMembers_eq_of_same (bits : ℕ) : ∀ {ms ns : List (String × Json)}, ValidMembers ms →
    SameMembers ms ns → encodeMembers bits ms = encodeMembers bits ns
  | [], [], _, _ => rfl
  | (k, v) :: ms, (l, w) :: ns, hv, h => by
    obtain ⟨rfl, hvw, h⟩ := h
    rw [encodeMembers, encodeMembers, encode_eq_of_same bits hv.1 hvw,
      encodeMembers_eq_of_same bits hv.2 h]

end

/-! ### What an item tells of its value -/

theorem asUsize_of_lt {z : ℤ} (h0 : 0 ≤ z) (h : z < 2 ^ 63) : asUsize 64 z = z.toNat := by
  unfold asUsize
  congr 1
  omega

theorem asI64_bounds {n : JsonNumber} {z : ℤ} (hv : ValidNumber n) (h : asI64 n = some z) :
    -2 ^ 63 ≤ z ∧ z < 2 ^ 63 := by
  cases n with
  | posInt n =>
    simp only [asI64] at h
    split_ifs at h
    cases h
    omega
  | negInt z' =>
    cases h
    exact ⟨hv.1, by have := hv.2; omega⟩
  | float _ => cases h

theorem asI64_inj {m n : JsonNumber} {z : ℤ} (hm : ValidNumber m) (hn : ValidNumber n)
    (h : asI64 m = some z) (h' : asI64 n = some z) : m = n := by
  cases m <;> cases n <;> simp only [asI64, ValidNumber] at h h' hm hn <;> grind

theorem integerItem_inj {y z : ℤ} (hy : -2 ^ 63 ≤ y ∧ y < 2 ^ 63) (hz : -2 ^ 63 ≤ z ∧ z < 2 ^ 63)
    (h : integerItem 64 y = integerItem 64 z) : y = z := by
  unfold integerItem at h
  split_ifs at h with h0 h1 h1
  · rw [asUsize_of_lt h0 hy.2, asUsize_of_lt h1 hz.2, Item.unsigned.injEq] at h
    omega
  · rw [asUsize_of_lt (by omega) (by omega), asUsize_of_lt (by omega) (by omega), Item.negative.injEq] at h
    omega

theorem entryItems_inj : ∀ {es fs : List (String × Option Item)} {is : List (List UInt8 × Item)},
    entryItems es = some is → entryItems fs = some is → es = fs := by
  intro es
  induction es with
  | nil =>
    intro fs is h h'
    cases h
    obtain rfl := List.length_eq_zero_iff.mp (length_entryItems h').symm
    rfl
  | cons e es ih =>
    rintro (_ | ⟨f, fs⟩) is h h'
    · cases h'
      cases length_entryItems h
    · obtain ⟨k, i⟩ := e
      obtain ⟨l, j⟩ := f
      simp only [entryItems, Option.bind_eq_bind, Option.bind_eq_some_iff, Option.pure_def,
        Option.some.injEq] at h h'
      obtain ⟨i, rfl, is, his, rfl⟩ := h
      obtain ⟨j, rfl, js, hjs, h'⟩ := h'
      simp only [List.cons.injEq, Prod.mk.injEq] at h'
      obtain ⟨⟨hkey, rfl⟩, rfl⟩ := h'
      rw [utf8_inj hkey, ih his hjs]

/-- All entries that have items have one. -/
theorem isSome_of_entryItems {es : List (String × Option Item)} {is : List (List UInt8 × Item)}
    (h : entryItems es = some is) : ∀ e ∈ es, e.2.isSome := by
  induction es generalizing is with
  | nil => simp
  | cons e es ih =>
    simp only [entryItems, Option.bind_eq_bind, Option.bind_eq_some_iff, Option.pure_def,
      Option.some.injEq] at h
    obtain ⟨i, hi, js, hjs, -⟩ := h
    exact List.forall_mem_cons.mpr ⟨by rw [hi]; rfl, ih hjs⟩

/-- A permutation of images is the image of a permutation. -/
theorem exists_perm_of_map_perm {α β : Type} {f : α → β} {xs ys : List α}
    (h : (xs.map f).Perm (ys.map f)) : ∃ zs : List α, zs.Perm ys ∧ xs.map f = zs.map f := by
  have hys : List.Forall₂ (fun b y => b = f y) (ys.map f) ys := by simp [List.forall₂_same]
  obtain ⟨zs, hzs, hp⟩ := List.perm_comp_forall₂ h hys
  refine ⟨zs, hp, ?_⟩
  rw [← List.forall₂_eq_eq_eq, List.forall₂_map_right_iff]
  exact hzs

/-- The kind of a value. -/
def kind : Json → ℕ
  | .null => 0
  | .bool _ => 1
  | .number _ => 2
  | .string _ => 3
  | .array _ => 4
  | .object _ => 5

/-- The kind of value an item is of. -/
def itemKind : Item → ℕ
  | .null => 0
  | .bool _ => 1
  | .unsigned _ | .negative _ => 2
  | .text _ => 3
  | .array _ => 4
  | .map _ => 5

theorem kind_of_item {bits : ℕ} {v : Json} {i : Item} (h : item bits v = some i) : itemKind i = kind v := by
  cases v with
  | null | bool _ | string _ => cases h; rfl
  | number n =>
    obtain ⟨z, -, rfl⟩ := Option.map_eq_some_iff.mp h
    unfold integerItem
    split_ifs <;> rfl
  | array _ | object _ =>
    obtain ⟨_, -, rfl⟩ := Option.map_eq_some_iff.mp h
    rfl

mutual

/-- **Values with the same item are equal.** -/
theorem same_of_item : ∀ {v w : Json} {i : Item}, Valid v → Valid w → item 64 v = some i →
    item 64 w = some i → Same v w := by
  intro v w i hv hw h h'
  have hkind := (kind_of_item h).symm.trans (kind_of_item h')
  match v, w with
  | .null, w =>
    cases w with
    | null => rfl
    | _ => simp [kind] at hkind
  | .bool _, w =>
    cases w with
    | bool _ =>
      cases h
      cases h'
      rfl
    | _ => simp [kind] at hkind
  | .string _, w =>
    cases w with
    | string _ =>
      cases h
      rw [utf8_inj (Item.text.inj (Option.some.inj h'))]
      rfl
    | _ => simp [kind] at hkind
  | .number _, w =>
    cases w with
    | number _ =>
      obtain ⟨y, hy, rfl⟩ := Option.map_eq_some_iff.mp h
      obtain ⟨z, hz, hyz⟩ := Option.map_eq_some_iff.mp h'
      cases integerItem_inj (asI64_bounds hw hz) (asI64_bounds hv hy) hyz
      rw [asI64_inj hv hw hy hz]
      rfl
    | _ => simp [kind] at hkind
  | .array vs, w =>
    cases w with
    | array ws =>
      obtain ⟨is, his, rfl⟩ := Option.map_eq_some_iff.mp h
      obtain ⟨js, hjs, hij⟩ := Option.map_eq_some_iff.mp h'
      cases hij
      exact sameItems_of_items hv hw his hjs
    | _ => simp [kind] at hkind
  | .object ms, w =>
    cases w with
    | object ns =>
      obtain ⟨is, his, rfl⟩ := Option.map_eq_some_iff.mp h
      obtain ⟨js, hjs, hij⟩ := Option.map_eq_some_iff.mp h'
      cases hij
      have hsort := entryItems_inj his hjs
      have hp : (memberItems 64 ms).Perm (memberItems 64 ns) :=
        sortBy_perm.symm.trans (by rw [hsort]; exact sortBy_perm)
      rw [memberItems_eq_map, memberItems_eq_map] at hp
      obtain ⟨ns', hp, heq⟩ := exists_perm_of_map_perm hp
      rw [← memberItems_eq_map, ← memberItems_eq_map] at heq
      refine ⟨ns', hp, sameMembers_of_items hv.2 ?_ ?_ heq⟩
      · rw [validMembers_iff]
        exact fun m hm => validMembers_iff.mp hw.2 m (hp.mem_iff.mp hm)
      · exact fun e he => isSome_of_entryItems his e (mem_sortBy.mpr he)
    | _ => simp [kind] at hkind

theorem sameItems_of_items : ∀ {vs ws : List Json} {is : List Item}, ValidItems vs → ValidItems ws →
    arrayItems 64 vs = some is → arrayItems 64 ws = some is → SameItems vs ws
  | [], ws, is, _, _, h, h' => by
    cases h
    obtain rfl := List.length_eq_zero_iff.mp (length_arrayItems h').symm
    trivial
  | v :: vs, [], is, _, _, h, h' => by
    cases h'
    cases length_arrayItems h
  | v :: vs, w :: ws, is, hv, hw, h, h' => by
    simp only [arrayItems, Option.bind_eq_bind, Option.bind_eq_some_iff, Option.pure_def,
      Option.some.injEq] at h h'
    obtain ⟨i, hi, is, his, rfl⟩ := h
    obtain ⟨j, hj, js, hjs, h'⟩ := h'
    cases h'
    exact ⟨same_of_item hv.1 hw.1 hi hj, sameItems_of_items hv.2 hw.2 his hjs⟩

theorem sameMembers_of_items : ∀ {ms ns : List (String × Json)}, ValidMembers ms → ValidMembers ns →
    (∀ e ∈ memberItems 64 ms, e.2.isSome) → memberItems 64 ms = memberItems 64 ns → SameMembers ms ns
  | [], [], _, _, _, _ => trivial
  | (k, v) :: ms, (l, w) :: ns, hv, hw, hsome, h => by
    simp only [memberItems, List.cons.injEq, Prod.mk.injEq] at h
    obtain ⟨⟨rfl, hi⟩, h⟩ := h
    obtain ⟨hsome, hrest⟩ := List.forall_mem_cons.mp hsome
    obtain ⟨i, hi'⟩ := Option.isSome_iff_exists.mp hsome
    exact ⟨rfl, same_of_item hv.1 hw.1 hi' (hi ▸ hi'), sameMembers_of_items hv.2 hw.2 hrest h⟩

end

/-! ### Values in key order -/

mutual

/-- The members of every object are in the order of their keys, as the map of the JSON
library keeps them. -/
def Ordered : Json → Prop
  | .array items => OrderedItems items
  | .object map => (map.map Prod.fst).Pairwise (fun k l => compareUtf8 k l = .lt) ∧ OrderedMembers map
  | _ => True

/-- The same of all items. -/
def OrderedItems : List Json → Prop
  | [] => True
  | v :: vs => Ordered v ∧ OrderedItems vs

/-- The same of all members. -/
def OrderedMembers : List (String × Json) → Prop
  | [] => True
  | (_, v) :: map => Ordered v ∧ OrderedMembers map

end

theorem keys_of_sameMembers : ∀ {ms ns : List (String × Json)}, SameMembers ms ns →
    ms.map Prod.fst = ns.map Prod.fst
  | [], [], _ => rfl
  | (_, _) :: _, (_, _) :: _, h => by
    rw [List.map_cons, List.map_cons, h.1, keys_of_sameMembers h.2.2]

/-- Two lists of members in key order that are permutations of each other are equal. -/
theorem eq_of_perm_of_ordered {ms ns : List (String × Json)} (hp : ms.Perm ns)
    (hms : (ms.map Prod.fst).Pairwise fun k l => compareUtf8 k l = .lt)
    (hns : (ns.map Prod.fst).Pairwise fun k l => compareUtf8 k l = .lt) : ms = ns := by
  rw [List.pairwise_map] at hms hns
  refine List.Perm.eq_of_pairwise (fun m n _ _ hmn hnm => ?_) hms hns hp
  have := @Std.OrientedCmp.gt_of_lt _ compareUtf8 _ _ _ hmn
  simp [this] at hnm

mutual

/-- Equal values in key order are the same value. -/
theorem eq_of_same : ∀ {v w : Json}, Ordered v → Ordered w → Same v w → v = w
  | .null, .null, _, _, _ => rfl
  | .bool _, .bool _, _, _, h | .number _, .number _, _, _, h | .string _, .string _, _, _, h => h
  | .array _, .array _, hv, hw, h => congrArg Json.array (eqItems_of_same hv hw h)
  | .object ms, .object ns, hv, hw, h => by
    obtain ⟨ns', hp, hsame⟩ := h
    have hms := hv.1
    rw [keys_of_sameMembers hsame] at hms
    obtain rfl := eq_of_perm_of_ordered hp hms hw.1
    rw [eqMembers_of_same hv.2 hw.2 hsame]

theorem eqItems_of_same : ∀ {vs ws : List Json}, OrderedItems vs → OrderedItems ws → SameItems vs ws →
    vs = ws
  | [], [], _, _, _ => rfl
  | _ :: _, _ :: _, hv, hw, h => by rw [eq_of_same hv.1 hw.1 h.1, eqItems_of_same hv.2 hw.2 h.2]

theorem eqMembers_of_same : ∀ {ms ns : List (String × Json)}, OrderedMembers ms → OrderedMembers ns →
    SameMembers ms ns → ms = ns
  | [], [], _, _, _ => rfl
  | (_, _) :: _, (_, _) :: _, hv, hw, h => by
    rw [h.1, eq_of_same hv.1 hw.1 h.2.1, eqMembers_of_same hv.2 hw.2 h.2.2]

end

/-! ### A faithful code -/

/-- **Canonical CBOR is a faithful code**: an encoding that begins another is that encoding,
and both are of the same value; and equal values, whatever the order of their members, are
encoded the same or rejected the same. -/
theorem canonicalCbor_faithful {v w : Json} (hv : Valid v) (hw : Valid w) :
    (∀ b c, canonicalCbor 64 v = .ok b → canonicalCbor 64 w = .ok c → b <+: c →
      b = c ∧ Same v w ∧ (Ordered v → Ordered w → v = w)) ∧
    (Same v w → canonicalCbor 64 v = canonicalCbor 64 w) := by
  refine ⟨fun b c hb hc hbc => ?_, fun h => encode_eq_of_same 64 hv h⟩
  obtain ⟨i, hi, hib⟩ := canonicalCbor_eq_ok.mp hb
  obtain ⟨j, hj, hjc⟩ := canonicalCbor_eq_ok.mp hc
  obtain rfl := Item.encode_prefix hib hjc hbc
  have hsame := same_of_item hv hw hi hj
  exact ⟨Option.some.inj (hib.symm.trans hjc), hsame, fun hov how => eq_of_same hov how hsame⟩

/-- A nested object. -/
def sampleValue : Json :=
  .object [("a", .array [.number (.posInt 1), .number (.negInt (-300))]), ("b", .string "é")]

/-- The same object, its members the other way round. -/
def sampleReordered : Json :=
  .object [("b", .string "é"), ("a", .array [.number (.posInt 1), .number (.negInt (-300))])]

/-- The code is faithful at a nested object and its reordering: they have one encoding. -/
theorem canonicalCbor_faithful_sample : Same sampleValue sampleReordered ∧
    canonicalCbor 64 sampleValue = .ok [0xa2, 0x61, 0x61, 0x82, 0x01, 0x39, 0x01, 0x2b, 0x61, 0x62, 0x62,
      0xc3, 0xa9] ∧ canonicalCbor 64 sampleReordered = canonicalCbor 64 sampleValue := by
  have hv : Valid sampleValue := by
    simp [sampleValue, Valid, ValidItems, ValidMembers, ValidNumber]
  have hw : Valid sampleReordered := by
    simp [sampleReordered, Valid, ValidItems, ValidMembers, ValidNumber]
  have hb : canonicalCbor 64 sampleValue = .ok [0xa2, 0x61, 0x61, 0x82, 0x01, 0x39, 0x01, 0x2b, 0x61, 0x62,
      0x62, 0xc3, 0xa9] := by decide +kernel
  have hc : canonicalCbor 64 sampleReordered = .ok [0xa2, 0x61, 0x61, 0x82, 0x01, 0x39, 0x01, 0x2b, 0x61,
      0x62, 0x62, 0xc3, 0xa9] := by decide +kernel
  have hsame := ((canonicalCbor_faithful hv hw).1 _ _ hb hc (List.prefix_refl _)).2.1
  exact ⟨hsame, hb, ((canonicalCbor_faithful hv hw).2 hsame).symm⟩

end Knolo.Harness
