import Knolo.Host.Policy

/-!
# What a contract says

A schema with the keywords `type`, `required`, `properties`, `const` and `maximum` constrains a value at
every level (`Satisfies`), with numbers compared as the numbers they are. The gate compares a maximum in
double precision.

* `validateSchema_sound` — a value that is accepted satisfies its schema if and only if no number exceeds a
  maximum that it does not exceed in double precision (`Told`).
* `told_of_small` — integers below `2 ^ 53` are told apart.
-/

namespace Knolo.Host

open Core Library.Nearest

/-! ### Numbers and values -/

/-- The number that a JSON number is. -/
def numberValue : JsonNumber → ℚ
  | .posInt n => n
  | .negInt z => z
  | .float bits => doubleValue bits

/-- Two values are the same, with numbers as the numbers they are. -/
inductive Equal : Json → Json → Prop where
  | null : Equal .null .null
  | bool (b : Bool) : Equal (.bool b) (.bool b)
  | number {m n : JsonNumber} : numberValue m = numberValue n → Equal (.number m) (.number n)
  | string (s : String) : Equal (.string s) (.string s)
  | nil : Equal (.array []) (.array [])
  | item {x y : Json} {xs ys : List Json} : Equal x y → Equal (.array xs) (.array ys) →
      Equal (.array (x :: xs)) (.array (y :: ys))
  | empty : Equal (.object []) (.object [])
  | member {key : String} {x y : Json} {xs ys : Members} : Equal x y → Equal (.object xs) (.object ys) →
      Equal (.object ((key, x) :: xs)) (.object ((key, y) :: ys))

/-- The value has the type of this name. -/
inductive HasType : Json → String → Prop where
  | null : HasType .null "null"
  | boolean (b : Bool) : HasType (.bool b) "boolean"
  | number (n : JsonNumber) : HasType (.number n) "number"
  | string (s : String) : HasType (.string s) "string"
  | array (items : List Json) : HasType (.array items) "array"
  | object (members : Members) : HasType (.object members) "object"

/-! ### Contracts -/

/-- The value satisfies every constraint of a schema, at every level. -/
inductive Satisfies : Json → Json → Prop where
  | mk {value : Json} {schema : Members}
      (type : ∀ name, schema.lookup "type" = some (.string name) → HasType value name)
      (required : ∀ keys, schema.lookup "required" = some (.array keys) →
        ∀ key ∈ keys, ∃ name member, key = .string name ∧ value.get name = some member)
      (properties : ∀ subs, schema.lookup "properties" = some (.object subs) →
        ∀ sub ∈ subs, ∀ member, value.get sub.1 = some member → Satisfies member sub.2)
      (const : ∀ c, schema.lookup "const" = some c → Equal value c)
      (maximum : ∀ max n, schema.lookup "maximum" = some (.number max) → value = .number n →
        numberValue n ≤ numberValue max) :
      Satisfies value (.object schema)

/-- At every level, a number that exceeds the maximum does so in double precision. -/
inductive Told : Json → Json → Prop where
  | mk {value : Json} {schema : Members}
      (maximum : ∀ max n, schema.lookup "maximum" = some (.number max) → value = .number n →
        numberValue max < numberValue n → asF64 max < asF64 n)
      (properties : ∀ subs, schema.lookup "properties" = some (.object subs) →
        ∀ sub ∈ subs, ∀ member, value.get sub.1 = some member → Told member sub.2) :
      Told value (.object schema)

/-! ### What is checked -/

theorem typeHolds_iff {value : Json} {schema : Members} : typeHolds value schema = true ↔
    ∀ name, schema.lookup "type" = some (.string name) → HasType value name := by
  have htype : ∀ name, name = typeName value ↔ HasType value name := by
    intro name
    constructor
    · rintro rfl
      cases value <;> constructor
    · intro h
      cases h <;> rfl
  unfold typeHolds
  split
  · rename_i t ht
    rw [decide_eq_true_iff, htype]
    exact ⟨fun h name hname => by cases ht.symm.trans hname; exact h, fun h => h t ht⟩
  · rename_i hnone
    exact iff_of_true rfl fun name hname => absurd hname (hnone name)

theorem requiredHolds_iff {value : Json} {schema : Members} : requiredHolds value schema = true ↔
    ∀ keys, schema.lookup "required" = some (.array keys) →
      ∀ key ∈ keys, ∃ name member, key = .string name ∧ value.get name = some member := by
  have hkey : ∀ key : Json, (key.asStr.bind value.get).isSome = true ↔
      ∃ name member, key = .string name ∧ value.get name = some member := by
    intro key
    cases key <;> simp [Json.asStr, Option.isSome_iff_exists]
  unfold requiredHolds
  split
  · rename_i keys hkeys
    simp only [List.all_eq_true, hkey]
    exact ⟨fun h keys' hkeys' => by cases hkeys.symm.trans hkeys'; exact h, fun h => h keys hkeys⟩
  · rename_i hnone
    exact iff_of_true rfl fun keys hkeys => absurd hkeys (hnone keys)

theorem eachHolds_iff {value : Json} (subs : Members) : eachHolds value subs = true ↔
    ∀ sub ∈ subs, ∀ member, value.get sub.1 = some member → validateSchema member sub.2 = true := by
  induction subs with
  | nil => simp [eachHolds]
  | cons sub subs ih =>
    obtain ⟨key, schema⟩ := sub
    rw [eachHolds, Bool.and_eq_true, ih, List.forall_mem_cons]
    refine and_congr_left fun _ => ?_
    cases value.get key <;> simp

theorem propertiesHold_iff {value : Json} (schema : Members) : propertiesHold value schema = true ↔
    ∀ subs, schema.lookup "properties" = some (.object subs) →
      ∀ sub ∈ subs, ∀ member, value.get sub.1 = some member → validateSchema member sub.2 = true := by
  induction schema with
  | nil => simp [propertiesHold]
  | cons entry rest ih =>
    obtain ⟨key, sub⟩ := entry
    rw [propertiesHold]
    by_cases hkey : key = "properties"
    · subst hkey
      rw [if_pos rfl, List.lookup_cons_self]
      cases sub with
      | object subs => simp [membersHold, eachHolds_iff]
      | _ => simp [membersHold]
    · rw [if_neg hkey, ih, List.lookup_cons, beq_eq_false_iff_ne.mpr (Ne.symm hkey)]

theorem maximumHolds_iff {value : Json} {schema : Members} : maximumHolds value schema = true ↔
    ∀ max n, schema.lookup "maximum" = some (.number max) → value = .number n → asF64 n ≤ asF64 max := by
  unfold maximumHolds
  split
  · rename_i max n hmax
    rw [Bool.not_eq_true', decide_eq_false_iff_not, not_lt]
    constructor
    · intro h max' n' hmax' hn
      cases hmax.symm.trans hmax'
      cases hn
      exact h
    · intro h
      exact h max n hmax rfl
  · rename_i hnone
    exact iff_of_true rfl fun max n hmax hn => absurd hn (hnone max n hmax)

/-- What the schema of an accepted value checks. -/
theorem validateSchema_eq_true {value : Json} {schema : Members} :
    validateSchema value (.object schema) = true ↔
      typeHolds value schema = true ∧ requiredHolds value schema = true ∧ propertiesHold value schema = true ∧
        constHolds value schema = true ∧ maximumHolds value schema = true := by
  rw [validateSchema]
  simp only [Bool.and_eq_true, and_assoc]

/-! ### Constants -/

/-- Both zeros are zero. -/
theorem doubleValue_eq_zero {bits : UInt64} (h : bits <<< 1 = 0) : doubleValue bits = 0 := by
  have hbits : bits.toNat % 2 ^ 63 = 0 := by
    have h := congrArg UInt64.toNat h
    rw [UInt64.toNat_shiftLeft] at h
    have hone : (1 : UInt64).toNat % 64 = 1 := rfl
    rw [hone, Nat.shiftLeft_eq] at h
    have hzero : (0 : UInt64).toNat = 0 := rfl
    omega
  have hmantissa : bits.toNat % 2 ^ 52 = 0 := by omega
  have hexponent : bits.toNat / 2 ^ 52 % 2 ^ 11 = 0 := by omega
  simp only [doubleValue, hmantissa, hexponent, if_true, Nat.cast_zero, zero_div, neg_zero, ite_self]

theorem numberValue_eq {m n : JsonNumber} (h : sameNumber m n = true) : numberValue m = numberValue n := by
  unfold sameNumber at h
  split at h
  · rename_i a b
    rcases Bool.or_eq_true_iff.mp h with h | h
    · rw [of_decide_eq_true h]
    · obtain ⟨ha, hb⟩ := Bool.and_eq_true_iff.mp h
      show doubleValue a = doubleValue b
      rw [doubleValue_eq_zero (of_decide_eq_true ha), doubleValue_eq_zero (of_decide_eq_true hb)]
  · rw [of_decide_eq_true h]

mutual

theorem equal_of_same : ∀ {x y : Json}, same x y = true → Equal x y
  | .null, .null, _ => .null
  | .bool a, .bool b, h => by
    rw [same, decide_eq_true_iff] at h
    exact h ▸ .bool a
  | .number m, .number n, h => .number (numberValue_eq h)
  | .string a, .string b, h => by
    rw [same, decide_eq_true_iff] at h
    exact h ▸ .string a
  | .array xs, .array ys, h => equal_of_sameItems h
  | .object xs, .object ys, h => equal_of_sameMembers h

theorem equal_of_sameItems : ∀ {xs ys : List Json}, sameItems xs ys = true → Equal (.array xs) (.array ys)
  | [], [], _ => .nil
  | x :: xs, y :: ys, h => by
    rw [sameItems, Bool.and_eq_true] at h
    exact .item (equal_of_same h.1) (equal_of_sameItems h.2)

theorem equal_of_sameMembers : ∀ {xs ys : Members}, sameMembers xs ys = true → Equal (.object xs) (.object ys)
  | [], [], _ => .empty
  | (k, x) :: xs, (l, y) :: ys, h => by
    rw [sameMembers, Bool.and_eq_true, Bool.and_eq_true, decide_eq_true_iff] at h
    obtain ⟨⟨rfl, hx⟩, hxs⟩ := h
    exact .member (equal_of_same hx) (equal_of_sameMembers hxs)

end

theorem equal_of_constHolds {value : Json} {schema : Members} (h : constHolds value schema = true) :
    ∀ c, schema.lookup "const" = some c → Equal value c := by
  intro c hc
  rw [constHolds, hc] at h
  exact equal_of_same h

/-! ### Soundness -/

theorem satisfies_of_told {value schema : Json} (ht : Told value schema) :
    validateSchema value schema = true → Satisfies value schema := by
  induction ht with
  | mk hmax _ ih =>
    intro h
    obtain ⟨htype, hrequired, hproperties, hconst, hmaximum⟩ := validateSchema_eq_true.mp h
    refine .mk (typeHolds_iff.mp htype) (requiredHolds_iff.mp hrequired) ?_ (equal_of_constHolds hconst) ?_
    · intro subs hsubs sub hsub member hmember
      exact ih subs hsubs sub hsub member hmember
        ((propertiesHold_iff _).mp hproperties subs hsubs sub hsub member hmember)
    · intro max n hlookup hn
      by_contra hexceeds
      have hdoubles := hmax max n hlookup hn (not_le.mp hexceeds)
      exact absurd (maximumHolds_iff.mp hmaximum max n hlookup hn) (not_le.mpr hdoubles)

theorem told_of_satisfies {value schema : Json} (hs : Satisfies value schema) : Told value schema := by
  induction hs with
  | mk _ _ _ _ hmax ih =>
    refine .mk (fun max n hlookup hn hexceeds => ?_) ih
    exact absurd (hmax max n hlookup hn) (not_le.mpr hexceeds)

/-- **A value that is accepted satisfies its schema**, at every level, if and only if every number that exceeds
a maximum does so in double precision. -/
theorem validateSchema_sound (value schema : Json) (h : validateSchema value schema = true) :
    Satisfies value schema ↔ Told value schema :=
  ⟨told_of_satisfies, fun ht => satisfies_of_told ht h⟩

/-- A number that is a double: an integer below `2 ^ 53`, or a double. -/
def Small : JsonNumber → Prop
  | .posInt n => n < 2 ^ 53
  | .negInt z => z ≤ 0 ∧ -2 ^ 53 < z
  | .float _ => True

theorem asF64_eq {n : JsonNumber} (h : Small n) : asF64 n = numberValue n := by
  cases n with
  | posInt n => exact nearest_natCast h
  | negInt z =>
    obtain ⟨hneg, hlarge⟩ := h
    obtain ⟨n, rfl⟩ := Int.exists_eq_neg_ofNat hneg
    have hn : n < 2 ^ 53 := by omega
    show -nearest (-((-(n : ℤ) : ℤ) : ℚ)) = ((-(n : ℤ) : ℤ) : ℚ)
    rw [Int.cast_neg, neg_neg, Int.cast_natCast, nearest_natCast hn]
  | float bits => rfl

/-- **Integers below `2 ^ 53`, and doubles, are told apart.** -/
theorem told_of_small {max n : JsonNumber} (hmax : Small max) (hn : Small n) (h : numberValue max < numberValue n) :
    asF64 max < asF64 n := by
  rwa [asF64_eq hmax, asF64_eq hn]

/-- **`2 ^ 53 + 1` is accepted as no more than `2 ^ 53`.** -/
theorem maximum_exceeded : ¬∀ value schema : Json, validateSchema value schema = true → Satisfies value schema := by
  intro h
  have hs := h (.number (.posInt 9007199254740993)) (.object [("maximum", .number (.posInt 9007199254740992))])
    (by decide +kernel)
  cases hs with
  | mk _ _ _ _ hmax =>
    have hle := hmax _ _ rfl rfl
    norm_num [numberValue] at hle

/-- A count within its maximum. -/
theorem validateSchema_sound_count :
    Satisfies (.object [("n", .number (.posInt 3))])
      (.object [("properties", .object [("n", .object [("maximum", .number (.posInt 5))])])]) := by
  refine (validateSchema_sound _ _ (by decide +kernel)).mpr (.mk (fun max n h => ?_) fun subs hsubs => ?_)
  · cases h
  · cases hsubs
    intro sub hsub member hmember
    obtain rfl := List.mem_singleton.mp hsub
    obtain rfl : member = .number (.posInt 3) := (Option.some.inj hmember).symm
    refine .mk (fun max n hmax hn hexceeds => ?_) fun subs hsubs => ?_
    · cases hmax
      cases hn
      exact told_of_small (by decide : (5 : ℕ) < 2 ^ 53) (by decide : (3 : ℕ) < 2 ^ 53) hexceeds
    · cases hsubs

end Knolo.Host
