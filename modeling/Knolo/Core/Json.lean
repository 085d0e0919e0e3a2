import Mathlib.Data.List.Basic
import Mathlib.Data.Int.Notation
import Mathlib.Tactic.Common

/-!
# JSON documents

The JSON values the control plane stores and exchanges (`serde_json::Value`), with
the operations its code uses: reading a JSON pointer and navigating object members.

The members of an object are a list in key order with one entry per key, as in the
`BTreeMap` the source's JSON library keeps them in; `Members.insert` and
`Members.erase` are its `insert` and `remove`. A number is an unsigned integer, a
negative integer or the bit pattern of a finite double, the library's three cases.
-/

namespace Knolo.Core

/-- A JSON number. -/
inductive JsonNumber where
  /-- `PosInt(u64)`. -/
  | posInt (n : ℕ)
  /-- `NegInt(i64)`, below zero. -/
  | negInt (z : ℤ)
  /-- `Float(f64)`, by its bits. -/
  | float (bits : UInt64)
  deriving DecidableEq

/-- A JSON value. -/
inductive Json where
  /-- `null`. -/
  | null
  /-- `true` or `false`. -/
  | bool (b : Bool)
  /-- A number. -/
  | number (n : JsonNumber)
  /-- A string. -/
  | string (s : String)
  /-- An array. -/
  | array (items : List Json)
  /-- An object: its members in key order. -/
  | object (members : List (String × Json))

/-- The members of an object. -/
abbrev Members := List (String × Json)

namespace Json

mutual

/-- Equality of JSON values is decidable. -/
def decEq : (a b : Json) → Decidable (a = b)
  | .null, .null => .isTrue rfl
  | .bool a, .bool b =>
    if h : a = b then .isTrue (by rw [h]) else .isFalse fun e => h (Json.bool.inj e)
  | .number a, .number b =>
    if h : a = b then .isTrue (by rw [h]) else .isFalse fun e => h (Json.number.inj e)
  | .string a, .string b =>
    if h : a = b then .isTrue (by rw [h]) else .isFalse fun e => h (Json.string.inj e)
  | .array a, .array b =>
    match decEqItems a b with
    | .isTrue h => .isTrue (by rw [h])
    | .isFalse h => .isFalse fun e => h (Json.array.inj e)
  | .object a, .object b =>
    match decEqMembers a b with
    | .isTrue h => .isTrue (by rw [h])
    | .isFalse h => .isFalse fun e => h (Json.object.inj e)
  | .null, .bool _ | .null, .number _ | .null, .string _ | .null, .array _ | .null, .object _
  | .bool _, .null | .bool _, .number _ | .bool _, .string _ | .bool _, .array _ | .bool _, .object _
  | .number _, .null | .number _, .bool _ | .number _, .string _ | .number _, .array _
  | .number _, .object _ | .string _, .null | .string _, .bool _ | .string _, .number _
  | .string _, .array _ | .string _, .object _ | .array _, .null | .array _, .bool _
  | .array _, .number _ | .array _, .string _ | .array _, .object _ | .object _, .null
  | .object _, .bool _ | .object _, .number _ | .object _, .string _ | .object _, .array _ =>
    .isFalse (by simp)

/-- Equality of arrays is decidable. -/
def decEqItems : (a b : List Json) → Decidable (a = b)
  | [], [] => .isTrue rfl
  | [], _ :: _ | _ :: _, [] => .isFalse (by simp)
  | x :: xs, y :: ys =>
    match decEq x y, decEqItems xs ys with
    | .isTrue h, .isTrue h' => .isTrue (by rw [h, h'])
    | .isFalse h, _ => .isFalse fun e => h (List.cons.inj e).1
    | _, .isFalse h => .isFalse fun e => h (List.cons.inj e).2

/-- Equality of members is decidable. -/
def decEqMembers : (a b : List (String × Json)) → Decidable (a = b)
  | [], [] => .isTrue rfl
  | [], _ :: _ | _ :: _, [] => .isFalse (by simp)
  | (k, x) :: xs, (l, y) :: ys =>
    if hk : k = l then
      match decEq x y, decEqMembers xs ys with
      | .isTrue h, .isTrue h' => .isTrue (by rw [hk, h, h'])
      | .isFalse h, _ => .isFalse fun e => h (Prod.mk.inj (List.cons.inj e).1).2
      | _, .isFalse h => .isFalse fun e => h (List.cons.inj e).2
    else .isFalse fun e => hk (Prod.mk.inj (List.cons.inj e).1).1

end

instance : DecidableEq Json := decEq

end Json

namespace Members

/-- `BTreeMap::insert`. -/
def insert (key : String) (value : Json) : Members → Members
  | [] => [(key, value)]
  | (k, v) :: ms =>
    match compare key k with
    | .lt => (key, value) :: (k, v) :: ms
    | .eq => (key, value) :: ms
    | .gt => (k, v) :: insert key value ms

/-- `BTreeMap::remove`, the map afterwards. -/
def erase (key : String) (ms : Members) : Members := ms.filter fun m => m.1 ≠ key

end Members

namespace Json

/-- `Value::as_object`. -/
def asObject : Json → Option Members
  | .object ms => some ms
  | _ => none

/-- `Value::get` by key. -/
def get (v : Json) (key : String) : Option Json := v.asObject.bind (List.lookup key)

/-- `Value::as_str`. -/
def asStr : Json → Option String
  | .string s => some s
  | _ => none

/-- `Value::as_u64`. -/
def asU64 : Json → Option ℕ
  | .number (.posInt n) => some n
  | _ => none

/-- `~1` read as `/`. -/
def unescapeSlash : List Char → List Char
  | '~' :: '1' :: cs => '/' :: unescapeSlash cs
  | c :: cs => c :: unescapeSlash cs
  | [] => []

/-- `~0` read as `~`. -/
def unescapeTilde : List Char → List Char
  | '~' :: '0' :: cs => '~' :: unescapeTilde cs
  | c :: cs => c :: unescapeTilde cs
  | [] => []

/-- An array index in a pointer: digits, with no leading zero. -/
def parseIndex (token : List Char) : Option ℕ :=
  match token with
  | [] => none
  | c :: cs =>
    if c = '0' ∧ cs ≠ [] then none
    else if token.all Char.isDigit then some (token.foldl (fun n d => 10 * n + (d.toNat - 48)) 0)
    else none

/-- The reference tokens of a pointer that begins with `/`. -/
def pointerTokens (p : List Char) : List (List Char) :=
  ((p.splitOn '/').drop 1).map fun t => unescapeTilde (unescapeSlash t)

/-- Follow reference tokens. -/
def walk : List (List Char) → Json → Option Json
  | [], v => some v
  | t :: ts, .object ms => (ms.lookup (String.ofList t)).bind (walk ts)
  | t :: ts, .array items => ((parseIndex t).bind fun i => items[i]?).bind (walk ts)
  | _ :: _, _ => none

/-- `Value::pointer`. -/
def pointer (v : Json) (p : String) : Option Json :=
  match p.toList with
  | [] => some v
  | '/' :: cs => walk (pointerTokens ('/' :: cs)) v
  | _ => none

/-! ### Writing -/

/-- A hexadecimal digit. -/
def hexDigit (n : ℕ) : Char := if n < 10 then Char.ofNat (48 + n) else Char.ofNat (87 + n)

/-- A character in a string literal. -/
def escape (c : Char) : List Char :=
  if c = '"' then ['\\', '"']
  else if c = '\\' then ['\\', '\\']
  else if c.toNat = 8 then ['\\', 'b']
  else if c.toNat = 9 then ['\\', 't']
  else if c.toNat = 10 then ['\\', 'n']
  else if c.toNat = 12 then ['\\', 'f']
  else if c.toNat = 13 then ['\\', 'r']
  else if c.toNat < 32 then ['\\', 'u', '0', '0', hexDigit (c.toNat / 16), hexDigit (c.toNat % 16)]
  else [c]

/-- A string literal. -/
def quote (s : String) : String := "\"" ++ String.ofList (s.toList.flatMap escape) ++ "\""

mutual

/-- `serde_json::to_string`; `float` writes a double. -/
def text (float : UInt64 → String) : Json → String
  | .null => "null"
  | .bool b => if b then "true" else "false"
  | .number (.posInt n) => toString n
  | .number (.negInt z) => toString z
  | .number (.float bits) => float bits
  | .string s => quote s
  | .array items => "[" ++ ",".intercalate (itemTexts float items) ++ "]"
  | .object members => "\x7b" ++ ",".intercalate (memberTexts float members) ++ "\x7d"
termination_by structural v => v

/-- The items of an array. -/
def itemTexts (float : UInt64 → String) : List Json → List String
  | [] => []
  | v :: vs => text float v :: itemTexts float vs

/-- The members of an object. -/
def memberTexts (float : UInt64 → String) : List (String × Json) → List String
  | [] => []
  | (k, v) :: ms => (quote k ++ ":" ++ text float v) :: memberTexts float ms

end

/-- The pointer reads nested members and array items, unescaped. -/
example : (Json.object [("a/b", .array [.null, .bool true])]).pointer "/a~1b/1" = some (.bool true) := by
  decide

end Json

end Knolo.Core
