import Knolo.Core.Pack
import Knolo.Library.Nearest

/-!
# The policy of a host

`knolo-agent/src/policy/mod.rs`: what is checked before a tool runs and what is charged
after. A contract is a JSON value read as a schema with the keywords `type`, `required`,
`properties`, `const` and `maximum`. A double is the rational it stands for.
-/

namespace Knolo.Host

open Core Library.Nearest

/-! ### Contracts -/

/-- The number that the bits of a finite double stand for. -/
def doubleValue (bits : UInt64) : ℚ :=
  let mantissa : ℕ := bits.toNat % 2 ^ 52
  let exponent : ℕ := bits.toNat / 2 ^ 52 % 2 ^ 11
  let magnitude : ℚ :=
    if exponent = 0 then mantissa / 2 ^ 1074 else (2 ^ 52 + mantissa : ℕ) * 2 ^ ((exponent : ℤ) - 1075)
  if bits.toNat / 2 ^ 63 = 0 then magnitude else -magnitude

/-- `Value::as_f64` of a number. -/
def asF64 : JsonNumber → ℚ
  | .posInt n => nearest n
  | .negInt z => -nearest (-z)
  | .float bits => doubleValue bits

/-- Equality of numbers. The two zeros of floating point are equal. -/
def sameNumber : JsonNumber → JsonNumber → Bool
  | .float a, .float b => a = b || (a <<< 1 = 0 && b <<< 1 = 0)
  | a, b => a = b

mutual

/-- Equality of JSON values. -/
def same : Json → Json → Bool
  | .number a, .number b => sameNumber a b
  | .array xs, .array ys => sameItems xs ys
  | .object ms, .object ns => sameMembers ms ns
  | .null, .null => true
  | .bool a, .bool b => a = b
  | .string a, .string b => a = b
  | _, _ => false

/-- Equality of arrays. -/
def sameItems : List Json → List Json → Bool
  | [], [] => true
  | x :: xs, y :: ys => same x y && sameItems xs ys
  | _, _ => false

/-- Equality of objects. -/
def sameMembers : List (String × Json) → List (String × Json) → Bool
  | [], [] => true
  | (k, x) :: xs, (l, y) :: ys => k = l && same x y && sameMembers xs ys
  | _, _ => false

end

/-- The name a schema has for the type of a value. -/
def typeName : Json → String
  | .null => "null"
  | .bool _ => "boolean"
  | .number _ => "number"
  | .string _ => "string"
  | .array _ => "array"
  | .object _ => "object"

/-- The keyword `type`. -/
def typeHolds (value : Json) (schema : Members) : Bool :=
  match schema.lookup "type" with
  | some (.string t) => t = typeName value
  | _ => true

/-- The keyword `required`. -/
def requiredHolds (value : Json) (schema : Members) : Bool :=
  match schema.lookup "required" with
  | some (.array keys) => keys.all fun key => (key.asStr.bind value.get).isSome
  | _ => true

/-- The keyword `const`. -/
def constHolds (value : Json) (schema : Members) : Bool :=
  match schema.lookup "const" with
  | some c => same value c
  | none => true

/-- The keyword `maximum`. -/
def maximumHolds (value : Json) (schema : Members) : Bool :=
  match schema.lookup "maximum", value with
  | some (.number max), .number n => !(asF64 max < asF64 n)
  | _, _ => true

mutual

/-- Does the value satisfy the schema? -/
def validateSchema (value : Json) : Json → Bool
  | .object schema =>
    typeHolds value schema && requiredHolds value schema && propertiesHold value schema &&
      constHolds value schema && maximumHolds value schema
  | _ => false
termination_by structural s => s

/-- The keyword `properties`. -/
def propertiesHold (value : Json) : List (String × Json) → Bool
  | [] => true
  | (key, sub) :: rest => if key = "properties" then membersHold value sub else propertiesHold value rest

/-- Every member that has a schema satisfies it. -/
def membersHold (value : Json) : Json → Bool
  | .object properties => eachHolds value properties
  | _ => true

/-- Every member named by one of `properties` satisfies its schema. -/
def eachHolds (value : Json) : List (String × Json) → Bool
  | [] => true
  | (key, sub) :: rest =>
    (match value.get key with
      | some member => validateSchema member sub
      | none => true) && eachHolds value rest

end

/-- The arguments of a greeting, against the contract of a tool that echoes it. -/
example :
    let contract : Json := .object
      [("properties", .object [("message", .object [("type", .string "string")])]),
        ("required", .array [.string "message"]), ("type", .string "object")]
    validateSchema (.object [("message", .string "hello")]) contract = true ∧
      validateSchema (.object [("message", .null)]) contract = false ∧
      validateSchema (.object []) contract = false := by
  decide

/-! ### Checks -/

/-- A denial. -/
def deny (code : PolicyDenialCodeV1) (tool : Option ToolDefinition) (message : String) : CoreError :=
  .policyDenied
    { version := 1, code, toolId := tool.map (·.id), ns := tool.map (·.ns), message }

/-- Is the call well formed? -/
def validateCall (call : ToolCallV1) : Except CoreError Unit :=
  if call.version ≠ 1 ∨ call.callId.isEmpty ∨ call.arguments.asObject.isNone then
    .error (deny .invalidContract none "invalid ToolCallV1")
  else .ok ()

/-- Does the policy grant the call? -/
def authorize (policy : CompiledPolicyV1) (tool : ToolDefinition) (call : ToolCallV1) :
    Except CoreError Unit :=
  if !policy.allowsTool tool.id then
    .error (deny .toolNotAllowed (some tool) "tool is not granted by pack")
  else if !policy.allowsNamespace tool.ns then
    .error (deny .namespaceDenied (some tool) "namespace is not granted by pack")
  else if (policy.binding tool.capability).isNone then
    .error (deny .capabilityUnavailable (some tool) "capability is not bound")
  else if !validateSchema call.arguments tool.argumentContract ||
      (policy.constraint tool.id).any fun s => !validateSchema call.arguments s then
    .error (deny .argumentDenied (some tool) "arguments violate policy")
  else .ok ()

/-! ### The ledger -/

/-- What the tools of an execution have used. -/
structure BudgetLedger where
  used : ResourceUsageV1
  deriving DecidableEq

/-- Nothing used. -/
def BudgetLedger.empty : BudgetLedger := ⟨{ calls := 0, units := 0, durationMs := 0 }⟩

/-- Reserve a call. -/
def BudgetLedger.reserveCall (l : BudgetLedger) (policy : CompiledPolicyV1) (tool : ToolDefinition) :
    Except Abort BudgetLedger :=
  if policy.budget.maxCalls ≤ l.used.calls then
    .error (.error (deny .budgetExhausted (some tool) "call budget exhausted"))
  else do
    let calls ← checkedAdd u64Max l.used.calls 1
    return ⟨{ l.used with calls }⟩

/-- Charge what a call has used: the ledger afterwards, and whether the budget allows it. -/
def BudgetLedger.charge (l : BudgetLedger) (policy : CompiledPolicyV1) (tool : ToolDefinition)
    (usage : ResourceUsageV1) : BudgetLedger × Except CoreError Unit :=
  let used : ResourceUsageV1 :=
    { l.used with
      units := satAdd l.used.units usage.units
      durationMs := satAdd l.used.durationMs usage.durationMs }
  (⟨used⟩,
    if policy.budget.maxUnits < used.units ∨ policy.budget.maxDurationMs < used.durationMs then
      .error (deny .budgetExhausted (some tool) "execution budget exhausted")
    else .ok ())

end Knolo.Host
