import Knolo.Library.Fallible
import Mathlib.Data.Nat.Notation
import Mathlib.Tactic.Common
import Std.Data.ExtTreeMap
import Std.Data.ExtTreeSet

/-!
# Identifiers, errors and machine integers

The vocabulary the contracts share: the validated identifiers of
`knolo-agent-core/src/contract`, the errors of `error.rs`, and the arithmetic of the
unsigned counters.

An identifier is built only through `Identifier.new`, so a value carries the proof
that its text is valid. The source's identifier types (`GraphId`, `NodeId`, …) are
generated by one macro and are one type here.

Machine integers are natural numbers. Where the source adds with `+`, the addition
is checked and an overflow aborts the computation (`Abort.overflow`), as it does in
a build with overflow checks; where the source saturates, so does `satAdd`.

Ordered maps and sets (`BTreeMap`, `BTreeSet`) are the standard library's
extensional tree maps and sets.
-/

namespace Knolo.Core

/-! ### Identifiers -/

/-- The characters of an identifier. -/
def identifierChar (c : Char) : Bool :=
  c.isAlphanum || c = '-' || c = '_' || c = '.' || c = '/'

/-- What the constructor of every identifier type checks. -/
def validIdentifier (value : String) : Bool :=
  !value.toList.isEmpty && value.utf8ByteSize ≤ 128 && value.toList.all identifierChar

/-- A valid identifier. -/
@[ext]
structure Identifier where
  /-- The text. -/
  text : String
  /-- The text was checked. -/
  valid : validIdentifier text = true
  deriving DecidableEq

/-- Names a graph. -/
abbrev GraphId := Identifier
/-- Names a node. -/
abbrev NodeId := Identifier
/-- Names a transition. -/
abbrev TransitionId := Identifier
/-- Names an execution. -/
abbrev ExecutionId := Identifier
/-- Names a state schema. -/
abbrev StateSchemaId := Identifier
/-- Names a pack. -/
abbrev PackId := Identifier
/-- Names a namespace. -/
abbrev NamespaceId := Identifier
/-- Names a tool. -/
abbrev ToolId := Identifier
/-- Names a capability. -/
abbrev CapabilityId := Identifier

/-- Identifiers are ordered by their text. -/
instance : Ord Identifier := ⟨fun a b => compare a.text b.text⟩

instance : Std.TransOrd Identifier where
  eq_swap := (inferInstance : Std.OrientedCmp fun a b : String => compare a b).eq_swap
  isLE_trans := (inferInstance : Std.TransCmp fun a b : String => compare a b).isLE_trans

instance : Std.LawfulEqOrd Identifier where
  compare_self := (inferInstance : Std.ReflCmp fun a b : String => compare a b).compare_self
  eq_of_compare h := Identifier.ext
    ((inferInstance : Std.LawfulEqCmp fun a b : String => compare a b).eq_of_compare h)

/-! ### Errors -/

/-- Why a tool call was denied. -/
inductive PolicyDenialCodeV1 where
  | invalidContract
  | toolNotFound
  | toolNotAllowed
  | namespaceDenied
  | argumentDenied
  | budgetExhausted
  | resultInvalid
  | capabilityUnavailable
  deriving DecidableEq

/-- A denial, as it is kept in audit streams. -/
structure PolicyDenialV1 where
  version : ℕ
  code : PolicyDenialCodeV1
  toolId : Option ToolId
  ns : Option NamespaceId
  message : String
  deriving DecidableEq

/-- The errors of the core. -/
inductive CoreError where
  | invalidIdentifier (value : String)
  | invalidGraph (message : String)
  | invalidPatch (message : String)
  | revisionConflict (expected actual : ℕ)
  | schemaViolation (message : String)
  | packLoad (message : String)
  | checkpointIncompatible (message : String)
  | authorityEscalation (message : String)
  | approvalRequired (message : String)
  | resumeRejected (message : String)
  | replayRejected (message : String)
  | policyDenied (denial : PolicyDenialV1)
  | host (message : String)
  deriving DecidableEq

/-- The constructor of every identifier type. -/
def Identifier.new (value : String) : Except CoreError Identifier :=
  if h : validIdentifier value = true then .ok ⟨value, h⟩ else .error (.invalidIdentifier value)

@[simp] theorem Identifier.new_text (i : Identifier) : Identifier.new i.text = .ok i := by
  simp [Identifier.new, i.valid]

theorem Identifier.text_isEmpty (i : Identifier) : i.text.isEmpty = false := by
  have h := i.valid
  simp only [validIdentifier, Bool.and_eq_true, Bool.not_eq_true', List.isEmpty_eq_false_iff] at h
  by_contra hc
  exact h.1.1 (by simpa using hc)

/-- How a computation of the control plane ends without a value: an error it
returns, an arithmetic overflow, or a bound of this model that was too small. -/
inductive Abort where
  | error (e : CoreError)
  | overflow
  | stuck
  deriving DecidableEq

/-! ### Machine integers -/

/-- `u32::MAX`. -/
def u32Max : ℕ := 4294967295

/-- `u64::MAX`. -/
def u64Max : ℕ := 18446744073709551615

/-- `a + b` on integers up to `max`. -/
def checkedAdd (max a b : ℕ) : Except Abort ℕ :=
  if a + b ≤ max then .ok (a + b) else .error .overflow

/-- `a.saturating_add(b)` on `u64`. -/
def satAdd (a b : ℕ) : ℕ := min (a + b) u64Max

theorem checkedAdd_eq_ok {max a b c : ℕ} (h : checkedAdd max a b = .ok c) :
    c = a + b ∧ a + b ≤ max := by
  unfold checkedAdd at h
  split at h
  · cases h
    exact ⟨rfl, ‹_›⟩
  · cases h

theorem checkedAdd_ne_stuck {max a b : ℕ} {e : Abort} (h : checkedAdd max a b = .error e) :
    e ≠ .stuck := by
  unfold checkedAdd at h
  split at h
  · cases h
  · cases h
    simp

/-- An error is propagated (`?`). -/
def liftError {α : Type} : Except CoreError α → Except Abort α
  | .ok a => .ok a
  | .error e => .error (.error e)

theorem liftError_eq_ok {α : Type} {x : Except CoreError α} {a : α} :
    liftError x = .ok a ↔ x = .ok a := by
  cases x <;> simp [liftError]

theorem liftError_ne_stuck {α : Type} {x : Except CoreError α} {e : Abort}
    (h : liftError x = .error e) : e ≠ .stuck := by
  cases x with
  | ok a => cases h
  | error err =>
    cases h
    simp

end Knolo.Core
