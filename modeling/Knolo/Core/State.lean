import Knolo.Core.Contract
import Knolo.Core.Json

/-!
# State documents and their patches

`knolo-agent-core/src/state/mod.rs`: the schema a state document must satisfy, the
snapshot of a document at a revision, and the reducer that applies a node's patch.

A patch is applied to a snapshot as a whole: the revision it was made against must
be the current one, every path must be among the node's declared writes, and the
resulting document must satisfy the schema (`apply_eq_ok` says all that a successful
reduction did).
-/

namespace Knolo.Core

open Library.Fallible

/-- The type of a JSON value, as a schema names it. -/
inductive ValueType where
  | null
  | bool
  | number
  | string
  | array
  | object
  deriving DecidableEq

/-- The type of a value. -/
def Json.valueType : Json → ValueType
  | .null => .null
  | .bool _ => .bool
  | .number _ => .number
  | .string _ => .string
  | .array _ => .array
  | .object _ => .object

/-- A state schema: the types of the paths it knows, and the paths that must exist. -/
structure StateSchemaV1 where
  version : ℕ
  id : StateSchemaId
  paths : Std.ExtTreeMap String ValueType
  required : Std.ExtTreeSet String

/-- A required path must exist. -/
def checkRequired (value : Json) (p : String) : Except CoreError Unit :=
  ensure ((value.pointer p).isSome) (.schemaViolation ("missing required path " ++ p))

/-- A known path must have its type, where it exists. -/
def checkType (value : Json) (entry : String × ValueType) : Except CoreError Unit :=
  match value.pointer entry.1 with
  | some v =>
    ensure (v.valueType = entry.2) (.schemaViolation ("wrong type at " ++ entry.1))
  | none => .ok ()

/-- Does `value` satisfy the schema? -/
def StateSchemaV1.validate (s : StateSchemaV1) (value : Json) : Except CoreError Unit := do
  ensure (s.version = 1) (.schemaViolation "unsupported schema version")
  s.required.toList.forM (checkRequired value)
  s.paths.toList.forM (checkType value)

/-- The node and event a revision came from. -/
structure ProvenanceV1 where
  executionId : ExecutionId
  nodeId : NodeId
  eventSequence : ℕ
  deriving DecidableEq

/-- A state document at a revision. -/
structure StateSnapshot where
  schemaId : StateSchemaId
  revision : ℕ
  value : Json
  provenance : Option ProvenanceV1
  deriving DecidableEq

/-- What a patch does at one path. -/
inductive PatchOperation where
  | set (value : Json)
  | remove
  deriving DecidableEq

/-- A patch against a revision. -/
structure StatePatch where
  baseRevision : ℕ
  operations : Std.ExtTreeMap String PatchOperation
  deriving DecidableEq

/-- Follow `parts` from the root, through objects only, and perform `op` at the last. -/
def applyParts (path : String) (op : PatchOperation) : List String → Json → Except CoreError Json
  | [], _ => .error (.invalidPatch ("invalid path " ++ path))
  | [last], .object ms =>
    match op with
    | .set v => .ok (.object (Members.insert last v ms))
    | .remove =>
      if (ms.lookup last).isNone then .error (.invalidPatch ("missing path " ++ path))
      else .ok (.object (Members.erase last ms))
  | [_], _ => .error (.invalidPatch ("parent is not object for " ++ path))
  | p :: parts, .object ms =>
    match ms.lookup p with
    | some child => (applyParts path op parts child).map fun child => .object (Members.insert p child ms)
    | none => .error (.invalidPatch ("missing parent for " ++ path))
  | _ :: _, _ => .error (.invalidPatch ("missing parent for " ++ path))

/-- Perform one operation of a patch. -/
def applyOp (root : Json) (path : String) (op : PatchOperation) : Except CoreError Json :=
  match path.toList with
  | '/' :: cs =>
    let parts := cs.splitOn '/'
    if '~' ∈ cs ∨ [] ∈ parts then .error (.invalidPatch ("invalid path " ++ path))
    else applyParts path op (parts.map String.ofList) root
  | _ => .error (.invalidPatch ("invalid path " ++ path))

/-- One operation of a patch, at a path that must be declared. -/
def applyDeclared (allowed : Std.ExtTreeSet String) (value : Json) (entry : String × PatchOperation) :
    Except CoreError Json :=
  if allowed.contains entry.1 then applyOp value entry.1 entry.2
  else .error (.invalidPatch ("undeclared write path " ++ entry.1))

/-- The operations of a patch, in path order. -/
def applyOperations (patch : StatePatch) (allowed : Std.ExtTreeSet String) (value : Json) :
    Except CoreError Json :=
  patch.operations.toList.foldlM (applyDeclared allowed) value

/-- Apply a patch to a snapshot. -/
def StateSnapshot.apply (s : StateSnapshot) (patch : StatePatch) (allowed : Std.ExtTreeSet String)
    (schema : StateSchemaV1) (provenance : ProvenanceV1) : Except Abort StateSnapshot := do
  ensure (patch.baseRevision = s.revision)
    (.error (.revisionConflict s.revision patch.baseRevision))
  let value ← liftError (applyOperations patch allowed s.value)
  liftError (schema.validate value)
  let revision ← checkedAdd u64Max s.revision 1
  return { schemaId := s.schemaId, revision, value, provenance := some provenance }

/-- The reducer. -/
def reduce (snapshot : StateSnapshot) (patch : StatePatch) (writes : Std.ExtTreeSet String)
    (schema : StateSchemaV1) (provenance : ProvenanceV1) : Except Abort StateSnapshot :=
  snapshot.apply patch writes schema provenance

/-- **What a reduction does**: the patch was made against the current revision, the
operations were performed on the document, which still satisfies the schema; the
revision goes up by one and the provenance is the one given. -/
theorem StateSnapshot.apply_eq_ok {s s' : StateSnapshot} {patch : StatePatch}
    {allowed : Std.ExtTreeSet String} {schema : StateSchemaV1} {prov : ProvenanceV1}
    (h : s.apply patch allowed schema prov = .ok s') :
    patch.baseRevision = s.revision ∧ applyOperations patch allowed s.value = .ok s'.value ∧
      schema.validate s'.value = .ok () ∧ s'.schemaId = s.schemaId ∧
      s'.revision = s.revision + 1 ∧ s.revision + 1 ≤ u64Max ∧ s'.provenance = some prov := by
  unfold StateSnapshot.apply at h
  obtain ⟨_, hb, h⟩ := bind_eq_ok.mp h
  obtain ⟨value, ho, h⟩ := bind_eq_ok.mp h
  obtain ⟨_, hv, h⟩ := bind_eq_ok.mp h
  obtain ⟨r, hr, h⟩ := bind_eq_ok.mp h
  obtain ⟨rfl, hmax⟩ := checkedAdd_eq_ok hr
  cases h
  exact ⟨ensure_eq_ok.mp hb, liftError_eq_ok.mp ho, liftError_eq_ok.mp hv, rfl, rfl, hmax, rfl⟩

/-- A reduction that fails says why. -/
theorem StateSnapshot.apply_ne_stuck {s : StateSnapshot} {patch : StatePatch}
    {allowed : Std.ExtTreeSet String} {schema : StateSchemaV1} {prov : ProvenanceV1} {e : Abort}
    (h : s.apply patch allowed schema prov = .error e) : e ≠ .stuck := by
  unfold StateSnapshot.apply at h
  rcases bind_eq_error.mp h with h | ⟨_, -, h⟩
  · exact ensure_ne h (by simp)
  rcases bind_eq_error.mp h with h | ⟨_, -, h⟩
  · exact liftError_ne_stuck h
  rcases bind_eq_error.mp h with h | ⟨_, -, h⟩
  · exact liftError_ne_stuck h
  rcases bind_eq_error.mp h with h | ⟨_, -, h⟩
  · exact checkedAdd_ne_stuck h
  · cases h

end Knolo.Core
