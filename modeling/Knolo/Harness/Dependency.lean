import Knolo.Harness.CborAgreement
import Knolo.Icp.Definition

/-!
# Dependency roots

`knolo-agent-core/src/harness/dependency.rs` and `packages/agents/src/dependencies/root.ts`: the
root a set of pack dependencies is pinned by, which both sides compute. They sort the
dependencies, write them as canonical CBOR behind a label and hash the result.

The script sorts by `localeCompare` and drops an empty state root, the core sorts by bytes and
keeps it. The collation (`collate`) and the hash (`sha256`) are parameters; of the collation it
is assumed that it is a consistent comparison.
-/

namespace Knolo.Harness

open Core Script Library Library.Cbor Library.StableSort Library.Fallible

/-- What a pack is used for. -/
inductive PackDependencyRoleV1 where
  | knowledge
  | skill
  | policy
  | evaluation
  | workflow
  deriving DecidableEq

/-- The name of a role. -/
def PackDependencyRoleV1.asStr : PackDependencyRoleV1 → String
  | .knowledge => "knowledge"
  | .skill => "skill"
  | .policy => "policy"
  | .evaluation => "evaluation"
  | .workflow => "workflow"

/-- A pack that is pinned. -/
structure PackDependencyV1 where
  name : String
  version : String
  sha256 : String
  stateRoot : Option String := none
  role : PackDependencyRoleV1
  deriving DecidableEq

/-- The root of a set of dependencies. -/
structure HarnessDependencyRootV1 where
  version : ℕ
  algorithm : String
  dependencies : List PackDependencyV1
  root : String
  deriving DecidableEq

/-- The label of a root. -/
def dependencyRootLabel : String := "knolo.harness.dependencies.v1"

/-- 64 lowercase hexadecimal digits. -/
def isSha256 (s : String) : Bool :=
  s.toList.length = 64 && s.toList.all fun c => ('0' ≤ c && c ≤ '9') || ('a' ≤ c && c ≤ 'f')

/-- Dependencies by name, role, digest and version, in an order of texts. -/
def dependencyOrder (cmp : String → String → Ordering) (left right : PackDependencyV1) : Ordering :=
  (cmp left.name right.name).then <| (cmp left.role.asStr right.role.asStr).then <|
    (cmp left.sha256 right.sha256).then (cmp left.version right.version)

/-- What is hashed: the label, a zero byte, the encoded dependencies. -/
def frame (cbor : List UInt8) : List UInt8 := utf8 dependencyRootLabel ++ 0 :: cbor

/-- The root of sorted dependencies whose encoding is `cbor`. -/
def dependencyRoot (sha256 : List UInt8 → String) (sorted : List PackDependencyV1) (cbor : List UInt8) :
    HarnessDependencyRootV1 where
  version := 1
  algorithm := dependencyRootLabel
  dependencies := sorted
  root := s!"{dependencyRootLabel}:{sha256 (frame cbor)}"

/-! ### The core -/

/-- The checks of a dependency. -/
def PackDependencyV1.validate (d : PackDependencyV1) : Except CoreError Unit := do
  ensure (!d.name.toList.all Icp.isWhitespace) (.schemaViolation "pack dependency name is required")
  ensure (!d.version.toList.all Icp.isWhitespace)
    (.schemaViolation s!"pack dependency '{d.name}' is missing version")
  ensure (isSha256 d.sha256)
    (.schemaViolation s!"pack dependency '{d.name}' sha256 must be 64 lowercase hex characters")

/-- `sort_pack_dependencies`. -/
def sortPackDependencies (ds : List PackDependencyV1) : List PackDependencyV1 :=
  sortBy (dependencyOrder compareUtf8) ds

/-- The members of a dependency's object, in key order. -/
def payloadMembers (d : PackDependencyV1) : List (String × String) :=
  [("name", d.name), ("role", d.role.asStr), ("sha256", d.sha256)] ++
    (match d.stateRoot with | some root => [("stateRoot", root)] | none => []) ++ [("version", d.version)]

/-- `dependency_payload`. -/
def dependencyPayload (ds : List PackDependencyV1) : Json :=
  .array ((sortPackDependencies ds).map fun d => .object ((payloadMembers d).map fun m => (m.1, .string m.2)))

/-- `compute_harness_dependency_root`. -/
def computeHarnessDependencyRoot (bits : ℕ) (sha256 : List UInt8 → String) (ds : List PackDependencyV1) :
    Except CoreError HarnessDependencyRootV1 := do
  let sorted := sortPackDependencies ds
  sorted.forM PackDependencyV1.validate
  let cbor ← canonicalCbor bits (dependencyPayload sorted)
  return dependencyRoot sha256 sorted cbor

/-! ### The script -/

namespace TypeScript

/-- What `trim` removes. -/
def isWhitespace (c : Char) : Bool :=
  (0x09 ≤ c.toNat && c.toNat ≤ 0x0d) || c.toNat = 0x20 || c.toNat = 0xa0 || c.toNat = 0x1680 ||
    (0x2000 ≤ c.toNat && c.toNat ≤ 0x200a) || c.toNat = 0x2028 || c.toNat = 0x2029 || c.toNat = 0x202f ||
    c.toNat = 0x205f || c.toNat = 0x3000 || c.toNat = 0xfeff

/-- A dependency without an empty state root. -/
def dropEmptyRoot (d : PackDependencyV1) : PackDependencyV1 :=
  { d with stateRoot := d.stateRoot.filter fun root => !root.isEmpty }

/-- `normalizePackDependency`. -/
def normalizePackDependency (d : PackDependencyV1) : Except String PackDependencyV1 := do
  ensure (!d.name.toList.all isWhitespace) "pack dependency name is required"
  ensure (!d.version.toList.all isWhitespace) s!"pack dependency '{d.name}' is missing version"
  ensure (isSha256 d.sha256) s!"pack dependency '{d.name}' sha256 must be 64 lowercase hex characters"
  return dropEmptyRoot d

/-- `sortPackDependencies`. -/
def sortPackDependencies (collate : String → String → Ordering) (ds : List PackDependencyV1) :
    Except String (List PackDependencyV1) := do
  return sortBy (dependencyOrder collate) (← ds.mapM normalizePackDependency)

/-- `dependencyPayload`. -/
def dependencyPayload (collate : String → String → Ordering) (ds : List PackDependencyV1) :
    Except String JsValue := do
  return .array ((← sortPackDependencies collate ds).map fun d =>
    .object ((payloadMembers (dropEmptyRoot d)).map fun m => (m.1, .string m.2)))

/-- `computeHarnessDependencyRoot`. -/
def computeHarnessDependencyRoot (collate : String → String → Ordering) (sha256 : List UInt8 → String)
    (ds : List PackDependencyV1) : Except String HarnessDependencyRootV1 := do
  let sorted ← sortPackDependencies collate ds
  let payload ← dependencyPayload collate sorted
  let cbor ← scriptCbor payload
  return dependencyRoot sha256 sorted cbor

end TypeScript

end Knolo.Harness
