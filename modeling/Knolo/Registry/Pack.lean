import Knolo.Harness.Dependency

/-!
# Packs, manifests and pins

`packages/agents/src/registry/types.ts`, `spec.ts` and `cache.ts`, and the pins of
`dependencies/lockfile.ts`: how a pack is named, what a manifest says and when it is well formed,
where manifests and bytes are kept, and what a lockfile pins.

A pack's bytes are a list; their SHA-256, in hexadecimal, is a parameter of the code that checks it.
-/

namespace Knolo.Registry

open Script Harness Library.Fallible

/-- A pack as it is named. -/
structure PackSpecV1 where
  publisher : String
  slug : String
  version : String
  name : String
  deriving DecidableEq

/-- The formats of packs. -/
inductive PackFormat where
  | v4
  | v5
  deriving DecidableEq

/-- What a registry says of a pack. -/
structure PackManifestV1 where
  name : String
  version : String
  sha256 : String
  stateRoot : Option String := none
  url : String
  license : Option String := none
  sizeBytes : JsNumber
  yanked : Bool
  format : Option PackFormat := none
  deriving DecidableEq

/-- A pack that was pulled. -/
structure PackBytesV1 where
  manifest : PackManifestV1
  bytes : List UInt8
  deriving DecidableEq

/-! ### Names -/

/-- How a pack is asked for: by a text, or by a spec. -/
inductive SpecArgument where
  | text (value : String)
  | spec (value : PackSpecV1)

/-- What is to be pulled: a pack by its name, or by its manifest. -/
inductive PullArgument where
  | named (spec : SpecArgument)
  | manifest (manifest : PackManifestV1)

/-- A text without the white space around it. -/
def trim (s : String) : List Char :=
  ((s.toList.dropWhile TypeScript.isWhitespace).reverse.dropWhile TypeScript.isWhitespace).reverse

/-- A character of a publisher or a slug. -/
def nameChar (c : Char) : Bool := ('a' ≤ c && c ≤ 'z') || ('0' ≤ c && c ≤ '9') || c = '-'

/-- The parts of `publisher/slug[@version]`. -/
def matchSpec (cs : List Char) : Option (List Char × List Char × Option (List Char)) :=
  let publisher := cs.takeWhile nameChar
  match cs.dropWhile nameChar with
  | '/' :: rest =>
    let slug := rest.takeWhile nameChar
    if publisher = [] ∨ slug = [] then none
    else
      match rest.dropWhile nameChar with
      | [] => some (publisher, slug, none)
      | '@' :: version => if version = [] ∨ '@' ∈ version then none else some (publisher, slug, some version)
      | _ => none
  | _ => none

/-- `a || b` on texts. -/
def orElse (a b : String) : String := if a.isEmpty then b else a

/-- `parsePackSpec`. -/
def parsePackSpec : SpecArgument → Except String PackSpecV1
  | .text value =>
    match matchSpec (trim value) with
    | none => .error s!"Invalid pack spec: {value}. Expected publisher/slug[@version]."
    | some (publisher, slug, version) =>
      let publisher := String.ofList publisher
      let slug := String.ofList slug
      .ok { publisher := publisher, slug := slug
            version := version.elim "latest" String.ofList, name := s!"{publisher}/{slug}" }
  | .spec value => do
    ensure (value.publisher ≠ "" ∧ value.slug ≠ "") "pack spec must be publisher/slug[@version]"
    return { publisher := value.publisher, slug := value.slug
             version := orElse value.version "latest"
             name := orElse value.name s!"{value.publisher}/{value.slug}" }

/-! ### Manifests -/

/-- The property of a record, if it is a text. -/
def textProperty (record : List (String × JsValue)) (key : String) : Option String :=
  match record.lookup key with
  | some (.string s) => some s
  | _ => none

/-- A property that, when present, is a text. -/
def optionalText (record : List (String × JsValue)) (key message : String) :
    Except String (Option String) :=
  match record.lookup key with
  | none => .ok none
  | some (.string s) => .ok (some s)
  | some _ => .error message

/-- A text that is not empty. -/
def requiredText (record : List (String × JsValue)) (key message : String) : Except String String :=
  match textProperty record key with
  | some s => if s.isEmpty then .error message else .ok s
  | none => .error message

/-- The size in a manifest: a safe integer that is not negative. -/
def sizeProperty (record : List (String × JsValue)) : Except String JsNumber :=
  match record.lookup "sizeBytes" with
  | some (.number x) =>
    match x.safeInteger with
    | some z => if 0 ≤ z then .ok x else .error "Registry manifest sizeBytes must be a non-negative integer"
    | none => .error "Registry manifest sizeBytes must be a non-negative integer"
  | _ => .error "Registry manifest sizeBytes must be a non-negative integer"

/-- Whether a manifest says that the version is yanked. -/
def yankedProperty (record : List (String × JsValue)) : Except String Bool :=
  match record.lookup "yanked" with
  | none => .ok false
  | some (.bool b) => .ok b
  | some _ => .error "Registry manifest yanked must be a boolean when present"

/-- The format in a manifest. -/
def formatProperty (record : List (String × JsValue)) : Except String (Option PackFormat) :=
  match record.lookup "format" with
  | none => .ok none
  | some (.string "V4") => .ok (some .v4)
  | some (.string "V5") => .ok (some .v5)
  | some _ => .error "Registry manifest format must be V4 or V5 when present"

/-- `validatePackManifest`, with the name and the version that are expected. -/
def validatePackManifest (value : JsValue) (name version : Option String := none) :
    Except String PackManifestV1 :=
  match value with
  | .object record => do
    let actual ← requiredText record "name" "Registry manifest is missing name"
    let expected := name.getD ""
    ensure (expected = "" ∨ actual = expected)
      s!"Registry manifest name mismatch: expected {expected}, got {actual}"
    let actualVersion ← requiredText record "version" "Registry manifest is missing version"
    let expectedVersion := version.getD ""
    ensure (expectedVersion = "" ∨ expectedVersion = "latest" ∨ actualVersion = expectedVersion)
      s!"Registry manifest version mismatch: expected {expectedVersion}, got {actualVersion}"
    let sha256 := textProperty record "sha256"
    ensure (sha256.any isSha256) "Registry manifest sha256 must be 64 lowercase hexadecimal characters"
    ensure (textProperty record "url").isSome "Registry manifest is missing url"
    let sizeBytes ← sizeProperty record
    let stateRoot ← optionalText record "stateRoot" "Registry manifest stateRoot must be a string when present"
    let license ← optionalText record "license" "Registry manifest license must be a string when present"
    let yanked ← yankedProperty record
    let format ← formatProperty record
    return { name := actual, version := actualVersion, sha256 := sha256.getD ""
             stateRoot := stateRoot, url := (textProperty record "url").getD ""
             license := license, sizeBytes := sizeBytes, yanked := yanked, format := format }
  | _ => .error "Registry returned an invalid pack manifest"

/-- A manifest, as the object it is. -/
def PackManifestV1.value (m : PackManifestV1) : JsValue := .object <|
  [("name", .string m.name), ("version", .string m.version), ("sha256", .string m.sha256)] ++
    (m.stateRoot.map fun root => ("stateRoot", JsValue.string root)).toList ++ [("url", .string m.url)] ++
    (m.license.map fun license => ("license", JsValue.string license)).toList ++
    [("sizeBytes", .number m.sizeBytes), ("yanked", .bool m.yanked)] ++
    (m.format.map fun format => ("format", JsValue.string (if format = .v4 then "V4" else "V5"))).toList

/-! ### Pins -/

/-- A pin. -/
structure KnoloLockPackV1 where
  version : String
  sha256 : String
  stateRoot : Option String := none
  license : Option String := none
  deriving DecidableEq

/-- A lockfile: what is pinned, by name. -/
structure KnoloLockfileV1 where
  registry : Option String := none
  packs : List (String × KnoloLockPackV1)

/-- `lockfilePin`. -/
def lockfilePin (lockfile : KnoloLockfileV1) (name : String) : Option KnoloLockPackV1 :=
  lockfile.packs.lookup name

/-- `assertLockfilePin`. -/
def assertLockfilePin (lockfile : Option KnoloLockfileV1) (name sha256 : String) (force : Bool) :
    Except String Unit :=
  match lockfile.bind (lockfilePin · name) with
  | none => .ok ()
  | some existing =>
    ensure (existing.sha256 = "" ∨ existing.sha256 = sha256 ∨ force)
      s!"Lockfile already pins {name} to a different digest; use force to replace it"

/-! ### The cache -/

/-- `MemoryPackCache`: two maps, of bytes by digest and of manifests by name. -/
structure PackCache where
  bytes : List (String × List UInt8) := []
  manifests : List (String × PackManifestV1) := []

namespace PackCache

/-- `getBytes`. -/
def getBytes (c : PackCache) (sha256 : String) : Option (List UInt8) := c.bytes.lookup sha256

/-- `setBytes`. -/
def setBytes (c : PackCache) (sha256 : String) (bytes : List UInt8) : PackCache :=
  { c with bytes := setProperty sha256 bytes c.bytes }

/-- `getManifest`. -/
def getManifest (c : PackCache) (name : String) (version : String := "latest") : Option PackManifestV1 :=
  if version = "latest" then (c.manifests.lookup s!"{name}@latest").or (c.manifests.lookup name)
  else c.manifests.lookup s!"{name}@{version}"

/-- `setManifest`. -/
def setManifest (c : PackCache) (m : PackManifestV1) : PackCache :=
  { c with manifests := setProperty m.name m <| setProperty s!"{m.name}@latest" m <|
      setProperty s!"{m.name}@{m.version}" m c.manifests }

end PackCache

end Knolo.Registry
