import Knolo.Library.Method
import Knolo.Registry.Pack

/-!
# Registries

`packages/agents/src/registry/http.ts`, `offline.ts` and `fake.ts`: the registry over HTTP, the
wrapper that serves from the cache when the network is not to be used, and the registry in
memory. They share a cache.

The network is a parameter of every operation: what a request returns, and what a download
returns. So is the hash function. An operation that throws keeps what it has stored before.
-/

namespace Knolo.Registry

open Script Harness Library Library.Fallible

/-- A pack in the registry in memory. -/
structure MemoryPackRecord where
  manifest : PackManifestV1
  bytes : List UInt8
  description : Option String := none

/-- What registries work on: the records and the latest versions of the one in memory, and the
cache that all share. -/
structure World where
  records : List (String × MemoryPackRecord) := []
  latest : List (String × String) := []
  cache : PackCache := {}

/-- An operation of a registry. -/
abbrev RegistryMethod (α : Type) := Method World Empty String Empty α

namespace RegistryMethod

/-- Go on with a value, or throw. -/
def lift {α : Type} (x : Except String α) : RegistryMethod α := Method.ofExcept x

/-- The cache. -/
def cache : RegistryMethod PackCache := do return (← Method.read).cache

/-- Change the cache. -/
def updateCache (f : PackCache → PackCache) : RegistryMethod Unit :=
  Method.modify fun w => { w with cache := f w.cache }

/-- What an operation returns, where it succeeds. -/
def success {α : Type} (p : RegistryMethod α) (w : World) : Option α :=
  (p w).toOption.bind fun r => r.result.toOption

/-- What is known of all that an operation returns. -/
theorem success_of_sat {α : Type} {p : RegistryMethod α} {w : World} {P : α → Prop} {a : α}
    (hp : p.Sat w fun res _ _ => ∀ a, res = .ok a → P a) (h : success p w = some a) : P a := by
  obtain ⟨r, hr, ha⟩ := Option.bind_eq_some_iff.mp h
  exact hp r (toOption_eq_some.mp hr) a (toOption_eq_some.mp ha)

end RegistryMethod

open RegistryMethod

/-- A version that is yanked is not handed out, unless with force. -/
def denyYanked (m : PackManifestV1) (force : Bool) : Except String PackManifestV1 :=
  if m.yanked ∧ force = false then .error s!"registry 410 yanked: Version yanked. ({m.name}@{m.version})"
  else .ok m

/-- The bytes have the digest of the manifest. -/
def assertDigest (sha256 : List UInt8 → String) (bytes : List UInt8) (m : PackManifestV1) :
    Except String Unit :=
  let digest := sha256 bytes
  ensure (digest = m.sha256) s!"registry digest_mismatch: expected {m.sha256}, got {digest}"

/-- The error for a version that is not there. -/
def notFound (name version : String) : String :=
  s!"registry 404 not_found: pack version not found ({name}@{version})"

/-! ### Over HTTP -/

/-- What a request returns: a status and a body. -/
structure HttpResponse where
  status : ℕ
  body : JsValue

/-- What a download returns. -/
structure HttpBlob where
  status : ℕ
  ok : Bool
  bytes : List UInt8

/-- The network during an operation. -/
structure Network where
  request : String → Except String HttpResponse
  download : String → Except String HttpBlob

/-- A registry over HTTP. -/
structure HttpPackRegistry where
  origin : String
  token : Option String := none
  force : Bool := false
  lockfile : Option KnoloLockfileV1 := none
  offline : Bool := false

/-- `registryHttpError`. -/
def registryHttpError (status : ℕ) (body : JsValue) : String :=
  let record := match body with
    | .object ps => ps
    | _ => []
  let code := (textProperty record "code").getD "error"
  let message := (textProperty record "error").getD s!"HTTP {status}"
  s!"registry {status} {code}: {message}"

/-- The version that is expected of a manifest. -/
def expectedVersion (parsed : PackSpecV1) : Option String :=
  if parsed.version = "latest" then none else some parsed.version

namespace HttpPackRegistry

/-- `assertOnline`. -/
def assertOnline (r : HttpPackRegistry) (action : String) : Except String Unit :=
  ensure (r.offline = false) s!"registry {action} is unavailable offline"

/-- `resolve`. -/
def resolve (r : HttpPackRegistry) (net : Network) (spec : SpecArgument) : RegistryMethod PackManifestV1 := do
  let parsed ← lift (parsePackSpec spec)
  if r.offline then
    match (← cache).getManifest parsed.name parsed.version with
    | some cached => lift (denyYanked cached r.force)
    | none =>
      lift (.error s!"registry is offline; no cached manifest for {parsed.name}@{parsed.version}")
  else
    let response ← lift (net.request
      s!"{r.origin}/api/v1/packs/{parsed.publisher}/{parsed.slug}/{parsed.version}")
    if response.status = 410 then
      let manifest ← lift (validatePackManifest response.body (some parsed.name) (expectedVersion parsed))
      updateCache (·.setManifest { manifest with yanked := true })
      lift (denyYanked { manifest with yanked := true } r.force)
    else if response.status = 404 then lift (.error (notFound parsed.name parsed.version))
    else if response.status ≠ 200 then lift (.error (registryHttpError response.status response.body))
    else
      let manifest ← lift (validatePackManifest response.body (some parsed.name) (expectedVersion parsed))
      updateCache (·.setManifest manifest)
      lift (denyYanked manifest r.force)

/-- The manifest a pull goes by. -/
def manifestOf (r : HttpPackRegistry) (net : Network) : PullArgument → RegistryMethod PackManifestV1
  | .manifest m => lift (do denyYanked (← validatePackManifest m.value) r.force)
  | .named spec => r.resolve net spec

/-- The download of a pack. -/
def download (r : HttpPackRegistry) (sha256 : List UInt8 → String) (net : Network) (m : PackManifestV1) :
    RegistryMethod PackBytesV1 := do
  lift (r.assertOnline "pull")
  lift (ensure (m.url ≠ "") s!"artifact bytes are not stored yet ({m.name}@{m.version})")
  let response ← lift (net.download m.url)
  lift (ensure response.ok s!"registry blob {response.status}: failed to download {m.name}@{m.version}")
  let size := (m.sizeBytes.safeInteger.getD 0).toNat
  let length := response.bytes.length
  lift (ensure (size = 0 ∨ length = size) s!"registry size mismatch: expected {size} bytes, got {length}")
  lift (assertDigest sha256 response.bytes m)
  updateCache (·.setBytes m.sha256 response.bytes)
  updateCache (·.setManifest m)
  return { manifest := m, bytes := response.bytes }

/-- `pull`. -/
def pull (r : HttpPackRegistry) (sha256 : List UInt8 → String) (net : Network) (arg : PullArgument) :
    RegistryMethod PackBytesV1 := do
  let manifest ← r.manifestOf net arg
  lift (assertLockfilePin r.lockfile manifest.name manifest.sha256 r.force)
  match (← cache).getBytes manifest.sha256 with
  | some cached =>
    lift (assertDigest sha256 cached manifest)
    return { manifest := manifest, bytes := cached }
  | none => r.download sha256 net manifest

/-- The manifest in the answer to a yank: a member of it, or all of it. -/
def yankBody : JsValue → Except String JsValue
  | .null => .error "Cannot read properties of null (reading 'manifest')"
  | .object ps =>
    match ps.lookup "manifest" with
    | none | some .null => .ok (.object ps)
    | some v => .ok v
  | body => .ok body

/-- `yank`. -/
def yank (r : HttpPackRegistry) (net : Network) (spec : SpecArgument) : RegistryMethod PackManifestV1 := do
  lift (r.assertOnline "yank")
  lift (ensure (r.token.any (· ≠ "")) "registry yank requires a host-provided token")
  let parsed ← lift (parsePackSpec spec)
  let response ← lift (net.request
    s!"{r.origin}/api/v1/packs/{parsed.publisher}/{parsed.slug}/{parsed.version}/yank")
  lift (ensure (response.status = 200) (registryHttpError response.status response.body))
  let manifest ← lift (do validatePackManifest (← yankBody response.body) (some parsed.name))
  updateCache (·.setManifest { manifest with yanked := true })
  return { manifest with yanked := true }

end HttpPackRegistry

/-! ### In memory -/

/-- A registry in memory. -/
structure MemoryPackRegistry where
  force : Bool := false
  lockfile : Option KnoloLockfileV1 := none

/-- The key of a record. -/
def key (name version : String) : String := s!"{name}@{version}"

namespace MemoryPackRegistry

/-- `add`. -/
def add (record : MemoryPackRecord) : RegistryMethod Unit := do
  let manifest ← lift (validatePackManifest record.manifest.value)
  Method.modify fun w =>
    { records := setProperty (key manifest.name manifest.version) { record with manifest := manifest } w.records
      latest := setProperty manifest.name manifest.version w.latest
      cache := (w.cache.setManifest manifest).setBytes manifest.sha256 record.bytes }

/-- The record a spec names. -/
def record (parsed : PackSpecV1) : RegistryMethod MemoryPackRecord := do
  let w ← Method.read
  let version := if parsed.version = "latest" then w.latest.lookup parsed.name else some parsed.version
  match version.bind fun version => w.records.lookup (key parsed.name version) with
  | some record => return record
  | none => lift (.error (notFound parsed.name parsed.version))

/-- `resolve`. -/
def resolve (r : MemoryPackRegistry) (spec : SpecArgument) : RegistryMethod PackManifestV1 := do
  let record ← record (← lift (parsePackSpec spec))
  let manifest ← lift (denyYanked record.manifest r.force)
  updateCache (·.setManifest manifest)
  return manifest

/-- `pull`. -/
def pull (r : MemoryPackRegistry) (sha256 : List UInt8 → String) (arg : PullArgument) :
    RegistryMethod PackBytesV1 := do
  let manifest ← match arg with
    | .manifest m => lift (validatePackManifest m.value)
    | .named spec => r.resolve spec
  let manifest ← lift (denyYanked manifest r.force)
  match (← Method.read).records.lookup (key manifest.name manifest.version) with
  | none => lift (.error (notFound manifest.name manifest.version))
  | some record =>
    lift (assertDigest sha256 record.bytes manifest)
    lift (assertLockfilePin r.lockfile manifest.name manifest.sha256 r.force)
    updateCache (·.setBytes manifest.sha256 record.bytes)
    updateCache (·.setManifest manifest)
    return { manifest := manifest, bytes := record.bytes }

/-- `publish`. -/
def publish (sha256 : List UInt8 → String) (input : MemoryPackRecord) : RegistryMethod PackManifestV1 := do
  let digest := sha256 input.bytes
  let manifest ← lift (validatePackManifest
    { input.manifest with sha256 := orElse input.manifest.sha256 digest, yanked := false }.value)
  lift (assertDigest sha256 input.bytes manifest)
  add { input with manifest := manifest }
  return manifest

/-- `yank`. -/
def yank (spec : SpecArgument) : RegistryMethod PackManifestV1 := do
  let parsed ← lift (parsePackSpec spec)
  let record ← record parsed
  let yanked := { record.manifest with yanked := true }
  Method.modify fun w =>
    let version := if parsed.version = "latest" then (w.latest.lookup parsed.name).getD "" else parsed.version
    { w with
      records := setProperty (key parsed.name version) { record with manifest := yanked } w.records
      cache := w.cache.setManifest yanked }
  return yanked

end MemoryPackRegistry

/-! ### Offline -/

/-- Is an origin on the network? -/
def isRemote (origin : Option String) : Bool :=
  origin.any fun o =>
    let cs := o.toList.map Char.toLower
    cs.take 7 = ['h', 't', 't', 'p', ':', '/', '/'] || cs.take 8 = ['h', 't', 't', 'p', 's', ':', '/', '/']

/-- The registry an offline wrapper is made of. -/
structure InnerRegistry where
  origin : Option String
  resolve : SpecArgument → RegistryMethod PackManifestV1
  pull : PullArgument → RegistryMethod PackBytesV1

/-- A registry over HTTP, as what a wrapper is made of. -/
def HttpPackRegistry.inner (r : HttpPackRegistry) (sha256 : List UInt8 → String) (net : Network) : InnerRegistry :=
  { origin := some r.origin, resolve := r.resolve net, pull := r.pull sha256 net }

/-- A registry in memory, as what a wrapper is made of. -/
def MemoryPackRegistry.inner (r : MemoryPackRegistry) (origin : String) (sha256 : List UInt8 → String) : InnerRegistry :=
  { origin := some origin, resolve := r.resolve, pull := r.pull sha256 }

/-- A wrapper that makes no calls to the network; without a cache it has none to serve from. -/
structure OfflinePackRegistry where
  inner : InnerRegistry
  lockfile : Option KnoloLockfileV1 := none
  hasCache : Bool := true

namespace OfflinePackRegistry

/-- The cached bytes. -/
def getBytes (o : OfflinePackRegistry) (c : PackCache) (sha256 : String) : Option (List UInt8) :=
  if o.hasCache then c.getBytes sha256 else none

/-- The manifest a cache and a lockfile have for a pack. -/
def manifestFor (o : OfflinePackRegistry) (c : PackCache) (parsed : PackSpecV1) :
    Except String PackManifestV1 :=
  match if o.hasCache then c.getManifest parsed.name parsed.version else none with
  | some cached => .ok cached
  | none =>
    match o.lockfile.bind (lockfilePin · parsed.name) with
    | some pin =>
      if parsed.version = "latest" ∨ parsed.version = pin.version then .ok
        { name := parsed.name, version := pin.version, sha256 := pin.sha256
          stateRoot := pin.stateRoot.filter fun root => !root.isEmpty
          url := "", license := pin.license.filter fun license => !license.isEmpty
          sizeBytes := .finite ((o.getBytes c pin.sha256).elim 0 fun bytes => bytes.length)
          yanked := false }
      else .error s!"registry is offline; no cached manifest for {parsed.name}@{parsed.version}"
    | none => .error s!"registry is offline; no cached manifest for {parsed.name}@{parsed.version}"

/-- `resolve`. -/
def resolve (o : OfflinePackRegistry) (spec : SpecArgument) : RegistryMethod PackManifestV1 := do
  if isRemote o.inner.origin then
    let parsed ← lift (parsePackSpec spec)
    lift (o.manifestFor (← cache) parsed)
  else o.inner.resolve spec

/-- The manifest a pull goes by. -/
def basis (o : OfflinePackRegistry) (c : PackCache) : PullArgument → Except String PackManifestV1
  | .manifest m => .ok m
  | .named spec => do o.manifestFor c (← parsePackSpec spec)

/-- `pull`. -/
def pull (o : OfflinePackRegistry) (arg : PullArgument) : RegistryMethod PackBytesV1 := do
  if isRemote o.inner.origin then
    let c ← cache
    let manifest ← lift (o.basis c arg)
    match o.getBytes c manifest.sha256 with
    | none => lift (.error s!"registry is offline; no cached bytes for {manifest.name}@{manifest.version}")
    | some bytes => return { manifest := manifest, bytes := bytes }
  else o.inner.pull arg

end OfflinePackRegistry

end Knolo.Registry
