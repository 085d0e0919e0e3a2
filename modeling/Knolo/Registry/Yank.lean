import Mathlib.Data.Set.Insert
import Knolo.Library.History
import Knolo.Registry.Pins

/-!
# What a yank takes away

Operations on a registry and on the cache its handles share, one after the other. Once a version is
yanked, what is kept of it says so (`World.Kept`), and a pull that looks there does not return it.

* `Operation.Honours` — where an operation does not go by a copy of a manifest that was made before
  the yank: the caller's, a server's, or, through an offline wrapper, any copy at all.
* `kept_of_honours` — such an operation keeps what is kept of yanked versions marked.
* `yank_takes_effect` — in a run of such operations no pull returns a version that was yanked before.
-/

namespace Knolo.Registry

open Script Harness Library Library.Fallible RegistryMethod

/-! ### Handles and operations -/

/-- A handle of a registry: in memory, over HTTP, or an offline wrapper of another. -/
inductive Handle where
  | memory (origin : String) (r : MemoryPackRegistry)
  | http (r : HttpPackRegistry)
  | offline (h : Handle) (lockfile : Option KnoloLockfileV1)

/-- The versions that are yanked, by name and version. -/
abbrev Versions := Set (String × String)

namespace Handle

variable (sha256 : List UInt8 → String) (net : Network)

/-- What a handle does. -/
def inner : Handle → InnerRegistry
  | .memory origin r => r.inner origin sha256
  | .http r => r.inner sha256 net
  | .offline h lockfile =>
    let o : OfflinePackRegistry := { inner := h.inner, lockfile := lockfile }
    { origin := h.inner.origin, resolve := o.resolve, pull := o.pull }

/-- The offline wrapper of a handle. -/
def wrapper (h : Handle) (lockfile : Option KnoloLockfileV1) : OfflinePackRegistry :=
  { inner := h.inner sha256 net, lockfile := lockfile }

/-- `yank`. -/
def yank (spec : SpecArgument) : Handle → RegistryMethod PackManifestV1
  | .memory _ _ => MemoryPackRegistry.yank spec
  | .http r => r.yank net spec
  | .offline _ _ => lift (.error "registry yank is unavailable offline")

/-- The force option. A wrapper of a registry on the network has none. -/
def force : Handle → Bool
  | .memory _ r => r.force
  | .http r => r.force
  | .offline h _ => !isRemote (h.inner sha256 net).origin && h.force

/-- Does a handle ask the server for what it resolves? -/
def Asks : Handle → Prop
  | .memory _ _ => False
  | .http r => r.offline = false
  | .offline h _ => isRemote (h.inner sha256 net).origin = false ∧ h.Asks

end Handle

/-- An operation on a registry. -/
inductive Operation where
  | add (record : MemoryPackRecord)
  | publish (record : MemoryPackRecord)
  | resolve (h : Handle) (net : Network) (spec : SpecArgument)
  | pull (h : Handle) (net : Network) (arg : PullArgument)
  | yank (h : Handle) (net : Network) (spec : SpecArgument)

section Runs

variable (sha256 : List UInt8 → String)

/-- Do an operation. -/
def Operation.perform : Operation → RegistryMethod Unit
  | .add record => MemoryPackRegistry.add record
  | .publish record => do let _ ← MemoryPackRegistry.publish sha256 record
  | .resolve h net spec => do let _ ← (h.inner sha256 net).resolve spec
  | .pull h net arg => do let _ ← (h.inner sha256 net).pull arg
  | .yank h net spec => do let _ ← h.yank net spec

/-- What there is after operations. -/
def World.after (ops : List Operation) : World := (Session.run (Operation.perform sha256) ⟨{}, []⟩ ops).state

/-- The version an operation yanks. -/
def Operation.Yanks (w : World) (op : Operation) : Versions :=
  { version | ∃ h net spec m, op = .yank h net spec ∧ success (h.yank net spec) w = some m ∧
    version = (m.name, m.version) }

/-- The versions that operations have yanked. -/
def Yanked (ops : List Operation) : Versions :=
  { version | ∃ pre op post, ops = pre ++ op :: post ∧ version ∈ op.Yanks (World.after sha256 pre) }

end Runs

/-! ### What is kept of a version -/

/-- A manifest that says it is yanked, if its version is. -/
def Marked (yanked : Versions) (m : PackManifestV1) : Prop := (m.name, m.version) ∈ yanked → m.yanked = true

/-- The keys of a manifest in a cache. -/
def cacheKeys (m : PackManifestV1) : List String := [m.name, s!"{m.name}@latest", s!"{m.name}@{m.version}"]

/-- What is kept is kept under its own keys, and marked. -/
structure World.Kept (yanked : Versions) (w : World) : Prop where
  records : ∀ k record, w.records.lookup k = some record →
    k = key record.manifest.name record.manifest.version ∧ Marked yanked record.manifest
  manifests : ∀ k m, w.cache.manifests.lookup k = some m → k ∈ cacheKeys m ∧ Marked yanked m

section Kept

variable {yanked : Versions} {w : World} {m : PackManifestV1}

theorem lookup_setManifest (c : PackCache) (m : PackManifestV1) (k : String) :
    (c.setManifest m).manifests.lookup k = if k ∈ cacheKeys m then some m else c.manifests.lookup k := by
  simp only [PackCache.setManifest, lookup_setProperty, cacheKeys, List.mem_cons, List.not_mem_nil, or_false]
  split_ifs <;> simp_all

theorem kept_nil : World.Kept yanked {} := ⟨fun _ _ h => (nomatch h), fun _ _ h => (nomatch h)⟩

theorem marked_of_yanked (h : m.yanked = true) : Marked yanked m := fun _ => h

/-- What agrees with a marked manifest in what counts is marked. -/
theorem Marked.of_eq {m' : PackManifestV1} (h : Marked yanked m)
    (he : m'.name = m.name ∧ m'.version = m.version ∧ m'.yanked = m.yanked) : Marked yanked m' := by
  obtain ⟨hn, hv, hy⟩ := he
  unfold Marked
  rw [hn, hv, hy]
  exact h

namespace World.Kept

theorem setManifest (hw : w.Kept yanked) (hm : Marked yanked m) :
    World.Kept yanked { w with cache := w.cache.setManifest m } := by
  refine ⟨hw.records, fun k m' h => ?_⟩
  rw [lookup_setManifest] at h
  split_ifs at h with hk
  · cases h
    exact ⟨hk, hm⟩
  · exact hw.manifests k m' h

theorem setBytes (hw : w.Kept yanked) (digest : String) (bytes : List UInt8) :
    World.Kept yanked { w with cache := w.cache.setBytes digest bytes } := ⟨hw.records, hw.manifests⟩

/-- A record that is set under its own key. -/
theorem setRecord (hw : w.Kept yanked) {record : MemoryPackRecord} {k : String}
    (hk : k = key record.manifest.name record.manifest.version) (hm : Marked yanked record.manifest)
    (latest : List (String × String)) :
    World.Kept yanked { w with records := setProperty k record w.records, latest := latest } := by
  refine ⟨fun k' record' h => ?_, hw.manifests⟩
  simp only [lookup_setProperty] at h
  split_ifs at h with hk'
  · cases h
    exact ⟨hk'.trans hk, hm⟩
  · exact hw.records k' record' h

/-- What a cache has is marked. -/
theorem getManifest (hw : w.Kept yanked) {name version : String} (h : w.cache.getManifest name version = some m) :
    Marked yanked m := by
  unfold PackCache.getManifest at h
  split_ifs at h
  · rcases Option.or_eq_some_iff.mp h with h | ⟨-, h⟩
    · exact (hw.manifests _ _ h).2
    · exact (hw.manifests _ _ h).2
  · exact (hw.manifests _ _ h).2

end World.Kept

end Kept

/-! ### Operations that go by no old copy -/

/-- A server that marks what is yanked. -/
def Honest (yanked : Versions) (net : Network) : Prop :=
  ∀ url response name version m, net.request url = .ok response → response.status = 200 →
    validatePackManifest response.body name version = .ok m → Marked yanked m

/-- The registry in memory has the bytes of a manifest. -/
def MemoryServes (sha256 : List UInt8 → String) (w : World) (m : PackManifestV1) : Prop :=
  ∃ record, w.records.lookup (key m.name m.version) = some record ∧ sha256 record.bytes = m.sha256

/-- The bytes of a manifest are cached, or can be downloaded. -/
def HttpServes (sha256 : List UInt8 → String) (net : Network) (r : HttpPackRegistry) (w : World)
    (m : PackManifestV1) : Prop :=
  match w.cache.getBytes m.sha256 with
  | some bytes => sha256 bytes = m.sha256
  | none => r.offline = false ∧ ∃ blob, net.download m.url = .ok blob ∧ sha256 blob.bytes = m.sha256

section Honours

variable (sha256 : List UInt8 → String) (yanked : Versions) (w : World)

/-- A pull does not go by a manifest that should say it is yanked and does not: the caller's, unless its
bytes are not to be had, or the server's. An offline wrapper does not go by any manifest of a yanked version. -/
def Handle.Honours (net : Network) (arg : PullArgument) : Handle → Prop
  | .memory _ _ => ∀ m, arg = .manifest m → MemoryServes sha256 w m → Marked yanked m
  | .http r =>
    match arg with
    | .manifest m => HttpServes sha256 net r w m → Marked yanked m
    | .named _ => r.offline = false → Honest yanked net
  | .offline h lockfile =>
    if isRemote (h.inner sha256 net).origin then
      ∀ m, (h.wrapper sha256 net lockfile).basis w.cache arg = .ok m → w.cache.getBytes m.sha256 ≠ none →
        (m.name, m.version) ∉ yanked
    else h.Honours net arg

/-- Where an operation goes by no copy of a manifest that was made before the yank. What is stored is
marked, or of another version; and a registry over HTTP is not mixed with one in memory. -/
def Operation.Honours : Operation → Prop
  | .add record => Marked yanked record.manifest
  | .publish record => (record.manifest.name, record.manifest.version) ∉ yanked
  | .resolve h net _ => h.Asks sha256 net → Honest yanked net
  | .pull h net arg => h.Honours sha256 yanked w net arg
  | .yank (.http _) _ _ => w.records = []
  | .yank _ _ _ => True

end Honours

/-! ### What operations keep -/

section Steps

variable {sha256 : List UInt8 → String} {yanked : Versions} {w : World}

/-- What an operation returns is marked, and is not yanked unless with force. -/
def Vouched (yanked : Versions) (force : Bool) (m : PackManifestV1) : Prop :=
  Marked yanked m ∧ (m.yanked = false ∨ force = true)

theorem Vouched.not_mem {m : PackManifestV1} (h : Vouched yanked false m) : (m.name, m.version) ∉ yanked := by
  intro hm
  have hyanked := h.1 hm
  rw [h.2.resolve_right (by decide)] at hyanked
  cases hyanked

theorem vouched_of_deny {m m' : PackManifestV1} {force : Bool} (hm : Marked yanked m)
    (h : denyYanked m force = .ok m') : Vouched yanked force m' := by
  obtain ⟨rfl, hf⟩ := denyYanked_eq_ok h
  exact ⟨hm, hf⟩

/-- An operation that keeps what is kept, and returns what `P` holds of. -/
def Keeps {α : Type} (yanked : Versions) (w : World) (P : α → Prop) (p : RegistryMethod α) : Prop :=
  p.Sat w fun res w' _ => w'.Kept yanked ∧ ∀ a, res = .ok a → P a

variable {α β : Type} {P : α → Prop} {Q : β → Prop}

theorem keeps_error (hw : w.Kept yanked) (e : String) : Keeps yanked w P (lift (.error e)) :=
  sat_lift ⟨hw, fun _ h => (nomatch h)⟩

theorem keeps_lift (hw : w.Kept yanked) {x : Except String α} (h : ∀ a, x = .ok a → P a) : Keeps yanked w P (lift x) :=
  sat_lift ⟨hw, h⟩

theorem keeps_pure (hw : w.Kept yanked) {a : α} (h : P a) : Keeps yanked w P (pure a) :=
  Method.sat_pure.mpr ⟨hw, fun _ ha => by cases ha; exact h⟩

theorem Keeps.lift_bind (hw : w.Kept yanked) {x : Except String α} {f : α → RegistryMethod β}
    (h : ∀ a, x = .ok a → Keeps yanked w Q (f a)) : Keeps yanked w Q (lift x >>= f) :=
  sat_lift_bind h fun _ _ => ⟨hw, fun _ h => (nomatch h)⟩

theorem Keeps.bind {p : RegistryMethod α} {f : α → RegistryMethod β} (hp : Keeps yanked w P p)
    (hf : ∀ a w', w'.Kept yanked → P a → Keeps yanked w' Q (f a)) : Keeps yanked w Q (p >>= f) :=
  Method.Sat.bind hp (fun a w' _ h => hf a w' h.1 (h.2 a rfl)) fun _ _ _ h => ⟨h.1, fun _ h => (nomatch h)⟩

theorem Keeps.manifest_bind {m : PackManifestV1} (hw : w.Kept yanked) (hm : Marked yanked m)
    {f : Unit → RegistryMethod β} (h : ∀ w', w'.Kept yanked → Keeps yanked w' Q (f ())) :
    Keeps yanked w Q (updateCache (·.setManifest m) >>= f) :=
  sat_updateCache_bind (h _ (hw.setManifest hm))

theorem Keeps.bytes_bind (hw : w.Kept yanked) {digest : String} {bytes : List UInt8} {f : Unit → RegistryMethod β}
    (h : ∀ w', w'.Kept yanked → Keeps yanked w' Q (f ())) :
    Keeps yanked w Q (updateCache (·.setBytes digest bytes) >>= f) :=
  sat_updateCache_bind (h _ (hw.setBytes digest bytes))

theorem keeps_resolve_http (r : HttpPackRegistry) (net : Network) (spec : SpecArgument) (hw : w.Kept yanked)
    (hnet : r.offline = false → Honest yanked net) : Keeps yanked w (Vouched yanked r.force) (r.resolve net spec) := by
  unfold HttpPackRegistry.resolve
  refine Keeps.lift_bind hw fun parsed _ => ?_
  split
  · refine sat_cache_bind ?_
    split
    · rename_i cached hcached
      exact keeps_lift hw fun m h => vouched_of_deny (hw.getManifest hcached) h
    · exact keeps_error hw _
  · rename_i hoffline
    refine Keeps.lift_bind hw fun response hresponse => ?_
    split_ifs
    · refine Keeps.lift_bind hw fun m _ => ?_
      refine Keeps.manifest_bind hw (marked_of_yanked rfl) fun w' hw' => ?_
      exact keeps_lift hw' fun m' h => vouched_of_deny (marked_of_yanked rfl) h
    · exact keeps_error hw _
    · exact keeps_error hw _
    · rename_i hstatus
      refine Keeps.lift_bind hw fun m hm => ?_
      have hmarked := hnet (by simpa using hoffline) _ _ _ _ _ hresponse (not_not.mp hstatus) hm
      exact Keeps.manifest_bind hw hmarked fun w' hw' => keeps_lift hw' fun m' h => vouched_of_deny hmarked h

theorem keeps_manifestOf (r : HttpPackRegistry) (net : Network) (spec : SpecArgument) (hw : w.Kept yanked)
    (hnet : r.offline = false → Honest yanked net) :
    Keeps yanked w (Vouched yanked r.force) (r.manifestOf net (.named spec)) :=
  keeps_resolve_http r net spec hw hnet

theorem keeps_download (r : HttpPackRegistry) (net : Network) {m : PackManifestV1} (hw : w.Kept yanked)
    (hm : r.offline = false → (∃ blob, net.download m.url = .ok blob ∧ sha256 blob.bytes = m.sha256) →
      Vouched yanked r.force m) :
    Keeps yanked w (fun b => Vouched yanked r.force b.manifest) (r.download sha256 net m) := by
  unfold HttpPackRegistry.download
  refine Keeps.lift_bind hw fun _ honline => ?_
  refine Keeps.lift_bind hw fun _ _ => ?_
  refine Keeps.lift_bind hw fun blob hblob => ?_
  refine Keeps.lift_bind hw fun _ _ => ?_
  refine Keeps.lift_bind hw fun _ _ => ?_
  refine Keeps.lift_bind hw fun _ hdigest => ?_
  have hvouched := hm (ensure_eq_ok.mp honline) ⟨blob, hblob, ensure_eq_ok.mp hdigest⟩
  refine Keeps.bytes_bind hw fun w' hw' => ?_
  exact Keeps.manifest_bind hw' hvouched.1 fun w'' hw'' => keeps_pure hw'' hvouched

/-- What is pulled over HTTP by a manifest: from the cache, or the network. -/
theorem keeps_serve_http (r : HttpPackRegistry) (net : Network) {m : PackManifestV1} (hw : w.Kept yanked)
    (hm : HttpServes sha256 net r w m → Vouched yanked r.force m) :
    Keeps yanked w (fun b => Vouched yanked r.force b.manifest) (do
      lift (assertLockfilePin r.lockfile m.name m.sha256 r.force)
      match (← cache).getBytes m.sha256 with
      | some cached =>
        lift (assertDigest sha256 cached m)
        return { manifest := m, bytes := cached }
      | none => r.download sha256 net m : RegistryMethod PackBytesV1) := by
  refine Keeps.lift_bind hw fun _ _ => ?_
  refine sat_cache_bind ?_
  unfold HttpServes at hm
  split
  · rename_i cached hcached
    refine Keeps.lift_bind hw fun _ hdigest => keeps_pure hw ?_
    rw [hcached] at hm
    exact hm (ensure_eq_ok.mp hdigest)
  · rename_i hcached
    rw [hcached] at hm
    exact keeps_download r net hw fun honline hblob => hm ⟨honline, hblob⟩

theorem keeps_pull_http (r : HttpPackRegistry) (net : Network) (arg : PullArgument) (hw : w.Kept yanked)
    (h : (Handle.http r).Honours sha256 yanked w net arg) :
    Keeps yanked w (fun b => Vouched yanked r.force b.manifest) (r.pull sha256 net arg) := by
  unfold HttpPackRegistry.pull
  cases arg with
  | named spec => exact (keeps_manifestOf r net spec hw h).bind fun m w' hw' hm => keeps_serve_http r net hw' fun _ => hm
  | manifest m =>
    refine Keeps.lift_bind hw fun m' hm' => ?_
    obtain ⟨m'', hvalid, hdeny⟩ := bind_eq_ok.mp hm'
    obtain ⟨rfl, hforce⟩ := denyYanked_eq_ok hdeny
    obtain rfl := validate_value hvalid
    exact keeps_serve_http r net hw fun hserves => ⟨h hserves, hforce⟩

/-! ### In memory -/

theorem record_sat (parsed : PackSpecV1) : (MemoryPackRegistry.record parsed).Sat w fun res w' _ => w' = w ∧
    ∀ record, res = .ok record → w.records.lookup (key parsed.name
      (if parsed.version = "latest" then (w.latest.lookup parsed.name).getD "" else parsed.version)) = some record := by
  unfold MemoryPackRegistry.record
  refine Method.sat_read_bind.mpr ?_
  cases hfound : (if parsed.version = "latest" then w.latest.lookup parsed.name else some parsed.version).bind
      fun version => w.records.lookup (key parsed.name version) with
  | none =>
    simp only [hfound]
    exact sat_lift ⟨rfl, fun _ h => nomatch h⟩
  | some record =>
    simp only [hfound]
    refine Method.sat_pure.mpr ⟨rfl, ?_⟩
    rintro _ ⟨⟩
    obtain ⟨version, hversion, hlookup⟩ := Option.bind_eq_some_iff.mp hfound
    by_cases hlatest : parsed.version = "latest"
    · rw [if_pos hlatest] at hversion
      rw [if_pos hlatest, hversion]
      exact hlookup
    · rw [if_neg hlatest] at hversion
      cases hversion
      rw [if_neg hlatest]
      exact hlookup

theorem keeps_add {record : MemoryPackRecord} (hw : w.Kept yanked) (hm : Marked yanked record.manifest) :
    Keeps yanked w (fun _ => True) (MemoryPackRegistry.add record) := by
  unfold MemoryPackRegistry.add
  refine Keeps.lift_bind hw fun m hvalid => ?_
  obtain rfl := validate_value hvalid
  refine Method.sat_modify.mpr ⟨?_, fun _ _ => trivial⟩
  exact ((hw.setManifest hm).setBytes _ _).setRecord rfl hm _

theorem keeps_publish {record : MemoryPackRecord} (hw : w.Kept yanked)
    (hm : (record.manifest.name, record.manifest.version) ∉ yanked) :
    Keeps yanked w (fun _ => True) (MemoryPackRegistry.publish sha256 record) := by
  unfold MemoryPackRegistry.publish
  refine Keeps.lift_bind hw fun m hvalid => ?_
  obtain rfl := validate_value hvalid
  refine Keeps.lift_bind hw fun _ _ => ?_
  refine Keeps.bind (keeps_add hw fun h => absurd h hm) fun _ w' hw' _ => keeps_pure hw' trivial

theorem keeps_resolve_memory (r : MemoryPackRegistry) (spec : SpecArgument) (hw : w.Kept yanked) :
    Keeps yanked w (Vouched yanked r.force) (r.resolve spec) := by
  unfold MemoryPackRegistry.resolve
  refine Keeps.lift_bind hw fun parsed _ => ?_
  refine Method.Sat.bind (record_sat parsed) (fun record w' l h => ?_) fun e w' l h => ⟨h.1 ▸ hw, fun _ h => nomatch h⟩
  obtain ⟨rfl, hrecord⟩ := h
  have hmarked := (hw.records _ _ (hrecord record rfl)).2
  refine Keeps.lift_bind hw fun m hdeny => ?_
  have hvouched := vouched_of_deny hmarked hdeny
  exact Keeps.manifest_bind hw hvouched.1 fun w' hw' => keeps_pure hw' hvouched

/-- What is pulled from memory by a manifest. -/
theorem keeps_serve_memory (r : MemoryPackRegistry) {m : PackManifestV1} (hw : w.Kept yanked)
    (hm : m.yanked = false ∨ r.force = true → MemoryServes sha256 w m → Marked yanked m) :
    Keeps yanked w (fun b => Vouched yanked r.force b.manifest) (do
      let manifest ← lift (denyYanked m r.force)
      match (← Method.read).records.lookup (key manifest.name manifest.version) with
      | none => lift (.error (notFound manifest.name manifest.version))
      | some record =>
        lift (assertDigest sha256 record.bytes manifest)
        lift (assertLockfilePin r.lockfile manifest.name manifest.sha256 r.force)
        updateCache (·.setBytes manifest.sha256 record.bytes)
        updateCache (·.setManifest manifest)
        return { manifest := manifest, bytes := record.bytes } : RegistryMethod PackBytesV1) := by
  refine Keeps.lift_bind hw fun m' hdeny => ?_
  obtain ⟨rfl, hforce⟩ := denyYanked_eq_ok hdeny
  refine Method.sat_read_bind.mpr ?_
  split
  · exact keeps_error hw _
  · rename_i record hrecord
    refine Keeps.lift_bind hw fun _ hdigest => ?_
    have hmarked := hm hforce ⟨record, hrecord, ensure_eq_ok.mp hdigest⟩
    refine Keeps.lift_bind hw fun _ _ => ?_
    refine Keeps.bytes_bind hw fun w' hw' => ?_
    exact Keeps.manifest_bind hw' hmarked fun w'' hw'' => keeps_pure hw'' ⟨hmarked, hforce⟩

theorem keeps_pull_memory (r : MemoryPackRegistry) (arg : PullArgument) (hw : w.Kept yanked)
    (h : ∀ m, arg = .manifest m → MemoryServes sha256 w m → Marked yanked m) :
    Keeps yanked w (fun b => Vouched yanked r.force b.manifest) (r.pull sha256 arg) := by
  unfold MemoryPackRegistry.pull
  cases arg with
  | named spec =>
    exact (keeps_resolve_memory r spec hw).bind fun m w' hw' hm => keeps_serve_memory r hw' fun _ _ => hm.1
  | manifest m =>
    refine Keeps.lift_bind hw fun m' hvalid => ?_
    obtain rfl := validate_value hvalid
    exact keeps_serve_memory r hw fun _ => h m' rfl

/-! ### Yanks -/

theorem World.Kept.yank_manifest {m : PackManifestV1} (hw : w.Kept yanked) (hy : m.yanked = true)
    (hrecords : ∀ k record, w.records.lookup k = some record → Marked {(m.name, m.version)} record.manifest) :
    World.Kept (insert (m.name, m.version) yanked) { w with cache := w.cache.setManifest m } := by
  refine ⟨fun k record h => ⟨(hw.records k record h).1, ?_⟩, fun k m' h => ?_⟩
  · rintro (hm | hm)
    · exact hrecords k record h hm
    · exact (hw.records k record h).2 hm
  · rw [lookup_setManifest] at h
    split_ifs at h with hk
    · cases h
      exact ⟨hk, fun _ => hy⟩
    · obtain ⟨hkey, hmarked⟩ := hw.manifests k m' h
      refine ⟨hkey, ?_⟩
      rintro (hm | hm)
      · obtain ⟨hname, hversion⟩ := Prod.mk.inj hm
        unfold cacheKeys at hkey hk
        rw [hname, hversion] at hkey
        exact absurd hkey hk
      · exact hmarked hm

/-- A yank that keeps what is kept, and marks what it yanks. -/
def Marks (yanked : Versions) (w : World) (p : RegistryMethod PackManifestV1) : Prop :=
  p.Sat w fun res w' _ => w'.Kept yanked ∧ ∀ m, res = .ok m → w'.Kept (insert (m.name, m.version) yanked)

theorem World.Kept.of_insert {version : String × String} (hw : w.Kept (insert version yanked)) : w.Kept yanked :=
  ⟨fun k record h => ⟨(hw.records k record h).1, fun hm => (hw.records k record h).2 (.inr hm)⟩,
    fun k m h => ⟨(hw.manifests k m h).1, fun hm => (hw.manifests k m h).2 (.inr hm)⟩⟩

theorem Marks.lift_bind (hw : w.Kept yanked) {x : Except String α} {f : α → RegistryMethod PackManifestV1}
    (h : ∀ a, x = .ok a → Marks yanked w (f a)) : Marks yanked w (lift x >>= f) :=
  sat_lift_bind h fun _ _ => ⟨hw, fun _ h => (nomatch h)⟩

theorem marks_memory (spec : SpecArgument) (hw : w.Kept yanked) : Marks yanked w (MemoryPackRegistry.yank spec) := by
  unfold MemoryPackRegistry.yank
  refine Marks.lift_bind hw fun parsed _ => ?_
  refine Method.Sat.bind (record_sat parsed) (fun record w' l h => ?_) fun e w' l h => ⟨h.1 ▸ hw, fun _ h => nomatch h⟩
  obtain ⟨rfl, hrecord⟩ := h
  refine Method.sat_modify_bind.mpr (Method.sat_pure.mpr ?_)
  obtain ⟨hkey, -⟩ := hw.records _ _ (hrecord record rfl)
  have hset := @World.Kept.setRecord _ _ hw { record with manifest := { record.manifest with yanked := true } } _
    hkey (marked_of_yanked rfl) w'.latest
  have hall := hset.yank_manifest (m := { record.manifest with yanked := true }) rfl fun k record' h hm => by
    obtain ⟨hname, hversion⟩ := Prod.mk.inj hm
    rw [lookup_setProperty, hkey] at h
    by_cases hk : k = key record.manifest.name record.manifest.version
    · rw [if_pos hk] at h
      cases h
      rfl
    · rw [if_neg hk] at h
      refine absurd ?_ hk
      rw [(hw.records k record' h).1, hname, hversion]
  refine ⟨hall.of_insert, ?_⟩
  rintro m ⟨⟩
  exact hall

theorem marks_http (r : HttpPackRegistry) (net : Network) (spec : SpecArgument) (hw : w.Kept yanked)
    (hempty : w.records = []) : Marks yanked w (r.yank net spec) := by
  unfold HttpPackRegistry.yank
  refine Marks.lift_bind hw fun _ _ => ?_
  refine Marks.lift_bind hw fun _ _ => ?_
  refine Marks.lift_bind hw fun _ _ => ?_
  refine Marks.lift_bind hw fun _ _ => ?_
  refine Marks.lift_bind hw fun _ _ => ?_
  refine Marks.lift_bind hw fun m _ => ?_
  refine sat_updateCache_bind (Method.sat_pure.mpr ?_)
  have hall := hw.yank_manifest (m := { m with yanked := true }) rfl fun k record h => by
    rw [hempty] at h
    cases h
  refine ⟨hall.of_insert, ?_⟩
  rintro m' ⟨⟩
  exact hall

/-! ### Handles -/

theorem keeps_resolve (h : Handle) (net : Network) (spec : SpecArgument) (hw : w.Kept yanked)
    (hasks : h.Asks sha256 net → Honest yanked net) : Keeps yanked w (fun _ => True) ((h.inner sha256 net).resolve spec) := by
  induction h with
  | memory origin r => exact (keeps_resolve_memory r spec hw).mono fun _ _ _ h => ⟨h.1, fun _ _ => trivial⟩
  | http r => exact (keeps_resolve_http r net spec hw hasks).mono fun _ _ _ h => ⟨h.1, fun _ _ => trivial⟩
  | offline h lockfile ih =>
    show Keeps yanked w _ (OfflinePackRegistry.resolve (h.wrapper sha256 net lockfile) spec)
    unfold OfflinePackRegistry.resolve
    by_cases hremote : isRemote (h.wrapper sha256 net lockfile).inner.origin = true
    · rw [if_pos hremote]
      exact Keeps.lift_bind hw fun _ _ => sat_cache_bind (keeps_lift hw fun _ _ => trivial)
    · rw [if_neg hremote]
      exact ih fun ha => hasks ⟨Bool.eq_false_of_not_eq_true hremote, ha⟩

/-- **A pull that goes by no old copy** returns a version that is not yanked, unless with force. -/
theorem keeps_pull (h : Handle) (net : Network) (arg : PullArgument) (hw : w.Kept yanked)
    (hh : h.Honours sha256 yanked w net arg) :
    Keeps yanked w (fun b => h.force sha256 net = false → (b.manifest.name, b.manifest.version) ∉ yanked)
      ((h.inner sha256 net).pull arg) := by
  have hnot : ∀ {force : Bool} {m : PackManifestV1}, Vouched yanked force m → force = false →
      (m.name, m.version) ∉ yanked := by
    rintro _ m hm rfl
    exact hm.not_mem
  induction h with
  | memory origin r => exact (keeps_pull_memory r arg hw hh).mono fun _ _ _ h => ⟨h.1, fun b hb => hnot (h.2 b hb)⟩
  | http r => exact (keeps_pull_http r net arg hw hh).mono fun _ _ _ h => ⟨h.1, fun b hb => hnot (h.2 b hb)⟩
  | offline h lockfile ih =>
    show Keeps yanked w _ (OfflinePackRegistry.pull (h.wrapper sha256 net lockfile) arg)
    unfold OfflinePackRegistry.pull
    by_cases hremote : isRemote (h.wrapper sha256 net lockfile).inner.origin = true
    · rw [if_pos hremote]
      have hremote' : isRemote (h.inner sha256 net).origin = true := hremote
      simp only [Handle.Honours, hremote', if_true] at hh
      refine sat_cache_bind (Keeps.lift_bind hw fun m hm => ?_)
      split
      · exact keeps_error hw _
      · rename_i bytes hbytes
        refine keeps_pure hw fun _ => hh m hm ?_
        rw [show w.cache.getBytes m.sha256 = some bytes from hbytes]
        exact Option.some_ne_none _
    · rw [if_neg hremote]
      have hlocal : isRemote (h.inner sha256 net).origin = false := Bool.eq_false_of_not_eq_true hremote
      replace hh : h.Honours sha256 yanked w net arg := by simpa [Handle.Honours, hlocal] using hh
      refine (ih hh).mono fun _ _ _ h => ⟨h.1, fun b hb hforce => h.2 b hb ?_⟩
      simpa [Handle.force, hlocal] using hforce

theorem marks_yank (h : Handle) (net : Network) (spec : SpecArgument) (hw : w.Kept yanked)
    (hh : (Operation.yank h net spec).Honours sha256 yanked w) : Marks yanked w (h.yank net spec) := by
  cases h with
  | memory origin r => exact marks_memory spec hw
  | http r => exact marks_http r net spec hw hh
  | offline h lockfile => exact sat_lift ⟨hw, fun _ h => nomatch h⟩

/-- What an operation keeps, whatever it returns. -/
theorem sat_discard {p : RegistryMethod α} {R : World → Prop} (hp : p.Sat w fun _ w' _ => R w') :
    Method.Sat (do let _ ← p : RegistryMethod Unit) w fun _ w' _ => R w' :=
  hp.bind (fun _ _ _ h => Method.sat_pure.mpr h) fun _ _ _ h => h

/-- **An operation that goes by no old copy** keeps what is kept, and marks what it yanks. -/
theorem kept_of_honours (op : Operation) (hw : w.Kept yanked) (hop : op.Honours sha256 yanked w) :
    (op.perform sha256).Sat w fun _ w' _ => w'.Kept (yanked ∪ op.Yanks w) := by
  have hnone : (∀ h net spec, op ≠ .yank h net spec) → yanked ∪ op.Yanks w = yanked := by
    intro hne
    refine Set.union_eq_self_of_subset_right ?_
    rintro _ ⟨h, net, spec, _, rfl, -⟩
    exact absurd rfl (hne h net spec)
  cases op with
  | add record =>
    rw [hnone (by simp)]
    exact (keeps_add hw hop).mono fun _ _ _ h => h.1
  | publish record =>
    rw [hnone (by simp)]
    exact sat_discard ((keeps_publish hw hop).mono fun _ _ _ h => h.1)
  | resolve h net spec =>
    rw [hnone (by simp)]
    exact sat_discard ((keeps_resolve h net spec hw hop).mono fun _ _ _ h => h.1)
  | pull h net arg =>
    rw [hnone (by simp)]
    exact sat_discard ((keeps_pull h net arg hw hop).mono fun _ _ _ h => h.1)
  | yank h net spec =>
    refine sat_discard fun r hr => ?_
    obtain ⟨hkept, hmarked⟩ := marks_yank h net spec hw hop r hr
    have hyanks : (Operation.yank h net spec).Yanks w =
        { version | ∃ m, r.result = .ok m ∧ version = (m.name, m.version) } := by
      ext version
      constructor
      · rintro ⟨_, _, _, m, ⟨⟩, hm, rfl⟩
        rw [success, hr] at hm
        exact ⟨m, toOption_eq_some.mp hm, rfl⟩
      · rintro ⟨m, hm, rfl⟩
        refine ⟨h, net, spec, m, rfl, ?_, rfl⟩
        rw [success, hr]
        exact toOption_eq_some.mpr hm
    rw [hyanks]
    cases hres : r.result with
    | error e =>
      rw [Set.union_eq_self_of_subset_right]
      · exact hkept
      · rintro _ ⟨_, ⟨⟩, -⟩
    | ok m =>
      have hinsert : yanked ∪ { version | ∃ m', (Except.ok m : Except String PackManifestV1) = .ok m' ∧
          version = (m'.name, m'.version) } = insert (m.name, m.version) yanked := by
        ext version
        simp [Set.mem_insert_iff, or_comm]
      rw [hinsert]
      exact hmarked m hres

end Steps

/-! ### Runs -/

section Runs

variable (sha256 : List UInt8 → String)

/-- A run whose operations go by no old copy. -/
def HonouredRun (ops : List Operation) : Prop :=
  Each (fun pre op => op.Honours sha256 (Yanked sha256 pre) (World.after sha256 pre)) [] ops

/-- No pull returns a version that was yanked before. -/
def YankTakesEffect (ops : List Operation) : Prop :=
  ∀ pre h net arg post b, ops = pre ++ .pull h net arg :: post → h.force sha256 net = false →
    success ((h.inner sha256 net).pull arg) (World.after sha256 pre) = some b →
    (b.manifest.name, b.manifest.version) ∉ Yanked sha256 pre

variable {sha256}

theorem yanked_append (pre : List Operation) (op : Operation) :
    Yanked sha256 (pre ++ [op]) ⊆ Yanked sha256 pre ∪ op.Yanks (World.after sha256 pre) := by
  rintro version ⟨pre', op', post, hops, hv⟩
  rcases List.eq_nil_or_concat post with rfl | ⟨post, last, rfl⟩
  · obtain ⟨rfl, hop⟩ := List.append_inj' hops rfl
    cases hop
    exact .inr hv
  · rw [List.concat_eq_append, ← List.cons_append, ← List.append_assoc] at hops
    obtain ⟨rfl, -⟩ := List.append_inj' hops rfl
    exact .inl ⟨pre', op', post, rfl, hv⟩

theorem World.Kept.anti {yanked yanked' : Versions} {w : World} (hw : w.Kept yanked) (h : yanked' ⊆ yanked) :
    w.Kept yanked' :=
  ⟨fun k record hr => ⟨(hw.records k record hr).1, fun hm => (hw.records k record hr).2 (h hm)⟩,
    fun k m hr => ⟨(hw.manifests k m hr).1, fun hm => (hw.manifests k m hr).2 (h hm)⟩⟩

/-- What such a run keeps of yanked versions is marked. -/
theorem kept_run {ops : List Operation} (h : HonouredRun sha256 ops) : (World.after sha256 ops).Kept (Yanked sha256 ops) := by
  refine Session.run_induct (m := Operation.perform sha256) (I := fun ops s => s.state.Kept (Yanked sha256 ops)) ?_ ops ?_
  · exact kept_nil
  · rintro pre op post rfl hpre
    have hop := ((each_append [] pre _).mp h).2.1
    have hstep := kept_of_honours op hpre hop
    refine World.Kept.anti ?_ (yanked_append pre op)
    unfold Session.after
    cases hr : op.perform sha256 (Session.run (Operation.perform sha256) ⟨{}, []⟩ pre).state with
    | ok r => exact hstep r hr
    | error d => exact d.elim

/-- **A yank takes effect in a run whose operations go by no old copy.** -/
theorem yank_takes_effect {ops : List Operation} (h : HonouredRun sha256 ops) : YankTakesEffect sha256 ops := by
  rintro pre hd net arg post b rfl hforce hb
  obtain ⟨hpre, hpull, -⟩ := (each_append [] pre _).mp h
  have hkeeps := keeps_pull hd net arg (kept_run hpre) hpull
  have hnot := success_of_sat (P := fun b => hd.force sha256 net = false →
    (b.manifest.name, b.manifest.version) ∉ Yanked sha256 pre) (hkeeps.mono fun _ _ _ h => h.2) hb
  exact hnot hforce

end Runs

/-! ### A yanked pack -/

/-- A registry over HTTP that may yank. -/
def yankHttp : Handle := .http { origin := "https://hub.acme.test", token := some "token" }

/-- A version is pulled, and yanked, and asked for offline. -/
def staleRun : List Operation :=
  [.pull yankHttp sampleNetwork samplePull, .yank yankHttp sampleNetwork (.text "acme/refund-policy@1.0.0"),
    .pull (.offline yankHttp none) sampleNetwork samplePull]

/-- The offline wrapper hands out the yanked version, with a manifest that says it is yanked. -/
theorem yanked_version_pulled : ¬ ∀ ops, YankTakesEffect Sha256.hex ops := by
  intro h
  have hyank : success (yankHttp.yank sampleNetwork (.text "acme/refund-policy@1.0.0")) (World.after Sha256.hex (staleRun.take 1)) =
      some { pinnedManifest with yanked := true } := by decide +kernel
  have hpull : success (((Handle.offline yankHttp none).inner Sha256.hex sampleNetwork).pull samplePull)
      (World.after Sha256.hex (staleRun.take 2)) =
      some { manifest := { pinnedManifest with yanked := true }, bytes := pinnedBytes } := by
    decide +kernel
  refine h staleRun (staleRun.take 2) _ _ _ [] _ rfl (by decide +kernel) hpull ?_
  exact ⟨staleRun.take 1, _, [], rfl, _, _, _, _, rfl, hyank, rfl⟩

/-- A registry in memory. -/
def yankMemory : Handle := .memory "memory://packs" {}

/-- A version is added and yanked; a later one is added, and pulled. -/
def honouredRun : List Operation :=
  [.add { manifest := pinnedManifest, bytes := pinnedBytes }, .yank yankMemory sampleNetwork (.text "acme/refund-policy"),
    .add { manifest := laterManifest, bytes := laterBytes }, .pull yankMemory sampleNetwork samplePull]

/-- The first version is yanked, and the later one is pulled. -/
theorem yank_takes_effect_sample :
    YankTakesEffect Sha256.hex honouredRun ∧
    ("acme/refund-policy", "1.0.0") ∈ Yanked Sha256.hex (honouredRun.take 3) ∧
    success ((yankMemory.inner Sha256.hex sampleNetwork).pull samplePull) (World.after Sha256.hex (honouredRun.take 3)) =
      some { manifest := laterManifest, bytes := laterBytes } := by
  have hyank : success (yankMemory.yank sampleNetwork (.text "acme/refund-policy")) (World.after Sha256.hex (honouredRun.take 1)) =
      some { pinnedManifest with yanked := true } := by decide +kernel
  have hrun : HonouredRun Sha256.hex honouredRun := by
    have hnil : ∀ version, version ∉ Yanked Sha256.hex [] := by
      rintro _ ⟨pre, _, _, hpre, -⟩
      cases pre <;> cases hpre
    refine ⟨fun hmem => absurd hmem (hnil _), trivial, ?_, fun _ h => (nomatch h), trivial⟩
    · intro hmem
      rcases yanked_append _ _ hmem with hmem | ⟨h, net, spec, m, hop, hm, hv⟩
      · rcases yanked_append [] _ hmem with hmem | ⟨_, _, _, _, hop, -⟩
        · exact absurd hmem (hnil _)
        · cases hop
      · cases hop
        obtain rfl := Option.some.inj (hyank.symm.trans hm)
        exact absurd (congrArg Prod.snd hv) (by decide +kernel)
  exact ⟨yank_takes_effect hrun, ⟨honouredRun.take 1, _, _, rfl, _, _, _, _, rfl, hyank, rfl⟩, by decide +kernel⟩

end Knolo.Registry
