import Knolo.Registry.Handles
import Knolo.Library.Sha256

/-!
# What a pin guarantees

A pull through the HTTP registry checks the manifest it goes by against the lockfile, and the bytes
against the manifest (`http_pull_checked`); so it respects the pin of every pack whose manifest it
goes by. A pull through the offline wrapper checks neither.

`pull_pinned_iff` says when a pull of a pinned name returns the pinned bytes: over HTTP, unless the
registry goes by a cached manifest of another pack; offline, when the manifest it goes by has the
pinned digest and the cache is not tampered with there.
-/

namespace Knolo.Registry

open Script Harness Library Library.Fallible RegistryMethod

/-! ### Names -/

theorem orElse_ne_empty {a b : String} (h : b ≠ "") : orElse a b ≠ "" := by
  unfold orElse
  split_ifs with ha
  · exact h
  · rintro rfl
    exact ha rfl

theorem name_ne_empty {spec : SpecArgument} {parsed : PackSpecV1} (h : parsePackSpec spec = .ok parsed) :
    parsed.name ≠ "" := by
  have hslash : ∀ a b : String, s!"{a}/{b}" ≠ "" := by
    intro a b he
    have hl : (a ++ "/" ++ b).toList = [] := by
      rw [show a ++ "/" ++ b = "" from he]
      rfl
    simp at hl
  cases spec with
  | text value =>
    simp only [parsePackSpec] at h
    split at h
    · cases h
    · cases h
      exact hslash _ _
  | spec value =>
    simp only [parsePackSpec] at h
    obtain ⟨_, -, h⟩ := bind_eq_ok.mp h
    cases h
    exact orElse_ne_empty (hslash _ _)

theorem requiredText_eq_ok {record : List (String × JsValue)} {k m s : String}
    (h : requiredText record k m = .ok s) : textProperty record k = some s ∧ s ≠ "" := by
  unfold requiredText at h
  split at h
  · rename_i htext
    split_ifs at h with hempty
    cases h
    refine ⟨htext, ?_⟩
    rintro rfl
    exact hempty rfl
  · cases h

/-- What a manifest says is what a record says. -/
structure PackManifestV1.ReadFrom (record : List (String × JsValue)) (m : PackManifestV1) : Prop where
  name : textProperty record "name" = some m.name
  version : textProperty record "version" = some m.version
  sha256 : textProperty record "sha256" = some m.sha256
  url : textProperty record "url" = some m.url
  sizeBytes : sizeProperty record = .ok m.sizeBytes
  stateRoot : ∃ message, optionalText record "stateRoot" message = .ok m.stateRoot
  license : ∃ message, optionalText record "license" message = .ok m.license
  yanked : yankedProperty record = .ok m.yanked
  format : formatProperty record = .ok m.format

/-- A valid manifest is read from its record, has a name and a version, and the name that is expected. -/
theorem validatePackManifest_eq_ok {v : JsValue} {name version : Option String} {m : PackManifestV1}
    (h : validatePackManifest v name version = .ok m) : ∃ record, v = .object record ∧ m.ReadFrom record ∧
      (m.name ≠ "" ∧ m.version ≠ "") ∧ ∀ n, name = some n → n ≠ "" → m.name = n := by
  unfold validatePackManifest at h
  split at h
  · rename_i record
    obtain ⟨actual, hname, h⟩ := bind_eq_ok.mp h
    obtain ⟨_, hexpected, h⟩ := bind_eq_ok.mp h
    obtain ⟨actualVersion, hversion, h⟩ := bind_eq_ok.mp h
    obtain ⟨_, -, h⟩ := bind_eq_ok.mp h
    obtain ⟨_, hsha256, h⟩ := bind_eq_ok.mp h
    obtain ⟨_, hurl, h⟩ := bind_eq_ok.mp h
    obtain ⟨sizeBytes, hsize, h⟩ := bind_eq_ok.mp h
    obtain ⟨stateRoot, hroot, h⟩ := bind_eq_ok.mp h
    obtain ⟨license, hlicense, h⟩ := bind_eq_ok.mp h
    obtain ⟨yanked, hyanked, h⟩ := bind_eq_ok.mp h
    obtain ⟨format, hformat, h⟩ := bind_eq_ok.mp h
    cases h
    obtain ⟨digest, hdigest⟩ := Option.isSome_iff_exists.mp (Option.isSome_of_any (ensure_eq_ok.mp hsha256))
    obtain ⟨url, hurl⟩ := Option.isSome_iff_exists.mp (ensure_eq_ok.mp hurl)
    obtain ⟨hname, hnamed⟩ := requiredText_eq_ok hname
    obtain ⟨hversion, hversioned⟩ := requiredText_eq_ok hversion
    refine ⟨record, rfl, ?_, ⟨hnamed, hversioned⟩, ?_⟩
    · exact
        { name := hname, version := hversion
          sha256 := by simp [hdigest], url := by simp [hurl], sizeBytes := hsize
          stateRoot := ⟨_, hroot⟩, license := ⟨_, hlicense⟩, yanked := hyanked, format := hformat }
    · rintro n rfl hn
      exact (ensure_eq_ok.mp hexpected).resolve_left hn
  · cases h

/-- A record is read in one way. -/
theorem PackManifestV1.ReadFrom.unique {record : List (String × JsValue)} {m m' : PackManifestV1}
    (h : m.ReadFrom record) (h' : m'.ReadFrom record) : m' = m := by
  have htext : ∀ {k message message' : String} {a b : Option String},
      optionalText record k message = .ok a → optionalText record k message' = .ok b → b = a := by
    intro k message message' a b ha hb
    unfold optionalText at ha hb
    split at ha <;> cases ha <;> simp_all
  obtain ⟨_, hroot⟩ := h.stateRoot
  obtain ⟨_, hroot'⟩ := h'.stateRoot
  obtain ⟨_, hlicense⟩ := h.license
  obtain ⟨_, hlicense'⟩ := h'.license
  obtain ⟨name, version, digest, _, url, _, size, yanked, format⟩ := m'
  rw [PackManifestV1.mk.injEq]
  exact ⟨Option.some.inj (h'.name.symm.trans h.name), Option.some.inj (h'.version.symm.trans h.version),
    Option.some.inj (h'.sha256.symm.trans h.sha256), htext hroot hroot', Option.some.inj (h'.url.symm.trans h.url),
    htext hlicense hlicense', Except.ok.inj (h'.sizeBytes.symm.trans h.sizeBytes),
    Except.ok.inj (h'.yanked.symm.trans h.yanked), Except.ok.inj (h'.format.symm.trans h.format)⟩

/-- A manifest, as an object, is read as it is, if its size is one. -/
theorem readFrom_value {m : PackManifestV1} {record : List (String × JsValue)} (h : m.value = .object record)
    (hsize : ∃ x, sizeProperty record = .ok x) : m.ReadFrom record := by
  obtain rfl := (JsValue.object.inj h).symm
  obtain ⟨name, version, digest, stateRoot, url, license, size, yanked, format⟩ := m
  obtain ⟨x, hx⟩ := hsize
  constructor
  case sizeBytes =>
    have hlookup : ∀ y, sizeProperty [("sizeBytes", .number size)] = .ok y → y = size := by
      intro y hy
      simp only [sizeProperty, List.lookup_cons_self] at hy
      split at hy
      · split_ifs at hy
        exact (Except.ok.inj hy).symm
      · cases hy
    rcases stateRoot with _ | root <;> rcases license with _ | license <;> exact hx.trans (by rw [hlookup x hx])
  case stateRoot | license =>
    refine ⟨"", ?_⟩
    rcases stateRoot with _ | root <;> rcases license with _ | license <;> rcases format with _ | _ | _ <;> rfl
  all_goals rcases stateRoot with _ | root <;> rcases license with _ | license <;> rcases format with _ | _ | _ <;> rfl

/-- A manifest that is valid is read as it is. -/
theorem validate_value {m m' : PackManifestV1} (h : validatePackManifest m.value = .ok m') : m' = m := by
  obtain ⟨record, hrecord, hread, -, -⟩ := validatePackManifest_eq_ok h
  exact (readFrom_value hrecord ⟨_, hread.sizeBytes⟩).unique hread

/-! ### Operations -/

section Rules

variable {α β : Type} {w : World} {Q : Except String β → World → List Empty → Prop}

/-- What is thrown ends the operation; else it goes on. -/
theorem sat_lift_bind {x : Except String α} {f : α → RegistryMethod β}
    (hok : ∀ a, x = .ok a → (f a).Sat w Q) (herr : ∀ e, x = .error e → Q (.error e) w []) :
    (lift x >>= f).Sat w Q :=
  Method.Sat.ofExcept_bind hok herr

theorem sat_lift {x : Except String β} (h : Q x w []) : (lift x).Sat w Q := Method.sat_ofExcept.mpr h

theorem sat_cache_bind {f : PackCache → RegistryMethod β} (h : (f w.cache).Sat w Q) :
    (RegistryMethod.cache >>= f).Sat w Q := by
  refine Method.sat_bind.mpr (Method.sat_read_bind.mpr (Method.sat_pure.mpr ?_))
  exact h

theorem sat_updateCache_bind {g : PackCache → PackCache} {f : Unit → RegistryMethod β}
    (h : (f ()).Sat { w with cache := g w.cache } Q) : (updateCache g >>= f).Sat w Q :=
  Method.sat_modify_bind.mpr h

end Rules

theorem denyYanked_eq_ok {m m' : PackManifestV1} {force : Bool} (h : denyYanked m force = .ok m') :
    m' = m ∧ (m.yanked = false ∨ force = true) := by
  unfold denyYanked at h
  split_ifs at h with hy
  refine ⟨(Except.ok.inj h).symm, ?_⟩
  by_contra hc
  exact hy (by simpa using hc)

/-- What is resolved over HTTP has the name that was asked for; offline it is what is cached. -/
theorem resolve_sat (r : HttpPackRegistry) (net : Network) (spec : SpecArgument) (w : World) :
    (r.resolve net spec).Sat w fun res w' _ => ∀ m, res = .ok m → ∃ parsed,
      parsePackSpec spec = .ok parsed ∧
        (r.offline = true ∧ w' = w ∧ w.cache.getManifest parsed.name parsed.version = some m ∨
          r.offline = false ∧ m.name = parsed.name) := by
  refine sat_lift_bind (fun parsed hparsed => ?_) (fun e _ m h => nomatch h)
  have hname : ∀ {body : JsValue} {m : PackManifestV1},
      validatePackManifest body (some parsed.name) (expectedVersion parsed) = .ok m → m.name = parsed.name :=
    fun h => by
      obtain ⟨_, -, -, -, hn⟩ := validatePackManifest_eq_ok h
      exact hn _ rfl (name_ne_empty hparsed)
  split
  · rename_i hoffline
    refine sat_cache_bind ?_
    split
    · rename_i cached hcached
      refine sat_lift fun m h => ⟨parsed, hparsed, .inl ⟨hoffline, rfl, ?_⟩⟩
      rw [hcached, (denyYanked_eq_ok h).1]
    · exact sat_lift fun m h => nomatch h
  · rename_i hoffline
    have honline : r.offline = false := by simpa using hoffline
    refine sat_lift_bind (fun response _ => ?_) (fun e _ m h => nomatch h)
    split_ifs
    · refine sat_lift_bind (fun m hm => ?_) (fun e _ m h => nomatch h)
      refine sat_updateCache_bind (sat_lift fun m' h => ⟨parsed, hparsed, .inr ⟨honline, ?_⟩⟩)
      rw [(denyYanked_eq_ok h).1]
      exact (hname hm : m.name = parsed.name)
    · exact sat_lift fun m h => nomatch h
    · exact sat_lift fun m h => nomatch h
    · refine sat_lift_bind (fun m hm => ?_) (fun e _ m h => nomatch h)
      refine sat_updateCache_bind (sat_lift fun m' h => ⟨parsed, hparsed, .inr ⟨honline, ?_⟩⟩)
      rw [(denyYanked_eq_ok h).1]
      exact hname hm

/-- The name a pull asks for. -/
def PullArgument.requested : PullArgument → Except String String
  | .named spec => do return (← parsePackSpec spec).name
  | .manifest m => .ok m.name

/-- A registry in offline mode that is asked for a pack by its name has a manifest for it in the
cache. -/
def Cached (r : HttpPackRegistry) (c : PackCache) (arg : PullArgument) (m : PackManifestV1) : Prop :=
  r.offline = true ∧ ∃ spec parsed, arg = .named spec ∧ parsePackSpec spec = .ok parsed ∧
    c.getManifest parsed.name parsed.version = some m

/-- The manifest a pull over HTTP goes by: of the pack that was asked for, unless it is from the
cache. -/
theorem manifestOf_sat (r : HttpPackRegistry) (net : Network) (arg : PullArgument) (w : World) :
    (r.manifestOf net arg).Sat w fun res _ _ => ∀ m, res = .ok m →
      Cached r w.cache arg m ∨ ¬ (∃ m', Cached r w.cache arg m') ∧ arg.requested = .ok m.name := by
  cases arg with
  | manifest m =>
    refine sat_lift fun m' h => .inr ⟨?_, ?_⟩
    · rintro ⟨_, -, _, _, ⟨⟩, -⟩
    · obtain ⟨v, hv, h⟩ := bind_eq_ok.mp h
      rw [(denyYanked_eq_ok h).1, validate_value hv]
      rfl
  | named spec =>
    refine (resolve_sat r net spec w).mono fun res w' _ h m hm => ?_
    obtain ⟨parsed, hparsed, ⟨hoffline, -, hcached⟩ | ⟨honline, hname⟩⟩ := h m hm
    · exact .inl ⟨hoffline, spec, parsed, rfl, hparsed, hcached⟩
    · refine .inr ⟨?_, ?_⟩
      · rintro ⟨_, hoffline, -⟩
        rw [honline] at hoffline
        cases hoffline
      · rw [hname, PullArgument.requested, hparsed]
        rfl

theorem download_sat (r : HttpPackRegistry) (sha256 : List UInt8 → String) (net : Network)
    (m : PackManifestV1) (w : World) : (r.download sha256 net m).Sat w fun res _ _ => ∀ b, res = .ok b →
      b.manifest = m ∧ sha256 b.bytes = m.sha256 := by
  have hfail : ∀ (w : World) (e : String) (b : PackBytesV1),
      (Except.error e : Except String PackBytesV1) = .ok b → b.manifest = m ∧ sha256 b.bytes = m.sha256 :=
    fun _ _ _ h => nomatch h
  refine sat_lift_bind (fun _ _ => ?_) fun e _ => hfail w e
  refine sat_lift_bind (fun _ _ => ?_) fun e _ => hfail w e
  refine sat_lift_bind (fun response _ => ?_) fun e _ => hfail w e
  refine sat_lift_bind (fun _ _ => ?_) fun e _ => hfail w e
  refine sat_lift_bind (fun _ _ => ?_) fun e _ => hfail w e
  refine sat_lift_bind (fun _ hdigest => ?_) fun e _ => hfail w e
  refine sat_updateCache_bind (sat_updateCache_bind (Method.sat_pure.mpr ?_))
  rintro b ⟨⟩
  exact ⟨rfl, ensure_eq_ok.mp hdigest⟩

/-- **A pull over HTTP is checked**: the manifest it goes by against the lockfile, the bytes against
the manifest. -/
theorem http_pull_checked (r : HttpPackRegistry) (sha256 : List UInt8 → String) (net : Network)
    (arg : PullArgument) (w : World) : (r.pull sha256 net arg).Sat w fun res _ _ => ∀ b, res = .ok b →
      (Cached r w.cache arg b.manifest ∨
        ¬ (∃ m, Cached r w.cache arg m) ∧ arg.requested = .ok b.manifest.name) ∧
      assertLockfilePin r.lockfile b.manifest.name b.manifest.sha256 r.force = .ok () ∧
      sha256 b.bytes = b.manifest.sha256 := by
  refine (manifestOf_sat r net arg w).bind (fun m w' _ hm => ?_) (fun _ _ _ _ _ h => nomatch h)
  refine sat_lift_bind (fun _ hpin => ?_) (fun _ _ _ h => nomatch h)
  refine sat_cache_bind ?_
  split
  · refine sat_lift_bind (fun _ hdigest => ?_) (fun _ _ _ h => nomatch h)
    refine Method.sat_pure.mpr ?_
    rintro b ⟨⟩
    exact ⟨hm m rfl, hpin, ensure_eq_ok.mp hdigest⟩
  · refine (download_sat r sha256 net m w').mono fun res _ _ h b hb => ?_
    obtain ⟨rfl, hdigest⟩ := h b hb
    exact ⟨hm _ rfl, hpin, hdigest⟩

/-! ### Pinned packs -/

/-- The lockfile pins a name to a digest. -/
def Pins (lockfile : KnoloLockfileV1) (name digest : String) : Prop :=
  digest ≠ "" ∧ ∃ pin, lockfilePin lockfile name = some pin ∧ pin.sha256 = digest

/-- What was pulled has the digest, and so says its manifest. -/
def PinRespected (sha256 : List UInt8 → String) (digest : String) (b : PackBytesV1) : Prop :=
  sha256 b.bytes = digest ∧ b.manifest.sha256 = digest

/-- Where an offline wrapper serves what is pinned: the manifest it goes by says the pinned digest, under
which the cache has no other bytes. -/
def Trusted (sha256 : List UInt8 → String) (digest : String) (o : OfflinePackRegistry) (c : PackCache)
    (arg : PullArgument) : Prop :=
  ∀ m, o.basis c arg = .ok m →
    m.sha256 = digest ∧ ∀ bytes, o.getBytes c digest = some bytes → sha256 bytes = digest

/-- What the lockfile lets through, under the name that is pinned. -/
theorem digest_of_assert {lockfile : KnoloLockfileV1} {name digest sha256 : String} (hpin : Pins lockfile name digest)
    (h : assertLockfilePin (some lockfile) name sha256 false = .ok ()) : sha256 = digest := by
  obtain ⟨hne, pin, hfound, rfl⟩ := hpin
  simp only [assertLockfilePin, Option.bind_some, hfound, ensure_eq_ok, Bool.false_eq_true, or_false] at h
  exact (h.resolve_left hne).symm

/-- A pull over HTTP of a pinned pack respects the pin, unless the manifest is another's from the cache. -/
theorem http_pull_pinned (r : HttpPackRegistry) (sha256 : List UInt8 → String) (net : Network) {arg : PullArgument}
    (w : World) {lockfile : KnoloLockfileV1} {name digest : String} (hpin : Pins lockfile name digest)
    (harg : arg.requested = .ok name) (hlock : r.lockfile = some lockfile) (hforce : r.force = false) :
    (r.pull sha256 net arg).Sat w fun res _ _ => ∀ b, res = .ok b →
      (PinRespected sha256 digest b ↔ ∀ m, Cached r w.cache arg m → m.name = name ∨ m.sha256 = digest) := by
  refine (http_pull_checked r sha256 net arg w).mono fun res _ _ h b hb => ?_
  obtain ⟨hbasis, hpinned, hdigest⟩ := h b hb
  rw [hlock, hforce] at hpinned
  have hunique : ∀ m m', Cached r w.cache arg m → Cached r w.cache arg m' → m = m' := by
    rintro m m' ⟨-, spec, parsed, rfl, hparsed, hm⟩ ⟨-, spec', parsed', harg', hparsed', hm'⟩
    cases harg'
    rw [hparsed] at hparsed'
    cases hparsed'
    exact Option.some.inj (hm.symm.trans hm')
  constructor
  · rintro ⟨-, hm⟩ m hcached
    rcases hbasis with hb | ⟨hnone, -⟩
    · rw [hunique _ _ hcached hb]
      exact .inr hm
    · exact absurd ⟨m, hcached⟩ hnone
  · intro hcond
    have hname : b.manifest.name = name ∨ b.manifest.sha256 = digest := by
      rcases hbasis with hb | ⟨-, hreq⟩
      · exact hcond _ hb
      · rw [harg] at hreq
        exact .inl (Except.ok.inj hreq).symm
    have hm : b.manifest.sha256 = digest := by
      rcases hname with hn | hm
      · rw [hn] at hpinned
        exact digest_of_assert hpin hpinned
      · exact hm
    exact ⟨hdigest.trans hm, hm⟩

/-- A pull through an offline wrapper respects the pin where the wrapper is trusted with it. -/
theorem offline_pull_pinned (o : OfflinePackRegistry) (sha256 : List UInt8 → String) (digest : String)
    (arg : PullArgument) (w : World) (hremote : isRemote o.inner.origin = true) :
    (o.pull arg).Sat w fun res _ _ => ∀ b, res = .ok b →
      (PinRespected sha256 digest b ↔ Trusted sha256 digest o w.cache arg) := by
  unfold OfflinePackRegistry.pull
  rw [if_pos hremote]
  refine sat_cache_bind (sat_lift_bind (fun m hm => ?_) (fun _ _ _ h => nomatch h))
  split
  · exact sat_lift fun _ h => nomatch h
  · rename_i bytes hbytes
    refine Method.sat_pure.mpr ?_
    rintro b ⟨⟩
    constructor
    · rintro ⟨hb, hd⟩ m' hm'
      have hm : m = m' := Except.ok.inj (hm.symm.trans hm')
      subst hm
      refine ⟨hd, fun bytes' hbytes' => ?_⟩
      rw [← hd, hbytes] at hbytes'
      cases hbytes'
      exact hb
    · intro htrusted
      obtain ⟨rfl, hcache⟩ := htrusted m hm
      exact ⟨hcache bytes hbytes, rfl⟩

/-- **When a pull of a pinned pack returns the pinned bytes.** Over HTTP: unless it goes by a cached manifest
of another pack. Through an offline wrapper of a registry on the network: where the manifest it goes by says
the pinned digest, and the cache has no other bytes there. A wrapper of any other registry pulls as that does. -/
theorem pull_pinned_iff (sha256 : List UInt8 → String) (lockfile : KnoloLockfileV1) (name digest : String)
    (hpin : Pins lockfile name digest) (arg : PullArgument) (harg : arg.requested = .ok name) (w : World) :
    (∀ (r : HttpPackRegistry) net b, r.lockfile = some lockfile → r.force = false →
      success (r.pull sha256 net arg) w = some b →
      (PinRespected sha256 digest b ↔ ∀ m, Cached r w.cache arg m → m.name = name ∨ m.sha256 = digest)) ∧
    ∀ o : OfflinePackRegistry, o.lockfile = some lockfile →
      (isRemote o.inner.origin = true → ∀ b, success (o.pull arg) w = some b →
        (PinRespected sha256 digest b ↔ Trusted sha256 digest o w.cache arg)) ∧
      (isRemote o.inner.origin = false → o.pull arg = o.inner.pull arg) := by
  refine ⟨fun r net b hlock hforce h => ?_, fun o _ => ⟨fun hremote b h => ?_, fun hlocal => ?_⟩⟩
  · have hb := success_of_sat (http_pull_pinned r sha256 net w hpin harg hlock hforce) h
    exact hb
  · have hb := success_of_sat (offline_pull_pinned o sha256 digest arg w hremote) h
    exact hb
  · simp [OfflinePackRegistry.pull, hlocal]

/-! ### A pinned pack -/

/-- A version of a pack. -/
def sampleManifest (version digest : String) : PackManifestV1 :=
  { name := "acme/refund-policy", version := version, sha256 := digest, url := "https://hub.acme.test/blobs/1"
    sizeBytes := .finite 0, yanked := false }

/-- The pinned version. -/
def pinnedManifest : PackManifestV1 :=
  sampleManifest "1.0.0" "039058c6f2c0cb492c533b0a4d14ef77cc0f78abccced5287d84a1a2011cfb81"

def pinnedBytes : List UInt8 := [1, 2, 3]

/-- A later version. -/
def laterManifest : PackManifestV1 :=
  sampleManifest "2.0.0" "2fa1b377bf67309f65e5e7bc9d924345ca648dec4e601a398a9cb497dcba3765"

def laterBytes : List UInt8 := [4, 5]

/-- A lockfile with a pin. -/
def sampleLockfile : KnoloLockfileV1 :=
  { packs := [("acme/refund-policy", { version := "1.0.0", sha256 := pinnedManifest.sha256 })] }

/-- A registry over HTTP, and a wrapper of it. -/
def sampleHttp : HttpPackRegistry := { origin := "https://hub.acme.test", lockfile := some sampleLockfile }

/-- A network that has the pinned version. -/
def sampleNetwork : Network :=
  { request := fun _ => .ok { status := 200, body := pinnedManifest.value }
    download := fun _ => .ok { status := 200, ok := true, bytes := pinnedBytes } }

def sampleOffline : OfflinePackRegistry :=
  { inner := sampleHttp.inner Sha256.hex sampleNetwork, lockfile := some sampleLockfile }

/-- The pack that is asked for. -/
def samplePull : PullArgument := .named (.text "acme/refund-policy")

/-- A cache with a version. -/
def cacheOf (m : PackManifestV1) (bytes : List UInt8) : PackCache :=
  (({} : PackCache).setManifest m).setBytes m.sha256 bytes

theorem pins_sample : Pins sampleLockfile "acme/refund-policy" pinnedManifest.sha256 :=
  ⟨by decide +kernel, _, rfl, rfl⟩

theorem digest_pinned : Sha256.hex pinnedBytes = pinnedManifest.sha256 := by decide +kernel

theorem requested_sample : samplePull.requested = .ok "acme/refund-policy" := by decide +kernel

/-- The pinned pack is pulled from the network, and from a cache that has it. -/
theorem pull_pinned_sample :
    (∃ b, success (sampleHttp.pull Sha256.hex sampleNetwork samplePull) {} = some b ∧
      PinRespected Sha256.hex pinnedManifest.sha256 b) ∧
    ∃ b, success (sampleOffline.pull samplePull) { cache := cacheOf pinnedManifest pinnedBytes } = some b ∧
      PinRespected Sha256.hex pinnedManifest.sha256 b := by
  have hiff := fun c => pull_pinned_iff Sha256.hex sampleLockfile _ _ pins_sample samplePull requested_sample { cache := c }
  constructor
  · have hpull : success (sampleHttp.pull Sha256.hex sampleNetwork samplePull) {} =
        some { manifest := pinnedManifest, bytes := pinnedBytes } := by decide +kernel
    exact ⟨_, hpull, ((hiff {}).1 sampleHttp sampleNetwork _ rfl rfl hpull).mpr fun _ h => (nomatch h.1)⟩
  · have hpull : success (sampleOffline.pull samplePull) { cache := cacheOf pinnedManifest pinnedBytes } =
        some { manifest := pinnedManifest, bytes := pinnedBytes } := by decide +kernel
    refine ⟨_, hpull, (((hiff _).2 sampleOffline rfl).1 (by decide +kernel) _ hpull).mpr ?_⟩
    intro m hm
    have hbasis : sampleOffline.basis (cacheOf pinnedManifest pinnedBytes) samplePull =
        .ok pinnedManifest := by decide +kernel
    rw [hbasis] at hm
    cases hm
    refine ⟨rfl, fun bytes h => ?_⟩
    have hbytes : sampleOffline.getBytes (cacheOf pinnedManifest pinnedBytes) pinnedManifest.sha256 =
        some pinnedBytes := by decide +kernel
    rw [hbytes] at h
    cases h
    exact digest_pinned

/-- Offline, a later version is pulled in place of the pinned one, from a cache that has it. -/
theorem pull_unpinned :
    ¬ ∀ (o : OfflinePackRegistry) (lockfile : KnoloLockfileV1) (name digest : String) (arg : PullArgument) (w : World) b,
      o.lockfile = some lockfile → Pins lockfile name digest → arg.requested = .ok name →
      success (o.pull arg) w = some b → PinRespected Sha256.hex digest b := by
  intro h
  have hpull : success (sampleOffline.pull samplePull) { cache := cacheOf laterManifest laterBytes } =
      some { manifest := laterManifest, bytes := laterBytes } := by decide +kernel
  have hdigest := (h _ _ _ _ _ _ _ rfl pins_sample requested_sample hpull).2
  have hne : laterManifest.sha256 ≠ pinnedManifest.sha256 := by decide +kernel
  exact hne hdigest

end Knolo.Registry
