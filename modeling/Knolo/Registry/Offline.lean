import Knolo.Registry.Yank
import Mathlib.Data.List.Infix

/-!
# What is resolved offline

Packs are resolved and pulled over HTTP, and later resolved offline from the cache that all of this
has filled. A manifest is stored under its version, and also as the latest of its name, whatever
version was asked for.

* `lookup_perform` — what a call online stores: the manifest it sees, under its three keys;
* `offline_agrees_iff` — offline, the latest version is what was last resolved as the latest, and a
  version is what was last seen of it, all along a run exactly if no call stores another manifest over these;
* `latest_overwritten` — a run that resolves the latest version and then an old one.
-/

namespace Knolo.Registry

open Script Harness Library Library.Fallible RegistryMethod

/-! ### Calls -/

/-- A registry over HTTP that is online. -/
structure OnlineRegistry where
  registry : HttpPackRegistry
  online : registry.offline = false

/-- A call of a registry that is online, with the network that it meets. -/
inductive OnlineCall where
  | resolve (r : OnlineRegistry) (net : Network) (spec : SpecArgument)
  | pull (r : OnlineRegistry) (net : Network) (arg : PullArgument)

/-- What an operation leaves. -/
def RegistryMethod.leaves {α : Type} (p : RegistryMethod α) (w : World) : World :=
  match p w with
  | .ok r => r.state
  | .error e => e.elim

theorem RegistryMethod.leaves_of_sat {α : Type} {p : RegistryMethod α} {w : World} {P : Option α → World → Prop}
    (hp : p.Sat w fun res w' _ => P res.toOption w') : P (success p w) (leaves p w) := by
  unfold leaves success
  cases h : p w with
  | ok r => exact hp r h
  | error e => exact e.elim

section Calls

variable (sha256 : List UInt8 → String)

/-- What a response says of a pack. -/
def manifestIn (parsed : PackSpecV1) (response : HttpResponse) : Except String PackManifestV1 :=
  if response.status = 410 then do
    return { ← validatePackManifest response.body (some parsed.name) (expectedVersion parsed) with yanked := true }
  else if response.status = 404 then .error (notFound parsed.name parsed.version)
  else if response.status ≠ 200 then .error (registryHttpError response.status response.body)
  else validatePackManifest response.body (some parsed.name) (expectedVersion parsed)

/-- What the server says of a pack that is asked for. -/
def HttpPackRegistry.answer (r : HttpPackRegistry) (net : Network) (parsed : PackSpecV1) :
    Except String PackManifestV1 := do
  manifestIn parsed (← net.request s!"{r.origin}/api/v1/packs/{parsed.publisher}/{parsed.slug}/{parsed.version}")

/-- What the server says of what a text or a spec names. -/
def OnlineRegistry.asked (r : OnlineRegistry) (net : Network) (spec : SpecArgument) : Except String PackManifestV1 := do
  r.registry.answer net (← parsePackSpec spec)

/-- The manifest that a call sees online: what the server says of the pack, or the manifest that its
bytes were downloaded by. -/
def OnlineCall.sees (w : World) : OnlineCall → Option PackManifestV1
  | .resolve r net spec | .pull r net (.named spec) => (r.asked net spec).toOption
  | .pull r net (.manifest m) =>
    if (w.cache.getBytes m.sha256).isNone then
      (success (r.registry.pull sha256 net (.manifest m)) w).map (·.manifest)
    else none

/-- What a call leaves. -/
def OnlineCall.perform (w : World) : OnlineCall → World
  | .resolve r net spec => leaves (r.registry.resolve net spec) w
  | .pull r net arg => leaves (r.registry.pull sha256 net arg) w

/-- The name whose latest version a call resolves, and the manifest that it returns. -/
def OnlineCall.returned (w : World) : OnlineCall → Option (String × PackManifestV1)
  | .resolve r net spec | .pull r net (.named spec) =>
    (parsePackSpec spec).toOption.bind fun parsed =>
      if parsed.version = "latest" then (success (r.registry.resolve net spec) w).map (parsed.name, ·) else none
  | .pull _ _ (.manifest _) => none

/-! ### What a call stores -/

variable {sha256} {w : World}

/-- The manifests of a cache after one is stored, if any. -/
def Stored (seen : Option PackManifestV1) (w w' : World) : Prop :=
  ∀ k, w'.cache.manifests.lookup k =
    match seen with
    | some m => if k ∈ cacheKeys m then some m else w.cache.manifests.lookup k
    | none => w.cache.manifests.lookup k

theorem stored_self : Stored none w w := fun _ => rfl

theorem stored_setManifest (m : PackManifestV1) : Stored (some m) w { w with cache := w.cache.setManifest m } :=
  lookup_setManifest w.cache m

/-- To store a manifest again changes nothing. -/
theorem Stored.again {w' w'' : World} {m : PackManifestV1} {seen : Option PackManifestV1} (h : Stored (some m) w w')
    (h' : Stored seen w' w'') (hseen : ∀ m', seen = some m' → m' = m) : Stored (some m) w w'' := by
  intro k
  rw [h' k]
  cases seen with
  | none => exact h k
  | some m' =>
    obtain rfl := hseen m' rfl
    dsimp only
    rw [h k]
    dsimp only
    split_ifs <;> rfl

/-- What is resolved is what the server says, unless it is yanked; and it is stored either way. -/
theorem resolve_stored (r : OnlineRegistry) (net : Network) (spec : SpecArgument) (w : World) :
    (r.registry.resolve net spec).Sat w fun res w' _ =>
      res = (r.asked net spec).bind (denyYanked · r.registry.force) ∧ Stored (r.asked net spec).toOption w w' := by
  refine sat_lift_bind (fun parsed hparsed => ?_) fun e he => ?_
  · have hasked : r.asked net spec = r.registry.answer net parsed := by
      rw [OnlineRegistry.asked, hparsed]
      rfl
    rw [hasked, if_neg (by simp [r.online])]
    refine sat_lift_bind (fun response hresponse => ?_) fun e he => ?_
    · have hanswer : r.registry.answer net parsed = manifestIn parsed response := by
        rw [HttpPackRegistry.answer, hresponse]
        rfl
      rw [hanswer, manifestIn]
      split_ifs
      · refine sat_lift_bind (fun m hm => ?_) fun e he => ?_
        · rw [hm]
          exact sat_updateCache_bind (sat_lift ⟨rfl, stored_setManifest _⟩)
        · rw [he]
          exact ⟨rfl, stored_self⟩
      · exact sat_lift ⟨rfl, stored_self⟩
      · exact sat_lift ⟨rfl, stored_self⟩
      · refine sat_lift_bind (fun m hm => ?_) fun e he => ?_
        · rw [hm]
          exact sat_updateCache_bind (sat_lift ⟨rfl, stored_setManifest _⟩)
        · rw [he]
          exact ⟨rfl, stored_self⟩
    · rw [HttpPackRegistry.answer, he]
      exact ⟨rfl, stored_self⟩
  · rw [OnlineRegistry.asked, he]
    exact ⟨rfl, stored_self⟩

/-- A download that succeeds stores the manifest that it goes by. -/
theorem download_stored (r : HttpPackRegistry) (net : Network) (m : PackManifestV1) (w : World) :
    (r.download sha256 net m).Sat w fun res w' _ =>
      (∃ e, res = .error e ∧ w' = w) ∨ ∃ bytes, res = .ok ⟨m, bytes⟩ ∧ Stored (some m) w w' := by
  refine sat_lift_bind (fun _ _ => ?_) fun e _ => .inl ⟨e, rfl, rfl⟩
  refine sat_lift_bind (fun _ _ => ?_) fun e _ => .inl ⟨e, rfl, rfl⟩
  refine sat_lift_bind (fun response _ => ?_) fun e _ => .inl ⟨e, rfl, rfl⟩
  refine sat_lift_bind (fun _ _ => ?_) fun e _ => .inl ⟨e, rfl, rfl⟩
  refine sat_lift_bind (fun _ _ => ?_) fun e _ => .inl ⟨e, rfl, rfl⟩
  refine sat_lift_bind (fun _ _ => ?_) fun e _ => .inl ⟨e, rfl, rfl⟩
  refine sat_updateCache_bind (sat_updateCache_bind (Method.sat_pure.mpr (.inr ⟨_, rfl, ?_⟩)))
  exact stored_setManifest m

/-- What a pull does once it has a manifest. -/
theorem serve_stored (r : HttpPackRegistry) (net : Network) (m : PackManifestV1) (w : World) :
    Method.Sat (do
      lift (assertLockfilePin r.lockfile m.name m.sha256 r.force)
      match (← cache).getBytes m.sha256 with
      | some cached =>
        lift (assertDigest sha256 cached m)
        return { manifest := m, bytes := cached }
      | none => r.download sha256 net m : RegistryMethod PackBytesV1) w fun res w' _ =>
      (∀ b, res = .ok b → b.manifest = m) ∧
        Stored (if (w.cache.getBytes m.sha256).isNone then (res.toOption.map (·.manifest)) else none) w w' := by
  refine sat_lift_bind (fun _ _ => sat_cache_bind ?_) fun e _ => ⟨fun _ h => (nomatch h), ?_⟩
  · split
    · rename_i cached hcached
      rw [hcached]
      refine sat_lift_bind (fun _ _ => Method.sat_pure.mpr ⟨?_, stored_self⟩) fun e _ => ?_
      · rintro b ⟨⟩
        rfl
      · exact ⟨fun _ h => (nomatch h), stored_self⟩
    · rename_i hcached
      rw [hcached]
      refine (download_stored r net m w).mono fun res w' _ h => ?_
      rcases h with ⟨e, rfl, rfl⟩ | ⟨bytes, rfl, hstored⟩
      · exact ⟨fun _ h => (nomatch h), stored_self⟩
      · refine ⟨?_, hstored⟩
        rintro b ⟨⟩
        rfl
  · split <;> exact stored_self

variable (sha256) in
/-- **A call stores the manifest that it sees.** -/
theorem stored_perform (c : OnlineCall) (w : World) : Stored (c.sees sha256 w) w (c.perform sha256 w) := by
  cases c with
  | resolve r net spec =>
    refine leaves_of_sat (P := fun _ => Stored (r.asked net spec).toOption w) ?_
    exact (resolve_stored r net spec w).mono fun _ _ _ h => h.2
  | pull r net arg =>
    unfold OnlineCall.perform HttpPackRegistry.pull
    cases arg with
    | named spec =>
      refine leaves_of_sat (P := fun _ => Stored (r.asked net spec).toOption w) ?_
      refine (resolve_stored r net spec w).bind ?_ fun e w' _ h => h.2
      rintro m w' _ ⟨hres, hstored⟩
      obtain ⟨m', hm', hdeny⟩ := bind_eq_ok.mp hres.symm
      obtain ⟨rfl, -⟩ := denyYanked_eq_ok hdeny
      rw [hm'] at hstored ⊢
      refine (serve_stored r.registry net m w').mono fun res w'' _ h => ?_
      refine hstored.again h.2 fun m'' hseen => ?_
      split_ifs at hseen
      obtain ⟨b, hb, rfl⟩ := Option.map_eq_some_iff.mp hseen
      exact h.1 b (toOption_eq_some.mp hb)
    | manifest m =>
      refine leaves_of_sat (P := fun (pulled : Option PackBytesV1) w' => Stored
        (if (w.cache.getBytes m.sha256).isNone then pulled.map (·.manifest) else none) w w') ?_
      refine sat_lift_bind (fun m' hm' => ?_) fun e _ => ?_
      · obtain ⟨v, hv, hdeny⟩ := bind_eq_ok.mp hm'
        obtain ⟨rfl, -⟩ := denyYanked_eq_ok hdeny
        obtain rfl := validate_value hv
        exact (serve_stored r.registry net m' w).mono fun _ _ _ h => h.2
      · split <;> exact stored_self

/-- What a response says of a pack is a valid manifest, but for the mark of a yanked version. -/
theorem manifestIn_valid {parsed : PackSpecV1} {response : HttpResponse} {m : PackManifestV1}
    (h : manifestIn parsed response = .ok m) : ∃ m' version,
      validatePackManifest response.body (some parsed.name) version = .ok m' ∧ m.name = m'.name ∧
        m.version = m'.version := by
  unfold manifestIn at h
  split_ifs at h
  · obtain ⟨m', hm', h⟩ := bind_eq_ok.mp h
    cases h
    exact ⟨m', _, hm', rfl, rfl⟩
  · exact ⟨m, _, h, rfl, rfl⟩

/-- A valid manifest has a name and a version. -/
theorem validate_named {v : JsValue} {name version : Option String} {m : PackManifestV1}
    (h : validatePackManifest v name version = .ok m) : m.name ≠ "" ∧ m.version ≠ "" := by
  obtain ⟨_, -, -, hnamed, -⟩ := validatePackManifest_eq_ok h
  exact hnamed

/-- What a call sees has a name and a version. -/
theorem sees_named {c : OnlineCall} {m : PackManifestV1} (h : c.sees sha256 w = some m) :
    m.name ≠ "" ∧ m.version ≠ "" := by
  have hasked : ∀ (r : OnlineRegistry) (net : Network) (spec : SpecArgument),
      (r.asked net spec).toOption = some m → m.name ≠ "" ∧ m.version ≠ "" := by
    intro r net spec hseen
    obtain ⟨parsed, -, hanswer⟩ := bind_eq_ok.mp (toOption_eq_some.mp hseen)
    obtain ⟨response, -, hm⟩ := bind_eq_ok.mp hanswer
    obtain ⟨m', _, hvalid, hname, hversion⟩ := manifestIn_valid hm
    rw [hname, hversion]
    exact validate_named hvalid
  cases c with
  | resolve r net spec => exact hasked r net spec h
  | pull r net arg =>
    cases arg with
    | named spec => exact hasked r net spec h
    | manifest m' =>
      simp only [OnlineCall.sees] at h
      split_ifs at h
      obtain ⟨b, hb, rfl⟩ := Option.map_eq_some_iff.mp h
      refine success_of_sat (P := fun b => b.manifest.name ≠ "" ∧ b.manifest.version ≠ "") ?_ hb
      refine sat_lift_bind (fun m'' hm'' => ?_) fun e _ b h => nomatch h
      obtain ⟨v, hv, hdeny⟩ := bind_eq_ok.mp hm''
      obtain ⟨rfl, -⟩ := denyYanked_eq_ok hdeny
      refine (serve_stored r.registry net m'' w).mono fun res _ _ h b hb => ?_
      rw [h.1 b hb]
      exact validate_named hv

variable (sha256) in
/-- What is returned of a resolve is seen, and has the name that was asked for. -/
theorem returned_seen {c : OnlineCall} {name : String} {m : PackManifestV1} (h : c.returned w = some (name, m)) :
    c.sees sha256 w = some m ∧ m.name = name ∧ name ≠ "" := by
  have hresolve : ∀ (r : OnlineRegistry) (net : Network) (spec : SpecArgument),
      ((parsePackSpec spec).toOption.bind fun parsed => if parsed.version = "latest" then
        (success (r.registry.resolve net spec) w).map (parsed.name, ·) else none) = some (name, m) →
      (r.asked net spec).toOption = some m ∧ m.name = name ∧ name ≠ "" := by
    intro r net spec hreturned
    obtain ⟨parsed, hparsed, hreturned⟩ := Option.bind_eq_some_iff.mp hreturned
    split_ifs at hreturned
    obtain ⟨m', hm', heq⟩ := Option.map_eq_some_iff.mp hreturned
    cases heq
    have hparsed := toOption_eq_some.mp hparsed
    have hasked : success (r.registry.resolve net spec) w =
        ((r.asked net spec).bind (denyYanked · r.registry.force)).toOption :=
      leaves_of_sat (P := fun (m : Option PackManifestV1) _ =>
        m = ((r.asked net spec).bind (denyYanked · r.registry.force)).toOption)
        ((resolve_stored r net spec w).mono fun _ _ _ h => congrArg _ h.1)
    rw [hasked] at hm'
    obtain ⟨m', hseen, hdeny⟩ := bind_eq_ok.mp (toOption_eq_some.mp hm')
    obtain ⟨rfl, -⟩ := denyYanked_eq_ok hdeny
    refine ⟨toOption_eq_some.mpr hseen, ?_, name_ne_empty hparsed⟩
    obtain ⟨parsed', hparsed', hanswer⟩ := bind_eq_ok.mp hseen
    obtain rfl : parsed = parsed' := Except.ok.inj (hparsed.symm.trans hparsed')
    obtain ⟨response, -, hm⟩ := bind_eq_ok.mp hanswer
    obtain ⟨_, _, hvalid, hname, -⟩ := manifestIn_valid hm
    obtain ⟨-, -, -, -, hexpected⟩ := validatePackManifest_eq_ok hvalid
    exact hname.trans (hexpected _ rfl (name_ne_empty hparsed))
  cases c with
  | resolve r net spec => exact hresolve r net spec h
  | pull r net arg =>
    cases arg with
    | named spec => exact hresolve r net spec h
    | manifest m => cases h

end Calls

/-! ### What is known -/

section Runs

variable (sha256 : List UInt8 → String)

/-- What there is after calls, what the last resolve of each latest version has returned, and what was
last seen of each version. -/
structure Watched where
  world : World := {}
  latest : String → Option PackManifestV1 := fun _ => none
  seen : String → String → Option PackManifestV1 := fun _ _ => none

namespace Watched

/-- After a call. -/
def call (s : Watched) (c : OnlineCall) : Watched where
  world := c.perform sha256 s.world
  latest name :=
    match c.returned s.world with
    | some (n, m) => if name = n then some m else s.latest name
    | none => s.latest name
  seen name version :=
    match c.sees sha256 s.world with
    | some m => if name = m.name ∧ version = m.version then some m else s.seen name version
    | none => s.seen name version

/-- After calls. -/
def after (cs : List OnlineCall) : Watched := cs.foldl (call sha256) {}

/-- What there should be of a version. -/
def known (s : Watched) (name version : String) : Option PackManifestV1 :=
  if version = "latest" then s.latest name else s.seen name version

/-- Offline, what there should be of a pack is what is resolved: by a registry over HTTP, which must
be forced if that is yanked, and by an offline wrapper. -/
def Agrees (s : Watched) : Prop :=
  ∀ spec parsed m, parsePackSpec spec = .ok parsed → s.known parsed.name parsed.version = some m →
    (∀ (r : HttpPackRegistry) net, r.offline = true → (m.yanked = true → r.force = true) →
      success (r.resolve net spec) s.world = some m) ∧
    ∀ o : OfflinePackRegistry, isRemote o.inner.origin = true → o.hasCache = true →
      success (o.resolve spec) s.world = some m

/-- What there should be is in the cache. -/
def Kept (s : Watched) : Prop :=
  ∀ name version m, s.known name version = some m → s.world.cache.manifests.lookup (key name version) = some m

/-- What is known has a name and a version. -/
def Named (s : Watched) : Prop := ∀ name version m, s.known name version = some m → name ≠ "" ∧ version ≠ ""

end Watched

/-- A call says what there should be of a version, if it sees `m`. -/
def OnlineCall.Updates (w : World) (m : PackManifestV1) (name version : String) (c : OnlineCall) : Prop :=
  if version = "latest" then ∃ m', c.returned w = some (name, m') else name = m.name ∧ version = m.version

/-- A call stores no other manifest over what there should be of a version that it does not update. -/
def OnlineCall.Respects (s : Watched) (c : OnlineCall) : Prop :=
  ∀ m, c.sees sha256 s.world = some m → ∀ name version m₀, s.known name version = some m₀ →
    key name version ∈ cacheKeys m → ¬ c.Updates s.world m name version → m = m₀

variable {sha256} {s : Watched} {c : OnlineCall}

theorem key_latest (name : String) : key name "latest" = s!"{name}@latest" := by
  show name ++ "@" ++ "latest" = name ++ "@latest"
  rw [String.append_assoc]
  rfl

theorem getManifest_of_lookup {cache : PackCache} {name version : String} {m : PackManifestV1}
    (h : cache.manifests.lookup (key name version) = some m) : cache.getManifest name version = some m := by
  unfold PackCache.getManifest
  split_ifs with hv
  · subst hv
    rw [← key_latest, h]
    rfl
  · exact h

/-- A wrapper serves what is in the cache. -/
theorem success_wrapper {o : OfflinePackRegistry} {spec : SpecArgument} {parsed : PackSpecV1} {w : World}
    {m : PackManifestV1} (hremote : isRemote o.inner.origin = true) (hcache : o.hasCache = true)
    (hparsed : parsePackSpec spec = .ok parsed) (h : w.cache.getManifest parsed.name parsed.version = some m) :
    success (o.resolve spec) w = some m := by
  refine Eq.trans (b := (Except.ok (ε := String) m).toOption) ?_ rfl
  refine leaves_of_sat (P := fun (x : Option PackManifestV1) _ => x = some m) ?_
  unfold OfflinePackRegistry.resolve
  rw [if_pos hremote]
  refine sat_lift_bind (fun parsed' hparsed' => sat_cache_bind (sat_lift ?_)) fun e he => ?_
  · obtain rfl : parsed = parsed' := Except.ok.inj (hparsed.symm.trans hparsed')
    rw [OfflinePackRegistry.manifestFor, if_pos hcache, h]
    rfl
  · rw [hparsed] at he
    cases he

/-- A registry over HTTP serves what is in the cache, unless it is yanked. -/
theorem success_offline {r : HttpPackRegistry} {net : Network} {spec : SpecArgument} {parsed : PackSpecV1} {w : World}
    {m : PackManifestV1} (hoffline : r.offline = true) (hforce : m.yanked = true → r.force = true)
    (hparsed : parsePackSpec spec = .ok parsed) (h : w.cache.getManifest parsed.name parsed.version = some m) :
    success (r.resolve net spec) w = some m := by
  refine leaves_of_sat (P := fun (x : Option PackManifestV1) _ => x = some m) ?_
  refine sat_lift_bind (fun parsed' hparsed' => ?_) fun e he => ?_
  · obtain rfl : parsed = parsed' := Except.ok.inj (hparsed.symm.trans hparsed')
    rw [if_pos hoffline]
    refine sat_cache_bind ?_
    rw [h]
    refine sat_lift ?_
    rw [denyYanked, if_neg]
    · rfl
    · rintro ⟨hy, hf⟩
      rw [hforce hy] at hf
      cases hf
  · rw [hparsed] at he
    cases he

/-! ### Runs -/

namespace Watched

/-- What is in the cache is served. -/
theorem Kept.agrees (h : s.Kept) : s.Agrees := by
  intro spec parsed m hparsed hknown
  have hcached := getManifest_of_lookup (h _ _ m hknown)
  exact ⟨fun r net hoffline hforce => success_offline hoffline hforce hparsed hcached,
    fun o hremote hcache => success_wrapper hremote hcache hparsed hcached⟩

theorem kept_empty : Kept {} := by
  intro name version m h
  unfold known at h
  split_ifs at h

theorem named_empty : Named {} := by
  intro name version m h
  unfold known at h
  split_ifs at h

variable (sha256 s c) in
/-- What a call updates is what it sees; the rest is as before. -/
theorem known_call (name version : String) : (∃ m, c.sees sha256 s.world = some m ∧
      c.Updates s.world m name version ∧ key name version ∈ cacheKeys m ∧ name ≠ "" ∧ version ≠ "" ∧
        (s.call sha256 c).known name version = some m) ∨
    (∀ m, c.sees sha256 s.world = some m → ¬ c.Updates s.world m name version) ∧
      (s.call sha256 c).known name version = s.known name version := by
  by_cases hv : version = "latest"
  · subst hv
    simp only [known, if_true, OnlineCall.Updates, call]
    cases hreturned : c.returned s.world with
    | none => exact .inr ⟨by rintro m - ⟨m', ⟨⟩⟩, rfl⟩
    | some r =>
      obtain ⟨n, m⟩ := r
      obtain ⟨hseen, hname, hne⟩ := returned_seen sha256 hreturned
      by_cases hn : name = n
      · subst hn
        refine .inl ⟨m, hseen, ⟨m, rfl⟩, ?_, hne, by decide, if_pos rfl⟩
        rw [key_latest, cacheKeys, hname]
        simp
      · refine .inr ⟨?_, if_neg hn⟩
        rintro m - ⟨m', ⟨⟩⟩
        exact hn rfl
  · simp only [known, if_neg hv, OnlineCall.Updates, call]
    cases hseen : c.sees sha256 s.world with
    | none => exact .inr ⟨by rintro m ⟨⟩, rfl⟩
    | some m =>
      by_cases hm : name = m.name ∧ version = m.version
      · obtain ⟨rfl, rfl⟩ := hm
        obtain ⟨hname, hversion⟩ := sees_named hseen
        refine .inl ⟨m, rfl, ⟨rfl, rfl⟩, ?_, hname, hversion, if_pos ⟨rfl, rfl⟩⟩
        simp [cacheKeys, key]
      · refine .inr ⟨fun m' h => ?_, if_neg hm⟩
        cases h
        exact hm

theorem Named.call (h : s.Named) : (s.call sha256 c).Named := by
  intro name version m hknown
  rcases known_call sha256 s c name version with ⟨_, -, -, -, hname, hversion, -⟩ | ⟨-, hsame⟩
  · exact ⟨hname, hversion⟩
  · rw [hsame] at hknown
    exact h name version m hknown

/-- **A call that respects what there should be keeps it.** -/
theorem Kept.call (h : s.Kept) (hc : c.Respects sha256 s) : (s.call sha256 c).Kept := by
  intro name version m hknown
  have hstored := stored_perform sha256 c s.world (key name version)
  show (c.perform sha256 s.world).cache.manifests.lookup _ = _
  rw [hstored]
  rcases known_call sha256 s c name version with
    ⟨m', hseen, -, hkey, -, -, hnew⟩ | ⟨hnot, hsame⟩
  · rw [hseen]
    dsimp only
    rw [if_pos hkey, ← hnew, hknown]
  · rw [hsame] at hknown
    cases hseen : c.sees sha256 s.world with
    | none => exact h name version m hknown
    | some m' =>
      dsimp only
      split_ifs with hkey
      · rw [hc m' hseen name version m hknown hkey (hnot m' hseen)]
      · exact h name version m hknown

/-- A call after which there is what there should be respects it. -/
theorem Agrees.respects (hnamed : s.Named) (h : (s.call sha256 c).Agrees) : c.Respects sha256 s := by
  intro m hseen name version m₀ hknown hkey hnot
  have hafter : (s.call sha256 c).known name version = some m₀ := by
    rcases known_call sha256 s c name version with ⟨m', hseen', hupdates, -⟩ | ⟨-, hsame⟩
    · rw [hseen] at hseen'
      cases hseen'
      exact absurd hupdates hnot
    · rw [hsame, hknown]
  obtain ⟨hname, hversion⟩ := hnamed name version m₀ hknown
  have hparsed : parsePackSpec (.spec ⟨"acme", "pack", version, name⟩) = .ok ⟨"acme", "pack", version, name⟩ := by
    simp [parsePackSpec, orElse, hname, hversion, ensure, String.isEmpty_iff]
  let wrapper : OfflinePackRegistry :=
    { inner := { origin := some "https://", resolve := fun _ => lift (.error ""), pull := fun _ => lift (.error "") } }
  have hserved := (h _ _ m₀ hparsed hafter).2 wrapper (by decide) rfl
  have hstored := stored_perform sha256 c s.world (key name version)
  rw [hseen] at hstored
  dsimp only at hstored
  rw [if_pos hkey] at hstored
  have hfound : (s.call sha256 c).world.cache.getManifest name version = some m := getManifest_of_lookup hstored
  have hcached := success_wrapper (o := wrapper) (by decide) rfl hparsed hfound
  exact Option.some.inj (hcached.symm.trans hserved)

theorem after_concat (cs : List OnlineCall) (c : OnlineCall) :
    after sha256 (cs ++ [c]) = (after sha256 cs).call sha256 c := by
  simp [after]

theorem named_after (cs : List OnlineCall) : (after sha256 cs).Named := by
  induction cs using List.reverseRecOn with
  | nil => exact named_empty
  | append_singleton cs c ih =>
    rw [after_concat]
    exact ih.call

end Watched

variable (sha256) in
/-- **Offline, what was last resolved as the latest and what was last seen of a version are resolved,
all along a run, exactly if no call stores another manifest over what it does not update.** -/
theorem offline_agrees_iff (cs : List OnlineCall) :
    (∀ pre, pre <+: cs → (Watched.after sha256 pre).Agrees) ↔
      Each (fun pre c => c.Respects sha256 (Watched.after sha256 pre)) [] cs := by
  constructor
  · intro h
    induction cs using List.reverseRecOn with
    | nil => trivial
    | append_singleton cs c ih =>
      refine (each_append [] cs [c]).mpr ⟨ih fun pre hpre => h pre (hpre.trans (List.prefix_append ..)), ?_, trivial⟩
      have hlast := h _ List.prefix_rfl
      rw [Watched.after_concat] at hlast
      exact Watched.Agrees.respects (Watched.named_after cs) hlast
  · intro h
    have hkept : ∀ pre, pre <+: cs → (Watched.after sha256 pre).Kept := by
      intro pre
      induction pre using List.reverseRecOn with
      | nil => exact fun _ => Watched.kept_empty
      | append_singleton pre c ih =>
        rintro ⟨post, rfl⟩
        rw [List.append_assoc] at h
        rw [Watched.after_concat]
        refine Watched.Kept.call (ih ⟨[c] ++ post, by rw [List.append_assoc]⟩) ?_
        exact ((each_append [] pre _).mp h).2.1
    exact fun pre hpre => (hkept pre hpre).agrees

end Runs

/-! ### An old version -/

/-- A registry that is online. -/
def onlineHub : OnlineRegistry := ⟨{ origin := "https://hub.acme.test" }, rfl⟩

/-- The latest version is resolved, and then an old one. -/
def oldLookup : List OnlineCall :=
  [.resolve onlineHub { sampleNetwork with request := fun _ => .ok { status := 200, body := laterManifest.value } }
      (.text "acme/refund-policy"),
    .resolve onlineHub sampleNetwork (.text "acme/refund-policy@1.0.0")]

/-- **Offline, the old version is then resolved as the latest.** -/
theorem latest_overwritten : ¬ ∀ cs, (Watched.after Sha256.hex cs).Agrees := by
  intro h
  have hparsed : parsePackSpec (.text "acme/refund-policy") =
      .ok ⟨"acme", "refund-policy", "latest", "acme/refund-policy"⟩ := by decide +kernel
  have hknown : (Watched.after Sha256.hex oldLookup).known "acme/refund-policy" "latest" = some laterManifest := by
    decide +kernel
  have hserved := (h oldLookup _ _ _ hparsed hknown).2 { inner := onlineHub.registry.inner Sha256.hex sampleNetwork }
    (by decide +kernel) rfl
  revert hserved
  decide +kernel

end Knolo.Registry
