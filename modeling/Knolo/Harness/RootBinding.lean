import Knolo.Harness.Activation

/-!
# A root stands for its dependencies

The receipt of a run names the root of its frozen dependencies and not the dependencies. That is enough: the
encoding is faithful, so two roots that are the same are of the same dependencies, or the messages that were
hashed for these two collide.

* `RootOf` — a root is that of the dependencies it comes with; `rootOf_core` and `rootOf_freeze`, on both sides.
* `frozen_root_binds` — the frozen roots of any two runs, and the root an auditor computes with the core.
-/

namespace Knolo.Harness

open Core Script Library Library.Cbor Library.StableSort Library.Fallible TypeScript

/-- The message that is hashed for sorted dependencies. -/
def rootMessage (ds : List PackDependencyV1) : Option (List UInt8) := (Item.array (ds.map depItem)).encode.map frame

/-- Different messages are hashed for the dependencies, with the same hash. -/
def Collide (sha256 : List UInt8 → String) (ds es : List PackDependencyV1) : Prop :=
  ∃ a b, rootMessage ds = some a ∧ rootMessage es = some b ∧ a ≠ b ∧ sha256 a = sha256 b

/-- The root is that of the dependencies it comes with. -/
def RootOf (sha256 : List UInt8 → String) (r : HarnessDependencyRootV1) : Prop :=
  ∃ a, rootMessage r.dependencies = some a ∧ r.root = s!"{dependencyRootLabel}:{sha256 a}"

variable {sha256 : List UInt8 → String} {ds es : List PackDependencyV1} {r r' : HarnessDependencyRootV1}

/-! ### Messages -/

theorem rootMessage_inj {a : List UInt8} (h : rootMessage ds = some a) (h' : rootMessage es = some a) : ds = es := by
  obtain ⟨b, hb, rfl⟩ := Option.map_eq_some_iff.mp h
  obtain ⟨c, hc, hframe⟩ := Option.map_eq_some_iff.mp h'
  obtain rfl : c = b := by simpa [frame] using hframe
  have hitems := Item.array.inj (Item.encode_prefix hb hc (List.prefix_refl _))
  exact List.map_injective_iff.mpr (fun _ _ => depItem_inj) hitems

/-- **Roots that are the same are of the same dependencies**, or their messages collide. -/
theorem RootOf.binds (h : RootOf sha256 r) (h' : RootOf sha256 r') (heq : r.root = r'.root) :
    r.dependencies = r'.dependencies ∨ Collide sha256 r.dependencies r'.dependencies := by
  obtain ⟨a, ha, hr⟩ := h
  obtain ⟨b, hb, hr'⟩ := h'
  have hhash : sha256 a = sha256 b := (String.append_right_inj _).mp (hr ▸ hr' ▸ heq)
  by_cases hab : a = b
  · subst hab
    exact .inl (rootMessage_inj ha hb)
  · exact .inr ⟨a, b, ha, hb, hab, hhash⟩

/-- The same dependencies have the same root. -/
theorem RootOf.root_eq (h : RootOf sha256 r) (h' : RootOf sha256 r') (heq : r.dependencies = r'.dependencies) :
    r.root = r'.root := by
  obtain ⟨a, ha, hr⟩ := h
  obtain ⟨b, hb, hr'⟩ := h'
  rw [hr, hr', Option.some.inj (ha.symm.trans (heq ▸ hb))]

/-! ### Both sides -/

theorem rootOf_dependencyRoot {cbor : List UInt8} (h : (Item.array (ds.map depItem)).encode = some cbor) :
    RootOf sha256 (dependencyRoot sha256 ds cbor) :=
  ⟨frame cbor, Option.map_eq_some_iff.mpr ⟨cbor, h, rfl⟩, rfl⟩

/-- The core returns the root of what it has sorted. -/
theorem rootOf_core {bits : ℕ} (h : computeHarnessDependencyRoot bits sha256 ds = .ok r) :
    RootOf sha256 r ∧ r.dependencies.Perm ds := by
  obtain ⟨cbor, hcbor, rfl⟩ := computeHarnessDependencyRoot_eq_ok h
  exact ⟨rootOf_dependencyRoot hcbor, sortBy_perm⟩

/-- A freeze computes the root of what it has sorted. -/
theorem rootOf_freeze {collate : String → String → Ordering} [Std.TransCmp collate]
    (h : freezeRoot collate sha256 none ds = .ok r) : RootOf sha256 r := by
  obtain ⟨cbor, hcbor, rfl⟩ := TypeScript.computeHarnessDependencyRoot_eq_ok h
  exact rootOf_dependencyRoot hcbor

/-! ### Runs -/

section Runs

variable {collate collate' : String → String → Ordering} [Std.TransCmp collate] [Std.TransCmp collate']

/-- The roots of a system are those of the dependencies they come with. -/
structure Rooted (sha256 : List UInt8 → String) (s : System) : Prop where
  freezing : ∀ r, .ok r ∈ s.freezing → RootOf sha256 r
  frozen : ∀ r, s.frozenRoot = some r → RootOf sha256 r

theorem rooted_change {s s' : System} {e : Event} (hs : Rooted sha256 s) (h : Change collate sha256 none s e s') :
    Rooted sha256 s' := by
  have herase : ∀ {i : ℕ} {r : HarnessDependencyRootV1}, .ok r ∈ s.freezing.eraseIdx i → RootOf sha256 r :=
    fun hr => hs.freezing _ (List.mem_of_mem_eraseIdx hr)
  cases h with
  | added _ _ _ _ => exact ⟨hs.freezing, hs.frozen⟩
  | staged _ _ _ => exact ⟨hs.freezing, hs.frozen⟩
  | replaced _ _ => exact ⟨hs.freezing, hs.frozen⟩
  | activated _ => exact ⟨hs.freezing, fun r hr => by cases hr⟩
  | again => exact hs
  | begun =>
    refine ⟨fun r hr => ?_, hs.frozen⟩
    rcases List.mem_append.mp hr with hr | hr
    · exact hs.freezing r hr
    · exact rootOf_freeze (List.mem_singleton.mp hr).symm
  | @settled i root hi =>
    refine ⟨fun r hr => herase hr, fun r hr => ?_⟩
    cases hr
    exact hs.freezing root (List.mem_of_getElem? hi)
  | failed _ => exact ⟨fun r hr => herase hr, hs.frozen⟩

theorem rooted_run (es : List Event) : Rooted sha256 (System.run collate sha256 none es) := by
  induction es using List.reverseRecOn with
  | nil => exact ⟨by simp [System.run], by simp [System.run]⟩
  | append_singleton es e ih =>
    rw [run_append]
    rcases @next_eq collate sha256 none (System.run collate sha256 none es) e with h | h
    · rwa [h]
    · exact rooted_change ih (step_change h)

/-- A frozen root is that of the active dependencies. -/
theorem frozen_rootOf {es : List Event} (h : (System.run collate sha256 none es).frozenRoot = some r) :
    RootOf sha256 r ∧ (System.run collate sha256 none es).active = r.dependencies :=
  ⟨(rooted_run es).frozen r h, (sound_run es).frozen r h⟩

/-- **A frozen root stands for the active dependencies.** Wherever two runs stand, whatever has interleaved in
them, their frozen roots are the same exactly when their active dependencies are, unless the messages hashed for
the two collide. And who computes a frozen root with the core has the active dependencies, in some order. -/
theorem frozen_root_binds {es es' : List Event} (h : (System.run collate sha256 none es).frozenRoot = some r)
    (h' : (System.run collate' sha256 none es').frozenRoot = some r') :
    ((System.run collate sha256 none es).active = (System.run collate' sha256 none es').active → r.root = r'.root) ∧
      (r.root = r'.root →
        (System.run collate sha256 none es).active = (System.run collate' sha256 none es').active ∨
          Collide sha256 (System.run collate sha256 none es).active (System.run collate' sha256 none es').active) ∧
      ∀ bits ds core, computeHarnessDependencyRoot bits sha256 ds = .ok core → core.root = r.root →
        ds.Perm (System.run collate sha256 none es).active ∨
          Collide sha256 core.dependencies (System.run collate sha256 none es).active := by
  obtain ⟨hroot, hactive⟩ := frozen_rootOf h
  obtain ⟨hroot', hactive'⟩ := frozen_rootOf h'
  rw [hactive, hactive']
  refine ⟨hroot.root_eq hroot', hroot.binds hroot', fun bits ds core hcore heq => ?_⟩
  obtain ⟨hcoreroot, hperm⟩ := rootOf_core hcore
  rcases hcoreroot.binds hroot heq with hsame | hcollide
  · exact .inl (hsame ▸ hperm.symm)
  · exact .inr hcollide

end Runs

/-- A dependency is added and frozen. -/
def addedRun : List Event := [.add refundPolicy, .freeze, .settle 0]

/-- It is staged, and frozen once it is active. -/
def stagedRun : List Event := [.stage refundPolicy, .activateStaged, .freeze, .settle 0]

/-- Both come to the same root. -/
theorem frozen_root_binds_staged : ∃ r r',
    (System.run compare Sha256.hex none addedRun).frozenRoot = some r ∧
      (System.run compare Sha256.hex none stagedRun).frozenRoot = some r' ∧ r.root = r'.root := by
  obtain ⟨r, hr⟩ := Option.isSome_iff_exists.mp
    (show (System.run compare Sha256.hex none addedRun).frozenRoot.isSome by decide +kernel)
  obtain ⟨r', hr'⟩ := Option.isSome_iff_exists.mp
    (show (System.run compare Sha256.hex none stagedRun).frozenRoot.isSome by decide +kernel)
  exact ⟨r, r', hr, hr', (frozen_root_binds hr hr').1 (by decide +kernel)⟩

end Knolo.Harness
