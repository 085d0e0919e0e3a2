import Knolo.Icp.Frame
import Knolo.Icp.Effects
import Knolo.Icp.StableStore

/-!
# What the engine keeps in order

Everything the canister does to its engine: the calls of its operations, the parts of an effect that
is resolved, the timers, the handoffs it forwards, and the upgrades.

* `Arising` — the engines that a canister can have.
* `Kempt` — the invariant: records, handoffs and checkpoints are where their names say, and the
  definition is the one of its text.
* `Arising.kempt` — it holds of all of them.
-/

namespace Knolo.Icp

open Core Library Library.Fallible Host Knolo.Runtime

/-- The engine with the handoff. -/
def AgentEngine.forward (e : AgentEngine) (h : HandoffRecordV1) : AgentEngine :=
  { e with handoffs := e.handoffs.insert h.handoffId h }

/-- **The engines a canister can have.** -/
inductive Arising (codec : Codec) (principal : String → Except String String) : AgentEngine → Prop
  /-- A new one. -/
  | fresh : Arising codec principal .default
  /-- After a call. -/
  | called {e : AgentEngine} {r : Returned AgentEngine SchedulerRun CoreError Unit} (c : Call) :
      Arising codec principal e → c.perform codec e = .ok r → Arising codec principal r.state
  /-- After an effect was resolved, or another canister asked for it. -/
  | resolved {e : AgentEngine} {r : Returned AgentEngine SchedulerRun CoreError Resolution} (k : String)
      (reading : CycleReading) :
      Arising codec principal e → resolveOneEffect codec principal k reading e = .ok r →
      Arising codec principal r.state
  /-- After the reply for an execution. -/
  | replied {e : AgentEngine} {r : Returned AgentEngine SchedulerRun CoreError ExecutionRecord} (k : String)
      (reply : HostReply) (reading : CycleReading) :
      Arising codec principal e → (e.executions[k]?).isSome = true →
      finishEffect codec k reply reading e = .ok r → Arising codec principal r.state
  /-- After a timer of an execution was set, or has fired. -/
  | timed {e : AgentEngine} {k : String} {r : ExecutionRecord} (scheduled : Bool) :
      Arising codec principal e → e.executions[k]? = some r →
      Arising codec principal (e.put k { r with timerScheduled := scheduled })
  /-- After a handoff was forwarded. -/
  | forwarded {e : AgentEngine} (h : HandoffRecordV1) : Arising codec principal e → Arising codec principal (e.forward h)
  /-- After an upgrade. -/
  | upgraded {e : AgentEngine} {r : Returned AgentEngine SchedulerRun CoreError Unit} :
      Arising codec principal e → restoreFromStable codec e.snapshot .default = .ok r → r.result = .ok () →
      Arising codec principal r.state

/-- What calls lead to arises. -/
theorem Reachable.arising {codec : Codec} {e : AgentEngine} (h : Reachable codec e)
    (principal : String → Except String String) : Arising codec principal e := by
  obtain ⟨cs, rfl⟩ := h
  refine Session.run_induct (I := fun _ s => Arising codec principal s.state) .fresh cs fun pre c post _ ih => ?_
  unfold Session.after
  split
  · exact .called c ih ‹_›
  · exact ih

/-! ### The invariant -/

/-- What the engine keeps is in order. -/
structure Kempt (codec : Codec) (e : AgentEngine) : Prop where
  /-- A record is kept under its execution, whose name is valid. -/
  named : ∀ (k : String) (r : ExecutionRecord), e.executions[k]? = some r →
    r.executionId = k ∧ ∃ id : ExecutionId, id.text = k
  /-- A handoff is kept under its id. -/
  handoff : ∀ (k : String) (h : HandoffRecordV1), e.handoffs[k]? = some h → h.handoffId = k
  /-- Checkpoints are their executions' own. -/
  owned : Owned e
  /-- The definition is the one of its text. -/
  loaded : ∀ d, e.definition = some d → AgentDefinitionBundleV1.load codec d.definitionJson = .ok d
  packMeta : e.packMeta = e.definition.map (·.packMeta)
  /-- Without a definition there are no executions, checkpoints and counters. -/
  bare : e.definition = none → e.executions = ∅ ∧ e.store = .empty ∧ e.budget = .empty

variable {codec : Codec} {principal : String → Except String String} {e e' e₁ : AgentEngine} {k : String}
  {r : ExecutionRecord}

theorem load_definitionJson {json : String} {d : LoadedDefinition} (h : AgentDefinitionBundleV1.load codec json = .ok d) :
    d.definitionJson = json := by
  obtain ⟨bundle, -, h⟩ := bind_eq_ok.mp h
  split at h
  · cases h
  · obtain ⟨policy, -, h⟩ := bind_eq_ok.mp h
    cases h
    rfl

theorem kempt_default : Kempt codec .default where
  named k r hr := by simp [AgentEngine.default] at hr
  handoff k h hh := by simp [AgentEngine.default] at hh
  owned := @Reachable.owned codec _ ⟨[], rfl⟩
  loaded d hd := by simp [AgentEngine.default] at hd
  packMeta := rfl
  bare _ := ⟨rfl, rfl, rfl⟩

/-! ### Calls -/

/-- A record that is kept under `k`. -/
def Named (k : String) (r : ExecutionRecord) : Prop := r.executionId = k ∧ ∃ id : ExecutionId, id.text = k

theorem named_put (h : ∀ k r, e.executions[k]? = some r → Named k r) (hr : Named k r) :
    ∀ k' r', (e.put k r).executions[k']? = some r' → Named k' r' := by
  intro k' r' hr'
  by_cases hk : k = k'
  · subst hk
    rw [put_get] at hr'
    cases hr'
    exact hr
  · rw [put_get_ne _ _ hk] at hr'
    exact h k' r' hr'

/-- A call that goes on with a record does so under its name, with the definition at hand. -/
theorem Going.named {c : Call} {cp : CheckpointV1} {budget : Option ℕ} {hitl : Bool}
    (h : Going codec e c k r e₁ cp budget hitl) (hn : ∀ k r, e.executions[k]? = some r → Named k r) :
    Named k r ∧ (∀ k r, e₁.executions[k]? = some r → Named k r) ∧ e₁.definition = e.definition ∧
      e₁.handoffs = e.handoffs ∧ e₁.packMeta = e.packMeta := by
  cases h with
  | step hr _ _ => exact ⟨hn k r hr, hn, rfl, rfl, rfl⟩
  | resume hr _ => exact ⟨hn k r hr, hn, rfl, rfl, rfl⟩
  | @inject _ _ _ r₀ _ _ hr _ _ hr' _ =>
    have hnamed : Named k r := by
      subst hr'
      exact hn k r₀ hr
    exact ⟨hnamed, named_put hn hnamed, rfl, rfl, rfl⟩

/-- **The step lemma**: a call keeps the engine in order. -/
theorem Transition.kempt {c : Call} {log : List SchedulerRun} (h : Transition codec e c e' log)
    (hk : Kempt codec e) : Kempt codec e' := by
  have howned : Owned e' := (h.frame hk.owned).1
  -- the engines that differ in executions, store, budget and handoffs only, with a definition
  have hdefined : ∀ {e' : AgentEngine} {d : LoadedDefinition}, e.definition = some d → e'.definition = e.definition →
      e'.packMeta = e.packMeta → (∀ k r, e'.executions[k]? = some r → Named k r) →
      (∀ (k : String) (h : HandoffRecordV1), e'.handoffs[k]? = some h → h.handoffId = k) → Owned e' → Kempt codec e' := by
    intro e' d hd hsame hmeta hn hh ho
    exact ⟨hn, hh, ho, hsame ▸ hk.loaded, by rw [hmeta, hsame, hk.packMeta], fun hnone => by
      rw [hsame, hd] at hnone
      cases hnone⟩
  have hgoes : ∀ {c : Call} {k : String} {r : ExecutionRecord} {e₁ : AgentEngine} {cp : CheckpointV1}
      {budget : Option ℕ} {hitl : Bool} {d : LoadedDefinition} {x : DeterministicExecutor} {run : SchedulerRun},
      Going codec e c k r e₁ cp budget hitl → Slice d x e₁ run → e.definition = some d := by
    intro c k r e₁ cp budget hitl d x run hgo hrun
    exact (hgo.named hk.named).2.2.1.symm.trans hrun.definition
  cases h with
  | refused => exact hk
  | @loaded json d hload =>
    refine ⟨fun k r hr => by simp at hr, fun k h hh => by simp at hh, howned, fun d' hd' => ?_, rfl, fun h => by cases h⟩
    cases hd'
    rwa [load_definitionJson hload]
  | cleared =>
    refine ⟨fun k r hr => by simp at hr, fun k h hh => by simp at hh, howned, fun d hd => ?_, rfl,
      fun _ => ⟨rfl, rfl, rfl⟩⟩
    cases hd
  | limited => exact ⟨hk.named, hk.handoff, howned, hk.loaded, hk.packMeta, hk.bare⟩
  | @toolRun k r _ _ hr =>
    refine ⟨hk.named, hk.handoff, howned, hk.loaded, hk.packMeta, fun hnone => ?_⟩
    have hempty := (hk.bare hnone).1
    rw [hempty] at hr
    simp at hr
  | startFailed _ _ _ hrun _ _ => exact hdefined hrun.definition rfl rfl hk.named hk.handoff howned
  | @started _ k _ d id _ run report record handoffId spent _ _ _ hid hrun hcall hout hrec hh =>
    have hnamed : Named k (e.applyEventCap { record with handoffId }) := by
      obtain ⟨pending, -, rfl⟩ := recordFromReport_eq_ok hid hrec
      exact ⟨rfl, id, hid⟩
    refine hdefined hrun.definition rfl rfl (named_put hk.named hnamed) ?_ howned
    rcases hh with rfl | ⟨h, rfl⟩
    · exact hk.handoff
    · intro k' h' hh'
      have hh' : (e.handoffs.insert h.handoffId h)[k']? = some h' := hh'
      rw [Std.ExtTreeMap.getElem?_insert] at hh'
      split at hh'
      · cases hh'
        exact Std.LawfulEqOrd.eq_of_compare ‹_›
      · exact hk.handoff k' h' hh'
  | @injected k _ _ r hr _ _ =>
    refine ⟨named_put hk.named (hk.named k r hr), hk.handoff, howned, hk.loaded, hk.packMeta, fun hnone => ?_⟩
    have hempty := (hk.bare hnone).1
    rw [hempty] at hr
    simp at hr
  | advanceFailed hgo hrun _ _ =>
    obtain ⟨-, hn, hsame, hhandoffs, hmeta⟩ := hgo.named hk.named
    exact hdefined (hgoes hgo hrun) hsame hmeta hn (fun k h hh => hk.handoff k h (hhandoffs ▸ hh)) howned
  | @advanced _ k r e₁ cp _ _ d run report record spent hgo hrun hcall hout hrec =>
    obtain ⟨-, hn, hsame, hhandoffs, hmeta⟩ := hgo.named hk.named
    obtain ⟨id, hid, -⟩ := bind_eq_ok.mp hrec
    have hid : id.text = k := executionIdFrom_eq_ok.mp (liftError_eq_ok.mp hid)
    have hnamed : Named k record := by
      obtain ⟨pending, events, -, -, rfl⟩ := mergeStepReport_eq_ok hid hrec
      exact ⟨rfl, id, hid⟩
    exact hdefined (hgoes hgo hrun) hsame hmeta (named_put (e := e₁.stored run) hn hnamed)
      (fun k h hh => hk.handoff k h (hhandoffs ▸ hh)) howned

/-! ### Effects -/

/-- Preserved by spending, and by every call but those that reset the engine or set its limits. -/
structure Robust (codec : Codec) (I : AgentEngine → Prop) : Prop where
  call : ∀ {c : Call} {e e' : AgentEngine} {log : List SchedulerRun}, c.resets = false → (∀ l, c ≠ .setLimits l) →
    Transition codec e c e' log → I e → I e'
  spend : ∀ {e : AgentEngine} (budget : HostBudgetTracker), I e → I { e with budget }

section Robust

variable {I : AgentEngine → Prop} (hI : Robust codec I)

include hI

theorem Robust.does {α : Type} {c : Call} {p : EngineM α} (hp : ∀ e, Does codec c e p) (hc : c.resets = false)
    (hl : ∀ l, c ≠ .setLimits l) : Method.Keeps I p :=
  fun e he => (hp e).mono fun _ _ _ h => hI.call hc hl h he

theorem Robust.spends (f : AgentEngine → HostBudgetTracker) :
    Method.Keeps I (Method.modify fun e => { e with budget := f e } : EngineM Unit) :=
  Method.keeps_modify fun _ he => hI.spend _ he

theorem Robust.inject (effect : String) (value : Json) :
    Method.Keeps I (injectEffectAndResume codec k effect value) :=
  hI.does (fun _ => injectEffectAndResume_does effect value) rfl fun _ h => by cases h

theorem Robust.noteCycles (reading : CycleReading) : Method.Keeps I (noteCycles reading) := by
  unfold Icp.noteCycles
  split
  · exact hI.spends _
  · exact Method.keeps_pure ()

theorem Robust.finishRetrieval (result : RetrievalResultV1) : Method.Keeps I (finishRetrieval codec k result) :=
  (hI.spends _).bind fun _ => hI.inject _ _

/-- The rest of an effect preserves what is robust. -/
theorem Robust.finishEffect (reply : HostReply) (reading : CycleReading) :
    Method.Keeps I (finishEffect codec k reply reading) := by
  have hreply : Method.Keeps I (finishReply codec k reply) := by
    cases reply with
    | prompted text => exact (hI.spends _).bind fun _ => hI.inject _ _
    | found hits => exact hI.finishRetrieval _
    | rejected message => exact Method.keeps_ofExcept _
  exact hreply.bind fun _ => (hI.noteCycles reading).bind fun _ => Method.keeps_pure _

/-- So does an effect up to the reply. -/
theorem Robust.resolveOneEffect (reading : CycleReading) :
    Method.Keeps I (resolveOneEffect codec principal k reading) := by
  have hexisting : Method.Keeps I (existing k) := fun e he => (existing_sat k).mono fun _ _ _ h => h.1 ▸ he
  have hresolve : Method.Keeps I (resolveEffect codec principal k) := by
    refine hexisting.bind fun r => ?_
    by_cases hs : r.statusKind ≠ "suspended"
    · simp only [if_pos hs]
      exact Method.keeps_pure _
    · simp only [if_neg hs]
      refine (hI.spends _).bind fun _ => ?_
      split
      · exact Method.keeps_pure _
      · refine (hI.does (fun _ => runToolForPending_does) rfl fun _ h => by cases h).bind fun value => ?_
        exact (hI.inject "tool" value).bind fun _ => Method.keeps_pure _
      · refine Method.Keeps.read_bind fun e _ => ?_
        split
        · split
          · exact (hI.finishRetrieval _).bind fun _ => Method.keeps_pure _
          · exact (Method.keeps_ofExcept _).bind fun _ => Method.keeps_pure _
        · exact (hI.finishRetrieval _).bind fun _ => Method.keeps_pure _
      · refine (hI.does (fun _ => step_does 1) rfl fun _ h => by cases h).bind fun _ => Method.keeps_pure _
      · exact Method.keeps_pure _
  refine hresolve.bind fun resolution => ?_
  split
  · exact (hI.noteCycles reading).bind fun _ => Method.keeps_pure _
  · exact Method.keeps_pure _

end Robust

/-- In order, with a definition loaded. -/
def Ready (codec : Codec) (e : AgentEngine) : Prop := Kempt codec e ∧ e.definition ≠ none

/-- An engine with an execution has a definition. -/
theorem Kempt.ready (hk : Kempt codec e) (hr : e.executions[k]? = some r) : Ready codec e := by
  refine ⟨hk, fun hnone => ?_⟩
  rw [(hk.bare hnone).1] at hr
  simp at hr

theorem ready_robust : Robust codec (Ready codec) where
  call hc _ h he := by
    refine ⟨h.kempt he.1, ?_⟩
    rcases h.definition with hsame | ⟨hreset, -⟩
    · rw [hsame]
      exact he.2
    · rw [hc] at hreset
      cases hreset
  spend budget he := by
    obtain ⟨hk, hd⟩ := he
    exact ⟨⟨hk.named, hk.handoff, ⟨hk.owned.record, hk.owned.store⟩, hk.loaded, hk.packMeta,
      fun hnone => absurd hnone hd⟩, hd⟩

/-- Without the execution, there is nothing to resolve. -/
theorem resolveOneEffect_unknown (hr : e.executions[k]? = none) (reading : CycleReading) :
    (resolveOneEffect codec principal k reading).Sat e fun _ e' _ => e' = e := by
  have hunknown : (existing k).Sat e fun res e' _ => e' = e ∧ ∀ r, res ≠ .ok r :=
    (existing_sat k).mono fun _ _ _ ⟨he, _, hres⟩ => ⟨he, fun r h => by simpa [hr] using hres r h⟩
  have hresolve : (resolveEffect codec principal k).Sat e fun res e' _ => e' = e ∧ ∀ resolution, res ≠ .ok resolution :=
    hunknown.bind (fun r _ _ h => absurd rfl (h.2 r)) fun err e' _ h => ⟨h.1, fun _ h' => by cases h'⟩
  exact hresolve.bind (fun resolution _ _ h => absurd rfl (h.2 resolution)) fun err e' _ h => h.1

theorem resolveOneEffect_kempt (reading : CycleReading) :
    Method.Keeps (Kempt codec) (resolveOneEffect codec principal k reading) := by
  intro e hk
  cases hr : e.executions[k]? with
  | none => exact (resolveOneEffect_unknown hr reading).mono fun _ _ _ h => h ▸ hk
  | some r => exact (ready_robust.resolveOneEffect reading e (hk.ready hr)).mono fun _ _ _ h => h.1

/-! ### Upgrades -/

/-- The checkpoints of the records of an engine. -/
def AgentEngine.lastCheckpoints (e : AgentEngine) : List CheckpointV1 :=
  (valuesOf e.executions).filterMap (·.lastCheckpoint)

/-- What an upgrade makes of an engine. -/
def AgentEngine.restored (e : AgentEngine) : AgentEngine :=
  { e with
    store := InMemoryCheckpointStore.empty.saveAll e.lastCheckpoints, budget := .empty
    tools := e.definition.elim .empty fun d => defaultRegistry d.bundle.host.allowHttpsTools
    handoffs := if e.definition.isSome then ∅ else e.handoffs }

theorem loadDefinition_eq {json : String} {d : LoadedDefinition} (h : AgentDefinitionBundleV1.load codec json = .ok d)
    (e : AgentEngine) :
    loadDefinition codec json e = .ok {
      result := .ok s!"Loaded graph '{d.compiled.definition.id.text}' with implementation '{d.bundle.implementationId}'."
      state := { e with
        packMeta := some d.packMeta, definition := some d, executions := ∅, handoffs := ∅, store := .empty
        budget := .empty, tools := defaultRegistry d.bundle.host.allowHttpsTools }
      log := [] } := by
  refine (Method.bind_of_quiet (a := d) ?_).trans rfl
  rw [h]
  rfl

/-- **What an upgrade does to an engine in order.** -/
theorem restoreFromStable_eq (hk : Kempt codec e) (e₀ : AgentEngine) :
    restoreFromStable codec e.snapshot e₀ = .ok { result := .ok (), state := e.restored, log := [] } := by
  refine (Method.bind_of_quiet rfl).trans ?_
  cases hd : e.definition with
  | none =>
    obtain ⟨hexec, hstore, hbudget⟩ := hk.bare hd
    have hmeta : e.packMeta = none := by rw [hk.packMeta, hd]; rfl
    have hjson : e.snapshot.definitionJson = none := by simp [AgentEngine.snapshot, hd]
    simp only [hjson]
    refine (Method.bind_of_quiet rfl).trans ?_
    simp [Method.modify, AgentEngine.restored, AgentEngine.snapshot, AgentEngine.default, hd, hexec, hbudget, hmeta,
      AgentEngine.lastCheckpoints]
  | some d =>
    have hmeta : e.packMeta = some d.packMeta := by rw [hk.packMeta, hd]; rfl
    have hjson : e.snapshot.definitionJson = some d.definitionJson := by simp [AgentEngine.snapshot, hd]
    simp only [hjson]
    refine (Method.bind_of_quiet (by simp only [Method.mapError, loadDefinition_eq (hk.loaded d hd)]; rfl)).trans ?_
    refine (Method.bind_of_quiet rfl).trans ?_
    simp [Method.modify, AgentEngine.restored, AgentEngine.snapshot, hd, hmeta, AgentEngine.lastCheckpoints]

/-- The store that checkpoints are saved in is a map of them. -/
theorem checkpoints_saveAll (s : InMemoryCheckpointStore) (cps : List CheckpointV1) :
    (s.saveAll cps).checkpoints = scatter (·.executionId) some cps s.checkpoints := by
  induction cps generalizing s with
  | nil => rfl
  | cons cp cps ih => exact ih (s.save cp)

/-- After an upgrade, the store has the last checkpoint of each record. -/
theorem load_restored (ho : Owned e) (id : ExecutionId) :
    e.restored.store.load id = e.executions[id.text]?.bind (·.lastCheckpoint) := by
  have hscatter : (scatter (fun cp : CheckpointV1 => cp.executionId) some e.lastCheckpoints ∅)[id]? =
      (e.executions[id.text]?.bind (·.lastCheckpoint)).bind some :=
    getElem?_scatter_values (fun _ _ h => Identifier.ext h)
      (fun k r cp hr hcp => ho.record k r cp hr (.inr hcp)) id
  rw [InMemoryCheckpointStore.load, AgentEngine.restored, checkpoints_saveAll]
  exact hscatter.trans (Option.bind_fun_some _)

theorem Kempt.restored (hk : Kempt codec e) : Kempt codec e.restored where
  named := hk.named
  handoff k h hh := by
    simp only [AgentEngine.restored] at hh
    split at hh
    · simp at hh
    · exact hk.handoff k h hh
  owned :=
    { record := hk.owned.record
      store := fun id cp hcp => by
        rw [load_restored hk.owned] at hcp
        obtain ⟨r, hr, hlast⟩ := Option.bind_eq_some_iff.mp hcp
        exact Identifier.ext (hk.owned.record id.text r cp hr (.inr hlast)) }
  loaded := hk.loaded
  packMeta := hk.packMeta
  bare hnone := by
    obtain ⟨hexec, -, -⟩ := hk.bare hnone
    refine ⟨hexec, ?_, rfl⟩
    have hnil : e.lastCheckpoints = [] := by
      rw [AgentEngine.lastCheckpoints, hexec]
      rfl
    simp [AgentEngine.restored, hnil]

/-- Marking the timer of a record keeps the engine in order. -/
theorem Kempt.timed (hk : Kempt codec e) (hr : e.executions[k]? = some r) (scheduled : Bool) :
    Kempt codec (e.put k { r with timerScheduled := scheduled }) where
  named := named_put hk.named (hk.named k r hr)
  handoff := hk.handoff
  owned := hk.owned.put fun cp hcp => hk.owned.record k r cp hr hcp
  loaded := hk.loaded
  packMeta := hk.packMeta
  bare hnone := by
    rw [(hk.bare hnone).1] at hr
    simp at hr

theorem Kempt.forward (hk : Kempt codec e) (h : HandoffRecordV1) : Kempt codec (e.forward h) where
  named := hk.named
  handoff k h' hh' := by
    have hh' : (e.handoffs.insert h.handoffId h)[k]? = some h' := hh'
    rw [Std.ExtTreeMap.getElem?_insert] at hh'
    split at hh'
    · cases hh'
      exact Std.LawfulEqOrd.eq_of_compare ‹_›
    · exact hk.handoff k h' hh'
  owned := ⟨hk.owned.record, hk.owned.store⟩
  loaded := hk.loaded
  packMeta := hk.packMeta
  bare := hk.bare

/-- **The engines that a canister can have are in order.** -/
theorem Arising.kempt (h : Arising codec principal e) : Kempt codec e := by
  induction h with
  | fresh => exact kempt_default
  | called c _ hr ih => exact (perform_transition c _ hr).kempt ih
  | resolved k reading _ hr ih => exact resolveOneEffect_kempt reading _ ih _ hr
  | replied k reply reading _ hsome hr ih =>
    obtain ⟨r, hr'⟩ := Option.isSome_iff_exists.mp hsome
    exact (ready_robust.finishEffect reply reading _ (ih.ready hr') _ hr).1
  | timed scheduled _ hr ih => exact ih.timed hr scheduled
  | forwarded h _ ih => exact ih.forward h
  | upgraded _ hr _ ih =>
    rw [restoreFromStable_eq ih] at hr
    cases hr
    exact ih.restored

end Knolo.Icp
