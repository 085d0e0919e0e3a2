import Knolo.Icp.Calls
import Knolo.Runtime.Invariant

/-!
# Executions keep apart

A call works on one execution and leaves the others as they are, in the records and in the
store. This needs that every checkpoint kept of an execution is its own.

* `Owned` — the invariant; `owned_run` — it holds after any calls.
* `Kept k e e'` — what the engine keeps of execution `k` is the same.
* `Transition.frame` — a call keeps every execution but its target.
-/

namespace Knolo.Icp

open Core Library Library.Fallible Library.Prog Host Knolo.Runtime

/-- The record holds checkpoint `cp`. -/
def ExecutionRecord.Holds (r : ExecutionRecord) (cp : CheckpointV1) : Prop :=
  r.pendingResume = some cp ∨ r.lastCheckpoint = some cp

/-- Every checkpoint is kept with its own execution. -/
structure Owned (e : AgentEngine) : Prop where
  record : ∀ (k : String) (r : ExecutionRecord) (cp : CheckpointV1),
    e.executions[k]? = some r → r.Holds cp → cp.executionId.text = k
  store : ∀ (id : ExecutionId) (cp : CheckpointV1), e.store.load id = some cp → cp.executionId = id

/-- What the engine keeps of execution `k` is the same. -/
structure Kept (k : String) (e e' : AgentEngine) : Prop where
  record : e'.executions[k]? = e.executions[k]?
  checkpoint : ∀ id : ExecutionId, id.text = k → e'.store.load id = e.store.load id

theorem Kept.refl (k : String) (e : AgentEngine) : Kept k e e := ⟨rfl, fun _ _ => rfl⟩

theorem Kept.trans {k : String} {e e' e'' : AgentEngine} (h : Kept k e e') (h' : Kept k e' e'') :
    Kept k e e'' :=
  ⟨h'.record.trans h.record, fun id hid => (h'.checkpoint id hid).trans (h.checkpoint id hid)⟩

/-! ### Slices -/

variable {codec : Codec} {e e' e₁ : AgentEngine} {k k' : String} {d : LoadedDefinition}
  {x : DeterministicExecutor} {run : SchedulerRun} {r : ExecutionRecord} {cp : CheckpointV1}

/-- A slice saves sound checkpoints. -/
theorem Slice.saves_sound (h : Slice d x e run) (hcp : cp ∈ saves run.observed) :
    ∃ pre, CheckpointSound d.scheduler run.call pre cp := by
  obtain ⟨tr, hr, hobs⟩ := h.runs
  rw [hobs] at hcp
  obtain ⟨o, ho, hsaved⟩ := List.mem_filterMap.mp hcp
  obtain ⟨pre, post, hsplit⟩ := List.append_of_mem ho
  obtain rfl : o = .saved cp := by
    cases o <;> simp at hsaved
    rw [hsaved]
  exact ⟨pre, (runs_sound hr).checkpoint hsplit⟩

/-- A slice saves its own checkpoints. -/
theorem Slice.saves_own (h : Slice d x e run) (hcp : cp ∈ saves run.observed) :
    cp.executionId = run.call.id := by
  obtain ⟨_, hsound⟩ := h.saves_sound hcp
  exact hsound.executionId

/-- What the store has of an execution other than those of `cps`. -/
theorem load_saveAll_of_ne {cps : List CheckpointV1} {id : ExecutionId}
    (h : ∀ cp ∈ cps, cp.executionId ≠ id) (s : InMemoryCheckpointStore) :
    (s.saveAll cps).load id = s.load id := by
  induction cps generalizing s with
  | nil => rfl
  | cons cp cps ih =>
    rw [InMemoryCheckpointStore.saveAll_cons, ih fun c hc => h c (List.mem_cons_of_mem _ hc)]
    have hne := h cp (List.mem_cons_self ..)
    simp [InMemoryCheckpointStore.load, InMemoryCheckpointStore.save, Std.ExtTreeMap.getElem?_insert, hne]

/-- Stores that load the same are the same. -/
theorem store_ext {s s' : InMemoryCheckpointStore} (h : ∀ id, s.load id = s'.load id) : s = s' := by
  obtain ⟨m⟩ := s
  obtain ⟨m'⟩ := s'
  exact congrArg InMemoryCheckpointStore.mk (Std.ExtTreeMap.ext_getElem? h)

/-- After a slice, the store has its last checkpoint. -/
theorem Slice.load_own (h : Slice d x e run) :
    (e.stored run).store.load run.call.id = (saves run.observed).getLast?.or (e.store.load run.call.id) :=
  InMemoryCheckpointStore.load_saveAll (fun _ hcp => h.saves_own hcp) _

/-- The rest of the store is as it was. -/
theorem Slice.load_other (h : Slice d x e run) {id : ExecutionId} (hid : run.call.id ≠ id) :
    (e.stored run).store.load id = e.store.load id :=
  load_saveAll_of_ne (fun _ hcp => h.saves_own hcp ▸ hid) _

/-- A slice keeps every execution but its own. -/
theorem Slice.kept (h : Slice d x e run) (hk : run.call.id.text ≠ k) : Kept k e (e.stored run) :=
  ⟨rfl, fun _ hid => h.load_other fun hc => hk (hc ▸ hid)⟩

theorem Slice.owned (h : Slice d x e run) (ho : Owned e) : Owned (e.stored run) where
  record := ho.record
  store id cp hcp := by
    by_cases hid : run.call.id = id
    · subst hid
      rw [h.load_own, Option.or_eq_some_iff] at hcp
      rcases hcp with hcp | ⟨-, hcp⟩
      · exact h.saves_own (List.mem_of_getLast? hcp)
      · exact ho.store _ _ hcp
    · rw [h.load_other hid] at hcp
      exact ho.store _ _ hcp

/-! ### Records -/

/-- A synthesized checkpoint is of its execution. -/
theorem synthesize_executionId {last : ExecutionRecord}
    (h : e.synthesizeSuspendCheckpoint codec k last = .ok cp) : cp.executionId.text = k := by
  obtain ⟨_, -, h⟩ := bind_eq_ok.mp h
  obtain ⟨id, hid, h⟩ := bind_eq_ok.mp h
  obtain ⟨_, -, h⟩ := bind_eq_ok.mp h
  cases h
  exact executionIdFrom_eq_ok.mp (liftError_eq_ok.mp hid)

theorem optional_eq_some {α : Type} {y : Except Abort α} {a : α} (h : optional y = .ok (some a)) : y = .ok a := by
  unfold optional at h
  split at h <;> simp_all

/-- The checkpoint a suspension is resumed from is the last one, or synthesized. -/
theorem pendingResumeOf_eq_some {last : Option CheckpointV1}
    (h : e.pendingResumeOf codec k r last = .ok (some cp)) :
    r.awaitsHost = true ∧ (last = some cp ∨
      last = none ∧ e.synthesizeSuspendCheckpoint codec k r = .ok cp) := by
  unfold AgentEngine.pendingResumeOf at h
  split at h
  · split at h
    · cases h
      exact ⟨‹_›, .inl rfl⟩
    · exact ⟨‹_›, .inr ⟨rfl, optional_eq_some h⟩⟩
  · cases h

/-- What `recordFromReport` makes of a report. -/
theorem recordFromReport_eq_ok {id : ExecutionId} {report : ExecutionReportV1}
    {cache : Std.ExtTreeMap String Json} {record : ExecutionRecord} (hid : id.text = k)
    (h : e.recordFromReport codec k report cache = .ok record) :
    ∃ pending, e.pendingResumeOf codec k (draft codec k report cache none) (e.store.load id) = .ok pending ∧
      record = e.applyEventCap { draft codec k report cache none with
        lastCheckpoint := (e.store.load id).or pending, pendingResume := pending } := by
  subst hid
  obtain ⟨id', hid', h⟩ := bind_eq_ok.mp h
  rw [executionIdFrom_eq_ok.mpr rfl] at hid'
  cases hid'
  obtain ⟨pending, hp, h⟩ := bind_eq_ok.mp h
  cases h
  exact ⟨pending, hp, rfl⟩

/-- What `mergeStepReport` makes of a report. -/
theorem mergeStepReport_eq_ok {id : ExecutionId} {report : ExecutionReportV1} {record : ExecutionRecord}
    (hid : id.text = k) (h : e.mergeStepReport codec k r report = .ok record) :
    ∃ pending events,
      e.pendingResumeOf codec k (draft codec k report r.effectCache r.handoffId)
        ((e.store.load id).or r.lastCheckpoint) = .ok pending ∧
      mergeEvents r.events report.events = .ok events ∧
      record = e.applyEventCap { draft codec k report r.effectCache r.handoffId with
        events, lastCheckpoint := ((e.store.load id).or r.lastCheckpoint).or pending, pendingResume := pending } := by
  subst hid
  obtain ⟨id', hid', h⟩ := bind_eq_ok.mp h
  rw [executionIdFrom_eq_ok.mpr rfl] at hid'
  cases hid'
  obtain ⟨pending, hp, h⟩ := bind_eq_ok.mp h
  obtain ⟨events, he, h⟩ := bind_eq_ok.mp h
  cases h
  exact ⟨pending, events, hp, he, rfl⟩

/-- A checkpoint of the record of a start is in the store, or synthesized for the host. -/
theorem recordFromReport_holds {id : ExecutionId} {report : ExecutionReportV1}
    {cache : Std.ExtTreeMap String Json} {record : ExecutionRecord} (hid : id.text = k)
    (h : e.recordFromReport codec k report cache = .ok record) (hcp : record.Holds cp) :
    e.store.load id = some cp ∨ e.store.load id = none ∧ (draft codec k report cache none).awaitsHost = true ∧
      e.synthesizeSuspendCheckpoint codec k (draft codec k report cache none) = .ok cp := by
  obtain ⟨pending, hp, rfl⟩ := recordFromReport_eq_ok hid h
  have key : pending = some cp → _ := fun hcp => pendingResumeOf_eq_some (hcp ▸ hp)
  rcases hcp with hcp | hcp
  · obtain ⟨hw, h | ⟨hn, h⟩⟩ := key hcp
    · exact .inl h
    · exact .inr ⟨hn, hw, h⟩
  · rcases Option.or_eq_some_iff.mp hcp with hcp | ⟨-, hcp⟩
    · exact .inl hcp
    · obtain ⟨hw, h | ⟨hn, h⟩⟩ := key hcp
      · exact .inl h
      · exact .inr ⟨hn, hw, h⟩

/-- A checkpoint of a merged record is in the store, or was the record's, or is synthesized. -/
theorem mergeStepReport_holds {id : ExecutionId} {report : ExecutionReportV1} {record : ExecutionRecord}
    (hid : id.text = k) (h : e.mergeStepReport codec k r report = .ok record) (hcp : record.Holds cp) :
    e.store.load id = some cp ∨ e.store.load id = none ∧ (r.lastCheckpoint = some cp ∨
      r.lastCheckpoint = none ∧ e.synthesizeSuspendCheckpoint codec k
        (draft codec k report r.effectCache r.handoffId) = .ok cp) := by
  obtain ⟨pending, events, hp, -, rfl⟩ := mergeStepReport_eq_ok hid h
  have key : pending = some cp → _ := fun hcp => (pendingResumeOf_eq_some (hcp ▸ hp)).2
  have hpending : pending = some cp ∨ (e.store.load id).or r.lastCheckpoint = some cp := by
    rcases hcp with hcp | hcp
    · exact .inl hcp
    · rcases Option.or_eq_some_iff.mp hcp with hcp | ⟨-, hcp⟩
      · exact .inr hcp
      · exact .inl hcp
  have hlast : (e.store.load id).or r.lastCheckpoint = some cp → e.store.load id = some cp ∨
      e.store.load id = none ∧ r.lastCheckpoint = some cp := Option.or_eq_some_iff.mp
  rcases hpending with hcp | hcp
  · rcases key hcp with h | ⟨hn, h⟩
    · rcases hlast h with h | ⟨h, h'⟩
      · exact .inl h
      · exact .inr ⟨h, .inl h'⟩
    · obtain ⟨hn, hn'⟩ := Option.or_eq_none_iff.mp hn
      exact .inr ⟨hn, .inr ⟨hn', h⟩⟩
  · rcases hlast hcp with h | ⟨h, h'⟩
    · exact .inl h
    · exact .inr ⟨h, .inl h'⟩

/-! ### The checkpoint of the next slice -/

/-- The record's checkpoints are of execution `k`. -/
def OwnRecord (k : String) (r : ExecutionRecord) : Prop := ∀ cp, r.Holds cp → cp.executionId.text = k

theorem checkpointFor_own (ho : Owned e) (hr : OwnRecord k r) (h : e.checkpointFor codec r k = .ok cp) :
    cp.executionId.text = k := by
  unfold AgentEngine.checkpointFor at h
  split at h
  · cases h
    rename_i hcp
    rcases Option.or_eq_some_iff.mp hcp with hcp | ⟨-, hcp⟩
    · exact hr _ (.inl hcp)
    · exact hr _ (.inr hcp)
  · split at h
    · cases h
      rename_i hcp
      obtain ⟨id, hid, hcp⟩ := Option.bind_eq_some_iff.mp hcp
      have hk : id.text = k := by
        unfold Identifier.new at hid
        split at hid
        · cases hid
          rfl
        · cases hid
      rw [ho.store _ _ hcp, hk]
    · exact synthesize_executionId h

theorem resumeCheckpoint_own (ho : Owned e) (hr : OwnRecord k r)
    (h : e.resumeCheckpoint codec r k = .ok cp) : cp.executionId.text = k := by
  unfold AgentEngine.resumeCheckpoint at h
  split at h
  · obtain ⟨cp', hcp', h⟩ := bind_eq_ok.mp h
    have hk := checkpointFor_own ho hr hcp'
    split at h
    · cases h
      exact hk
    · obtain ⟨_, -, h⟩ := bind_eq_ok.mp h
      obtain ⟨_, -, h⟩ := bind_eq_ok.mp h
      cases h
      exact hk
  · exact checkpointFor_own ho hr h

/-! ### Calls -/

/-- The execution a call works on. -/
def Call.target : Call → Option String
  | .loadDefinition _ | .clearDefinition | .setLimits _ => none
  | .startExecution k _ | .startWithBudget k _ _ | .acceptHandoff k _ _ _ | .step k _ | .resume k
  | .injectEffectAndResume k _ _ | .runToolForPending k => some k

/-- Does the call drop all executions? -/
def Call.resets : Call → Bool
  | .loadDefinition _ | .clearDefinition => true
  | _ => false

theorem put_get (e : AgentEngine) (k : String) (r : ExecutionRecord) :
    (e.put k r).executions[k]? = some r := by simp [AgentEngine.put]

theorem put_get_ne (e : AgentEngine) (r : ExecutionRecord) (h : k ≠ k') :
    (e.put k r).executions[k']? = e.executions[k']? := by
  simp [AgentEngine.put, Std.ExtTreeMap.getElem?_insert, h]

theorem Owned.put (ho : Owned e) (hr : OwnRecord k r) : Owned (e.put k r) where
  record k' r' cp hr' hcp := by
    by_cases hk : k = k'
    · subst hk
      rw [put_get] at hr'
      cases hr'
      exact hr cp hcp
    · rw [put_get_ne _ _ hk] at hr'
      exact ho.record k' r' cp hr' hcp
  store := ho.store

variable {c : Call} {budget : Option ℕ} {hitl : Bool}

theorem Starting.target (h : Starting c k budget) : c.target = some k ∧ c.resets = false := by
  cases h <;> exact ⟨rfl, rfl⟩

/-- A call that goes on does so with its own execution, from its own checkpoint. -/
theorem Going.spec (h : Going codec e c k r e₁ cp budget hitl) (ho : Owned e) :
    c.target = some k ∧ c.resets = false ∧ Owned e₁ ∧ OwnRecord k r ∧ cp.executionId.text = k ∧
      e₁.executions[k]? = some r ∧ e₁.store = e.store ∧ e₁.limits = e.limits ∧
      ∀ k', k ≠ k' → Kept k' e e₁ := by
  cases h with
  | step hr _ hcp =>
    have hown : OwnRecord k r := fun cp h => ho.record k r cp hr h
    exact ⟨rfl, rfl, ho, hown, checkpointFor_own ho hown hcp, hr, rfl, rfl, fun k' _ => .refl k' e⟩
  | resume hr hcp =>
    have hown : OwnRecord k r := fun cp h => ho.record k r cp hr h
    exact ⟨rfl, rfl, ho, hown, resumeCheckpoint_own ho hown hcp, hr, rfl, rfl, fun k' _ => .refl k' e⟩
  | @inject _ _ _ r₀ _ _ hr _ _ hr' hcp =>
    have hown : OwnRecord k r := fun cp h => ho.record k r₀ cp hr (by subst hr'; exact h)
    refine ⟨rfl, rfl, ho.put hown, hown, resumeCheckpoint_own (ho.put hown) hown hcp, put_get .., rfl, rfl,
      fun k' hk => ⟨put_get_ne _ _ hk, fun _ _ => rfl⟩⟩

/-- What a call does to the executions it does not work on. -/
theorem Transition.frame {log : List SchedulerRun} (h : Transition codec e c e' log) (ho : Owned e) :
    Owned e' ∧ (∀ run ∈ log, c.target = some run.call.id.text) ∧
      (c.resets = false → ∀ k, c.target ≠ some k → Kept k e e') := by
  have hput : ∀ {e₁ : AgentEngine} {k : String} {r : ExecutionRecord} {b : HostBudgetTracker}
      {hs : Std.ExtTreeMap String HandoffRecordV1}, c.target = some k → Owned e₁ → OwnRecord k r →
      (∀ k', k ≠ k' → Kept k' e e₁) →
      Owned { e₁.put k r with budget := b, handoffs := hs } ∧
        ∀ k', c.target ≠ some k' → Kept k' e { e₁.put k r with budget := b, handoffs := hs } := by
    intro e₁ k r b hs hk ho₁ hr hkept
    have hop := ho₁.put hr
    refine ⟨⟨hop.record, hop.store⟩, fun k' hne => (hkept k' fun hc => hne (hc ▸ hk)).trans ?_⟩
    exact ⟨put_get_ne _ _ fun hc => hne (hc ▸ hk), fun _ _ => rfl⟩
  have hfresh : ∀ {e₁ : AgentEngine}, e₁.executions = ∅ → e₁.store = .empty → Owned e₁ := by
    intro e₁ hx hs
    exact ⟨fun k r cp hr => by simp [hx] at hr,
      fun id cp hcp => by simp [hs, InMemoryCheckpointStore.load, InMemoryCheckpointStore.empty] at hcp⟩
  cases h with
  | refused => exact ⟨ho, by simp, fun _ k _ => .refl k e⟩
  | loaded _ => exact ⟨hfresh rfl rfl, by simp, fun h => by cases h⟩
  | cleared => exact ⟨hfresh rfl rfl, by simp, fun h => by cases h⟩
  | limited => exact ⟨⟨ho.record, ho.store⟩, by simp, fun _ k _ => ⟨rfl, fun _ _ => rfl⟩⟩
  | toolRun _ => exact ⟨⟨ho.record, ho.store⟩, by simp, fun _ k _ => ⟨rfl, fun _ _ => rfl⟩⟩
  | @startFailed _ k _ _ _ id _ run hc _ hid hrun hcall _ =>
    have hk : run.call.id.text = k := by rw [hcall]; exact hid
    refine ⟨hrun.owned ho, by simp [hk, hc.target.1], fun _ k' hne => hrun.kept fun h => hne ?_⟩
    rw [hc.target.1, ← hk, h]
  | @started _ k _ _ id _ run report record handoffId _ _ hc _ hid hrun hcall _ hrec _ =>
    have hk : run.call.id.text = k := by rw [hcall]; exact hid
    have hown : OwnRecord k (e.applyEventCap { record with handoffId }) := fun cp hcp => by
      rcases recordFromReport_holds hid hrec hcp with h | ⟨-, -, h⟩
      · rw [(hrun.owned ho).store _ _ h, hid]
      · exact synthesize_executionId h
    obtain ⟨ho', hkept⟩ := hput hc.target.1 (hrun.owned ho) hown
      fun k' hne => hrun.kept (hk ▸ hne)
    exact ⟨ho', by simp [hk, hc.target.1], fun _ => hkept⟩
  | @injected k effect value r hr _ _ =>
    have hown : OwnRecord k { r with effectCache := r.effectCache.insert effect value } :=
      fun cp h => ho.record k r cp hr h
    exact ⟨ho.put hown, by simp, fun _ k' hne => ⟨put_get_ne _ _ fun h => hne (h ▸ rfl), fun _ _ => rfl⟩⟩
  | @advanceFailed _ k r e₁ cp _ _ _ _ run hgo hrun hcall _ =>
    obtain ⟨ht, -, ho₁, -, hcp, -, -, -, hkept⟩ := hgo.spec ho
    have hk : run.call.id.text = k := by rw [hcall]; exact hcp
    refine ⟨hrun.owned ho₁, by simp [hk, ht], fun _ k' hne => ?_⟩
    have hne' : k ≠ k' := fun h => hne (h ▸ ht)
    exact (hkept k' hne').trans (hrun.kept (hk ▸ hne'))
  | @advanced _ k r e₁ cp _ _ _ run report record _ hgo hrun hcall _ hrec =>
    obtain ⟨ht, -, ho₁, hr, hcp, -, -, -, hkept⟩ := hgo.spec ho
    have hk : run.call.id.text = k := by rw [hcall]; exact hcp
    have hown : OwnRecord k record := fun cp' h => by
      rcases mergeStepReport_holds hcp hrec h with h | ⟨-, h | ⟨-, h⟩⟩
      · rw [(hrun.owned ho₁).store _ _ h, hcp]
      · exact hr cp' (.inr h)
      · exact synthesize_executionId h
    obtain ⟨ho', hkept'⟩ := hput ht (hrun.owned ho₁) hown
      fun k' hne => (hkept k' hne).trans (hrun.kept (hk ▸ hne))
    exact ⟨ho', by simp [hk, ht], fun _ => hkept'⟩

/-- A call keeps the definition, or drops the executions with it. -/
theorem Transition.definition {c : Call} {log : List SchedulerRun} (h : Transition codec e c e' log) :
    e'.definition = e.definition ∨
      c.resets = true ∧ ∀ d, e'.definition = some d → ∃ json, AgentDefinitionBundleV1.load codec json = .ok d := by
  have hgo : ∀ {c : Call} {k : String} {r : ExecutionRecord} {e₁ : AgentEngine} {cp : CheckpointV1} {budget : Option ℕ}
      {hitl : Bool}, Going codec e c k r e₁ cp budget hitl → e₁.definition = e.definition := by
    intro c k r e₁ cp budget hitl h
    cases h <;> rfl
  cases h with
  | @loaded json d' hload =>
    refine .inr ⟨rfl, fun d hd => ?_⟩
    cases hd
    exact ⟨json, hload⟩
  | cleared => exact .inr ⟨rfl, fun d hd => by cases hd⟩
  | refused | limited | toolRun _ => exact .inl rfl
  | startFailed _ _ _ _ _ _ => exact .inl rfl
  | started _ _ _ _ _ _ _ _ => exact .inl rfl
  | injected _ _ _ => exact .inl rfl
  | advanceFailed h _ _ _ =>
    have hd := hgo h
    exact .inl hd
  | advanced h _ _ _ _ =>
    have hd := hgo h
    exact .inl hd

/-! ### Sessions -/

/-- A session with the engine. -/
abbrev EngineSession := Session AgentEngine SchedulerRun

/-- A session that starts in engine `e`. -/
def sessionFrom (e : AgentEngine) : EngineSession := { state := e, log := [] }

/-- An engine that calls can lead to. -/
def Reachable (codec : Codec) (e : AgentEngine) : Prop :=
  ∃ cs : List Call, ((sessionFrom .default).run (Call.perform codec) cs).state = e

/-- One more call is a transition. -/
theorem after_transition (codec : Codec) (s : EngineSession) (c : Call) :
    Transition codec s.state c (s.after (Call.perform codec) c).state
      (Session.logged (Call.perform codec) s.state c) :=
  Session.after_of_sat (T := Transition codec s.state c) (perform_transition c) .refused

theorem owned_run {s : EngineSession} (ho : Owned s.state) (cs : List Call) :
    Owned (s.run (Call.perform codec) cs).state := by
  refine Session.run_induct (I := fun _ s => Owned s.state) ho cs fun pre c post _ ih => ?_
  exact ((after_transition codec (s.run (Call.perform codec) pre) c).frame ih).1

/-- Every checkpoint of a reachable engine is its own. -/
theorem Reachable.owned (h : Reachable codec e) : Owned e := by
  obtain ⟨cs, rfl⟩ := h
  refine owned_run ⟨fun k r cp hr => ?_, fun id cp hcp => ?_⟩ cs
  · simp [sessionFrom, AgentEngine.default] at hr
  · simp [sessionFrom, AgentEngine.default, InMemoryCheckpointStore.load, InMemoryCheckpointStore.empty] at hcp

/-! ### The definitions of the tests -/

/-- A definition as the tests write it: one schema id, nodes that read nothing, and the hashes its
texts have. -/
structure Sample where
  implementationId : String
  implementationHash : String
  graphHash : String
  entry : NodeId
  /-- The nodes: name, whether it is terminal, and the paths it writes. -/
  nodes : List (NodeId × Bool × List String)
  /-- The transitions: name, source, route and target. -/
  transitions : List (TransitionId × NodeId × String × NodeId)
  /-- The cycles: nodes and bound. -/
  cycles : List (List NodeId × ℕ)
  limits : ExecutionLimitsV1
  /-- The required paths, with the types and their names. -/
  paths : List (String × ValueType × String)

namespace Sample

variable (s : Sample)

/-- The graph. -/
def graph : GraphDefinitionV1 where
  version := 1
  id := builtinId "g"
  stateSchema := builtinId "s"
  entry := s.entry
  nodes := s.nodes.map fun n => { id := n.1, terminal := n.2.1, reads := ∅, writes := .ofList n.2.2 }
  transitions := s.transitions.map fun t => { id := t.1, source := t.2.1, route := t.2.2.1, target := t.2.2.2 }
  cycles := s.cycles.map fun c => { nodes := .ofList c.1, maxIterations := c.2 }
  limits := s.limits

/-- The bundle. -/
def bundle : AgentDefinitionBundleV1 where
  version := 1
  implementationId := s.implementationId
  graph := s.graph
  schema :=
    { version := 1, id := builtinId "s", paths := .ofList (s.paths.map fun p => (p.1, p.2.1))
      required := .ofList (s.paths.map (·.1)) }

/-- A node in JSON. -/
def nodeJson (n : NodeId × Bool × List String) : Json :=
  .object
    [("id", .string n.1.text), ("reads", .array []), ("terminal", .bool n.2.1),
      ("writes", .array (n.2.2.map .string))]

/-- A transition in JSON. -/
def transitionJson (t : TransitionId × NodeId × String × NodeId) : Json :=
  .object
    [("from", .string t.2.1.text), ("id", .string t.1.text), ("route", .string t.2.2.1),
      ("to", .string t.2.2.2.text)]

/-- The definition in JSON. -/
def json : Json :=
  .object
    [("graph", .object
        [("cycles", .array (s.cycles.map fun c =>
            .object [("max_iterations", jsonU64 c.2), ("nodes", .array (c.1.map fun n => .string n.text))])),
          ("entry", .string s.entry.text), ("id", .string "g"),
          ("limits", .object
            [("max_cost_micros", jsonU64 s.limits.maxCostMicros), ("max_steps", jsonU64 s.limits.maxSteps),
              ("max_tokens", jsonU64 s.limits.maxTokens), ("timeout_ms", jsonU64 s.limits.timeoutMs)]),
          ("nodes", .array (s.nodes.map nodeJson)), ("state_schema", .string "s"),
          ("transitions", .array (s.transitions.map transitionJson)), ("version", jsonU64 1)]),
      ("implementation_id", .string s.implementationId),
      ("schema", .object
        [("id", .string "s"), ("paths", .object (s.paths.map fun p => (p.1, .string p.2.2))),
          ("required", .array (s.paths.map fun p => .string p.1)), ("version", jsonU64 1)]),
      ("version", jsonU64 1)]

/-- A value in the text of a document; the samples have no doubles. -/
def write (v : Json) : String := v.text fun _ => "null"

/-- The text of the definition. -/
def text : String := write s.json

/-- A first state. -/
def state (value : Json) : StateSnapshot :=
  { schemaId := builtinId "s", revision := 0, value, provenance := none }

/-- The text of a first state. -/
def stateText (value : Json) : String :=
  write (.object
    [("provenance", .null), ("revision", jsonU64 0), ("schema_id", .string "s"), ("value", value)])

/-- A text that is not of the expected kind. -/
def unexpected : String := "expected value at line 1 column 1"

/-- The text layer, at the texts of the sample, of first states with the given values, and of the
given handoffs. -/
def textLayer (values : List Json) (envelopes : List (String × HandoffEnvelopeV1) := [])
    (authorities : List (String × AuthorityV1) := []) : Codec where
  parseBundle t := if t = s.text then .ok s.bundle else .error unexpected
  parseState t :=
    match values.find? fun v => stateText v = t with
    | some v => .ok (state v)
    | none => .error unexpected
  parseEnvelope t := (envelopes.lookup t).elim (.error unexpected) .ok
  parseAuthority t := (authorities.lookup t).elim (.error unexpected) .ok
  write := write
  display _ := "InvalidIdentifier"
  digest _ := s.graphHash
  sha256 _ := s.implementationHash

end Sample

/-- The limits of the samples. -/
def sampleLimits : ExecutionLimitsV1 := { maxSteps := 20, maxTokens := 100, maxCostMicros := 100, timeoutMs := 100 }

/-- The graph of `ab_definition`: node `a` leads to node `b`. -/
def abSample : Sample where
  implementationId := "a-b-terminate-v1"
  implementationHash := "e183fec39a7e3239b26f0781b53710d5ec9e4eebbfb8313d0af300dc9bd6b8d2"
  graphHash := "861e345d6f49ebb69a4373428f5e161ae9c5e81b9f825c9fee28b388ab62562b"
  entry := builtinId "a"
  nodes := [(builtinId "a", false, ["/n"]), (builtinId "b", true, [])]
  transitions := [(builtinId "next", builtinId "a", "continue", builtinId "b")]
  cycles := []
  limits := sampleLimits
  paths := [("/n", .number, "Number")]

/-- The first state of `abSample`, `{"n": 0}`. -/
def abValue : Json := .object [("n", jsonU64 0)]

/-- The text layer of `abSample`. -/
def abCodec : Codec := abSample.textLayer [abValue]

/-- A review loop: `work` leads to `await_human`, which leads back when it is passed. -/
def reviewSample : Sample where
  implementationId := "suspend-demo-v1"
  implementationHash := "e0a32ac12ae667fefb5a1a074acebb497c4e4bc51c11137ee22349659acd4ff4"
  graphHash := "11df69ef4034844f5440da515ebe4e35a40869ea572b14b9242d80d6dc28bb13"
  entry := builtinId "work"
  nodes :=
    [(builtinId "work", false, ["/phase"]), (builtinId "await_human", false, ["/phase"]),
      (builtinId "finish", true, [])]
  transitions :=
    [(builtinId "submit", builtinId "work", "continue", builtinId "await_human"),
      (builtinId "again", builtinId "await_human", "continue", builtinId "work"),
      (builtinId "end", builtinId "await_human", "done", builtinId "finish")]
  cycles := [([builtinId "await_human", builtinId "work"], 2)]
  limits := sampleLimits
  paths := [("/phase", .string, "String")]

/-- The first state of `reviewSample`, `{"phase": "init"}`. -/
def phaseValue : Json := .object [("phase", .string "init")]

/-- The text layer of `reviewSample`. -/
def reviewCodec : Codec := reviewSample.textLayer [phaseValue]

/-- The engine with a sample loaded. -/
def Sample.loaded (s : Sample) (codec : Codec) : AgentEngine :=
  ((sessionFrom .default).run (Call.perform codec) [.loadDefinition s.text]).state

end Knolo.Icp
