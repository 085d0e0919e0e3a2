import Knolo.Icp.Frame
import Knolo.Host.Gate
import Knolo.Runtime.Bounds

/-!
# What an accepted handoff is held to

A handoff is checked when it is accepted: its authority is within the parent's and the pack's. The
authority is kept in the record of the handoff, and nothing reads it afterwards. What the child
execution is held to is the limits of the graph and the policy of the pack.

* `Bounded` — the invariant: every record and every checkpoint keeps to the limits of the graph.
* `Call.invokes` — the tools a call runs; `invokes_granted` — the pack grants them.
* `handoff_held` — what holds of an accepted handoff, after any calls.
* `handoff_exceeds` — a child that uses more than the authority of its handoff.
-/

namespace Knolo.Icp

open Core Library Library.Fallible Library.Prog Host Knolo.Runtime

/-! ### Limits -/

/-- The record keeps to the limits: of steps, and of cost unless the execution has failed or was
cancelled. -/
structure WithinLimits (l : ExecutionLimitsV1) (r : ExecutionRecord) : Prop where
  steps : r.steps ≤ l.maxSteps
  cost : r.costMicros ≤ l.maxCostMicros ∨ r.statusKind = "failed" ∨ r.statusKind = "cancelled"

/-- A record within the limits whose checkpoints are within the limit of steps. -/
structure RecordBounded (l : ExecutionLimitsV1) (r : ExecutionRecord) : Prop where
  within : WithinLimits l r
  holds : ∀ cp, r.Holds cp → cp.steps ≤ l.maxSteps

/-- What the engine keeps is within the limits `l`. -/
structure Bounded (l : ExecutionLimitsV1) (e : AgentEngine) : Prop where
  record : ∀ (k : String) (r : ExecutionRecord), e.executions[k]? = some r → RecordBounded l r
  store : ∀ (id : ExecutionId) (cp : CheckpointV1), e.store.load id = some cp → cp.steps ≤ l.maxSteps

variable {codec : Codec} {e e' e₁ : AgentEngine} {k : String} {d : LoadedDefinition} {x : DeterministicExecutor}
  {run : SchedulerRun} {r : ExecutionRecord} {cp : CheckpointV1} {l : ExecutionLimitsV1}
  {report : ExecutionReportV1} {cache : Std.ExtTreeMap String Json} {handoffId : Option String}

/-- A slice saves checkpoints within the limit of steps. -/
theorem Slice.saves_steps (h : Slice d x e run) (hcp : cp ∈ saves run.observed) :
    cp.steps ≤ d.compiled.limits.maxSteps := by
  obtain ⟨tr, hr, hobs⟩ := h.runs
  rw [hobs] at hcp
  obtain ⟨o, ho, hsaved⟩ := List.mem_filterMap.mp hcp
  obtain ⟨pre, post, hsplit⟩ := List.append_of_mem ho
  obtain rfl : o = .saved cp := by
    cases o <;> simp at hsaved
    rw [hsaved]
  exact ((runs_sound hr).checkpoint hsplit).steps

/-- The report of a slice that starts within the limit of steps makes a record within the limits. -/
theorem Slice.within (h : Slice d x e run)
    (hs : (run.call.initial d.scheduler).steps ≤ d.compiled.limits.maxSteps) (hout : run.outcome = .ok report) :
    WithinLimits d.compiled.limits (draft codec k report cache handoffId) := by
  obtain ⟨tr, hr, -⟩ := h.runs
  rw [hout] at hr
  obtain ⟨hsteps, hcost⟩ := runs_limits hr hs
  refine ⟨hsteps, hcost.imp_right fun hkind => ?_⟩
  rcases hkind with ⟨msg, hmsg⟩ | hcancelled
  · exact .inl (by simp [draft, statusParts, hmsg])
  · exact .inr (by simp [draft, statusParts, hcancelled])

/-- What a slice leaves in the store is within the limits. -/
theorem Slice.bounded (h : Slice d x e run) (hb : Bounded d.compiled.limits e) :
    Bounded d.compiled.limits (e.stored run) where
  record := hb.record
  store id cp hcp := by
    by_cases hid : run.call.id = id
    · subst hid
      rw [h.load_own, Option.or_eq_some_iff] at hcp
      rcases hcp with hcp | ⟨-, hcp⟩
      · exact h.saves_steps (List.mem_of_getLast? hcp)
      · exact hb.store _ _ hcp
    · rw [h.load_other hid] at hcp
      exact hb.store _ _ hcp

theorem Bounded.put (hb : Bounded l e) (hr : RecordBounded l r) : Bounded l (e.put k r) where
  record k' r' hr' := by
    by_cases hk : k = k'
    · subst hk
      rw [put_get] at hr'
      cases hr'
      exact hr
    · rw [put_get_ne _ _ hk] at hr'
      exact hb.record k' r' hr'
  store := hb.store

/-! ### Checkpoints -/

theorem synthesize_steps (h : e.synthesizeSuspendCheckpoint codec k r = .ok cp) : cp.steps = r.steps := by
  obtain ⟨_, -, h⟩ := bind_eq_ok.mp h
  obtain ⟨_, -, h⟩ := bind_eq_ok.mp h
  obtain ⟨_, -, h⟩ := bind_eq_ok.mp h
  cases h
  rfl

theorem checkpointFor_steps (hb : Bounded l e) (hr : RecordBounded l r)
    (h : e.checkpointFor codec r k = .ok cp) : cp.steps ≤ l.maxSteps := by
  unfold AgentEngine.checkpointFor at h
  split at h
  · cases h
    rename_i hcp
    rcases Option.or_eq_some_iff.mp hcp with hcp | ⟨-, hcp⟩
    · exact hr.holds _ (.inl hcp)
    · exact hr.holds _ (.inr hcp)
  · split at h
    · cases h
      rename_i hcp
      obtain ⟨id, -, hcp⟩ := Option.bind_eq_some_iff.mp hcp
      exact hb.store _ _ hcp
    · exact synthesize_steps h ▸ hr.within.steps

theorem resumeCheckpoint_steps (hb : Bounded l e) (hr : RecordBounded l r)
    (h : e.resumeCheckpoint codec r k = .ok cp) : cp.steps ≤ l.maxSteps := by
  unfold AgentEngine.resumeCheckpoint at h
  split at h
  · obtain ⟨cp', hcp', h⟩ := bind_eq_ok.mp h
    split at h
    · cases h
      exact checkpointFor_steps hb hr hcp'
    · obtain ⟨_, -, h⟩ := bind_eq_ok.mp h
      obtain ⟨_, -, h⟩ := bind_eq_ok.mp h
      cases h
      exact hr.within.steps
  · exact checkpointFor_steps hb hr h

/-- A call that goes on does so from a checkpoint within the limit of steps. -/
theorem Going.bounded {c : Call} {budget : Option ℕ} {hitl : Bool}
    (h : Going codec e c k r e₁ cp budget hitl) (hb : Bounded l e) :
    Bounded l e₁ ∧ RecordBounded l r ∧ cp.steps ≤ l.maxSteps := by
  cases h with
  | step hr _ hcp =>
    have hrb := hb.record k r hr
    exact ⟨hb, hrb, checkpointFor_steps hb hrb hcp⟩
  | resume hr hcp =>
    have hrb := hb.record k r hr
    exact ⟨hb, hrb, resumeCheckpoint_steps hb hrb hcp⟩
  | @inject _ _ _ r₀ _ _ hr _ _ hr' hcp =>
    have hrb : RecordBounded l r := by
      subst hr'
      obtain ⟨hwithin, hholds⟩ := hb.record k r₀ hr
      exact ⟨⟨hwithin.steps, hwithin.cost⟩, hholds⟩
    exact ⟨hb.put hrb, hrb, resumeCheckpoint_steps (hb.put hrb) hrb hcp⟩

/-! ### Calls -/

/-- The engine keeps to the limits of its graph. -/
def KeepsLimits (e : AgentEngine) : Prop := ∀ d, e.definition = some d → Bounded d.compiled.limits e

theorem Bounded.congr (hb : Bounded l e) (hx : e'.executions = e.executions) (hs : e'.store = e.store) :
    Bounded l e' :=
  ⟨fun k r hr => hb.record k r (hx ▸ hr), fun id cp hcp => hb.store id cp (hs ▸ hcp)⟩

/-- An engine without executions and checkpoints. -/
theorem bounded_fresh (hx : e.executions = ∅) (hs : e.store = .empty) : Bounded l e :=
  ⟨fun k r hr => by simp [hx] at hr,
    fun id cp hcp => by simp [hs, InMemoryCheckpointStore.load, InMemoryCheckpointStore.empty] at hcp⟩

/-- **The step lemma**: a call keeps the limits. -/
theorem Transition.keepsLimits {c : Call} {log : List SchedulerRun} (h : Transition codec e c e' log)
    (hk : KeepsLimits e) : KeepsLimits e' := by
  have hrecorded : ∀ {e₁ : AgentEngine} {d : LoadedDefinition} {run : SchedulerRun} {x : DeterministicExecutor}
      {k : String} {record : ExecutionRecord}, Slice d x e₁ run → Bounded d.compiled.limits e₁ →
      RecordBounded d.compiled.limits record → ∀ d', ((e₁.stored run).put k record).definition = some d' →
      Bounded d'.compiled.limits ((e₁.stored run).put k record) := by
    intro e₁ d run x k record hrun hb hr d' hd'
    obtain rfl : d = d' := Option.some.inj (hrun.definition.symm.trans hd')
    exact (hrun.bounded hb).put hr
  cases h with
  | refused => exact hk
  | loaded _ => exact fun d _ => bounded_fresh rfl rfl
  | cleared => exact fun d _ => bounded_fresh rfl rfl
  | limited => exact fun d hd => (hk d hd).congr rfl rfl
  | toolRun _ => exact fun d hd => (hk d hd).congr rfl rfl
  | @startFailed _ _ _ _ d id _ run _ _ hid hrun hcall _ =>
    intro d' hd'
    obtain rfl : d = d' := Option.some.inj (hrun.definition.symm.trans hd')
    exact hrun.bounded (hk d hrun.definition)
  | @started _ k _ d id _ run report record handoffId spent _ _ _ hid hrun hcall hout hrec _ =>
    have hb := hrun.bounded (hk d hrun.definition)
    have hwithin : WithinLimits d.compiled.limits (draft codec k report ∅ none) :=
      hrun.within (by rw [hcall]; exact Nat.zero_le _) hout
    have hholds : ∀ cp, record.Holds cp → cp.steps ≤ d.compiled.limits.maxSteps := by
      intro cp hcp
      rcases recordFromReport_holds hid hrec hcp with h | ⟨-, -, h⟩
      · exact hb.store _ _ h
      · exact synthesize_steps h ▸ hwithin.steps
    have hrecord : WithinLimits d.compiled.limits record := by
      obtain ⟨pending, -, rfl⟩ := recordFromReport_eq_ok hid hrec
      exact ⟨hwithin.steps, hwithin.cost⟩
    have hr : RecordBounded d.compiled.limits (e.applyEventCap { record with handoffId }) :=
      ⟨⟨hrecord.steps, hrecord.cost⟩, hholds⟩
    exact fun d' hd' => (hrecorded hrun (hk d hrun.definition) hr d' hd').congr rfl rfl
  | @injected k _ _ r hr _ _ =>
    intro d hd
    obtain ⟨hwithin, hholds⟩ := (hk d hd).record k r hr
    exact (hk d hd).put ⟨⟨hwithin.steps, hwithin.cost⟩, hholds⟩
  | @advanceFailed _ _ _ e₁ _ _ _ _ d run hgo hrun _ _ =>
    intro d' hd'
    obtain rfl : d = d' := Option.some.inj (hrun.definition.symm.trans hd')
    have hd : e.definition = some d := by cases hgo <;> exact hrun.definition
    exact hrun.bounded (hgo.bounded (hk d hd)).1
  | @advanced _ k r e₁ cp _ _ d run report record spent hgo hrun hcall hout hrec =>
    have hd : e.definition = some d := by cases hgo <;> exact hrun.definition
    obtain ⟨hb₁, hr, hcp⟩ := hgo.bounded (hk d hd)
    have hb := hrun.bounded hb₁
    have hwithin : WithinLimits d.compiled.limits (draft codec k report r.effectCache r.handoffId) :=
      hrun.within (by rw [hcall]; exact hcp) hout
    obtain ⟨id, hid, -⟩ := bind_eq_ok.mp hrec
    have hid : id.text = k := executionIdFrom_eq_ok.mp (liftError_eq_ok.mp hid)
    have hholds : ∀ cp, record.Holds cp → cp.steps ≤ d.compiled.limits.maxSteps := by
      intro cp hcp
      rcases mergeStepReport_holds hid hrec hcp with h | ⟨-, h | ⟨-, h⟩⟩
      · exact hb.store _ _ h
      · exact hr.holds _ (.inr h)
      · exact synthesize_steps h ▸ hwithin.steps
    have hrecord : WithinLimits d.compiled.limits record := by
      obtain ⟨pending, events, -, -, rfl⟩ := mergeStepReport_eq_ok hid hrec
      exact ⟨hwithin.steps, hwithin.cost⟩
    exact fun d' hd' => (hrecorded hrun hb₁ ⟨hrecord, hholds⟩ d' hd').congr rfl rfl

/-- What a definition was made from. -/
def PolicyOfPack (e : AgentEngine) : Prop := ∀ d, e.definition = some d → d.bundle.compilePolicy = .ok d.policy

theorem load_policy {json : String} (h : AgentDefinitionBundleV1.load codec json = .ok d) :
    d.bundle.compilePolicy = .ok d.policy := by
  obtain ⟨bundle, -, h⟩ := bind_eq_ok.mp h
  split at h
  · cases h
  · obtain ⟨policy, hp, h⟩ := bind_eq_ok.mp h
    cases h
    exact hp

theorem Transition.policyOfPack {c : Call} {log : List SchedulerRun} (h : Transition codec e c e' log)
    (hp : PolicyOfPack e) : PolicyOfPack e' := by
  intro d hd
  rcases h.definition with hsame | ⟨-, hload⟩
  · exact hp d (hsame ▸ hd)
  · obtain ⟨json, hload⟩ := hload d hd
    exact load_policy hload

/-- **The run lemma**: a reachable engine keeps to the limits of its graph, and its policy is
that of its pack. -/
theorem Reachable.keepsLimits (h : Reachable codec e) : KeepsLimits e ∧ PolicyOfPack e := by
  obtain ⟨cs, rfl⟩ := h
  have hnone : (sessionFrom .default).state.definition = none := rfl
  refine Session.run_induct (I := fun _ s => KeepsLimits s.state ∧ PolicyOfPack s.state)
    ⟨fun d hd => by simp [hnone] at hd, fun d hd => by simp [hnone] at hd⟩ cs fun pre c post _ ih => ?_
  have htr := after_transition codec ((sessionFrom .default).run (Call.perform codec) pre) c
  exact ⟨htr.keepsLimits ih.1, htr.policyOfPack ih.2⟩

/-! ### Tools -/

/-- The tool an execution asks for, with its arguments. -/
def ExecutionRecord.toolRequest (r : ExecutionRecord) : String × Json :=
  (((r.state.value.pointer "/tool_id").bind Json.asStr).getD "echo",
    (r.state.value.pointer "/tool_args").getD (.object [("message", .string "hello-from-icp")]))

/-- The call that `run_tool_for_pending` makes for record `r`. -/
def AgentEngine.deskCall (codec : Codec) (e : AgentEngine) (k : String) (r : ExecutionRecord) :
    Method (ToolRegistry.Desk HostTool) (ToolRegistry.GateEvent HostTool) CoreError Abort ToolResultV1 :=
  executeToolCall codec (e.definition.bind (·.policy)) r.toolRequest.1 r.toolRequest.2 s!"{k}-tool"

/-- The tools a call runs, with their arguments. -/
def Call.invokes (codec : Codec) (e : AgentEngine) : Call → List (HostTool × Json)
  | .runToolForPending k =>
    match (e.executions[k]?).filter (·.statusDetail = "await_tool") with
    | some r =>
      match e.deskCall codec k r { registry := e.tools, ledger := e.budget.ledger } with
      | .ok out => ToolRegistry.invocations out.log
      | .error _ => []
    | none => []
  | _ => []

/-- `run_tool_for_pending` makes that call, of the registry and the ledger of the engine. -/
theorem runToolForPending_eq (hr : e.executions[k]? = some r) (hw : r.statusDetail = "await_tool") :
    ∃ report : ToolResultV1 → EngineM Json,
      runToolForPending codec k e = (atDesk (e.deskCall codec k r) >>= report) e := by
  have hexisting : existing k e = .ok { result := .ok r, state := e, log := [] } := by
    refine (Method.bind_of_quiet rfl).trans ?_
    simp only [hr]
    rfl
  have hawaits : (Method.ofExcept (ensure (r.statusDetail = "await_tool") (.host "not awaiting tool")) : EngineM Unit) e =
      .ok { result := .ok (), state := e, log := [] } := by
    rw [Method.ofExcept, ensure_eq_ok.mpr hw]
  apply Exists.intro
  refine (Method.bind_of_quiet hexisting).trans ((Method.bind_of_quiet hawaits).trans ?_)
  exact Method.bind_of_quiet rfl

/-- The authority that the pack of a definition gives, with the limits of its graph. -/
def LoadedDefinition.authority (d : LoadedDefinition) : AuthorityV1 :=
  authorityFromPack d.bundle.pack d.compiled.limits.maxSteps d.compiled.limits.maxCostMicros

/-- The authority holds the tool's capability and its namespace. -/
def Grants (a : AuthorityV1) (tool : HostTool) : Prop :=
  (ToolImplementation.definition tool).capability.text ∈ a.capabilities ∧
    (ToolImplementation.definition tool).ns.text ∈ a.namespaces

/-- A policy lets a tool run only if its pack grants it. -/
theorem grants_of_admits {policy : CompiledPolicyV1} {call : ToolCallV1} {tools : Std.ExtTreeMap ToolId HostTool}
    {ledger : BudgetLedger} {tool : HostTool} (hp : d.bundle.compilePolicy = .ok (some policy))
    (h : ToolRegistry.Admits policy call tools ledger tool) : Grants d.authority tool := by
  unfold AgentDefinitionBundleV1.compilePolicy at hp
  cases hpack : d.bundle.pack with
  | none => simp [hpack] at hp
  | some pack =>
    have hcompile : pack.compile = .ok policy := by
      cases hc : pack.compile with
      | ok p =>
        simp only [hpack, hc] at hp
        cases hp
        rfl
      | error err =>
        simp only [hpack, hc] at hp
        cases hp
    have hfields : policy.bindings = pack.capabilityBindings ∧ policy.namespaces = pack.namespaces := by
      unfold PackDeclarationV1.compile at hcompile
      split at hcompile
      · cases hcompile
      · split at hcompile
        · cases hcompile
        · cases hcompile
          exact ⟨rfl, rfl⟩
    have hbound := h.bound
    have hgranted := h.granted
    rw [CompiledPolicyV1.binding, hfields.1] at hbound
    rw [CompiledPolicyV1.allowsNamespace, hfields.2] at hgranted
    constructor
    · rw [LoadedDefinition.authority, hpack]
      simp only [authorityFromPack, Std.ExtTreeSet.mem_ofList, List.contains_eq_mem, List.mem_map,
        decide_eq_true_eq]
      refine ⟨_, Std.ExtTreeMap.mem_keys.mpr ?_, rfl⟩
      rwa [Std.ExtTreeMap.mem_iff_isSome_getElem?]
    · rw [LoadedDefinition.authority, hpack]
      simp only [authorityFromPack, Std.ExtTreeSet.mem_ofList, List.contains_eq_mem, List.mem_map,
        decide_eq_true_eq]
      exact ⟨_, Std.ExtTreeSet.mem_toList.mpr (Std.ExtTreeSet.contains_iff_mem.mp hgranted), rfl⟩

/-- A tool that is run passes every check of the policy. -/
theorem executeToolCall_admits (policy : Option CompiledPolicyV1) (toolId : String) (arguments : Json) (callId : String)
    (desk : ToolRegistry.Desk HostTool) :
    (executeToolCall codec policy toolId arguments callId).Sat desk fun _ _ log =>
      ∀ y ∈ ToolRegistry.invocations log, ∃ p call, policy = some p ∧
        ToolRegistry.Admits p call desk.registry.tools desk.ledger y.1 := by
  cases policy with
  | none => exact Method.sat_ofExcept.mpr fun y hy => by simp at hy
  | some p =>
    unfold executeToolCall
    cases hid : Identifier.new toolId with
    | error _ => exact Method.sat_ofExcept.mpr fun y hy => by simp at hy
    | ok id =>
      refine (ToolRegistry.execute_recorded
        { call := { version := 1, callId, toolId := id, arguments }, emit := fun _ => .ok () } desk).mono
        fun _ _ log h y hy => ⟨p, _, rfl, (h.admits hy).1⟩

/-- **The tools a call runs are those the pack grants.** -/
theorem invokes_granted (he : Reachable codec e) (hd : e.definition = some d) (c : Call) :
    ∀ y ∈ c.invokes codec e, Grants d.authority y.1 := by
  intro y hy
  have hp := he.keepsLimits.2 d hd
  cases c with
  | runToolForPending k =>
    cases hr : (e.executions[k]?).filter (·.statusDetail = "await_tool") with
    | none => simp [Call.invokes, hr] at hy
    | some r =>
      cases hout : e.deskCall codec k r { registry := e.tools, ledger := e.budget.ledger } with
      | error _ => simp [Call.invokes, hr, hout] at hy
      | ok out =>
        simp only [Call.invokes, hr, hout] at hy
        simp only [AgentEngine.deskCall, hd, Option.bind_some] at hout
        obtain ⟨policy, call, hpolicy, hadmits⟩ := executeToolCall_admits _ _ _ _ _ out hout y hy
        exact grants_of_admits (hpolicy ▸ hp) hadmits
  | _ => simp [Call.invokes] at hy

/-! ### Handoffs -/

/-- What is checked when a handoff is accepted, and what is kept of it. -/
structure Accepted (e e' : AgentEngine) (k : String) (r : ExecutionRecord) (h : HandoffRecordV1)
    (d : LoadedDefinition) : Prop where
  definition : e.definition = some d
  kept : e'.definition = some d
  narrowed : h.childAuthority.narrowedBy h.parentAuthority d.authority = .ok ()
  record : e'.executions[k]? = some r
  handoff : e'.handoffs[h.handoffId]? = some h

theorem acceptHandoff_accepts (envelopeJson stateJson parentJson : String) :
    (acceptHandoff codec k envelopeJson stateJson parentJson).Sat e fun res e' _ =>
      ∀ r h, res = .ok (r, h) → ∃ d, Accepted e e' k r h d := by
  refine Method.sat_read_bind.mpr (Method.Sat.ofExcept_bind (fun _ _ => ?_) fun _ _ _ _ h => by cases h)
  refine Method.Sat.ofExcept_bind (fun d hd => ?_) fun _ _ _ _ h => by cases h
  refine Method.Sat.ofExcept_bind (fun parent _ => ?_) fun _ _ _ _ h => by cases h
  refine Method.Sat.ofExcept_bind (fun envelope henvelope => ?_) fun _ _ _ _ h => by cases h
  refine Method.Sat.ofExcept_bind (fun _ _ => ?_) fun _ _ _ _ h => by cases h
  have hd := loaded_eq_ok.mp hd
  have hnarrowed : envelope.authorityProjection.narrowedBy parent d.authority = .ok () := by
    obtain ⟨_, -, h⟩ := bind_eq_ok.mp henvelope
    obtain ⟨envelope', -, h⟩ := bind_eq_ok.mp h
    obtain ⟨_, hvalid, h⟩ := bind_eq_ok.mp h
    cases h
    obtain ⟨_, -, hvalid⟩ := bind_eq_ok.mp hvalid
    exact hvalid
  refine Method.sat_bind.mpr ((launch_sat stateJson none).mono fun res e' log h => ?_)
  have hstored : ∀ run, (e.stored run).definition = some d := fun _ => hd
  cases h with
  | refused => exact fun _ _ h => by cases h
  | failed _ _ _ _ => exact fun _ _ h => by cases h
  | @recorded _ _ _ run _ record _ _ _ _ _ =>
    refine Method.sat_bind.mpr ((account_sat _).mono fun res e'' log h => ?_)
    obtain ⟨rfl, rfl⟩ := h
    cases res with
    | error _ => exact fun _ _ h => by cases h
    | ok _ =>
      refine Method.sat_modify_bind.mpr (Method.sat_pure.mpr fun r h heq => ⟨d, ?_⟩)
      cases heq
      exact ⟨hd, hd, hnarrowed, put_get .., by simp⟩

/-- A call that does not drop the executions keeps them. -/
theorem Transition.stays {c : Call} {log : List SchedulerRun} (h : Transition codec e c e' log)
    (hc : c.resets = false) (hk : e.executions.contains k = true) : e'.executions.contains k = true := by
  have hput : ∀ {e₁ : AgentEngine} {k' : String} {r : ExecutionRecord}, e₁.executions.contains k = true →
      (e₁.put k' r).executions.contains k = true := by
    intro e₁ k' r h
    simp [AgentEngine.put, Std.ExtTreeMap.contains_insert, h]
  have hgo : ∀ {k' : String} {r : ExecutionRecord} {e₁ : AgentEngine} {cp : CheckpointV1} {budget : Option ℕ}
      {hitl : Bool}, Going codec e c k' r e₁ cp budget hitl → e₁.executions.contains k = true := by
    intro k' r e₁ cp budget hitl h
    cases h with
    | step _ _ _ => exact hk
    | resume _ _ => exact hk
    | inject _ _ _ _ _ => exact hput hk
  cases h with
  | loaded _ | cleared => cases hc
  | refused | limited | toolRun _ => exact hk
  | startFailed _ _ _ _ _ _ => exact hk
  | started _ _ _ _ _ _ _ _ => exact hput hk
  | injected _ _ _ => exact hput hk
  | advanceFailed h _ _ _ =>
    have hk := hgo h
    exact hk
  | advanced h _ _ _ _ =>
    have hk := hgo h
    exact hput hk

/-- One more call leads from a reachable engine to one. -/
theorem Reachable.after {s : EngineSession} (h : Reachable codec s.state) (c : Call) :
    Reachable codec (s.after (Call.perform codec) c).state := by
  obtain ⟨cs, hcs⟩ := h
  refine ⟨cs ++ [c], ?_⟩
  rw [Session.run_append, Session.run_singleton]
  unfold Session.after
  rw [hcs]
  split
  · rfl
  · exact hcs

/-- **What an accepted handoff is held to**: when it is accepted, its authority is within the
parent's and the pack's, with the limits of the graph. After any calls that do not drop the executions,
the child's steps are within the limit of the graph, and so is its cost unless it has failed or was cancelled; and no call
runs a tool that the pack does not grant. -/
theorem handoff_held (codec : Codec) (e : AgentEngine) (he : Reachable codec e)
    (k envelopeJson stateJson parentJson : String) (r : ExecutionRecord) (h : HandoffRecordV1) (e₁ : AgentEngine)
    (log : List SchedulerRun)
    (hacc : acceptHandoff codec k envelopeJson stateJson parentJson e =
      .ok { result := .ok (r, h), state := e₁, log })
    (cs : List Call) (hcs : ∀ c ∈ cs, c.resets = false) :
    ∃ d, Accepted e e₁ k r h d ∧
      (∃ r', ((sessionFrom e₁).run (Call.perform codec) cs).state.executions[k]? = some r' ∧
        WithinLimits d.compiled.limits r') ∧
      ∀ pre c post, cs = pre ++ c :: post →
        ∀ y ∈ c.invokes codec ((sessionFrom e₁).run (Call.perform codec) pre).state, Grants d.authority y.1 := by
  obtain ⟨d, haccepted⟩ := acceptHandoff_accepts envelopeJson stateJson parentJson _ hacc r h rfl
  have hreach : Reachable codec e₁ := by
    have h := Reachable.after (s := sessionFrom e) he (.acceptHandoff k envelopeJson stateJson parentJson)
    have hperform : (Call.acceptHandoff k envelopeJson stateJson parentJson).perform codec e =
        .ok { result := .ok (), state := e₁, log } := Method.drop_eq hacc
    simpa [Session.after, sessionFrom, hperform] using h
  have key := Session.run_induct (m := Call.perform codec) (s := sessionFrom e₁)
    (I := fun _ s => Reachable codec s.state ∧ s.state.definition = some d ∧ s.state.executions.contains k = true)
    ⟨hreach, haccepted.kept, by simp [sessionFrom, Std.ExtTreeMap.contains_eq_isSome_getElem?, haccepted.record]⟩
  have hrun : ∀ pre post, cs = pre ++ post → Reachable codec ((sessionFrom e₁).run (Call.perform codec) pre).state ∧
      ((sessionFrom e₁).run (Call.perform codec) pre).state.definition = some d ∧
      ((sessionFrom e₁).run (Call.perform codec) pre).state.executions.contains k = true := by
    intro pre post hsplit
    refine key pre fun pre' c post' hsplit' ih => ?_
    obtain ⟨hreach, hd, hk⟩ := ih
    have hreset : c.resets = false := hcs c (by simp [hsplit, hsplit'])
    have htr := after_transition codec ((sessionFrom e₁).run (Call.perform codec) pre') c
    refine ⟨hreach.after c, ?_, htr.stays hreset hk⟩
    rcases htr.definition with hsame | ⟨hc, -⟩
    · exact hsame.trans hd
    · simp [hreset] at hc
  refine ⟨d, haccepted, ?_, fun pre c post hsplit => ?_⟩
  · obtain ⟨hreach, hd, hk⟩ := hrun cs [] (by simp)
    rw [Std.ExtTreeMap.contains_eq_isSome_getElem?] at hk
    obtain ⟨r', hr'⟩ := Option.isSome_iff_exists.mp hk
    exact ⟨r', hr', ((hreach.keepsLimits.1 d hd).record k r' hr').within⟩
  · obtain ⟨hreach, hd, -⟩ := hrun pre (c :: post) hsplit
    exact invokes_granted hreach hd c

/-! ### A child that uses more -/

/-- `permissive_tools_pack` without `https_get`. -/
def toolPack : PackDeclarationV1 where
  version := 1
  id := builtinId "icp-host-pack"
  tools := .ofList [builtinId "echo"]
  namespaces := .ofList [builtinId "tools"]
  argumentConstraints := ∅
  budget := { maxCalls := 32, maxUnits := 10000, maxDurationMs := 60000 }
  capabilityBindings := .ofList [(builtinId "echo", "builtin:echo")]

/-- A graph whose second node waits for a tool. -/
def toolSample : Sample where
  implementationId := "host-effects-v1"
  implementationHash := "80b317ce4a5e92b6bc4813a51fbb9d5dca111e9c2f768b4901ab8ae06ce14901"
  graphHash := "a8c028d6ae49f88fcee3d12daa9670c0ac883c648ca3885bc79190824b9a25d6"
  entry := builtinId "prepare"
  nodes :=
    [(builtinId "prepare", false, ["/phase"]), (builtinId "tool", false, ["/phase", "/tool_result"]),
      (builtinId "done", true, [])]
  transitions :=
    [(builtinId "t1", builtinId "prepare", "continue", builtinId "tool"),
      (builtinId "t2", builtinId "tool", "continue", builtinId "done")]
  cycles := []
  limits := sampleLimits
  paths := [("/phase", .string, "String"), ("/tool_result", .object, "Object")]

/-- The text of `toolSample` with its pack. -/
def toolText : String :=
  Sample.write (.object (toolSample.json.asObject.getD [] ++
    [("pack", .object
      [("argument_constraints", .object []),
        ("budget", .object
          [("max_calls", jsonU64 32), ("max_duration_ms", jsonU64 60000), ("max_units", jsonU64 10000)]),
        ("capability_bindings", .object [("echo", .string "builtin:echo")]), ("id", .string "icp-host-pack"),
        ("namespaces", .array [.string "tools"]), ("tools", .array [.string "echo"]), ("version", jsonU64 1)])]))

/-- The first state of `toolSample`. -/
def toolValue : Json := .object [("phase", .string "init"), ("tool_result", .object [])]

/-- An authority in JSON. -/
def authorityJson (a : AuthorityV1) : Json :=
  .object
    [("capabilities", .array (a.capabilities.toList.map .string)), ("max_cost_micros", jsonU64 a.maxCostMicros),
      ("max_steps", jsonU64 a.maxSteps), ("namespaces", .array (a.namespaces.toList.map .string))]

/-- What the parent may do. -/
def parentAuthority : AuthorityV1 where
  capabilities := .ofList ["echo"]
  namespaces := .ofList ["tools"]
  maxSteps := 10
  maxCostMicros := 1000

/-- A handoff of one step, and of no tool. -/
def oneStep : HandoffEnvelopeV1 where
  version := 1
  destination := builtinId "g"
  stateProjection := ∅
  authorityProjection := { capabilities := ∅, namespaces := ∅, maxSteps := 1, maxCostMicros := 0 }
  returnContract := "counter-return-v1"

/-- The text of the handoff. -/
def oneStepText : String :=
  Sample.write (.object
    [("authority_projection", authorityJson oneStep.authorityProjection), ("destination", .string "g"),
      ("return_contract", .string "counter-return-v1"), ("state_projection", .object []), ("version", jsonU64 1)])

/-- The text of the parent's authority. -/
def parentText : String := Sample.write (authorityJson parentAuthority)

/-- The text layer of `toolSample` with its pack. -/
def toolCodec : Codec :=
  { toolSample.textLayer [toolValue] [(oneStepText, oneStep)] [(parentText, parentAuthority)] with
    parseBundle := fun t => if t = toolText then .ok { toolSample.bundle with pack := some toolPack } else .error Sample.unexpected }

/-- The engine with `toolSample` loaded. -/
def toolEngine : AgentEngine :=
  ((sessionFrom .default).run (Call.perform toolCodec) [.loadDefinition toolText]).state

/-- The child runs its tool and goes on with the result. -/
def childCalls : List Call :=
  [.runToolForPending "e", .injectEffectAndResume "e" "tool" (.object [("cost_micros", jsonU64 10)])]

/-- **The child of an accepted handoff uses more than the authority of the handoff**: it takes three
steps for one, at a cost for none, and a tool runs that was not granted. -/
theorem handoff_exceeds :
    Reachable toolCodec toolEngine ∧ ∃ r h e₁ log,
      acceptHandoff toolCodec "e" oneStepText (Sample.stateText toolValue) parentText toolEngine =
        .ok { result := .ok (r, h), state := e₁, log } ∧
      (∃ y ∈ (Call.runToolForPending "e").invokes toolCodec e₁, ¬Grants h.childAuthority y.1) ∧
      ∃ r', ((sessionFrom e₁).run (Call.perform toolCodec) childCalls).state.executions["e"]? = some r' ∧
        h.childAuthority.maxSteps < r'.steps ∧ h.childAuthority.maxCostMicros < r'.costMicros := by
  have h : ((acceptHandoff toolCodec "e" oneStepText (Sample.stateText toolValue) parentText toolEngine).toOption.bind
      fun out => out.result.toOption.bind fun rh =>
        (((sessionFrom out.state).run (Call.perform toolCodec) childCalls).state.executions["e"]?).map fun r' =>
          ((Call.runToolForPending "e").invokes toolCodec out.state).any (fun y =>
            !rh.2.childAuthority.capabilities.contains (ToolImplementation.definition y.1).capability.text) &&
          decide (rh.2.childAuthority.maxSteps < r'.steps ∧
            rh.2.childAuthority.maxCostMicros < r'.costMicros)) = some true := by
    decide +kernel
  refine ⟨⟨_, rfl⟩, ?_⟩
  generalize toolEngine = e at *
  obtain ⟨⟨res, e₁, log⟩, hacc, h⟩ := Option.bind_eq_some_iff.mp h
  obtain ⟨⟨r, hr⟩, hres, h⟩ := Option.bind_eq_some_iff.mp h
  obtain ⟨r', hr', h⟩ := Option.map_eq_some_iff.mp h
  obtain ⟨hany, hlimits⟩ := Bool.and_eq_true_iff.mp h
  obtain ⟨y, hy, hcap⟩ := List.any_eq_true.mp hany
  obtain rfl : res = .ok (r, hr) := toOption_eq_some.mp hres
  refine ⟨r, hr, e₁, log, toOption_eq_some.mp hacc, ⟨y, hy, fun hg => ?_⟩, r', hr', of_decide_eq_true hlimits⟩
  have hin := hg.1
  rw [Std.ExtTreeSet.mem_iff_contains] at hin
  simp [hin] at hcap

/-- But it keeps to the graph and the pack. -/
theorem handoff_child_held :
    ∃ r h e₁ log d, acceptHandoff toolCodec "e" oneStepText (Sample.stateText toolValue) parentText toolEngine =
        .ok { result := .ok (r, h), state := e₁, log } ∧ Accepted toolEngine e₁ "e" r h d ∧
      ∃ r', ((sessionFrom e₁).run (Call.perform toolCodec) childCalls).state.executions["e"]? = some r' ∧
        WithinLimits d.compiled.limits r' := by
  have h : ((acceptHandoff toolCodec "e" oneStepText (Sample.stateText toolValue) parentText toolEngine).toOption.bind
      fun out => out.result.toOption).isSome = true := by
    decide +kernel
  have hreach : Reachable toolCodec toolEngine := ⟨_, rfl⟩
  generalize toolEngine = e at *
  obtain ⟨x, hx⟩ := Option.isSome_iff_exists.mp h
  obtain ⟨⟨res, e₁, log⟩, hacc, hres⟩ := Option.bind_eq_some_iff.mp hx
  obtain ⟨r, hr⟩ := x
  obtain rfl : res = .ok (r, hr) := toOption_eq_some.mp hres
  obtain ⟨d, haccepted, hwithin, -⟩ := handoff_held toolCodec e hreach "e" oneStepText (Sample.stateText toolValue)
    parentText r hr e₁ log (toOption_eq_some.mp hacc) childCalls (by simp [childCalls, Call.resets])
  exact ⟨r, hr, e₁, log, d, toOption_eq_some.mp hacc, haccepted, hwithin⟩

end Knolo.Icp
