import Knolo.Icp.Interleaving

/-!
# What survives an await

The engine is in its cell, or in the custody of the one message that awaits an effect. What calls have
reported is kept by it, as long as nothing is changed in the cell while it is away.

* `Promised` — what calls have reported: the limits, the definition, the executions and the handoffs.
* `Home`, `Away` — the invariant between two messages.
* `no_lost_update` — in a run that does not unsettle the engine while it is away, all of it is there.
-/

namespace Knolo.Icp

open Core Library Library.Fallible Host Knolo.Runtime

variable {codec : Codec} {principal : String → Except String String} {f : Formats} {e e' : AgentEngine} {k : String}
  {c c' : Canister} {past : List Notice}

/-! ### Promises -/

/-- What calls have reported to be so. -/
structure Promised where
  limits : RuntimeLimitsV1
  /-- The text of the definition. -/
  definition : Option String
  executions : List String
  handoffs : List String

/-- What one more notice says. A definition begins with no executions and handoffs. -/
def Promised.note (p : Promised) : Notice → Promised
  | .loaded json => { p with definition := some json, executions := [], handoffs := [] }
  | .cleared => { p with definition := none, executions := [], handoffs := [] }
  | .limited limits => { p with limits }
  | .created k => { p with executions := k :: p.executions }
  | .handed id => { p with handoffs := id :: p.handoffs }
  | .lost => p

/-- What the notices say, from those of a new canister. -/
def promised (notices : List Notice) : Promised :=
  notices.foldl Promised.note { limits := {}, definition := none, executions := [], handoffs := [] }

@[simp] theorem promised_snoc (notices : List Notice) (n : Notice) :
    promised (notices ++ [n]) = (promised notices).note n := by
  simp [promised]

/-- The engine has what was promised. -/
structure Carried (codec : Codec) (p : Promised) (e : AgentEngine) : Prop where
  limits : e.limits = p.limits
  definition : e.definition = p.definition.bind fun json => (AgentDefinitionBundleV1.load codec json).toOption
  executions : ∀ k ∈ p.executions, e.executions.contains k = true
  handoffs : ∀ id ∈ p.handoffs, e.handoffs.contains id = true

theorem Going.rests {c : Call} {r : ExecutionRecord} {e₁ : AgentEngine} {cp : CheckpointV1} {budget : Option ℕ}
    {hitl : Bool} (h : Going codec e c k r e₁ cp budget hitl) : e₁.limits = e.limits ∧ e₁.handoffs = e.handoffs := by
  cases h <;> exact ⟨rfl, rfl⟩

/-- A call keeps the limits and the handoffs, unless it is to change them. -/
theorem Transition.rests {c : Call} {log : List SchedulerRun} (h : Transition codec e c e' log)
    (hc : c.resets = false) (hl : ∀ l, c ≠ .setLimits l) :
    e'.limits = e.limits ∧ ∀ id, e.handoffs.contains id = true → e'.handoffs.contains id = true := by
  cases h with
  | loaded _ | cleared => cases hc
  | limited => exact absurd rfl (hl _)
  | refused | toolRun _ | startFailed _ _ _ _ _ _ | injected _ _ _ => exact ⟨rfl, fun _ h => h⟩
  | started _ _ _ _ _ _ _ hh =>
    refine ⟨rfl, fun id hid => ?_⟩
    rcases hh with rfl | ⟨h, rfl⟩
    · exact hid
    · simp [Std.ExtTreeMap.contains_insert, hid]
  | advanceFailed hgo _ _ _ =>
    obtain ⟨hlimits, hhandoffs⟩ := hgo.rests
    exact ⟨hlimits, fun id hid => by rwa [← hhandoffs] at hid⟩
  | advanced hgo _ _ _ _ =>
    obtain ⟨hlimits, hhandoffs⟩ := hgo.rests
    exact ⟨hlimits, fun id hid => by rwa [← hhandoffs] at hid⟩

/-- What was promised is kept by every call but those that are to change it. -/
theorem carried_robust (p : Promised) : Robust codec (Carried codec p) where
  call hc hl h he := by
    obtain ⟨hlimits, hhandoffs⟩ := h.rests hc hl
    refine ⟨hlimits.trans he.limits, ?_, fun k hk => h.stays hc (he.executions k hk),
      fun id hid => hhandoffs id (he.handoffs id hid)⟩
    rcases h.definition with hsame | ⟨hreset, -⟩
    · exact hsame.trans he.definition
    · rw [hc] at hreset
      cases hreset
  spend _ he := ⟨he.limits, he.definition, he.executions, he.handoffs⟩

theorem carried_timers (p : Promised) : KeepsTimers (Carried codec p) := by
  intro e k r scheduled he _
  refine ⟨he.limits, he.definition, fun k' hk' => ?_, he.handoffs⟩
  simp [AgentEngine.put, Std.ExtTreeMap.contains_insert, he.executions k' hk']

/-! ### Home and away -/

/-- A new engine, but for its handoffs and what it has spent: nothing can be done with it. -/
structure Vacant (e : AgentEngine) : Prop where
  definition : e.definition = none
  executions : e.executions = ∅
  limits : e.limits = {}

theorem Vacant.no_execution (hv : Vacant e) (k : String) : e.executions[k]? = none := by
  rw [hv.executions]
  simp

/-- A call leaves a vacant engine as it is. -/
theorem Transition.of_vacant {c : Call} {log : List SchedulerRun} (h : Transition codec e c e' log) (hv : Vacant e)
    (hc : c.resets = false) (hl : ∀ l, c ≠ .setLimits l) : e' = e := by
  have hrecord : ∀ {k : String} {r : ExecutionRecord}, e.executions[k]? ≠ some r := by
    intro k r hr
    rw [hv.no_execution] at hr
    cases hr
  have hslice : ∀ {d : LoadedDefinition} {x : DeterministicExecutor} {run : SchedulerRun}, ¬Slice d x e run := by
    intro d x run hrun
    have hd := hrun.definition
    rw [hv.definition] at hd
    cases hd
  have hgoing : ∀ {c : Call} {k : String} {r : ExecutionRecord} {e₁ : AgentEngine} {cp : CheckpointV1}
      {budget : Option ℕ} {hitl : Bool}, ¬Going codec e c k r e₁ cp budget hitl := by
    intro c k r e₁ cp budget hitl hgo
    cases hgo with
    | step hr _ _ => exact hrecord hr
    | resume hr _ => exact hrecord hr
    | inject hr _ _ _ _ => exact hrecord hr
  cases h with
  | loaded _ | cleared => cases hc
  | limited => exact absurd rfl (hl _)
  | refused => rfl
  | toolRun hr => exact absurd hr hrecord
  | injected hr _ _ => exact absurd hr hrecord
  | startFailed _ _ _ hrun _ _ => exact absurd hrun hslice
  | started _ _ _ hrun _ _ _ _ => exact absurd hrun hslice
  | advanceFailed hgo _ _ _ => exact absurd hgo hgoing
  | advanced hgo _ _ _ _ => exact absurd hgo hgoing

/-- The engine is in its cell, with what was promised. -/
structure Home (codec : Codec) (past : List Notice) (c : Canister) : Prop where
  tasks : c.tasks = []
  supported : Supported c.stable
  carried : Carried codec (promised past) c.engine

/-- The engine is with the one message that awaits an effect. -/
structure Away (codec : Codec) (past : List Notice) (c : Canister) : Prop where
  task : ∃ t, c.tasks = [t] ∧ Carried codec (promised past) t.engine
  supported : Supported c.stable
  vacant : Vacant c.engine

/-- The invariant. -/
def Intact (codec : Codec) (past : List Notice) (c : Canister) : Prop := Home codec past c ∨ Away codec past c

/-! ### At home -/

theorem Home.backed (h : Home codec past c) {log : List Notice} (hb : Backed c c' log) : Home codec (past ++ log) c' := by
  obtain ⟨⟨stable, rfl, hs⟩, rfl⟩ := hb
  rw [List.append_nil]
  exact ⟨h.tasks, hs h.supported, h.carried⟩

/-- The loop over the effects leaves the engine at home, or takes it away. -/
theorem finish_home (h : Home codec past c) (k : String) (readings : List CycleReading) :
    (finish codec principal f k readings).Ends (Intact codec) past c := by
  have hholds : ∀ {out}, continueEffectsInner codec principal k readings c.engine = some out →
      out.Holds (Carried codec (promised past)) k :=
    continueEffectsInner_holds (carried_timers _) (fun reading => (carried_robust _).resolveOneEffect reading) readings
      h.carried
  refine finish_sat (fun e timer timers c' hout hb => .inl ?_) fun t hout => .inr ?_
  · have hhome : Home codec past { c with engine := e, timers } := ⟨h.tasks, h.supported, hholds hout⟩
    exact hhome.backed hb
  · obtain ⟨-, ht, -⟩ := hholds hout
    refine ⟨⟨t, by simp [h.tasks], by simpa using ht⟩, h.supported, ⟨rfl, rfl, rfl⟩⟩

theorem Carried.forget {p : Promised} {es : Std.ExtTreeMap String ExecutionRecord}
    {hs : Std.ExtTreeMap String HandoffRecordV1} {b : HostBudgetTracker} {tools : ToolRegistry HostTool}
    {store : InMemoryCheckpointStore} {m : Option PackMetaV1} {definition : Option LoadedDefinition} {json : Option String}
    (h : Carried codec p e)
    (hd : definition = json.bind fun json => (AgentDefinitionBundleV1.load codec json).toOption) :
    Carried codec { p with definition := json, executions := [], handoffs := [] }
      { e with definition, executions := es, handoffs := hs, budget := b, tools, store, packMeta := m } :=
  ⟨h.limits, hd, fun _ hk => (List.not_mem_nil hk).elim, fun _ hid => (List.not_mem_nil hid).elim⟩

theorem Carried.created {p : Promised} (h : Carried codec p e) (hk : Present k e) : Carried codec (p.note (.created k)) e := by
  refine ⟨h.limits, h.definition, fun k' hk' => ?_, h.handoffs⟩
  rcases List.mem_cons.mp hk' with rfl | hk'
  · exact hk
  · exact h.executions k' hk'

theorem Carried.handed {p : Promised} {id : String} (h : Carried codec p e) (hid : e.handoffs.contains id = true) :
    Carried codec (p.note (.handed id)) e := by
  refine ⟨h.limits, h.definition, h.executions, fun id' hid' => ?_⟩
  rcases List.mem_cons.mp hid' with rfl | hid'
  · exact hid
  · exact h.handoffs id' hid'

/-- A call of a controller that succeeds does what it reports. -/
theorem controlled_home {α : Type} {p : EngineM α} {g : α → String → String} {n : Notice} (hf : f.Writes)
    (h : Home codec past c)
    (hp : p.Sat c.engine fun res e' _ =>
      (∀ a, res = .ok a → Carried codec ((promised past).note n) e') ∧ ∀ err, res = .error err → e' = c.engine) :
    (do let a ← onEngine codec p
        (persistCurrent f).mapError (g a)
        Method.tell n : CanisterM Unit).Ends (Intact codec) past c := by
  refine Method.Ends.of_sat (P := fun res c' log => log = [] ∧ c'.tasks = [] ∧ Supported c'.stable ∧
    (∀ a, res = .ok a → Carried codec ((promised past).note n) c'.engine) ∧
    ∀ err, res = .error err → Carried codec (promised past) c'.engine) ?_ ?_ ?_
  · refine onEngine_sat (hp.mono fun res e' _ hres => ⟨rfl, h.tasks, h.supported, fun a ha => ?_, fun err herr => ?_⟩)
    · cases res with
      | ok a' => exact hres.1 a' rfl
      | error err => cases ha
    · cases res with
      | ok a' => cases herr
      | error err' =>
        rw [hres.2 err' rfl]
        exact h.carried
  · rintro a c' log ⟨rfl, htasks, hs, hcarried, -⟩
    rw [List.append_nil]
    refine Method.Ends.of_sat (P := fun res c'' log => (∃ u, res = .ok u) ∧ Backed c' c'' log) ?_ ?_ ?_
    · refine Method.sat_mapError.mpr (((persistCurrent_ok hf hs).and persistCurrent_sat).mono ?_)
      rintro _ _ _ ⟨rfl, hb⟩
      exact ⟨⟨(), rfl⟩, hb⟩
    · rintro _ c'' log ⟨-, hb⟩
      obtain ⟨⟨stable, rfl, hs'⟩, rfl⟩ := hb
      rw [List.append_nil]
      refine Method.ends_tell (.inl ⟨htasks, hs' hs, ?_⟩)
      rw [promised_snoc]
      exact hcarried a rfl
    · rintro err c'' log ⟨⟨_, herr⟩, -⟩
      cases herr
  · rintro err c' log ⟨rfl, htasks, hs, -, hcarried⟩
    rw [List.append_nil]
    exact .inl ⟨htasks, hs, hcarried err rfl⟩

/-- An operation at home leaves the engine there, with what was promised. -/
theorem onEngine_home {α : Type} {p : EngineM α} {call : Call} {P : α → AgentEngine → Prop}
    (hp : ∀ e, Does codec call e p) (hc : call.resets = false) (hl : ∀ l, call ≠ .setLimits l) (h : Home codec past c)
    (hP : p.Sat c.engine fun res e' _ => ∀ a, res = .ok a → P a e') :
    (onEngine codec p).Sat c fun res c' log =>
      log = [] ∧ Home codec past c' ∧ ∀ a, res = .ok a → P a c'.engine := by
  refine onEngine_sat (((hp _).and hP).mono fun res e' _ hres => ⟨rfl, ⟨h.tasks, h.supported, ?_⟩, fun a ha => ?_⟩)
  · exact (carried_robust _).call hc hl hres.1 h.carried
  · cases res with
    | ok a' =>
      cases ha
      exact hres.2 a rfl
    | error err => cases ha

/-- An execution that was started is there. -/
theorem startExecution_present (state : String) :
    (startExecution codec k state).Sat e fun res e' _ => ∀ r, res = .ok r → Present k e' := by
  refine Method.sat_read_bind.mpr (Method.Sat.ofExcept_bind (fun _ _ => ?_) fun _ _ r h => by cases h)
  have hlaunch : (launch codec k state none).Sat e fun _ _ _ => True := fun _ _ => trivial
  refine hlaunch.bind (fun record e' _ _ => ?_) fun _ _ _ _ r h => by cases h
  refine (account_sat _).bind (fun _ e'' _ h => ?_) fun _ _ _ _ r h => by cases h
  obtain ⟨-, rfl⟩ := h
  refine Method.sat_pure.mpr fun r _ => ?_
  simp [Present, AgentEngine.put]

theorem still_runAuth (i : Ingress) : Method.Still (requireRunAuth i) :=
  Method.Still.read fun _ => Method.still_ofExcept _

theorem still_cyclesGuard (i : Ingress) : Method.Still (requireCyclesGuard i) :=
  Method.Still.read fun _ => Method.still_ofExcept _

theorem Home.tell (h : Home codec past c) {n : Notice} (hn : Carried codec ((promised past).note n) c.engine) :
    Home codec (past ++ [n]) c :=
  ⟨h.tasks, h.supported, by rwa [promised_snoc]⟩

/-- A call of an operation, and the loop over the effects. -/
theorem run_home {α : Type} {p : EngineM α} {call : Call} (hp : ∀ e, Does codec call e p) (hc : call.resets = false)
    (hl : ∀ l, call ≠ .setLimits l) (h : Home codec past c) (k : String) (readings : List CycleReading) :
    (do let _ ← onEngine codec p
        finish codec principal f k readings : CanisterM Unit).Ends (Intact codec) past c := by
  refine Method.Ends.of_sat (onEngine_home (P := fun _ _ => True) hp hc hl h fun _ _ _ _ => trivial) ?_ ?_
  · rintro a c' log ⟨rfl, hhome, -⟩
    rw [List.append_nil]
    exact finish_home hhome k readings
  · rintro err c' log ⟨rfl, hhome, -⟩
    rw [List.append_nil]
    exact .inl hhome

/-- **At home, an update call keeps what was promised.** -/
theorem Update.home (hf : f.Writes) (h : Home codec past c) (i : Ingress) (u : Update) :
    (u.perform codec principal f i).Ends (Intact codec) past c := by
  cases u with
  | loadDefinition json =>
    refine (Method.still_ofExcept _).ends (.inl h) fun _ => controlled_home hf h ?_
    refine Method.Sat.ofExcept_bind (fun d hd => ?_) fun err _ => ⟨fun _ ha => (by cases ha), fun _ _ => rfl⟩
    refine Method.sat_modify_bind.mpr (Method.sat_pure.mpr ⟨fun _ _ => h.carried.forget ?_, fun _ herr => by cases herr⟩)
    simp [hd, Except.toOption]
  | clearDefinition =>
    refine (Method.still_ofExcept _).ends (.inl h) fun _ => controlled_home hf h ?_
    refine Method.sat_read_bind.mpr (Method.sat_modify_bind.mpr (Method.sat_pure.mpr ⟨fun _ _ => ?_, fun _ herr => by cases herr⟩))
    exact h.carried.forget rfl
  | setLimits =>
    refine (Method.still_ofExcept _).ends (.inl h) fun _ => Method.sat_read_bind.mpr (controlled_home hf h ?_)
    refine Method.Sat.ofExcept_bind (fun _ _ => ?_) fun err _ => ⟨fun _ ha => (by cases ha), fun _ _ => rfl⟩
    refine Method.Sat.ofExcept_bind (fun _ _ => ?_) fun err _ => ⟨fun _ ha => (by cases ha), fun _ _ => rfl⟩
    refine Method.sat_modify.mpr ⟨fun _ _ => ?_, fun _ herr => by cases herr⟩
    exact ⟨rfl, h.carried.definition, h.carried.executions, h.carried.handoffs⟩
  | startExecution k state =>
    refine (still_runAuth i).ends (.inl h) fun _ => (still_cyclesGuard i).ends (.inl h) fun _ => ?_
    refine Method.Ends.of_sat (onEngine_home (fun _ => startExecution_does state) rfl (fun _ h => by cases h) h
      (startExecution_present state)) ?_ ?_
    · rintro r c' log ⟨rfl, hhome, hpresent⟩
      rw [List.append_nil]
      exact Method.Ends.of_tell (finish_home (hhome.tell (hhome.carried.created (hpresent r rfl))) k i.readings)
    · rintro err c' log ⟨rfl, hhome, -⟩
      rw [List.append_nil]
      exact .inl hhome
  | step k n =>
    refine (still_runAuth i).ends (.inl h) fun _ => (still_cyclesGuard i).ends (.inl h) fun _ => ?_
    exact run_home (fun _ => step_does n) rfl (fun _ h => by cases h) h k i.readings
  | resume k =>
    refine (still_runAuth i).ends (.inl h) fun _ => (still_cyclesGuard i).ends (.inl h) fun _ => ?_
    exact run_home (fun _ => resume_does) rfl (fun _ h => by cases h) h k i.readings
  | continueEffects k => exact (still_runAuth i).ends (.inl h) fun _ => finish_home h k i.readings
  | acceptHandoff k envelope state parent =>
    refine (still_runAuth i).ends (.inl h) fun _ => (still_cyclesGuard i).ends (.inl h) fun _ => ?_
    refine Method.Ends.of_sat (onEngine_home (P := fun x e' => Present k e' ∧ e'.handoffs.contains x.2.handoffId = true)
      (fun _ => acceptHandoff_does envelope state parent) rfl (fun _ h => by cases h) h ?_) ?_ ?_
    · refine (acceptHandoff_accepts envelope state parent).mono fun res e' _ hres x hx => ?_
      obtain ⟨d, haccepted⟩ := hres x.1 x.2 hx
      rw [Present, ← Std.ExtTreeMap.isSome_getElem?_eq_contains, ← Std.ExtTreeMap.isSome_getElem?_eq_contains,
        haccepted.record, haccepted.handoff]
      exact ⟨rfl, rfl⟩
    · rintro x c' log ⟨rfl, hhome, hP⟩
      obtain ⟨hpresent, hhanded⟩ := hP x rfl
      rw [List.append_nil]
      refine Method.Ends.of_tell (Method.Ends.of_tell (finish_home ((hhome.tell ?_).tell ?_) k i.readings))
      · exact hhome.carried.created hpresent
      · rw [promised_snoc]
        exact (hhome.carried.created hpresent).handed hhanded
    · rintro err c' log ⟨rfl, hhome, -⟩
      rw [List.append_nil]
      exact .inl hhome
  | forwardHandoff peer k envelope state parent =>
    refine (still_runAuth i).ends (.inl h) fun _ => (still_cyclesGuard i).ends (.inl h) fun _ => ?_
    refine (Method.still_ofExcept _).ends (.inl h) fun _ => Method.sat_read_bind.mpr ?_
    refine (Method.still_ofExcept _).ends (.inl h) fun _ => Method.sat_modify.mpr (.inl ?_)
    rw [List.append_nil]
    exact ⟨h.tasks, h.supported, h.carried⟩

theorem carried_forward {p : Promised} (h : Carried codec p e) (r : HandoffRecordV1) :
    Carried codec (p.note (.handed r.handoffId)) (e.forward r) := by
  have hkept : Carried codec p (e.forward r) := by
    refine ⟨h.limits, h.definition, h.executions, fun id hid => ?_⟩
    simp [AgentEngine.forward, Std.ExtTreeMap.contains_insert, h.handoffs id hid]
  exact hkept.handed (by simp [AgentEngine.forward, Std.ExtTreeMap.contains_insert])

/-- **At home, a message keeps what was promised.** -/
theorem Message.home (hf : f.Writes) (h : Home codec past c) (m : Message) :
    (m.perform codec principal f).Ends (Intact codec) past c := by
  cases m with
  | update i u => exact u.home hf h i
  | timer k readings =>
    refine Method.sat_read_bind.mpr ?_
    split
    · have hhome : Home codec past { c with timers := c.timers.erase k } := ⟨h.tasks, h.supported, h.carried⟩
      refine committing_sat (.inl (by rwa [List.append_nil])) (Method.sat_read_bind.mpr ?_)
      have hrest : ∀ {c : Canister}, Home codec past c → Method.Ends (Intact codec) past (do
          let _ ← onEngine codec (Icp.step codec k 1)
          finish codec principal f k readings) c :=
        fun h => run_home (fun _ => step_does 1) rfl (fun _ h => by cases h) h k readings
      split
      · rename_i r hr
        exact Method.Ends.of_modify (hrest ⟨h.tasks, h.supported, carried_timers _ c.engine k r false h.carried hr⟩)
      · exact hrest hhome
    · exact Method.ends_pure (.inl h)
  | reply index answer after readings =>
    refine Method.sat_read_bind.mpr ?_
    rw [h.tasks]
    exact Method.ends_pure (.inl h)
  | peerReply index answer =>
    refine Method.sat_read_bind.mpr ?_
    split
    · rename_i w dto _
      refine Method.Ends.of_modify ?_
      have hcarried := carried_forward h.carried (w.record dto)
      refine Method.Ends.of_sat (P := fun res c' log => (∃ u, res = .ok u) ∧ Backed _ c' log)
        (Method.sat_observe.mpr (persistCurrent_sat.mono fun res _ _ hb => ⟨⟨res, rfl⟩, hb⟩)) ?_ ?_
      · rintro _ c' log ⟨-, ⟨stable, rfl, hs⟩, rfl⟩
        rw [List.append_nil]
        exact Method.ends_tell (.inl ⟨h.tasks, hs h.supported, by rwa [promised_snoc]⟩)
      · rintro err c' log ⟨⟨_, herr⟩, -⟩
        cases herr
    · exact Method.sat_modify.mpr (.inl (by rw [List.append_nil]; exact ⟨h.tasks, h.supported, h.carried⟩))
    · exact Method.ends_pure (.inl h)

/-! ### Away -/

/-- The message changes what the cell holds: while the engine is away, that is lost. -/
def Message.unsettles (codec : Codec) : Message → Prop
  | .update i (.loadDefinition json) => i.isController = true ∧ ∃ d, AgentDefinitionBundleV1.load codec json = .ok d
  | .update i .clearDefinition => i.isController = true
  | .update i (.setLimits ..) => i.isController = true
  | .peerReply _ (.ok _) => True
  | _ => False

/-- The message goes on with a task after its reply, and traps: the engine is lost. -/
def Message.traps (codec : Codec) (principal : String → Except String String) (f : Formats) (c : Canister) :
    Message → Prop
  | .reply index answer after readings => ∃ t, c.tasks[index]? = some t ∧
      t.goOn codec principal f answer after readings { c with tasks := c.tasks.eraseIdx index } = .error ()
  | _ => False

theorem Away.backed (h : Away codec past c) {log : List Notice} (hb : Backed c c' log) : Away codec (past ++ log) c' := by
  obtain ⟨⟨stable, rfl, hs⟩, rfl⟩ := hb
  rw [List.append_nil]
  exact ⟨h.task, hs h.supported, h.vacant⟩

/-- While the engine is away, an operation changes nothing. -/
theorem onEngine_away {α : Type} {p : EngineM α} {call : Call} (hp : ∀ e, Does codec call e p) (hc : call.resets = false)
    (hl : ∀ l, call ≠ .setLimits l) (h : Vacant c.engine) :
    (onEngine codec p).Sat c fun _ c' log => c' = c ∧ log = [] := by
  refine onEngine_sat ((hp _).mono fun res e' _ htr => ⟨?_, rfl⟩)
  rw [htr.of_vacant h hc hl]

theorem continueEffectsInner_vacant (h : Vacant e) (readings : List CycleReading) :
    continueEffectsInner codec principal k readings e = some (.returned e false) := by
  have hpause : e.pause k = some (.returned e false) := by simp [AgentEngine.pause, h.no_execution]
  cases readings with
  | nil => exact hpause
  | cons reading readings => simp [continueEffectsInner, hpause]

/-- Nor does the loop over the effects, but for the snapshot that it keeps. -/
theorem finish_away (h : Away codec past c) (k : String) (readings : List CycleReading) :
    (finish codec principal f k readings).Ends (Intact codec) past c := by
  refine finish_sat (fun e timer timers c' hout hb => .inr ?_) fun t hout => ?_
  · rw [continueEffectsInner_vacant h.vacant] at hout
    cases hout
    have haway : Away codec past { c with engine := c.engine, timers } := ⟨h.task, h.supported, h.vacant⟩
    exact haway.backed hb
  · rw [continueEffectsInner_vacant h.vacant] at hout
    cases hout

/-- A call of an operation, and the loop over the effects. -/
theorem run_away {α : Type} {p : EngineM α} {call : Call} {q : α → CanisterM Unit} (hp : ∀ e, Does codec call e p)
    (hc : call.resets = false) (hl : ∀ l, call ≠ .setLimits l) (h : Away codec past c)
    (hq : ∀ a, p.Sat c.engine (fun res _ _ => res ≠ .ok a) ∨ (q a).Ends (Intact codec) past c) :
    (do let a ← onEngine codec p; q a : CanisterM Unit).Ends (Intact codec) past c := by
  refine Method.Ends.of_sat (P := fun res c' log => (c' = c ∧ log = []) ∧
    ∀ a, p.Sat c.engine (fun res _ _ => res ≠ .ok a) → res ≠ .ok a) ?_ ?_ ?_
  · refine (onEngine_away hp hc hl h.vacant).and (onEngine_sat fun r hr a ha heq => ?_)
    have hne := ha r hr
    cases hres : r.result with
    | ok a' =>
      rw [hres] at heq hne
      cases heq
      exact hne rfl
    | error err =>
      rw [hres] at heq
      cases heq
  · rintro a c' log ⟨⟨rfl, rfl⟩, hne⟩
    rw [List.append_nil]
    rcases hq a with ha | ha
    · exact absurd rfl (hne a ha)
    · exact ha
  · rintro err c' log ⟨⟨rfl, rfl⟩, -⟩
    rw [List.append_nil]
    exact .inr h

/-- **While the engine is away, an update call that does not unsettle it changes nothing of it.** -/
theorem Update.away (h : Away codec past c) (i : Ingress) (u : Update)
    (hu : ¬(Message.update i u).unsettles codec) : (u.perform codec principal f i).Ends (Intact codec) past c := by
  have hrefused : i.isController ≠ true → ∀ q : Unit → CanisterM Unit,
      (Method.ofExcept (requireController i.caller i.isController) >>= q).Ends (Intact codec) past c := by
    intro hi q
    refine Method.Sat.ofExcept_bind (fun _ hok => ?_) fun _ _ => ?_
    · exact absurd (ensure_eq_ok.mp hok) hi
    · rw [List.append_nil]
      exact .inr h
  have habsent : ∀ k, ¬Present k c.engine := by
    intro k hk
    rw [Present, ← Std.ExtTreeMap.isSome_getElem?_eq_contains, h.vacant.no_execution] at hk
    cases hk
  cases u with
  | loadDefinition json =>
    by_cases hi : i.isController = true
    · refine (Method.still_ofExcept _).ends (.inr h) fun _ => ?_
      refine Method.Ends.of_sat (P := fun res c' log => c' = c ∧ log = [] ∧ ∃ err, res = .error err) ?_ ?_ ?_
      · refine onEngine_sat (Method.Sat.ofExcept_bind (fun d hd => absurd ⟨hi, d, hd⟩ hu) fun err _ => ?_)
        exact ⟨rfl, rfl, _, rfl⟩
      · rintro a c' log ⟨-, -, err, herr⟩
        cases herr
      · rintro err c' log ⟨rfl, rfl, -⟩
        rw [List.append_nil]
        exact .inr h
    · exact hrefused hi _
  | clearDefinition => exact hrefused hu _
  | setLimits => exact hrefused hu _
  | startExecution k state =>
    refine (still_runAuth i).ends (.inr h) fun _ => (still_cyclesGuard i).ends (.inr h) fun _ => ?_
    refine run_away (fun _ => startExecution_does state) rfl (fun _ h => by cases h) h fun r => .inl ?_
    refine ((startExecution_does state).and (startExecution_present state)).mono fun res e' _ hres heq => ?_
    have hsame := hres.1.of_vacant h.vacant rfl fun _ h => by cases h
    exact habsent k (hsame ▸ hres.2 r heq)
  | step k n =>
    refine (still_runAuth i).ends (.inr h) fun _ => (still_cyclesGuard i).ends (.inr h) fun _ => ?_
    exact run_away (fun _ => step_does n) rfl (fun _ h => by cases h) h fun _ => .inr (finish_away h k i.readings)
  | resume k =>
    refine (still_runAuth i).ends (.inr h) fun _ => (still_cyclesGuard i).ends (.inr h) fun _ => ?_
    exact run_away (fun _ => resume_does) rfl (fun _ h => by cases h) h fun _ => .inr (finish_away h k i.readings)
  | continueEffects k => exact (still_runAuth i).ends (.inr h) fun _ => finish_away h k i.readings
  | acceptHandoff k envelope state parent =>
    refine (still_runAuth i).ends (.inr h) fun _ => (still_cyclesGuard i).ends (.inr h) fun _ => ?_
    refine run_away (fun _ => acceptHandoff_does envelope state parent) rfl (fun _ h => by cases h) h fun x => .inl ?_
    refine (acceptHandoff_accepts envelope state parent).mono fun res e' _ hres heq => ?_
    obtain ⟨d, haccepted⟩ := hres x.1 x.2 heq
    have hd := haccepted.definition
    rw [h.vacant.definition] at hd
    cases hd
  | forwardHandoff peer k envelope state parent =>
    refine (still_runAuth i).ends (.inr h) fun _ => (still_cyclesGuard i).ends (.inr h) fun _ => ?_
    refine (Method.still_ofExcept _).ends (.inr h) fun _ => Method.sat_read_bind.mpr ?_
    refine Method.Sat.ofExcept_bind (fun _ hok => ?_) fun _ _ => ?_
    · simp [AgentEngine.checkForward, AgentEngine.loaded, h.vacant.definition, Except.mapError, Bind.bind, Except.bind]
        at hok
    · rw [List.append_nil]
      exact .inr h

/-- A task goes on with the engine it has taken. -/
theorem goOn_home {t : Task} (answer : HostReply) (after : Option ℕ) (readings : List CycleReading)
    (htasks : c.tasks = []) (hs : Supported c.stable) (ht : Carried codec (promised past) t.engine) :
    (t.goOn codec principal f answer after readings).Ends (Intact codec) past c := by
  refine Method.Ends.of_modify ?_
  refine Method.Ends.of_sat (P := fun res c' log => (∃ out, res = .ok out) ∧ log = [] ∧ Home codec past c') ?_ ?_ ?_
  · refine Method.sat_observe.mpr (onEngine_sat (((carried_robust _).finishEffect _ _ _ ht).mono fun res e' _ he' => ?_))
    exact ⟨⟨_, rfl⟩, rfl, htasks, hs, he'⟩
  · rintro out c' log ⟨-, rfl, hhome⟩
    rw [List.append_nil]
    split
    · exact finish_home hhome t.executionId readings
    · refine Method.Ends.of_sat (P := fun _ c'' log => Backed c' c'' log)
        (Method.sat_observe.mpr persistCurrent_sat) ?_ ?_
      · exact fun _ c'' log hb => Method.ends_pure (.inl (hhome.backed hb))
      · exact fun _ c'' log hb => .inl (hhome.backed hb)
  · rintro err c' log ⟨⟨_, herr⟩, -⟩
    cases herr

/-- **While the engine is away, a message that does not unsettle it, and does not trap, keeps what was
promised.** -/
theorem Message.away (h : Away codec past c) (m : Message) (hu : ¬m.unsettles codec)
    (ht : ¬m.traps codec principal f c) : (m.perform codec principal f).Ends (Intact codec) past c := by
  cases m with
  | update i u => exact u.away h i hu
  | timer k readings =>
    refine Method.sat_read_bind.mpr ?_
    split
    · have haway : Away codec past { c with timers := c.timers.erase k } := ⟨h.task, h.supported, h.vacant⟩
      refine committing_sat (.inr (by rwa [List.append_nil])) (Method.sat_read_bind.mpr ?_)
      simp only [h.vacant.no_execution]
      exact run_away (fun _ => step_does 1) rfl (fun _ h => by cases h) haway fun _ => .inr (finish_away haway k readings)
    · exact Method.ends_pure (.inr h)
  | reply index answer after readings =>
    obtain ⟨t, htasks, hcarried⟩ := h.task
    refine Method.sat_read_bind.mpr ?_
    split
    · rename_i t' ht'
      have hindex : index = 0 ∧ t' = t := by
        rw [htasks] at ht'
        cases index with
        | zero => exact ⟨rfl, (Option.some.inj ht').symm⟩
        | succ _ => simp at ht'
      obtain ⟨rfl, rfl⟩ := hindex
      intro r hr
      unfold committing at hr
      split at hr
      · rename_i r' hr'
        cases hr
        have hempty : c.tasks.eraseIdx 0 = [] := by
          rw [htasks]
          rfl
        exact goOn_home (c := { c with tasks := c.tasks.eraseIdx 0 }) answer after readings hempty h.supported hcarried r hr'
      · exact absurd ⟨t', ht', ‹_›⟩ ht
    · exact Method.ends_pure (.inr h)
  | peerReply index answer =>
    refine Method.sat_read_bind.mpr ?_
    split
    · exact absurd trivial hu
    · exact Method.sat_modify.mpr (.inr (by rw [List.append_nil]; exact ⟨h.task, h.supported, h.vacant⟩))
    · exact Method.ends_pure (.inr h)

/-! ### Runs -/

/-- The canister after messages. -/
def canisterAfter (codec : Codec) (principal : String → Except String String) (f : Formats) (ms : List Message) :
    CanisterSession :=
  newCanister.run (Message.perform codec principal f) ms

/-- No message of the run unsettles the engine while it is away, or traps with it. -/
def Settled (codec : Codec) (principal : String → Except String String) (f : Formats) (ms : List Message) : Prop :=
  ∀ pre m post, ms = pre ++ m :: post →
    ((canisterAfter codec principal f pre).state.tasks ≠ [] → ¬m.unsettles codec) ∧
      ¬m.traps codec principal f (canisterAfter codec principal f pre).state

theorem settled_nil : Settled codec principal f [] := by
  intro pre m post hsplit
  simp at hsplit

theorem Settled.snoc {ms : List Message} (h : Settled codec principal f ms) {m : Message}
    (hquiet : (canisterAfter codec principal f ms).state.tasks ≠ [] → ¬m.unsettles codec)
    (htraps : ¬m.traps codec principal f (canisterAfter codec principal f ms).state) :
    Settled codec principal f (ms ++ [m]) := by
  intro pre m' post hsplit
  rcases List.eq_nil_or_concat post with rfl | ⟨post, last, rfl⟩
  · obtain ⟨rfl, hm⟩ := List.append_inj' hsplit rfl
    obtain ⟨rfl, -⟩ := List.cons.inj hm
    exact ⟨hquiet, htraps⟩
  · rw [List.concat_eq_append, ← List.cons_append, ← List.append_assoc] at hsplit
    obtain ⟨rfl, -⟩ := List.append_inj' hsplit rfl
    exact h pre m' post rfl

theorem intact_run (hf : f.Writes) {ms : List Message} (hms : Settled codec principal f ms) :
    Intact codec (canisterAfter codec principal f ms).log (canisterAfter codec principal f ms).state := by
  refine Session.run_induct (m := Message.perform codec principal f) (s := newCanister)
    (I := fun _ s => Intact codec s.log s.state) ?_ ms fun pre m post hsplit ih => ?_
  · refine .inl ⟨rfl, Nat.zero_le _, rfl, rfl, fun _ h => ?_, fun _ h => ?_⟩
    · exact (List.not_mem_nil h).elim
    · exact (List.not_mem_nil h).elim
  · obtain ⟨hquiet, htraps⟩ := hms pre m post hsplit
    rw [Session.after_log]
    refine Session.after_of_sat (T := fun c' l => Intact codec (_ ++ l) c') ?_ (by rwa [List.append_nil])
    rcases ih with hhome | haway
    · exact m.home hf hhome
    · obtain ⟨t, htasks, -⟩ := haway.task
      exact m.away haway (hquiet (by simp [canisterAfter, htasks])) htraps

/-- **No update is lost in a run that does not unsettle the engine while it is away**: when no effect is
awaited, the limits and the definition are the last that were reported, and every execution and handoff
reported since is there. -/
theorem no_lost_update (codec : Codec) (principal : String → Except String String) (f : Formats) (hf : f.Writes)
    (ms : List Message) (hms : Settled codec principal f ms)
    (htasks : (canisterAfter codec principal f ms).state.tasks = []) :
    Carried codec (promised (canisterAfter codec principal f ms).log) (canisterAfter codec principal f ms).state.engine := by
  rcases intact_run hf hms with hhome | haway
  · exact hhome.carried
  · obtain ⟨t, ht, -⟩ := haway.task
    rw [htasks] at ht
    cases ht

/-! ### A prompt -/

/-- A graph whose first node waits for the language model. -/
def promptSample : Sample where
  implementationId := "host-effects-v1"
  implementationHash := "80b317ce4a5e92b6bc4813a51fbb9d5dca111e9c2f768b4901ab8ae06ce14901"
  graphHash := "9811603282e134bd82397939949d9a04349540800bb9773ad0d32d2a9cc252a4"
  entry := builtinId "llm"
  nodes := [(builtinId "llm", false, ["/llm_result", "/phase"]), (builtinId "done", true, [])]
  transitions := [(builtinId "t1", builtinId "llm", "continue", builtinId "done")]
  cycles := []
  limits := sampleLimits
  paths := [("/llm_result", .object, "Object"), ("/phase", .string, "String")]

/-- The first state of `promptSample`. -/
def promptValue : Json := .object [("llm_result", .object []), ("phase", .string "init")]

/-- The text layer of `promptSample`. -/
def promptCodec : Codec := promptSample.textLayer [promptValue]

/-- A caller that comes with the cycles for one round of effects. -/
def ingress (caller : String) (isController : Bool) : Ingress :=
  { caller, isController, balance := none, readings := [{ before := none, after := none }] }

/-- The text layer of the documents of a new engine, which writes any. -/
def blankFormats : Formats := AgentEngine.default.snapshot.documents fun _ => "null"

/-- A controller loads `promptSample`, and starts an execution that awaits the language model. -/
def promptStart : List Message :=
  [.update (ingress "owner" true) (.loadDefinition promptSample.text),
    .update (ingress "owner" true) (.startExecution "e" (Sample.stateText promptValue))]

/-- A controller asks for the effects of the execution again. -/
def asking : Message := .update (ingress "owner" true) (.continueEffects "e")

/-- The language model replies. -/
def promptReply : Message := .reply 0 (.prompted "hello") none []

theorem blankFormats_writes : blankFormats.Writes :=
  ⟨fun _ => ⟨_, rfl⟩, fun _ => ⟨_, rfl⟩, fun _ => ⟨_, rfl⟩, fun _ => ⟨_, rfl⟩, fun _ => ⟨_, rfl⟩, fun _ => ⟨_, rfl⟩⟩

theorem settled_start (codec : Codec) (principal : String → Except String String) (f : Formats) (i j : Ingress)
    (json k state : String) :
    Settled codec principal f [.update i (.loadDefinition json), .update j (.startExecution k state)] :=
  (settled_nil.snoc (m := .update i (.loadDefinition json)) (fun h => absurd rfl h) fun h => h).snoc
    (m := .update j (.startExecution k state)) (fun _ h => h) fun h => h

/-- Nothing unsettles the engine while the reply is awaited, and the reply does not trap. -/
theorem prompt_settled : Settled promptCodec .ok blankFormats (promptStart ++ [asking] ++ [promptReply]) := by
  have hreply : (canisterAfter promptCodec .ok blankFormats (promptStart ++ [asking])).state.tasks.all (fun t =>
      (t.goOn promptCodec .ok blankFormats (.prompted "hello") none []
        { (canisterAfter promptCodec .ok blankFormats (promptStart ++ [asking])).state with
          tasks := (canisterAfter promptCodec .ok blankFormats (promptStart ++ [asking])).state.tasks.eraseIdx 0
        }).toOption.isSome) = true := by
    decide +kernel
  have hstart : Settled promptCodec .ok blankFormats promptStart := settled_start _ _ _ _ _ _ _ _
  have hasked : Settled promptCodec .ok blankFormats (promptStart ++ [asking]) := hstart.snoc (fun _ h => h) fun h => h
  refine hasked.snoc (fun _ h => h) ?_
  rintro ⟨t, ht, htrap⟩
  have hok := List.all_eq_true.mp hreply t (List.mem_of_getElem? ht)
  rw [htrap] at hok
  cases hok

/-- With a call in between that does not unsettle the engine, nothing is lost. -/
theorem prompt_carried :
    let s := canisterAfter promptCodec .ok blankFormats (promptStart ++ [asking] ++ [promptReply])
    s.state.tasks.isEmpty = true ∧ Carried promptCodec (promised s.log) s.state.engine := by
  have htasks : (canisterAfter promptCodec .ok blankFormats
      (promptStart ++ [asking] ++ [promptReply])).state.tasks.isEmpty = true := by
    decide +kernel
  exact ⟨htasks, no_lost_update promptCodec .ok blankFormats blankFormats_writes _ prompt_settled
    (List.isEmpty_iff.mp htasks)⟩

/-- A controller closes the canister to other callers. -/
def closing : Message := .update (ingress "owner" true) (.setLimits 0 0 0 true [] 0)

/-- **Limits that are set while a reply is awaited are lost**: the engine that comes back has its own. -/
theorem limits_lost :
    let s := canisterAfter promptCodec .ok blankFormats (promptStart ++ [closing, promptReply])
    s.state.tasks.isEmpty = true ∧ (promised s.log).limits.requireControllerForRuns = true ∧
      s.state.engine.limits.requireControllerForRuns = false ∧ ¬Carried promptCodec (promised s.log) s.state.engine := by
  have h : (canisterAfter promptCodec .ok blankFormats (promptStart ++ [closing, promptReply])).state.tasks.isEmpty = true ∧
      (promised (canisterAfter promptCodec .ok blankFormats
        (promptStart ++ [closing, promptReply])).log).limits.requireControllerForRuns = true ∧
      (canisterAfter promptCodec .ok blankFormats
        (promptStart ++ [closing, promptReply])).state.engine.limits.requireControllerForRuns = false := by
    decide +kernel
  obtain ⟨htasks, hclosed, hopen⟩ := h
  refine ⟨htasks, hclosed, hopen, fun hcarried => ?_⟩
  rw [hcarried.limits, hclosed] at hopen
  cases hopen

end Knolo.Icp
