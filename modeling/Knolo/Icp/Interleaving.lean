import Knolo.Icp.Canister
import Knolo.Icp.Handoff
import Knolo.Icp.RoundTrip

/-!
# Interleaved messages

While an effect is awaited, the engine is out of its cell, and the calls that come in between find a new
one there. The reply puts the engine back, over whatever they have left.

* `Message.sound` — every engine of a canister, in its cell or taken out of it, arises from its operations.
-/

namespace Knolo.Icp

open Core Library Library.Fallible Host Knolo.Runtime

variable {codec : Codec} {principal : String → Except String String} {f : Formats} {e e' : AgentEngine} {k : String}
  {c c' : Canister}

/-! ### The loop over the effects -/

/-- The execution is there. -/
def Present (k : String) (e : AgentEngine) : Prop := e.executions.contains k = true

theorem present_robust : Robust codec (Present k) where
  call hc _ h he := h.stays hc he
  spend _ he := he

/-- The engine that the loop returns, or takes to an await, has the property. -/
def Drained.Holds (I : AgentEngine → Prop) (k : String) : Drained → Prop
  | .returned e _ => I e
  | .awaits t => t.executionId = k ∧ I t.engine ∧ Present k t.engine

/-- Setting the timer of an execution preserves `I`. -/
def KeepsTimers (I : AgentEngine → Prop) : Prop :=
  ∀ (e : AgentEngine) (k : String) (r : ExecutionRecord) (scheduled : Bool), I e → e.executions[k]? = some r →
    I (e.put k { r with timerScheduled := scheduled })

theorem pause_holds {I : AgentEngine → Prop} (ht : KeepsTimers I) (he : I e) {out : Drained}
    (h : e.pause k = some out) : out.Holds I k := by
  unfold AgentEngine.pause at h
  split at h
  · cases h
    exact he
  · split at h
    · cases h
      exact he
    · split at h
      · cases h
        exact he
      · split at h
        · cases h
          exact ht e k _ true he ‹_›
        · cases h

/-- There is a round only for an execution that is there. -/
theorem present_of_pause (h : e.pause k = none) : Present k e := by
  unfold AgentEngine.pause at h
  split at h
  · cases h
  · rename_i current hcurrent
    rw [Present, ← Std.ExtTreeMap.isSome_getElem?_eq_contains, hcurrent]
    rfl

/-- What each round preserves, the loop does. -/
theorem continueEffectsInner_holds {I : AgentEngine → Prop} (ht : KeepsTimers I)
    (hI : ∀ reading, Method.Keeps I (resolveOneEffect codec principal k reading))
    (readings : List CycleReading) (he : I e) {out : Drained}
    (h : continueEffectsInner codec principal k readings e = some out) : out.Holds I k := by
  induction readings generalizing e with
  | nil => exact pause_holds ht he h
  | cons reading readings ih =>
    rw [continueEffectsInner] at h
    split at h
    · rename_i out' hpause
      cases h
      exact pause_holds ht he hpause
    · rename_i hpause
      split at h
      · cases h
      · rename_i r hr
        have hr' : I r.state := hI reading e he r hr
        split at h
        · exact ih hr' h
        · cases h
          exact hr'
        · cases h
          exact ⟨rfl, hr', present_robust.resolveOneEffect reading e (present_of_pause hpause) r hr⟩
        · cases h
          exact hr'

/-! ### The parts of a message -/

variable {α : Type} {J : Canister → Prop}

theorem onEngine_sat {p : EngineM α} {Q : Except String α → Canister → List Notice → Prop}
    (h : p.Sat c.engine fun res e' _ => Q (res.mapError codec.display) { c with engine := e' } []) :
    (onEngine codec p).Sat c Q := by
  intro r hr
  unfold onEngine at hr
  split at hr
  · cases hr
  · rename_i r' hr'
    cases hr
    exact h r' hr'

/-- What a part that keeps all but the stable memory leaves. -/
structure Backed (c c' : Canister) (log : List Notice) : Prop where
  state : ∃ stable, c' = { c with stable } ∧ (Supported c.stable → Supported stable)
  quiet : log = []

theorem persistCurrent_sat : (persistCurrent f).Sat c fun _ c' log => Backed c c' log := by
  intro r hr
  unfold persistCurrent at hr
  split at hr
  · rename_i d _
    exact nomatch d
  · rename_i r' hr'
    cases hr
    exact ⟨⟨r'.state, rfl, fun h => persistSnapshot_supported _ _ h _ hr'⟩, rfl⟩

/-- Where every document can be written, a snapshot is kept. -/
theorem persistCurrent_ok (hf : f.Writes) (hc : Supported c.stable) :
    (persistCurrent f).Sat c fun res _ _ => res = .ok () := by
  intro r hr
  obtain ⟨_, m, hm, -⟩ := persistSnapshot_succeeds hf c.engine.snapshot c.stable hc
  rw [persistCurrent, hm] at hr
  cases hr
  rfl

/-- How the loop over the effects ends a message. -/
theorem finish_sat {readings : List CycleReading} {Q : Except String Unit → Canister → List Notice → Prop}
    (hreturn : ∀ e timer timers c', continueEffectsInner codec principal k readings c.engine = some (.returned e timer) →
      Backed { c with engine := e, timers } c' [] → Q (.ok ()) c' [])
    (hawait : ∀ t, continueEffectsInner codec principal k readings c.engine = some (.awaits t) →
      Q (.ok ()) { c with engine := .default, tasks := c.tasks ++ [t] } []) :
    (finish codec principal f k readings).Sat c Q := by
  refine Method.sat_read_bind.mpr ?_
  split
  · exact Method.sat_abort
  · rename_i e timer hout
    refine Method.sat_modify_bind.mpr (Method.sat_bind.mpr (Method.sat_observe.mpr ?_))
    refine persistCurrent_sat.mono fun res c' log h => Method.sat_pure.mpr ?_
    obtain rfl := h.quiet
    exact hreturn e timer _ c' hout h
  · rename_i t hout
    exact Method.sat_modify.mpr (hawait t hout)

/-! ### Every engine arises -/

/-- The engine in the cell, and those that were taken out of it, arise from the operations. -/
structure Sound (codec : Codec) (principal : String → Except String String) (c : Canister) : Prop where
  cell : Arising codec principal c.engine
  held : ∀ t ∈ c.tasks, Arising codec principal t.engine ∧ Present t.executionId t.engine

theorem Sound.replace (h : Sound codec principal c) (he : Arising codec principal e) (stable : StableMemory)
    (forwards : List Forwarding) (timers : List String) :
    Sound codec principal { c with engine := e, stable, forwards, timers } := ⟨he, h.held⟩

/-- `p` is the operation of a call, up to what it returns. -/
def Performs (codec : Codec) (call : Call) (p : EngineM α) : Prop :=
  ∀ e r, p e = .ok r → ∃ r', call.perform codec e = .ok r' ∧ r'.state = r.state

theorem performs_drop (call : Call) {p : EngineM α} (h : call.perform codec = (do let _ ← p : EngineM Unit)) :
    Performs codec call p := fun _ _ hr => ⟨_, h ▸ Method.drop_eq hr, rfl⟩

theorem performs_setLimits (limits : RuntimeLimitsV1) : Performs codec (.setLimits limits) (setLimits limits) :=
  fun _ r hr => ⟨r, hr, rfl⟩

/-- An operation keeps the engine one that arises. -/
theorem onEngine_sound {p : EngineM α} {call : Call} (hp : Performs codec call p) :
    Method.Keeps (Sound codec principal) (onEngine codec p) := by
  refine fun c hc => onEngine_sat fun r hr => ⟨?_, hc.held⟩
  obtain ⟨r', hr', hstate⟩ := hp _ r hr
  exact hstate ▸ .called call hc.cell hr'

theorem persistCurrent_sound : Method.Keeps (Sound codec principal) (persistCurrent f) := by
  intro c hc
  refine persistCurrent_sat.mono fun _ c' _ h => ?_
  obtain ⟨⟨stable, rfl, -⟩, -⟩ := h
  exact ⟨hc.cell, hc.held⟩

theorem arising_timers : KeepsTimers (Arising codec principal) := fun _ _ _ scheduled he hr => .timed scheduled he hr

theorem finish_sound (k : String) (readings : List CycleReading) :
    Method.Keeps (Sound codec principal) (finish codec principal f k readings) := by
  intro c hc
  have hholds : ∀ {out}, continueEffectsInner codec principal k readings c.engine = some out →
      out.Holds (Arising codec principal) k :=
    continueEffectsInner_holds arising_timers (fun reading _ he r hr => .resolved k reading he hr) readings hc.cell
  refine finish_sat (fun e timer timers c' hout h => ?_) fun t hout => ?_
  · obtain ⟨⟨stable, rfl, -⟩, -⟩ := h
    exact ⟨hholds hout, hc.held⟩
  · obtain ⟨rfl, ht, hpresent⟩ := hholds hout
    refine ⟨.fresh, fun t' ht' => ?_⟩
    rcases List.mem_append.mp ht' with ht' | ht'
    · exact hc.held t' ht'
    · obtain rfl := List.mem_singleton.mp ht'
      exact ⟨ht, hpresent⟩

theorem guards_sound {i : Ingress} :
    Method.Keeps (Sound codec principal) (requireRunAuth i) ∧ Method.Keeps (Sound codec principal) (requireCyclesGuard i) :=
  ⟨Method.Keeps.read_bind fun _ _ => Method.keeps_ofExcept _, Method.Keeps.read_bind fun _ _ => Method.keeps_ofExcept _⟩

theorem Update.sound (i : Ingress) (u : Update) :
    Method.Keeps (Sound codec principal) (u.perform codec principal f i) := by
  obtain ⟨hauth, hguard⟩ := @guards_sound codec principal i
  have hpersist : ∀ g : String → String, Method.Keeps (Sound codec principal) ((persistCurrent f).mapError g) :=
    fun g => persistCurrent_sound.mapError g
  have hfinish := fun k => @finish_sound codec principal f k i.readings
  cases u with
  | loadDefinition json =>
    refine (Method.keeps_ofExcept _).bind fun _ => (onEngine_sound (performs_drop (.loadDefinition json) rfl)).bind fun _ => ?_
    exact (hpersist _).bind fun _ => Method.keeps_tell _
  | clearDefinition =>
    refine (Method.keeps_ofExcept _).bind fun _ => (onEngine_sound (performs_drop .clearDefinition rfl)).bind fun _ => ?_
    exact (hpersist _).bind fun _ => Method.keeps_tell _
  | setLimits =>
    refine (Method.keeps_ofExcept _).bind fun _ => Method.Keeps.read_bind fun c _ => ?_
    refine Method.Keeps.bind (onEngine_sound (performs_setLimits _)) fun _ => ?_
    exact (hpersist _).bind fun _ => Method.keeps_tell _
  | startExecution k state =>
    refine hauth.bind fun _ => hguard.bind fun _ => (onEngine_sound (performs_drop (.startExecution k state) rfl)).bind fun _ => ?_
    exact (Method.keeps_tell _).bind fun _ => hfinish k
  | step k n =>
    refine hauth.bind fun _ => hguard.bind fun _ => (onEngine_sound (performs_drop (.step k n) rfl)).bind fun _ => ?_
    exact hfinish k
  | resume k =>
    refine hauth.bind fun _ => hguard.bind fun _ => (onEngine_sound (performs_drop (.resume k) rfl)).bind fun _ => ?_
    exact hfinish k
  | continueEffects k => exact hauth.bind fun _ => hfinish k
  | acceptHandoff k envelope state parent =>
    refine hauth.bind fun _ => hguard.bind fun _ => ?_
    refine (onEngine_sound (performs_drop (.acceptHandoff k envelope state parent) rfl)).bind fun x => ?_
    exact (Method.keeps_tell _).bind fun _ => (Method.keeps_tell _).bind fun _ => hfinish k
  | forwardHandoff peer k envelope state parent =>
    refine hauth.bind fun _ => hguard.bind fun _ => (Method.keeps_ofExcept _).bind fun _ => ?_
    refine Method.Keeps.read_bind fun c _ => (Method.keeps_ofExcept _).bind fun _ => ?_
    exact Method.keeps_modify fun c hc => ⟨hc.cell, hc.held⟩

theorem committing_sat {change : Canister → Canister} {notices : List Notice} {p : CanisterM Unit}
    {Q : Except String Unit → Canister → List Notice → Prop} (hchange : Q (.ok ()) (change c) notices)
    (hp : p.Sat (change c) Q) : (committing change notices p).Sat c Q := by
  intro r hr
  unfold committing at hr
  split at hr
  · rename_i r' hr'
    cases hr
    exact hp r hr'
  · cases hr
    exact hchange

theorem timerContinueExecution_sound (k : String) (readings : List CycleReading) :
    Method.Keeps (Sound codec principal) (timerContinueExecution codec principal f k readings) := by
  have hstep : Performs codec (.step k 1) _ := performs_drop (.step k 1) rfl
  have hrest := (@onEngine_sound codec principal _ _ _ hstep).bind
    fun _ => finish_sound (f := f) k readings
  refine fun c hc => Method.sat_read_bind.mpr ?_
  split
  · rename_i r hr
    exact Method.sat_modify_bind.mpr (hrest _ ⟨.timed false hc.cell hr, hc.held⟩)
  · exact hrest c hc

theorem goOn_sound {t : Task} (answer : HostReply) (after : Option ℕ) (readings : List CycleReading)
    (ht : Arising codec principal t.engine) (hpresent : Present t.executionId t.engine)
    (hheld : ∀ t' ∈ c.tasks, Arising codec principal t'.engine ∧ Present t'.executionId t'.engine) :
    (t.goOn codec principal f answer after readings).Sat c fun _ c' _ => Sound codec principal c' := by
  have heffect : (onEngine codec (finishEffect codec t.executionId answer { before := t.before, after })).Sat
      { c with engine := t.engine } fun _ c' _ => Sound codec principal c' := by
    refine onEngine_sat fun r hr => ⟨.replied t.executionId answer _ ht ?_ hr, hheld⟩
    rwa [Std.ExtTreeMap.isSome_getElem?_eq_contains]
  have hobserve : (Method.observe (onEngine codec
      (finishEffect codec t.executionId answer { before := t.before, after }))).Sat { c with engine := t.engine }
        fun _ c' _ => Sound codec principal c' := Method.sat_observe.mpr heffect
  refine Method.sat_modify_bind.mpr (hobserve.bind (fun res c' _ hc' => ?_) fun _ _ _ h => h)
  split
  · exact finish_sound t.executionId readings c' hc'
  · exact (persistCurrent_sound.observe.bind fun _ => Method.keeps_pure _) c' hc'

/-- **A message leaves every engine of the canister one that arises.** -/
theorem Message.sound (m : Message) :
    Method.Keeps (Sound codec principal) (m.perform codec principal f) := by
  cases m with
  | update i u => exact u.sound i
  | timer k readings =>
    refine Method.Keeps.read_bind fun c _ => ?_
    split
    · exact fun c hc => committing_sat ⟨hc.cell, hc.held⟩ (timerContinueExecution_sound k readings _ ⟨hc.cell, hc.held⟩)
    · exact Method.keeps_pure _
  | reply index answer after readings =>
    refine fun c hc => Method.sat_read_bind.mpr ?_
    split
    · rename_i t ht
      obtain ⟨harising, hpresent⟩ := hc.held t (List.mem_of_getElem? ht)
      have herase : ∀ t' ∈ c.tasks.eraseIdx index, Arising codec principal t'.engine ∧ Present t'.executionId t'.engine :=
        fun t' ht' => hc.held t' (List.mem_of_mem_eraseIdx ht')
      refine committing_sat ⟨hc.cell, herase⟩ ?_
      exact goOn_sound answer after readings harising hpresent herase
    · exact Method.sat_pure.mpr hc
  | peerReply index answer =>
    refine Method.Keeps.read_bind fun c _ => ?_
    split
    · refine Method.Keeps.bind (Method.keeps_modify fun c hc => ⟨.forwarded _ hc.cell, hc.held⟩) fun _ => ?_
      exact persistCurrent_sound.observe.bind fun _ => Method.keeps_tell _
    · exact Method.keeps_modify fun c hc => ⟨hc.cell, hc.held⟩
    · exact Method.keeps_pure _

end Knolo.Icp
