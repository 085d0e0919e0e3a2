import Knolo.Icp.Upkeep
import Knolo.Library.Totals
import Knolo.Runtime.Accounting

/-!
# What the host budget covers

The budget of the host counts steps, tokens and cost for all executions together. What an execution
has counted reaches it when the record of the execution is put in its place: the steps are taken
over as they are, tokens and cost where they are higher than what was counted before. A start with
a bound on its first slice takes over nothing.

* `Operation` — what the engine does with executions: calls, effects, handoffs.
* `Covers` — the budget counts at least what the records add up to.
* `Booking` — what an operation does to the books; `Operation.books` — it does nothing else.
* `covers_of_alone` — the budget covers the executions of a run in which one alone counts.
* `Operation.not_covers` — and not where two have; `second_start_undercounts` — a run that leads there.
-/

namespace Knolo.Icp

open Core Library Library.Fallible Host Knolo.Runtime

/-! ### Counters -/

/-- What both an execution and the host count. -/
inductive Counter where
  | steps
  | tokens
  | costMicros
  deriving DecidableEq

namespace Counter

/-- The counter of an execution. -/
def ofRecord (r : ExecutionRecord) : Counter → ℕ
  | steps => r.steps
  | tokens => r.tokens
  | costMicros => r.costMicros

/-- The counter of the host. -/
def ofBudget (b : HostBudgetTracker) : Counter → ℕ
  | steps => b.snapshot.knoloSteps
  | tokens => b.snapshot.knoloTokens
  | costMicros => b.snapshot.knoloCostMicros

end Counter

/-- The budget counts at least what the records of all executions add up to. -/
def Covers (e : AgentEngine) : Prop :=
  ∀ c : Counter, tally (fun r => c.ofRecord r) e.executions ≤ c.ofBudget e.budget

/-- The execution has counted nothing. -/
def ExecutionRecord.Idle (r : ExecutionRecord) : Prop := ∀ c : Counter, c.ofRecord r = 0

/-! ### Operations -/

/-- What the engine does with executions. -/
inductive Operation where
  /-- A call. -/
  | call (c : Call)
  /-- An effect is resolved, up to the reply of another canister if it needs one. -/
  | resolve (executionId : String) (reading : CycleReading)
  /-- The reply of another canister. -/
  | reply (executionId : String) (answer : HostReply) (reading : CycleReading)
  /-- A handoff is forwarded. -/
  | forward (h : HandoffRecordV1)

/-- The record a resolution brings. -/
def Resolution.record : Resolution → Option ExecutionRecord
  | .settled record => record
  | .awaiting _ => none

section Operations

variable (codec : Codec) (principal : String → Except String String)

/-- Perform a call, for the record it brings. -/
def Call.bring : Call → EngineM (Option ExecutionRecord)
  | .startExecution id state => do return some (← Icp.startExecution codec id state)
  | .startWithBudget id state n => do return some (← Icp.startWithBudget codec id state n)
  | .acceptHandoff id envelope state parent => do return some (← Icp.acceptHandoff codec id envelope state parent).1
  | .step id n => do return some (← Icp.step codec id n)
  | .resume id => do return some (← Icp.resume codec id)
  | .injectEffectAndResume id effect value => do return some (← Icp.injectEffectAndResume codec id effect value)
  | c => do
    c.perform codec
    return none

namespace Operation

/-- Perform an operation, for the record it brings. -/
def bring : Operation → EngineM (Option ExecutionRecord)
  | .call c => c.bring codec
  | .resolve id reading => do return (← resolveOneEffect codec principal id reading).record
  | .reply id answer reading => do return some (← finishEffect codec id answer reading)
  | .forward h => do
    Method.modify fun e => e.forward h
    return none

/-- Perform an operation. -/
def perform (o : Operation) : EngineM Unit := do
  let _ ← o.bring codec principal

/-- The execution an operation works on. -/
def target : Operation → Option String
  | .call c => c.target
  | .resolve id _ | .reply id _ _ => some id
  | .forward _ => none

/-- Is it a start with a bound on the first slice? -/
def sliced : Operation → Bool
  | .call (.startWithBudget _ _ _) => true
  | _ => false

/-- From `e`, the operation brings no record, or it is no sliced start and every other execution has
counted nothing. -/
def Alone (e : AgentEngine) (o : Operation) : Prop :=
  (∃ r record, o.bring codec principal e = .ok r ∧ r.result = .ok (some record)) →
    o.sliced = false ∧ ∀ (k : String) (r : ExecutionRecord), e.executions[k]? = some r → o.target ≠ some k → r.Idle

end Operation

end Operations

variable {codec : Codec} {principal : String → Except String String} {e e' e₁ : AgentEngine} {k : String}
  {r record : ExecutionRecord} {cp : CheckpointV1} {d : LoadedDefinition} {x : DeterministicExecutor}
  {run : SchedulerRun}

/-! ### Counters in range -/

/-- Tokens and cost are in the range of their type. -/
def InRange (tokens cost : ℕ) : Prop := tokens ≤ u64Max ∧ cost ≤ u64Max

/-- The counters of the record, and of the checkpoints it holds, are in range. -/
structure ExecutionRecord.Ranged (r : ExecutionRecord) : Prop where
  counters : InRange r.tokens r.costMicros
  checkpoint : ∀ cp, r.Holds cp → InRange cp.tokens cp.costMicros

/-- All counters the engine keeps of executions are in range. -/
structure Ranged (e : AgentEngine) : Prop where
  record : ∀ (k : String) (r : ExecutionRecord), e.executions[k]? = some r → r.Ranged
  store : ∀ (id : ExecutionId) (cp : CheckpointV1), e.store.load id = some cp → InRange cp.tokens cp.costMicros

theorem Slice.ranged (h : Slice d x e run) (hr : Ranged e) : Ranged (e.stored run) where
  record := hr.record
  store id cp hcp := by
    by_cases hid : run.call.id = id
    · subst hid
      rw [h.load_own, Option.or_eq_some_iff] at hcp
      rcases hcp with hcp | ⟨-, hcp⟩
      · obtain ⟨_, hsound⟩ := h.saves_sound (List.mem_of_getLast? hcp)
        exact hsound.ranges
      · exact hr.store _ _ hcp
    · rw [h.load_other hid] at hcp
      exact hr.store _ _ hcp

/-- A slice from counters in range reports such counters. -/
theorem Slice.report_inRange {report : ExecutionReportV1} (h : Slice d x e run) (hout : run.outcome = .ok report)
    (hs : InRange (run.call.initial d.scheduler).tokens (run.call.initial d.scheduler).cost) :
    InRange report.tokens report.costMicros := by
  obtain ⟨tr, hr, -⟩ := h.runs
  rw [hout] at hr
  exact runs_ranges hs hr

/-- A synthesized checkpoint has the counters of the record. -/
theorem synthesize_counters (h : e.synthesizeSuspendCheckpoint codec k r = .ok cp) :
    cp.tokens = r.tokens ∧ cp.costMicros = r.costMicros := by
  obtain ⟨_, -, h⟩ := bind_eq_ok.mp h
  obtain ⟨_, -, h⟩ := bind_eq_ok.mp h
  obtain ⟨_, -, h⟩ := bind_eq_ok.mp h
  cases h
  exact ⟨rfl, rfl⟩

theorem synthesize_inRange (hr : InRange r.tokens r.costMicros)
    (h : e.synthesizeSuspendCheckpoint codec k r = .ok cp) : InRange cp.tokens cp.costMicros := by
  obtain ⟨ht, hc⟩ := synthesize_counters h
  rwa [ht, hc]

theorem checkpointFor_inRange (he : Ranged e) (hr : r.Ranged) (h : e.checkpointFor codec r k = .ok cp) :
    InRange cp.tokens cp.costMicros := by
  unfold AgentEngine.checkpointFor at h
  split at h
  · cases h
    rename_i hcp
    rcases Option.or_eq_some_iff.mp hcp with hcp | ⟨-, hcp⟩
    · exact hr.checkpoint _ (.inl hcp)
    · exact hr.checkpoint _ (.inr hcp)
  · split at h
    · cases h
      rename_i hcp
      obtain ⟨id, -, hcp⟩ := Option.bind_eq_some_iff.mp hcp
      exact he.store _ _ hcp
    · exact synthesize_inRange hr.counters h

theorem resumeCheckpoint_inRange (he : Ranged e) (hr : r.Ranged) (h : e.resumeCheckpoint codec r k = .ok cp) :
    InRange cp.tokens cp.costMicros := by
  unfold AgentEngine.resumeCheckpoint at h
  split at h
  · obtain ⟨cp', hcp', h⟩ := bind_eq_ok.mp h
    have hcp' := checkpointFor_inRange he hr hcp'
    split at h
    · cases h
      exact hcp'
    · obtain ⟨_, -, h⟩ := bind_eq_ok.mp h
      obtain ⟨_, -, h⟩ := bind_eq_ok.mp h
      cases h
      exact hr.counters
  · exact checkpointFor_inRange he hr h

theorem Ranged.put (he : Ranged e) (hr : r.Ranged) : Ranged (e.put k r) where
  record k' r' hr' := by
    by_cases hk : k = k'
    · subst hk
      rw [put_get] at hr'
      cases hr'
      exact hr
    · rw [put_get_ne _ _ hk] at hr'
      exact he.record k' r' hr'
  store := he.store

/-- A call goes on from counters in range. -/
theorem Going.ranged {c : Call} {budget : Option ℕ} {hitl : Bool} (h : Going codec e c k r e₁ cp budget hitl)
    (he : Ranged e) : Ranged e₁ ∧ r.Ranged ∧ InRange cp.tokens cp.costMicros := by
  cases h with
  | step hr _ hcp => exact ⟨he, he.record k r hr, checkpointFor_inRange he (he.record k r hr) hcp⟩
  | resume hr hcp => exact ⟨he, he.record k r hr, resumeCheckpoint_inRange he (he.record k r hr) hcp⟩
  | @inject _ _ _ r₀ _ _ hr _ _ hr' hcp =>
    have hranged : r.Ranged := by
      subst hr'
      have h := he.record k r₀ hr
      exact ⟨h.counters, h.checkpoint⟩
    exact ⟨he.put hranged, hranged, resumeCheckpoint_inRange (he.put hranged) hranged hcp⟩

/-- A call keeps the counters in range. -/
theorem Transition.ranged {c : Call} {log : List SchedulerRun} (h : Transition codec e c e' log) (he : Ranged e) :
    Ranged e' := by
  have hfresh : ∀ {e₁ : AgentEngine}, e₁.executions = ∅ → e₁.store = .empty → Ranged e₁ := by
    intro e₁ hx hs
    exact ⟨fun k r hr => by simp [hx] at hr,
      fun id cp hcp => by simp [hs, InMemoryCheckpointStore.load, InMemoryCheckpointStore.empty] at hcp⟩
  cases h with
  | refused => exact he
  | loaded _ => exact hfresh rfl rfl
  | cleared => exact hfresh rfl rfl
  | limited => exact ⟨he.record, he.store⟩
  | toolRun _ => exact ⟨he.record, he.store⟩
  | startFailed _ _ _ hrun _ _ => exact hrun.ranged he
  | @started _ k _ d id state run report record handoffId _ _ _ _ hid hrun hcall hout hrec _ =>
    have hstored := hrun.ranged he
    have hreport : InRange report.tokens report.costMicros := by
      refine hrun.report_inRange hout ?_
      rw [hcall]
      exact ⟨Nat.zero_le _, Nat.zero_le _⟩
    have hcounters : InRange record.tokens record.costMicros := by
      obtain ⟨_, -, rfl⟩ := recordFromReport_eq_ok hid hrec
      exact hreport
    have hrecord : (e.applyEventCap { record with handoffId }).Ranged := by
      refine ⟨hcounters, fun cp hcp => ?_⟩
      rcases recordFromReport_holds hid hrec hcp with h | ⟨-, -, h⟩
      · exact hstored.store _ _ h
      · exact synthesize_inRange hreport h
    have hput := hstored.put (k := k) hrecord
    exact ⟨hput.record, hput.store⟩
  | @injected k _ _ r hr _ _ =>
    have h := he.record k r hr
    exact he.put ⟨h.counters, h.checkpoint⟩
  | advanceFailed hgo hrun _ _ => exact hrun.ranged (hgo.ranged he).1
  | @advanced _ k r e₁ cp _ _ d run report record _ hgo hrun hcall hout hrec =>
    obtain ⟨he₁, hr, hcp⟩ := hgo.ranged he
    have hstored := hrun.ranged he₁
    have hreport : InRange report.tokens report.costMicros := by
      refine hrun.report_inRange hout ?_
      rw [hcall]
      exact hcp
    obtain ⟨id, hid, -⟩ := bind_eq_ok.mp hrec
    have hid : id.text = k := executionIdFrom_eq_ok.mp (liftError_eq_ok.mp hid)
    have hcounters : InRange record.tokens record.costMicros := by
      obtain ⟨_, _, -, -, rfl⟩ := mergeStepReport_eq_ok hid hrec
      exact hreport
    have hrecord : record.Ranged := by
      refine ⟨hcounters, fun cp hcp => ?_⟩
      rcases mergeStepReport_holds hid hrec hcp with h | ⟨-, h | ⟨-, h⟩⟩
      · exact hstored.store _ _ h
      · exact hr.checkpoint _ (.inr h)
      · exact synthesize_inRange hreport h
    have hput := hstored.put (k := k) hrecord
    exact ⟨hput.record, hput.store⟩

theorem ranged_robust : Robust codec Ranged where
  call _ _ h he := h.ranged he
  spend _ he := ⟨he.record, he.store⟩

/-! ### What an operation does to the books -/

/-- The counters of the host are in range. -/
def HostBudgetTracker.InRange (b : HostBudgetTracker) : Prop :=
  Icp.InRange b.snapshot.knoloTokens b.snapshot.knoloCostMicros

/-- From counters in range, no counter of the host was lowered, nor did one leave the range. -/
def Raised (b b' : HostBudgetTracker) : Prop :=
  b.InRange → b'.InRange ∧ ∀ c : Counter, c.ofBudget b ≤ c.ofBudget b'

theorem Raised.refl (b : HostBudgetTracker) : Raised b b := fun h => ⟨h, fun _ => le_rfl⟩

theorem Raised.trans {b b' b'' : HostBudgetTracker} (h : Raised b b') (h' : Raised b' b'') : Raised b b'' := by
  intro hb
  obtain ⟨hb', hle⟩ := h hb
  obtain ⟨hb'', hle'⟩ := h' hb'
  exact ⟨hb'', fun c => (hle c).trans (hle' c)⟩

/-- Counters that are the same are not lowered. -/
theorem Raised.of_same {b b' : HostBudgetTracker} (h : ∀ c : Counter, c.ofBudget b' = c.ofBudget b) : Raised b b' := by
  refine fun hb => ⟨⟨?_, ?_⟩, fun c => (h c).ge⟩
  · exact (h .tokens).trans_le hb.1
  · exact (h .costMicros).trans_le hb.2

theorem le_satAdd {a : ℕ} (h : a ≤ u64Max) (b : ℕ) : a ≤ satAdd a b := le_min (Nat.le_add_right a b) h

theorem satAdd_le (a b : ℕ) : satAdd a b ≤ u64Max := min_le_right ..

theorem raised_noteLlm (b : HostBudgetTracker) (tokens cost : ℕ) : Raised b (b.noteLlm tokens cost) := by
  refine fun hb => ⟨⟨satAdd_le .., satAdd_le ..⟩, fun c => ?_⟩
  cases c with
  | steps => exact le_rfl
  | tokens => exact le_satAdd hb.1 tokens
  | costMicros => exact le_satAdd hb.2 cost

theorem raised_noteRetrieval (b : HostBudgetTracker) (cost : ℕ) : Raised b (b.noteRetrieval cost) := by
  refine fun hb => ⟨⟨hb.1, satAdd_le ..⟩, fun c => ?_⟩
  cases c with
  | steps => exact le_rfl
  | tokens => exact le_rfl
  | costMicros => exact le_satAdd hb.2 cost

/-- No execution was counted. -/
structure Uncounted (e e' : AgentEngine) : Prop where
  counters : ∀ (c : Counter) (k : String),
    e'.executions[k]?.map (fun r => c.ofRecord r) = e.executions[k]?.map fun r => c.ofRecord r
  raised : Raised e.budget e'.budget

theorem Uncounted.refl (e : AgentEngine) : Uncounted e e := ⟨fun _ _ => rfl, .refl _⟩

theorem Uncounted.trans {e'' : AgentEngine} (h : Uncounted e e') (h' : Uncounted e' e'') : Uncounted e e'' :=
  ⟨fun c k => (h'.counters c k).trans (h.counters c k), h.raised.trans h'.raised⟩

/-- The record of `k` was put in its place. -/
structure Placed (e : AgentEngine) (k : String) (r : ExecutionRecord) (e' : AgentEngine) : Prop where
  record : e'.executions[k]? = some r
  others : ∀ (c : Counter) (k' : String), k' ≠ k →
    e'.executions[k']?.map (fun r => c.ofRecord r) = e.executions[k']?.map fun r => c.ofRecord r

/-- The host took over the counters of a record. -/
structure Synced (b : HostBudgetTracker) (r : ExecutionRecord) (b' : HostBudgetTracker) : Prop where
  steps : b'.snapshot.knoloSteps = r.steps
  covers : ∀ c : Counter, c.ofRecord r ≤ c.ofBudget b'
  inRange : b.InRange → InRange r.tokens r.costMicros → b'.InRange

/-- **What an operation on an execution does to the books**: whether it was a sliced start, and which
record it brings. -/
inductive Booking (e : AgentEngine) : Option String → Bool → Option ExecutionRecord → AgentEngine → Prop
  /-- All executions are dropped. -/
  | reset {e' : AgentEngine} {target : Option String} {sliced : Bool} :
      e'.executions = ∅ → e'.budget.InRange → Booking e target sliced none e'
  /-- No record was brought. -/
  | uncounted {e' : AgentEngine} {target : Option String} {sliced : Bool} :
      Uncounted e e' → Booking e target sliced none e'
  /-- A record was put in its place, and the budget stays as it is. -/
  | installed {e' : AgentEngine} {k : String} {r : ExecutionRecord} :
      Placed e k r e' → e'.budget = e.budget → Booking e (some k) true (some r) e'
  /-- A record was put in its place, and the budget took over its counters. -/
  | accounted {e' : AgentEngine} {k : String} {r : ExecutionRecord} :
      Placed e k r e' → Synced e.budget r e'.budget → Booking e (some k) false (some r) e'

variable {target : Option String} {brought : Option ExecutionRecord}

/-- Booking after nothing was counted. -/
theorem Booking.after (h : Uncounted e e₁) (h' : Booking e₁ target false brought e') :
    Booking e target false brought e' := by
  cases h' with
  | reset hx hb => exact .reset hx hb
  | uncounted h' => exact .uncounted (h.trans h')
  | accounted hp hs =>
    have hplaced : Placed e _ _ e' := ⟨hp.record, fun c k' hk => (hp.others c k' hk).trans (h.counters c k')⟩
    exact .accounted hplaced ⟨hs.steps, hs.covers, fun hb => hs.inRange (h.raised hb).1⟩

/-- Booking before something that leaves the books as they are. -/
theorem Booking.before (h : Booking e target false brought e₁) (hx : e'.executions = e₁.executions)
    (hb : ∀ c : Counter, c.ofBudget e'.budget = c.ofBudget e₁.budget) : Booking e target false brought e' := by
  have hrange : e₁.budget.InRange → e'.budget.InRange := fun h => (Raised.of_same hb h).1
  cases h with
  | reset hx' hb' => exact .reset (hx.trans hx') (hrange hb')
  | uncounted h => exact .uncounted (h.trans ⟨fun c k => by rw [hx], .of_same hb⟩)
  | accounted hp hs =>
    have hplaced : Placed e _ _ e' := ⟨hx ▸ hp.record, fun c k' hk => hx ▸ hp.others c k' hk⟩
    exact .accounted hplaced
      ⟨(hb .steps).trans hs.steps, fun c => (hs.covers c).trans (hb c).ge, fun h h' => hrange (hs.inRange h h')⟩

theorem placed_put (hx : e₁.executions = e.executions) : Placed e k r (e₁.put k r) where
  record := put_get ..
  others c k' hk := by rw [put_get_ne e₁ r (Ne.symm hk), hx]

/-- What `account` does to the books. -/
theorem booking_account (hx : e₁.executions = e.executions) (hb : e₁.budget = e.budget) :
    Booking e (some k) false (some r)
      { e₁.put k r with budget := e₁.budget.syncRunTotals r.steps r.tokens r.costMicros } := by
  have hplaced := placed_put (k := k) (r := r) hx
  refine .accounted ⟨hplaced.record, hplaced.others⟩ ⟨rfl, fun c => ?_, fun h h' => ?_⟩
  · cases c with
    | steps => exact le_rfl
    | tokens => exact le_max_right ..
    | costMicros => exact le_max_right ..
  · rw [← hb] at h
    exact ⟨max_le h.1 h'.1, max_le h.2 h'.2⟩

/-! ### Operations and the books -/

/-- What the operation returns, as a record, is booked. -/
abbrev Books {α : Type} (e : AgentEngine) (target : Option String) (sliced : Bool) (read : α → Option ExecutionRecord)
    (p : EngineM α) : Prop :=
  p.Sat e fun res e' _ => Booking e target sliced (res.toOption.bind read) e'

/-- The books are as before. -/
def SameBooks (e e' : AgentEngine) : Prop := e'.executions = e.executions ∧ e'.budget = e.budget

theorem SameBooks.uncounted (h : SameBooks e e') : Uncounted e e' :=
  ⟨fun c k => by rw [h.1], .of_same fun c => by rw [h.2]⟩

theorem launch_same (stateJson : String) (budget : Option ℕ) :
    (launch codec k stateJson budget).Sat e fun _ e' _ => SameBooks e e' := by
  refine (launch_sat stateJson budget).mono fun _ _ _ h => ?_
  cases h with
  | refused => exact ⟨rfl, rfl⟩
  | failed _ _ _ _ => exact ⟨rfl, rfl⟩
  | recorded _ _ _ _ _ => exact ⟨rfl, rfl⟩

theorem proceed_same (budget : Option ℕ) (hitl : Bool) :
    (proceed codec k r cp budget hitl).Sat e fun _ e' _ => SameBooks e e' := by
  refine (proceed_sat r cp budget hitl).mono fun _ _ _ h => ?_
  cases h with
  | refused => exact ⟨rfl, rfl⟩
  | failed _ _ _ => exact ⟨rfl, rfl⟩
  | recorded _ _ _ _ => exact ⟨rfl, rfl⟩

/-- After a part that leaves the books as they are, a record is accounted, and something returned. -/
theorem books_account {α : Type} {p : EngineM ExecutionRecord} {read : α → Option ExecutionRecord}
    {finish : ExecutionRecord → EngineM α} (hp : p.Sat e fun _ e' _ => SameBooks e e')
    (hfinish : ∀ (record : ExecutionRecord) (e₁ : AgentEngine), (finish record).Sat e₁ fun res e' _ =>
      ∃ a r, res = .ok a ∧ read a = some r ∧ e'.executions = (e₁.put k r).executions ∧
        e'.budget = e₁.budget.syncRunTotals r.steps r.tokens r.costMicros) :
    Books e (some k) false read (p >>= finish) := by
  refine hp.bind (fun record e₁ _ h => ?_) fun _ _ _ h => .uncounted h.uncounted
  refine (hfinish record e₁).mono fun res e' _ h' => ?_
  obtain ⟨a, r, rfl, hread, hx, hb⟩ := h'
  have hbooking := (booking_account (k := k) (r := r) h.1 h.2).before hx fun c => by rw [hb]
  simpa [Except.toOption, hread] using hbooking

/-- Accounting a record does not fail. -/
theorem account_ok : (account k r).Sat e fun res e' _ => res = .ok () ∧
    e' = { e.put k r with budget := e.budget.syncRunTotals r.steps r.tokens r.costMicros } := by
  refine Method.sat_modify_bind.mpr ?_
  simp [install, AgentEngine.put]

/-- A record is accounted and returned. -/
theorem account_return : (do account k r; return r : EngineM ExecutionRecord).Sat e fun res e' _ =>
    ∃ a r', res = .ok a ∧ some a = some r' ∧ e'.executions = (e.put k r').executions ∧
      e'.budget = e.budget.syncRunTotals r'.steps r'.tokens r'.costMicros := by
  refine account_ok.bind (fun _ e' _ h => Method.sat_pure.mpr ?_) fun _ _ _ h => by cases h.1
  obtain ⟨-, rfl⟩ := h
  exact ⟨r, r, rfl, rfl, rfl, rfl⟩

theorem startExecution_books (stateJson : String) :
    Books e (some k) false some (startExecution codec k stateJson) := by
  refine Method.sat_read_bind.mpr (Method.Sat.ofExcept_bind (fun _ _ => ?_) fun _ _ => .uncounted (.refl e))
  exact books_account (launch_same stateJson none) fun record e₁ => account_return

theorem startWithBudget_books (stateJson : String) (n : ℕ) :
    Books e (some k) true some (startWithBudget codec k stateJson n) := by
  refine Method.sat_read_bind.mpr (Method.Sat.ofExcept_bind (fun _ _ => ?_) fun _ _ => .uncounted (.refl e))
  refine (launch_same stateJson (stepBudget n)).bind (fun record e₁ _ h => ?_) fun _ _ _ h => .uncounted h.uncounted
  refine Method.sat_modify_bind.mpr (Method.sat_pure.mpr ?_)
  exact .installed (placed_put h.1) h.2

theorem acceptHandoff_books (envelopeJson stateJson parentJson : String) :
    Books e (some k) false (fun p => some p.1) (acceptHandoff codec k envelopeJson stateJson parentJson) := by
  refine Method.sat_read_bind.mpr (Method.Sat.ofExcept_bind (fun _ _ => ?_) fun _ _ => .uncounted (.refl e))
  refine Method.Sat.ofExcept_bind (fun d _ => ?_) fun _ _ => .uncounted (.refl e)
  refine Method.Sat.ofExcept_bind (fun parent _ => ?_) fun _ _ => .uncounted (.refl e)
  refine Method.Sat.ofExcept_bind (fun envelope _ => ?_) fun _ _ => .uncounted (.refl e)
  refine Method.Sat.ofExcept_bind (fun _ _ => ?_) fun _ _ => .uncounted (.refl e)
  refine books_account (launch_same stateJson none) fun record e₁ => ?_
  refine account_ok.bind (fun _ e' _ h => ?_) fun _ _ _ h => by cases h.1
  obtain ⟨-, rfl⟩ := h
  exact Method.sat_modify_bind.mpr (Method.sat_pure.mpr ⟨_, _, rfl, rfl, rfl, rfl⟩)

theorem step_books (n : ℕ) : Books e (some k) false some (step codec k n) := by
  refine (existing_sat k).bind (fun r e₁ _ h => ?_) fun _ _ _ h => .uncounted (h.1 ▸ .refl _)
  obtain ⟨rfl, -, -⟩ := h
  refine Method.Sat.ofExcept_bind (fun _ _ => ?_) fun _ _ => .uncounted (.refl _)
  refine Method.sat_read_bind.mpr (Method.sat_bind.mpr ?_)
  refine sat_consult.mpr ⟨fun cp _ => ?_, fun _ _ => .uncounted (.refl _)⟩
  exact books_account (proceed_same (stepBudget n) false) fun record e₁ => account_return

theorem resume_books : Books e (some k) false some (resume codec k) := by
  refine (existing_sat k).bind (fun r e₁ _ h => ?_) fun _ _ _ h => .uncounted (h.1 ▸ .refl _)
  obtain ⟨rfl, -, -⟩ := h
  refine Method.sat_read_bind.mpr (Method.sat_bind.mpr ?_)
  refine sat_consult.mpr ⟨fun cp _ => ?_, fun _ _ => .uncounted (.refl _)⟩
  exact books_account (proceed_same none r.awaitsHuman) fun record e₁ => account_return

/-- Keeping the result of an effect counts nothing. -/
theorem uncounted_cache {cache : Std.ExtTreeMap String Json} (hr : e.executions[k]? = some r) :
    Uncounted e (e.put k { r with effectCache := cache }) := by
  refine ⟨fun c k' => ?_, .refl _⟩
  by_cases hk : k = k'
  · subst hk
    rw [put_get, hr]
    rfl
  · rw [put_get_ne _ _ hk]

theorem injectEffectAndResume_books (effect : String) (value : Json) :
    Books e (some k) false some (injectEffectAndResume codec k effect value) := by
  refine (existing_sat k).bind (fun r e₁ _ h => ?_) fun _ _ _ h => .uncounted (h.1 ▸ .refl _)
  obtain ⟨rfl, -, hr⟩ := h
  refine Method.Sat.ofExcept_bind (fun _ _ => ?_) fun _ _ => .uncounted (.refl _)
  refine Method.Sat.ofExcept_bind (fun _ _ => ?_) fun _ _ => .uncounted (.refl _)
  refine Method.Sat.ofExcept_bind (fun _ _ => ?_) fun _ _ => .uncounted (.refl _)
  refine Method.sat_modify_bind.mpr (resume_books.mono fun res e' _ h => ?_)
  exact h.after (uncounted_cache (hr r rfl))

/-- Spending that only raises the counters, and what follows. -/
theorem books_spend {α : Type} {read : α → Option ExecutionRecord} {f : AgentEngine → HostBudgetTracker}
    {p : Unit → EngineM α} (hf : ∀ e, Raised e.budget (f e)) (hp : ∀ e, Books e target false read (p ())) :
    Books e target false read (Method.modify (fun e => { e with budget := f e }) >>= p) := by
  have hspent : Uncounted e { e with budget := f e } := ⟨fun _ _ => rfl, hf e⟩
  exact Method.sat_modify_bind.mpr ((hp _).mono fun _ _ _ h => h.after hspent)

/-- The same record, wrapped. -/
theorem Books.wrap {α β : Type} {read : α → Option ExecutionRecord} {read' : β → Option ExecutionRecord} {sliced : Bool}
    {p : EngineM α} {g : α → β} (h : Books e target sliced read p) (hg : ∀ a, read' (g a) = read a) :
    Books e target sliced read' (do return g (← p)) := by
  refine Method.sat_bind.mpr (h.mono fun res e' _ h => ?_)
  cases res with
  | ok a => exact Method.sat_pure.mpr (by simpa [Except.toOption, hg] using h)
  | error _ => exact h

theorem finishRetrieval_books (result : RetrievalResultV1) :
    Books e (some k) false some (finishRetrieval codec k result) :=
  books_spend (fun e => raised_noteRetrieval e.budget 5) fun _ => injectEffectAndResume_books _ _

theorem noteCycles_same (reading : CycleReading) :
    (noteCycles reading).Sat e fun res e' _ => res = .ok () ∧ e'.executions = e.executions ∧
      ∀ c : Counter, c.ofBudget e'.budget = c.ofBudget e.budget := by
  unfold noteCycles
  split
  · exact Method.sat_modify.mpr ⟨rfl, rfl, fun c => by cases c <;> rfl⟩
  · exact Method.sat_pure.mpr ⟨rfl, rfl, fun _ => rfl⟩

theorem atDesk_ledger {α : Type}
    {p : Method (ToolRegistry.Desk HostTool) (ToolRegistry.GateEvent HostTool) CoreError Abort α} :
    (atDesk p).Sat e fun _ e' _ => Uncounted e e' := by
  intro r hr
  unfold atDesk at hr
  split at hr
  · cases hr
    exact ⟨fun _ _ => rfl, .of_same fun c => by cases c <;> rfl⟩
  · cases hr

/-- Running a tool counts nothing of the execution. -/
theorem runToolForPending_uncounted : (runToolForPending codec k).Sat e fun _ e' _ => Uncounted e e' := by
  refine (existing_sat k).bind (fun r e₁ _ h => ?_) fun _ _ _ h => h.1 ▸ .refl _
  obtain ⟨rfl, -, -⟩ := h
  refine Method.Sat.ofExcept_bind (fun _ _ => ?_) fun _ _ => .refl _
  refine Method.sat_read_bind.mpr (atDesk_ledger.bind (fun result e₂ _ h => ?_) fun _ _ _ h => h)
  refine Method.sat_modify_bind.mpr (Method.sat_pure.mpr (h.trans ⟨fun _ _ => rfl, .of_same fun c => ?_⟩))
  cases c <;> rfl

/-- A part that counts nothing, and what follows. -/
theorem books_after {α β : Type} {read : β → Option ExecutionRecord} {p : EngineM α} {f : α → EngineM β}
    (hp : p.Sat e fun _ e' _ => Uncounted e e') (hf : ∀ a e₁, Books e₁ target false read (f a)) :
    Books e target false read (p >>= f) :=
  hp.bind (fun a e₁ _ h => (hf a e₁).mono fun _ _ _ h' => h'.after h) fun _ _ _ h => .uncounted h

theorem settled_books {p : EngineM ExecutionRecord} (h : Books e target false some p) :
    Books e target false Resolution.record (do return .settled (some (← p))) :=
  h.wrap fun _ => rfl

theorem resolveEffect_books : Books e (some k) false Resolution.record (resolveEffect codec principal k) := by
  refine (existing_sat k).bind (fun r e₁ _ h => ?_) fun _ _ _ h => .uncounted (h.1 ▸ .refl _)
  obtain ⟨rfl, -, -⟩ := h
  have hnothing : ∀ {e : AgentEngine} {resolution : Resolution}, resolution.record = none →
      Books e (some k) false Resolution.record (pure resolution) := by
    intro e resolution h
    refine Method.sat_pure.mpr ?_
    simp only [Except.toOption, Option.bind_some, h]
    exact .uncounted (.refl e)
  by_cases hs : r.statusKind ≠ "suspended"
  · simp only [if_pos hs]
    exact hnothing rfl
  · simp only [if_neg hs]
    refine books_spend (fun e => .of_same fun c => by cases c <;> rfl) fun e₂ => ?_
    split
    · exact hnothing rfl
    · exact books_after runToolForPending_uncounted fun value e₃ => settled_books (injectEffectAndResume_books _ _)
    · refine Method.sat_read_bind.mpr ?_
      split
      · split
        · exact settled_books (finishRetrieval_books _)
        · exact Method.Sat.ofExcept_bind (fun _ _ => hnothing rfl) fun _ _ => .uncounted (.refl _)
      · exact settled_books (finishRetrieval_books _)
    · exact settled_books (step_books 1)
    · exact hnothing rfl

theorem resolveOneEffect_books (reading : CycleReading) :
    Books e (some k) false Resolution.record (resolveOneEffect codec principal k reading) := by
  refine resolveEffect_books.bind (fun resolution e₁ _ h => ?_) fun _ _ _ h => h
  split
  · refine (noteCycles_same reading).bind (fun _ e₂ _ h' => Method.sat_pure.mpr (h.before h'.2.1 h'.2.2))
      fun _ _ _ h' => by cases h'.1
  · exact Method.sat_pure.mpr h

theorem finishEffect_books (answer : HostReply) (reading : CycleReading) :
    Books e (some k) false some (finishEffect codec k answer reading) := by
  have hreply : Books e (some k) false some (finishReply codec k answer) := by
    cases answer with
    | prompted text => exact books_spend (fun e => raised_noteLlm e.budget _ _) fun _ => injectEffectAndResume_books _ _
    | found hits => exact finishRetrieval_books _
    | rejected message => exact Method.sat_ofExcept.mpr (.uncounted (.refl e))
  refine hreply.bind (fun record e₁ _ h => ?_) fun _ _ _ h => h
  refine (noteCycles_same reading).bind (fun _ e₂ _ h' => Method.sat_pure.mpr (h.before h'.2.1 h'.2.2))
    fun _ _ _ h' => by cases h'.1

/-- Loading a definition drops all executions, and empties the budget. -/
theorem loadDefinition_resets (json : String) : (loadDefinition codec json).Sat e fun res e' _ =>
    (∀ message, res = .ok message → e'.executions = ∅ ∧ e'.store = .empty ∧ e'.budget = .empty) ∧
      ∀ target, Booking e target false none e' := by
  refine Method.Sat.ofExcept_bind (fun d _ => ?_) fun _ _ => ⟨nofun, fun _ => .uncounted (.refl e)⟩
  refine Method.sat_modify_bind.mpr (Method.sat_pure.mpr ⟨fun _ _ => ⟨rfl, rfl, rfl⟩, fun _ => .reset rfl ?_⟩)
  exact ⟨Nat.zero_le _, Nat.zero_le _⟩

/-- A call that brings no record. -/
theorem books_silent {α : Type} {p : EngineM α} (h : p.Sat e fun _ e' _ => Booking e target false none e') :
    Books e target false id (do let _ ← (do let _ ← p); return none) := by
  have hdrop : (do let _ ← p : EngineM Unit).Sat e fun _ e' _ => Booking e target false none e' :=
    h.bind (fun _ _ _ h => Method.sat_pure.mpr h) fun _ _ _ h => h
  exact hdrop.bind (fun _ _ _ h => Method.sat_pure.mpr h) fun _ _ _ h => h

theorem Call.bring_books (c : Call) :
    Books e c.target (Operation.sliced (.call c)) id (c.bring codec) := by
  cases c with
  | loadDefinition json => exact books_silent ((loadDefinition_resets json).mono fun _ _ _ h => h.2 _)
  | clearDefinition =>
    refine books_silent (Method.sat_read_bind.mpr (Method.sat_modify_bind.mpr (Method.sat_pure.mpr (.reset rfl ?_))))
    exact ⟨Nat.zero_le _, Nat.zero_le _⟩
  | setLimits limits =>
    have h : (Icp.setLimits limits).Sat e fun _ e' _ => Uncounted e e' := by
      refine Method.Sat.ofExcept_bind (fun _ _ => ?_) fun _ _ => .refl e
      refine Method.Sat.ofExcept_bind (fun _ _ => ?_) fun _ _ => .refl e
      exact Method.sat_modify.mpr ⟨fun _ _ => rfl, .refl _⟩
    exact h.bind (fun _ _ _ h => Method.sat_pure.mpr (.uncounted h)) fun _ _ _ h => .uncounted h
  | startExecution k state => exact (startExecution_books state).wrap fun _ => rfl
  | startWithBudget k state n => exact (startWithBudget_books state n).wrap fun _ => rfl
  | acceptHandoff k envelope state parent => exact (acceptHandoff_books envelope state parent).wrap fun _ => rfl
  | step k n => exact (step_books n).wrap fun _ => rfl
  | resume k => exact resume_books.wrap fun _ => rfl
  | injectEffectAndResume k effect value => exact (injectEffectAndResume_books effect value).wrap fun _ => rfl
  | runToolForPending k => exact books_silent (runToolForPending_uncounted.mono fun _ _ _ h => .uncounted h)

/-- **An operation does nothing else to the books.** -/
theorem Operation.books (o : Operation) : Books e o.target o.sliced id (o.bring codec principal) := by
  cases o with
  | call c => exact c.bring_books
  | resolve k reading => exact (resolveOneEffect_books reading).wrap fun _ => rfl
  | reply k answer reading => exact (finishEffect_books answer reading).wrap fun _ => rfl
  | forward h =>
    exact Method.sat_modify_bind.mpr (Method.sat_pure.mpr (.uncounted ⟨fun _ _ => rfl, .refl _⟩))

theorem Does.wrap {α β : Type} {c : Call} {p : EngineM α} {g : α → β} (h : Does codec c e p) :
    Does codec c e (do return g (← p)) := by
  refine Method.sat_bind.mpr (h.mono fun res _ _ h => ?_)
  cases res with
  | ok _ => exact Method.sat_pure.mpr (by simpa using h)
  | error _ => exact h

/-- Bringing the record of a call is calling it. -/
theorem Call.bring_does (c : Call) : Does codec c e (c.bring codec) := by
  cases c with
  | startExecution k state => exact (startExecution_does state).wrap
  | startWithBudget k state n => exact (startWithBudget_does state n).wrap
  | acceptHandoff k envelope state parent => exact (acceptHandoff_does envelope state parent).wrap
  | step k n => exact (step_does n).wrap
  | resume k => exact resume_does.wrap
  | injectEffectAndResume k effect value => exact (injectEffectAndResume_does effect value).wrap
  | loadDefinition _ | clearDefinition | setLimits _ | runToolForPending _ =>
    exact Does.wrap (g := fun _ => none) (perform_transition _)

/-- An operation keeps the counters in range. -/
theorem Operation.ranged (o : Operation) : Method.Keeps Ranged (o.bring codec principal) := by
  cases o with
  | call c => exact fun e he => c.bring_does.mono fun _ _ _ h => h.ranged he
  | resolve k reading => exact (ranged_robust.resolveOneEffect reading).bind fun _ => Method.keeps_pure _
  | reply k answer reading => exact (ranged_robust.finishEffect answer reading).bind fun _ => Method.keeps_pure _
  | forward h =>
    exact (Method.keeps_modify fun e he => ⟨he.record, he.store⟩).bind fun _ => Method.keeps_pure _

/-! ### Runs -/

/-- The books are in order: the counters are in range, and the budget covers the executions. -/
structure Balanced (e : AgentEngine) : Prop where
  ranged : Ranged e
  budget : e.budget.InRange
  covers : Covers e

/-- **The step lemma**: what brings no record, or the record of an execution that alone counts, keeps
the books in order. -/
theorem Booking.balanced {sliced : Bool} (h : Booking e target sliced brought e') (hb : Balanced e) (hr : Ranged e')
    (halone : brought ≠ none → sliced = false ∧ ∀ (k : String) (r : ExecutionRecord), e.executions[k]? = some r →
      target ≠ some k → r.Idle) : Balanced e' := by
  cases h with
  | reset hx hbudget =>
    refine ⟨hr, hbudget, fun c => ?_⟩
    rw [hx, tally_empty]
    exact Nat.zero_le _
  | uncounted h =>
    obtain ⟨hbudget, hle⟩ := h.raised hb.budget
    refine ⟨hr, hbudget, fun c => ?_⟩
    rw [tally_congr (h.counters c)]
    exact (hb.covers c).trans (hle c)
  | installed _ _ => cases (halone (by simp)).1
  | @accounted _ k r hp hs =>
    obtain ⟨-, hidle⟩ := halone (by simp)
    refine ⟨hr, hs.inRange hb.budget (hr.record k r hp.record).counters, fun c => ?_⟩
    refine tally_le_of_alone (k := k) (fun a ha => ?_) fun k' a ha hk => ?_
    · obtain rfl : r = a := Option.some.inj (hp.record.symm.trans ha)
      exact hs.covers c
    · have hsame := hp.others c k' hk
      rw [ha] at hsame
      obtain ⟨r₀, hr₀, hcount⟩ := Option.map_eq_some_iff.mp hsame.symm
      refine hcount.symm.trans ?_
      exact hidle k' r₀ hr₀ (fun h => hk (Option.some.inj h).symm) c

/-- An operation that is alone keeps the books in order. -/
theorem Operation.Alone.balanced {o : Operation} (h : o.Alone codec principal e) (hb : Balanced e) :
    (o.perform codec principal).Sat e fun _ e' _ => Balanced e' := by
  have hbring : (o.bring codec principal).Sat e fun _ e' _ => Balanced e' := by
    intro r hr
    refine (o.books r hr).balanced hb (o.ranged e hb.ranged r hr) fun hsome => ?_
    apply h
    obtain ⟨record, hrecord⟩ := Option.ne_none_iff_exists'.mp hsome
    obtain ⟨_, hresult, rfl⟩ := Option.bind_eq_some_iff.mp hrecord
    exact ⟨r, record, hr, toOption_eq_some.mp hresult⟩
  exact hbring.bind (fun _ _ _ h => Method.sat_pure.mpr h) fun _ _ _ h => h

/-- **The budget covers the executions in every run in which one alone counts**: whenever an operation
brings a record, it is no sliced start, and all other executions have counted nothing. -/
theorem covers_of_alone (codec : Codec) (principal : String → Except String String) {json message : String}
    {e₀ e : AgentEngine} {log : List SchedulerRun}
    (hload : loadDefinition codec json e₀ = .ok { result := .ok message, state := e, log }) (ops : List Operation)
    (halone : ∀ pre o post, ops = pre ++ o :: post →
      o.Alone codec principal ((sessionFrom e).run (Operation.perform codec principal) pre).state)
    (pre post : List Operation) (hops : ops = pre ++ post) :
    Covers ((sessionFrom e).run (Operation.perform codec principal) pre).state := by
  have hreset : e.executions = ∅ ∧ e.store = .empty ∧ e.budget = .empty :=
    (loadDefinition_resets json _ hload).1 message rfl
  obtain ⟨hx, hstore, hbudget⟩ := hreset
  have hstart : Balanced e := by
    refine ⟨⟨fun k r hr => by simp [hx] at hr, fun id cp hcp => ?_⟩, ?_, fun c => ?_⟩
    · simp [hstore, InMemoryCheckpointStore.load, InMemoryCheckpointStore.empty] at hcp
    · rw [hbudget]
      exact ⟨Nat.zero_le _, Nat.zero_le _⟩
    · rw [hx, tally_empty]
      exact Nat.zero_le _
  have hrun : Balanced ((sessionFrom e).run (Operation.perform codec principal) pre).state := by
    refine Session.run_induct (I := fun _ s => Balanced s.state) hstart pre fun pre' o post' hpre ih => ?_
    refine Session.after_of_sat (T := fun e' _ => Balanced e') (Operation.Alone.balanced ?_ ih) ih
    exact halone pre' o (post' ++ post) (by rw [hops, hpre, List.append_assoc, List.cons_append])
  exact hrun.covers

/-- A start of an execution of two nodes. -/
def abStart (k : String) : Operation := .call (.startExecution k (Sample.stateText abValue))

/-- An execution of two nodes in an engine that has just loaded its definition: its budget covers it
before it is resumed, and after. -/
theorem covers_of_alone_ab : ∃ e message log,
    loadDefinition abCodec abSample.text .default = .ok { result := .ok message, state := e, log } ∧
      Covers ((sessionFrom e).run (Operation.perform abCodec .ok) [abStart "e", .call (.resume "e")]).state := by
  have h : ((loadDefinition abCodec abSample.text .default).toOption.bind fun x => x.result.toOption.map fun _ =>
      (x.state.executions.isEmpty && decide (((sessionFrom x.state).run (Operation.perform abCodec .ok)
        [abStart "e"]).state.executions.keys = ["e"]))) = some true := by
    decide +kernel
  obtain ⟨⟨res, e, log⟩, hload, h⟩ := Option.bind_eq_some_iff.mp h
  obtain ⟨message, hres, h⟩ := Option.map_eq_some_iff.mp h
  obtain rfl : res = .ok message := toOption_eq_some.mp hres
  obtain ⟨hempty, hkeys⟩ := Bool.and_eq_true_iff.mp h
  have hload := toOption_eq_some.mp hload
  refine ⟨e, message, log, hload, ?_⟩
  refine covers_of_alone abCodec .ok hload [abStart "e", .call (.resume "e")] (fun pre o post hsplit _ => ?_) _ []
    (List.append_nil _).symm
  rcases pre with _ | ⟨o₁, _ | ⟨o₂, pre⟩⟩
  · cases hsplit
    refine ⟨rfl, fun k r hr _ => ?_⟩
    have hr : e.executions[k]? = some r := hr
    rw [Std.ExtTreeMap.isEmpty_iff.mp hempty] at hr
    simp at hr
  · cases hsplit
    refine ⟨rfl, fun k r hr hk => ?_⟩
    have hmem := Std.ExtTreeMap.mem_keys.mpr (Std.ExtTreeMap.mem_iff_isSome_getElem?.mpr (Option.isSome_of_eq_some hr))
    have hkeys : ((sessionFrom e).run (Operation.perform abCodec .ok) [abStart "e"]).state.executions.keys = ["e"] :=
      of_decide_eq_true hkeys
    have hk' : k ∈ ["e"] := hkeys ▸ hmem
    rw [List.mem_singleton.mp hk'] at hk
    exact absurd rfl hk
  · have hlength := congrArg List.length hsplit
    simp at hlength

/-- **Where two executions have counted steps, the budget does not cover them**: it takes over the steps
of the record that was brought, whatever the others have counted. -/
theorem Operation.not_covers {o : Operation}
    {res : Returned AgentEngine SchedulerRun CoreError (Option ExecutionRecord)} {k' : String} {r' : ExecutionRecord}
    (h : o.bring codec principal e = .ok res) (hr : res.result = .ok (some r)) (hsliced : o.sliced = false)
    (hr' : e.executions[k']? = some r') (hk : o.target ≠ some k') (hsteps : 0 < r'.steps) : ¬ Covers res.state := by
  intro hc
  have hbooking := o.books res h
  rw [hr, hsliced] at hbooking
  generalize o.target = target at hbooking hk
  cases hbooking with
  | @accounted _ k _ hp hs =>
    have hne : k' ≠ k := fun h => hk (congrArg some h.symm)
    have hsame := hp.others .steps k' hne
    rw [hr'] at hsame
    obtain ⟨a, ha, hcount⟩ := Option.map_eq_some_iff.mp hsame
    have hcount : a.steps = r'.steps := hcount
    have hsum := add_le_tally (f := fun r => Counter.steps.ofRecord r) hp.record ha (Ne.symm hne)
    have hle := hsum.trans (hc .steps)
    have hbudget : Counter.steps.ofBudget res.state.budget = r.steps := hs.steps
    simp only [hbudget, Counter.ofRecord] at hle
    omega

/-- Two executions of two nodes: four steps, of which the budget counts two. -/
theorem second_start_undercounts :
    ¬ ∀ (codec : Codec) (principal : String → Except String String) (json message : String) (e₀ e : AgentEngine)
      (log : List SchedulerRun), loadDefinition codec json e₀ = .ok { result := .ok message, state := e, log } →
      ∀ ops : List Operation, Covers ((sessionFrom e).run (Operation.perform codec principal) ops).state := by
  intro hall
  have h : ((loadDefinition abCodec abSample.text .default).toOption.bind fun x => x.result.toOption.map fun _ =>
      let e := ((sessionFrom x.state).run (Operation.perform abCodec .ok) [abStart "e1", abStart "e2"]).state
      (e.executions.toList.map fun kr => kr.2.steps, e.budget.snapshot.knoloSteps)) = some ([2, 2], 2) := by
    decide +kernel
  obtain ⟨⟨res, e, log⟩, hload, h⟩ := Option.bind_eq_some_iff.mp h
  obtain ⟨message, hres, h⟩ := Option.map_eq_some_iff.mp h
  obtain rfl : res = .ok message := toOption_eq_some.mp hres
  obtain ⟨hsteps, hbudget⟩ := Prod.mk.inj h
  have hc := hall abCodec .ok _ _ _ _ _ (toOption_eq_some.mp hload) [abStart "e1", abStart "e2"] .steps
  have hle : [2, 2].sum ≤ 2 := hsteps ▸ hbudget ▸ hc
  exact absurd hle (by decide)

end Knolo.Icp
