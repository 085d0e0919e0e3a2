import Knolo.Runtime.Invariant
import Knolo.Runtime.Surroundings
import Mathlib.Algebra.GroupWithZero.Nat

/-!
# What a run charges

A run charges the executions that complete a node. An attempt that fails and may be
retried is called, and may report tokens and a cost, but is never charged: not when it
is retried, and not when its retries are used up.

* `Charges` — the invariant: the counters are the saturating sums over the executions
  that completed a node.
* `accounting` — so a run accounts for all its calls when its retryable failures report
  nothing; and a report whose sums did not saturate accounts for them only then.
* `retry_not_charged` — a run that does not.
-/

namespace Knolo.Runtime

open Core Library Library.Fallible Library.Prog

/-! ### Executions and their sums -/

/-- The executions the executor reported. -/
def answered (obs : List Observation) : List NodeExecutionV1 :=
  (executions obs).filterMap fun
    | (_, .ok x) => some x
    | (_, .error _) => none

/-- May the failure of an execution be retried? -/
def retryable (x : NodeExecutionV1) : Bool := x.outcome.retryableError.isSome

/-- The executions that failed in a way that may be retried. -/
def uncharged (obs : List Observation) : List NodeExecutionV1 := (answered obs).filter retryable

/-- The executions that completed a node. -/
def charged (obs : List Observation) : List NodeExecutionV1 :=
  (answered obs).filter fun x => !retryable x

section Projections

variable (obs obs' : List Observation)

@[simp] theorem answered_append : answered (obs ++ obs') = answered obs ++ answered obs' := by
  simp [answered]
@[simp] theorem answered_nil : answered [] = [] := rfl
@[simp] theorem answered_emitted (e : ExecutionEventV1) : answered (.emitted e :: obs) = answered obs := rfl
@[simp] theorem answered_saved (cp : CheckpointV1) : answered (.saved cp :: obs) = answered obs := rfl
@[simp] theorem answered_map (es : List ExecutionEventV1) : answered (es.map .emitted) = [] := by
  simp [answered]
@[simp] theorem answered_ok (r : NodeRequest) (x : NodeExecutionV1) :
    answered (.executed r (.ok x) :: obs) = x :: answered obs := rfl
@[simp] theorem answered_error (r : NodeRequest) (e : CoreError) :
    answered (.executed r (.error e) :: obs) = answered obs := rfl

@[simp] theorem charged_append : charged (obs ++ obs') = charged obs ++ charged obs' := by
  simp [charged]
@[simp] theorem uncharged_append : uncharged (obs ++ obs') = uncharged obs ++ uncharged obs' := by
  simp [uncharged]

@[simp] theorem charged_nil : charged [] = [] := rfl
@[simp] theorem charged_emitted (e : ExecutionEventV1) : charged (.emitted e :: obs) = charged obs := rfl
@[simp] theorem charged_saved (cp : CheckpointV1) : charged (.saved cp :: obs) = charged obs := rfl
@[simp] theorem charged_map (es : List ExecutionEventV1) : charged (es.map .emitted) = [] := by
  simp [charged]
@[simp] theorem charged_retryable {r : NodeRequest} {x : NodeExecutionV1} {err : String}
    (h : x.outcome.retryableError = some err) : charged (.executed r (.ok x) :: obs) = charged obs := by
  simp [charged, retryable, h]
@[simp] theorem charged_done {r : NodeRequest} {x : NodeExecutionV1}
    (h : x.outcome.retryableError = none) :
    charged (.executed r (.ok x) :: obs) = x :: charged obs := by
  simp [charged, retryable, h]

end Projections

/-- The sum of `f` over executions. -/
def total (f : NodeExecutionV1 → ℕ) (xs : List NodeExecutionV1) : ℕ := (xs.map f).sum

@[simp] theorem total_nil (f : NodeExecutionV1 → ℕ) : total f [] = 0 := rfl

@[simp] theorem total_append (f : NodeExecutionV1 → ℕ) (xs ys : List NodeExecutionV1) :
    total f (xs ++ ys) = total f xs + total f ys := by
  simp [total]

@[simp] theorem total_singleton (f : NodeExecutionV1 → ℕ) (x : NodeExecutionV1) :
    total f [x] = f x := by
  simp [total]

/-- Every execution either completed a node or may be retried. -/
theorem total_answered (f : NodeExecutionV1 → ℕ) (obs : List Observation) :
    total f (answered obs) = total f (charged obs) + total f (uncharged obs) := by
  unfold charged uncharged
  induction answered obs with
  | nil => rfl
  | cons x xs ih =>
    cases hx : retryable x <;> simp [total, hx] at ih ⊢ <;> omega

theorem total_eq_zero {f : NodeExecutionV1 → ℕ} {xs : List NodeExecutionV1} :
    total f xs = 0 ↔ ∀ x ∈ xs, f x = 0 := by
  induction xs with
  | nil => simp
  | cons x xs ih =>
    simp only [total, List.map_cons, List.sum_cons, List.forall_mem_cons] at ih ⊢
    rw [Nat.add_eq_zero_iff, ih]

/-- Charging saturates once, at the end. -/
theorem satAdd_min (a b c : ℕ) : satAdd (min (a + b) u64Max) c = min (a + (b + c)) u64Max := by
  unfold satAdd
  omega

/-! ### The invariant of the counters -/

/-- The counters are the saturating sums over the executions that completed a node. -/
structure Charges (start : RunState) (obs : List Observation) (tokens cost : ℕ) : Prop where
  tokens : tokens = min (start.tokens + total (·.tokens) (charged obs)) u64Max
  cost : cost = min (start.cost + total (·.costMicros) (charged obs)) u64Max

theorem Charges.charge {start : RunState} {obs obs' : List Observation} {u : RunState} {x : NodeExecutionV1}
    (h : Charges start obs u.tokens u.cost) (hx : charged obs' = [x]) :
    Charges start (obs ++ obs') (u.charge x).tokens (u.charge x).cost := by
  refine ⟨?_, ?_⟩
  · simp only [RunState.charge_tokens, h.tokens, satAdd_min, charged_append, hx, total_append,
      total_singleton]
  · simp only [RunState.charge_cost, h.cost, satAdd_min, charged_append, hx, total_append,
      total_singleton]

theorem Charges.quiet {start : RunState} {obs obs' : List Observation} {tokens cost : ℕ}
    (h : Charges start obs tokens cost) (hx : charged obs' = []) :
    Charges start (obs ++ obs') tokens cost := by
  refine ⟨?_, ?_⟩
  · simpa [hx] using h.tokens
  · simpa [hx] using h.cost

namespace Scheduler

variable {sch : Scheduler} {id : ExecutionId} {s u : RunState} {obs : List Observation}

theorem Retried.charged {n : ℕ} (h : sch.Retried id s n obs u) : charged obs = [] := by
  induction h with
  | start => rfl
  | again _ hx _ ih => simp [ih, hx]

theorem Executed.charged {x : NodeExecutionV1} (h : sch.Executed id s obs u x) :
    charged obs = [x] := by
  cases h with
  | last h _ hx => simp [h.charged, hx]

theorem Exhausted.charged {err : String} (h : sch.Exhausted id s obs u err) : charged obs = [] := by
  cases h with
  | last h _ hx => simp [h.charged, hx]

/-- A completed node charges its execution. -/
theorem Completed.charges {start w : RunState} {dec : Decision} {obs obs' : List Observation}
    (h : sch.Completed id s obs' w dec) (hs : Charges start obs s.tokens s.cost) :
    Charges start (obs ++ obs') w.tokens w.cost := by
  cases h with
  | @mk d obs₁ _ obs₃ u v _ x _ hd hx ha hdec hv hw =>
    obtain ⟨es, rfl, -, -⟩ := hv.numbered
    obtain ⟨es', rfl, -, -⟩ := hw.numbered
    obtain ⟨state, rfl⟩ := hv.eq_after
    obtain rfl := hw.eq_after
    have hc := hs.charge (u := s) hx.charged
    obtain rfl := hx.eq_after
    simpa using (hc.quiet (charged_map es)).quiet (charged_map es')

/-- **The step lemma**: a turn that goes on keeps the counters, within the budgets. -/
theorem Turn.charges {start v : RunState} {obs obs' : List Observation}
    (hs : Charges start obs u.tokens u.cost) (h : sch.Turn id u obs' (.ok (.inl v))) :
    Charges start (obs ++ obs') v.tokens v.cost ∧ sch.Afforded v := by
  cases h with
  | @goesOn obs' w dec pending t h _ _ =>
    have hnone : charged [.emitted (w.nodeEvent id .checkpointed t),
        .saved (sch.checkpointOf id pending (w.seq + 1) w)] = [] := rfl
    have hc := (h.charges hs).quiet hnone
    have ha := h.completion.afforded
    exact ⟨by simpa [RunState.noted_eq_after] using hc, ⟨ha.tokens, ha.cost⟩⟩

/-- The counters of a report. -/
theorem Turn.charges_report {start : RunState} {obs obs' : List Observation}
    {report : ExecutionReportV1} (hs : Charges start obs u.tokens u.cost)
    (h : sch.Turn id u obs' (.ok (.inr report))) :
    Charges start (obs ++ obs') report.tokens report.costMicros := by
  cases h with
  | refused hv _ =>
    rcases hv with rfl | rfl <;> exact hs.quiet rfl
  | exhausted _ h =>
    obtain ⟨-, -, rfl⟩ := h.quiet
    exact hs.quiet h.charged
  | @overBudget _ obs' v x msg t _ hx =>
    have hnone : charged [.emitted ((v.charge x).nodeEvent id (.failed msg) t)] = [] := rfl
    have hc := (hs.charge hx.charged).quiet hnone
    obtain rfl := hx.eq_after
    simpa [RunState.report, RunState.noted_eq_after] using hc
  | ended h _ => exact h.charges hs

/-- **The run lemma**: turns keep the counters, and never leave the budgets. -/
theorem Turns.charges {start : RunState} {obs obs' : List Observation}
    (hs : Charges start obs s.tokens s.cost) (ha : sch.Afforded s) (h : sch.Turns id s obs' u) :
    Charges start (obs ++ obs') u.tokens u.cost ∧ sch.Afforded u := by
  induction h with
  | start => exact ⟨by simpa using hs, ha⟩
  | step _ ht ih => simpa using ht.charges ih.1

/-- Turns keep the counters in the range of their type. -/
theorem Turns.ranges (hs : s.tokens ≤ u64Max ∧ s.cost ≤ u64Max) (h : sch.Turns id s obs u) :
    u.tokens ≤ u64Max ∧ u.cost ≤ u64Max := by
  cases h with
  | start => exact hs
  | step _ ht =>
    cases ht with
    | goesOn h _ _ => exact h.completion.ranges

/-- The last turn reports counters in the range of their type. -/
theorem Turn.ranges_report {report : ExecutionReportV1} (hs : s.tokens ≤ u64Max ∧ s.cost ≤ u64Max)
    (h : sch.Turn id s obs (.ok (.inr report))) : report.tokens ≤ u64Max ∧ report.costMicros ≤ u64Max := by
  have hc : Charges s [] s.tokens s.cost := ⟨by simp [hs.1], by simp [hs.2]⟩
  have hr := h.charges_report hc
  exact ⟨hr.tokens ▸ min_le_right .., hr.cost ▸ min_le_right ..⟩

end Scheduler

/-! ### Calls within the budgets -/

/-- The saturating sum of `f` over all executions among `obs`, on top of `start`. -/
def spent (f : NodeExecutionV1 → ℕ) (start : ℕ) (obs : List Observation) : ℕ :=
  min (start + total f (answered obs)) u64Max

/-- Every execution that failed in a way that may be retried reported nothing. -/
def FreeRetries (obs : List Observation) : Prop :=
  ∀ x ∈ uncharged obs, x.tokens = 0 ∧ x.costMicros = 0

instance (obs : List Observation) : Decidable (FreeRetries obs) :=
  inferInstanceAs (Decidable (∀ x ∈ uncharged obs, x.tokens = 0 ∧ x.costMicros = 0))

theorem FreeRetries.left {obs obs' : List Observation} (h : FreeRetries (obs ++ obs')) :
    FreeRetries obs := fun x hx => h x (by simp [hx])

/-- Without a cost of retries, what is spent is what is charged. -/
theorem Charges.spent {start : RunState} {obs : List Observation} {tokens cost : ℕ}
    (h : Charges start obs tokens cost) (hf : FreeRetries obs) :
    tokens = spent (·.tokens) start.tokens obs ∧ cost = spent (·.costMicros) start.cost obs := by
  have ht : total (·.tokens) (uncharged obs) = 0 := total_eq_zero.mpr fun x hx => (hf x hx).1
  have hc : total (·.costMicros) (uncharged obs) = 0 := total_eq_zero.mpr fun x hx => (hf x hx).2
  simp only [Runtime.spent, total_answered, ht, hc, Nat.add_zero]
  exact ⟨h.tokens, h.cost⟩

/-- What is observed before a call of the executor satisfies `P`. -/
def BeforeCalls (P : List Observation → Prop) : List Observation → List Observation → Prop :=
  Each fun pre o => match o with
    | .executed _ _ => P pre
    | _ => True

theorem beforeCalls_of_executions_nil {P : List Observation → Prop} {pre obs : List Observation}
    (h : executions obs = []) : BeforeCalls P pre obs := by
  refine each_of_forall fun o ho t => ?_
  cases o with
  | executed r a =>
    have : (r, a) ∈ executions obs := List.mem_filterMap.mpr ⟨_, ho, rfl⟩
    simp [h] at this
  | _ => trivial

namespace Scheduler

variable {sch : Scheduler} {id : ExecutionId} {s u : RunState} {obs : List Observation}

/-- In one turn, the executor is called only before anything is charged. -/
def CallsFirst : List Observation → Prop := BeforeCalls (fun pre => charged pre = []) []

theorem Retried.callsFirst {n : ℕ} (h : sch.Retried id s n obs u) : CallsFirst obs := by
  induction h with
  | start => trivial
  | again h hx _ ih =>
    exact (each_append ..).mpr ⟨ih, trivial, by simp [h.charged], trivial, trivial⟩

/-- One more call, after retries. -/
theorem Retried.callsFirst_last {n : ℕ} {obs' : List Observation} {e : ExecutionEventV1}
    {r : NodeRequest} {a : Except CoreError NodeExecutionV1} (h : sch.Retried id s n obs u)
    (hx : executions obs' = []) : CallsFirst (obs ++ .emitted e :: .executed r a :: obs') :=
  (each_append ..).mpr ⟨h.callsFirst, trivial, by simp [h.charged], beforeCalls_of_executions_nil hx⟩

theorem Executed.callsFirst {x : NodeExecutionV1} (h : sch.Executed id s obs u x) : CallsFirst obs := by
  cases h with
  | last h _ _ => exact h.callsFirst_last rfl

theorem CallsFirst.append {obs' : List Observation} (h : CallsFirst obs) (hx : executions obs' = []) :
    CallsFirst (obs ++ obs') :=
  (each_append ..).mpr ⟨h, beforeCalls_of_executions_nil hx⟩

theorem Completed.callsFirst {w : RunState} {dec : Decision} (h : sch.Completed id s obs w dec) :
    CallsFirst obs := by
  cases h with
  | mk _ hx _ _ hv hw =>
    obtain ⟨es, rfl, -, -⟩ := hv.numbered
    obtain ⟨es', rfl, -, -⟩ := hw.numbered
    exact (hx.callsFirst.append (by simp)).append (by simp)

theorem Turn.callsFirst {res : Except Abort (RunState ⊕ ExecutionReportV1)}
    (h : sch.Turn id s obs res) : CallsFirst obs := by
  cases h with
  | refused _ _ | abortedHead _ => exact beforeCalls_of_executions_nil rfl
  | exhausted _ h => cases h with
    | last h _ _ => exact h.callsFirst_last rfl
  | overBudget _ hx => exact hx.callsFirst.append rfl
  | ended h _ => exact h.callsFirst
  | goesOn h _ _ => exact h.callsFirst.append rfl
  | abortedAttempts _ _ h => cases h with
    | between h _ => exact h.callsFirst
    | during h _ => exact h.callsFirst_last rfl
    | before h _ => exact h.callsFirst.append rfl
  | abortedSettling _ _ hx _ => exact hx.callsFirst.append (by simp)

/-- The sums, on top of `start`, are within the budgets. -/
def Affordable (sch : Scheduler) (start : RunState) (obs : List Observation) : Prop :=
  spent (·.tokens) start.tokens obs ≤ sch.graph.limits.maxTokens ∧
    spent (·.costMicros) start.cost obs ≤ sch.graph.limits.maxCostMicros

/-- A turn from within the budgets calls the executor only within the budgets. -/
theorem Turn.affordable {start : RunState} {obs obs' : List Observation}
    {res : Except Abort (RunState ⊕ ExecutionReportV1)} (h : sch.Turn id u obs' res)
    (hs : Charges start obs u.tokens u.cost) (ha : sch.Afforded u)
    (hf : FreeRetries (obs ++ obs')) : BeforeCalls (sch.Affordable start) obs obs' := by
  refine (each_iff_split _ _).mpr fun t o t' hsplit => ?_
  have hfirst := (each_iff_split _ _).mp h.callsFirst t o t' hsplit
  subst hsplit
  cases o with
  | executed r a =>
    have hf' : FreeRetries (obs ++ t) := by
      rw [← List.append_assoc] at hf
      exact hf.left
    obtain ⟨ht, hc⟩ := (hs.quiet hfirst).spent hf'
    exact ⟨ht ▸ ha.tokens, hc ▸ ha.cost⟩
  | _ => trivial

theorem Turns.affordable {start : RunState} {obs obs' : List Observation}
    (hs : Charges start obs s.tokens s.cost) (ha : sch.Afforded s) (h : sch.Turns id s obs' u)
    (hf : FreeRetries (obs ++ obs')) : BeforeCalls (sch.Affordable start) obs obs' := by
  induction h with
  | start => trivial
  | step hts ht ih =>
    rw [← List.append_assoc] at hf
    obtain ⟨hc, hb⟩ := hts.charges hs ha
    exact (each_append ..).mpr ⟨ih hf.left, ht.affordable hc hb hf⟩

end Scheduler

/-! ### Every run -/

open Scheduler

/-- A run accounts for all its calls: it reports the sums over all of them, and makes none
once a sum exceeds its budget. -/
structure Accounted (sch : Scheduler) (start : RunState) (obs : List Observation)
    (res : Except Abort ExecutionReportV1) : Prop where
  tokens : ∀ report, res = .ok report → report.tokens = spent (·.tokens) start.tokens obs
  cost : ∀ report, res = .ok report → report.costMicros = spent (·.costMicros) start.cost obs
  calls : ∀ pre r a post, obs = pre ++ .executed r a :: post → sch.Affordable start pre

variable {sch : Scheduler} {call : Invocation}

/-- What a run charges: its counters, and that it starts within the budgets. -/
theorem runs_charges {tr : List (Answered HostCall Answer)} {res : Except Abort ExecutionReportV1}
    (hg : call.Genuine sch) (h : Runs (call.program sch) tr res) :
    (∀ report, res = .ok report →
      Charges (call.initial sch) (observe tr) report.tokens report.costMicros) ∧
      (FreeRetries (observe tr) → BeforeCalls (sch.Affordable (call.initial sch)) [] (observe tr)) := by
  obtain ⟨ha, ht, hc⟩ := hg.afforded
  rcases runs_turns h with ⟨hobs, e, rfl, -⟩ | ⟨obs, s, obs', u, obs'', hb, hts, hl, hobs⟩
  · exact ⟨by simp, fun _ => by rw [hobs]; trivial⟩
  · have hst : s.tokens = (call.initial sch).tokens := by rw [hb.eq_after, RunState.after_tokens]
    have hsc : s.cost = (call.initial sch).cost := by rw [hb.eq_after, RunState.after_cost]
    have hx := hb.quiet.1
    have hs : Charges (call.initial sch) obs s.tokens s.cost := by
      have hch : charged obs = [] := by simp [charged, answered, hx]
      refine ⟨?_, ?_⟩
      · simp [hch, hst, ht]
      · simp [hch, hsc, hc]
    have ha : sch.Afforded s := ⟨hst ▸ ha.tokens, hsc ▸ ha.cost⟩
    obtain ⟨hu, hau⟩ := hts.charges hs ha
    refine ⟨?_, fun hf => ?_⟩
    · rintro report rfl
      exact hobs ▸ hl.charges_report hu
    · rw [hobs] at hf ⊢
      exact (each_append ..).mpr ⟨(each_append ..).mpr
        ⟨beforeCalls_of_executions_nil hx, hts.affordable hs ha hf.left⟩, hl.affordable hu hau hf⟩

/-- A run from counters in the range of their type reports such counters. -/
theorem runs_ranges {tr : List (Answered HostCall Answer)} {report : ExecutionReportV1}
    (hs : (call.initial sch).tokens ≤ u64Max ∧ (call.initial sch).cost ≤ u64Max)
    (h : Runs (call.program sch) tr (.ok report)) : report.tokens ≤ u64Max ∧ report.costMicros ≤ u64Max := by
  rcases runs_turns h with ⟨-, e, he, -⟩ | ⟨obs, s, obs', u, obs'', hb, hts, hl, -⟩
  · cases he
  · refine Turn.ranges_report (hts.ranges ?_) hl
    rw [hb.eq_after]
    exact hs

/-- **Accounting**: a run, started afresh or from a checkpoint that was saved, accounts for
all its calls when its retryable failures report nothing; and where the sums do not
saturate, a report that accounts for all calls had no retryable failure that reported
anything. -/
theorem accounting {tr : List (Answered HostCall Answer)} {res : Except Abort ExecutionReportV1}
    (hg : call.Genuine sch) (h : Runs (call.program sch) tr res) :
    (FreeRetries (observe tr) → Accounted sch (call.initial sch) (observe tr) res) ∧
      ∀ report, res = .ok report →
        (call.initial sch).tokens + total (·.tokens) (answered (observe tr)) ≤ u64Max →
        (call.initial sch).cost + total (·.costMicros) (answered (observe tr)) ≤ u64Max →
        Accounted sch (call.initial sch) (observe tr) res → FreeRetries (observe tr) := by
  obtain ⟨hc, hb⟩ := runs_charges hg h
  refine ⟨fun hf => ⟨fun report hr => ((hc report hr).spent hf).1,
    fun report hr => ((hc report hr).spent hf).2,
    fun pre r a post hsplit => (each_iff_split [] _).mp (hb hf) pre _ post hsplit⟩, ?_⟩
  intro report hr htm hcm hacc
  obtain ⟨ht, hcost⟩ := hc report hr
  rw [hacc.tokens report hr, spent, total_answered] at ht
  rw [hacc.cost report hr, spent, total_answered] at hcost
  rw [total_answered] at htm hcm
  have ht0 : total (·.tokens) (uncharged (observe tr)) = 0 := by omega
  have hc0 : total (·.costMicros) (uncharged (observe tr)) = 0 := by omega
  exact fun x hx => ⟨total_eq_zero.mp ht0 x hx, total_eq_zero.mp hc0 x hx⟩

/-- An executor that fails its first call, for `cost`, and then ends the run for 1. -/
def failOnce (cost : ℕ) : Executor ℕ := fun _ calls =>
  (.ok (if calls = 0 then
      { outcome := .fail "transient" true, tokens := cost, costMicros := cost }
    else { outcome := .terminate .null none, tokens := 1, costMicros := 1 }), calls + 1)

/-- A run of the test graph. -/
def failOnceRun : Run ExecutionReportV1 :=
  (Invocation.run (testId "e") setupState).program (setup false)

/-- **A retried failure is not charged**: the run calls the executor for 6 tokens and
reports 1. -/
theorem retry_not_charged :
    ¬ ∀ (sch : Scheduler) (call : Invocation), call.Genuine sch →
      ∀ tr res, Runs (call.program sch) tr res →
        Accounted sch (call.initial sch) (observe tr) res := by
  intro h
  have hacc := h (setup false) (.run (testId "e") setupState) trivial _ _
    (runs_trace (surroundings (failOnce 5) false 1) failOnceRun (World.fresh 0))
  have hreport : (failOnceRun.run (surroundings (failOnce 5) false 1)
      (World.fresh 0)).1.map (·.tokens) = .ok 1 := by decide +kernel
  have hspent : spent (·.tokens) 0
      (observe (failOnceRun.trace (surroundings (failOnce 5) false 1) (World.fresh 0))) = 6 := by
    decide +kernel
  cases hres : (failOnceRun.run (surroundings (failOnce 5) false 1) (World.fresh 0)).1 with
  | error e => simp [hres, Except.map] at hreport
  | ok report =>
    have ht := hacc.tokens report hres
    simp only [hres, Except.map, Except.ok.injEq] at hreport
    have : report.tokens = 6 := ht.trans hspent
    omega

/-- With a free failure, the run accounts for its calls. -/
theorem accounting_free :
    Accounted (setup false) ((Invocation.run (testId "e") setupState).initial (setup false))
      (observe (failOnceRun.trace (surroundings (failOnce 0) false 1) (World.fresh 0)))
      (failOnceRun.run (surroundings (failOnce 0) false 1) (World.fresh 0)).1 :=
  (accounting (show (Invocation.run (testId "e") setupState).Genuine (setup false) from trivial)
    (runs_trace (surroundings (failOnce 0) false 1) failOnceRun (World.fresh 0))).1 (by decide +kernel)

end Knolo.Runtime
