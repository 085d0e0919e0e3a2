import Knolo.Host.Gate

/-!
# An exhausted budget

What the tools report is charged to the ledger, and a call that exceeds the budget by it is an error. Before
a tool is invoked, only the number of calls is compared with the budget.

* `ledger_tracks` — the ledger has what was reported.
* `exhausted_stops_iff` — an exhausted budget stops the tools if and only if a call that follows is refused
  for another reason.
-/

namespace Knolo.Host

open Core Library Library.Fallible

namespace ToolRegistry

variable {T : Type} [ToolImplementation T]

/-! ### Usage -/

/-- What an invoked tool reports. -/
def usageOf (i : T × Json) : Option ResourceUsageV1 :=
  (ToolImplementation.execute i.2 i.1).1.toOption.map (·.2)

/-- What the tools have reported. -/
def reportedUsage (log : List (GateEvent T)) : List ResourceUsageV1 := (invocations log).filterMap usageOf

/-- The units used in all, after a ledger. -/
def totalUnits (start : BudgetLedger) (log : List (GateEvent T)) : ℕ :=
  start.used.units + ((reportedUsage log).map (·.units)).sum

/-- The time used in all, after a ledger. -/
def totalDurationMs (start : BudgetLedger) (log : List (GateEvent T)) : ℕ :=
  start.used.durationMs + ((reportedUsage log).map (·.durationMs)).sum

/-- More was reported than the budget has. -/
def Exhausted (policy : CompiledPolicyV1) (start : BudgetLedger) (log : List (GateEvent T)) : Prop :=
  policy.budget.maxUnits < totalUnits start log ∨ policy.budget.maxDurationMs < totalDurationMs start log

/-- A request invokes no tool at a desk. -/
def InvokesNothing (policy : CompiledPolicyV1) (r : Request) (d : Desk T) : Prop :=
  (gate policy r.call).Sat { tools := d.registry.tools, ledger := d.ledger } fun _ _ log => invocations log = []

instance {policy : CompiledPolicyV1} {start : BudgetLedger} {log : List (GateEvent T)} :
    Decidable (Exhausted policy start log) := inferInstanceAs (Decidable (_ ∨ _))

theorem reportedUsage_append (log log' : List (GateEvent T)) :
    reportedUsage (log ++ log') = reportedUsage log ++ reportedUsage log' := by
  rw [reportedUsage, invocations_append, List.filterMap_append]
  rfl

variable {policy : CompiledPolicyV1} {call : ToolCallV1}

/-! ### What the ledger has -/

/-- The ledger afterwards has what was reported. -/
structure Charged (l l' : BudgetLedger) (log : List (GateEvent T)) : Prop where
  units : l'.used.units = ((reportedUsage log).map (·.units)).foldl satAdd l.used.units
  durationMs : l'.used.durationMs = ((reportedUsage log).map (·.durationMs)).foldl satAdd l.used.durationMs

theorem Charged.trans {l l' l'' : BudgetLedger} {log log' : List (GateEvent T)} (h : Charged l l' log)
    (h' : Charged l' l'' log') : Charged l l'' (log ++ log') := by
  constructor
  · rw [h'.units, h.units, reportedUsage_append, List.map_append, List.foldl_append]
  · rw [h'.durationMs, h.durationMs, reportedUsage_append, List.map_append, List.foldl_append]

omit [ToolImplementation T] in
theorem charge_adds (g : Gate T) (definition : ToolDefinition) (usage : ResourceUsageV1) :
    (charge policy definition usage).Sat g fun _ g' log => log = [] ∧
      g'.ledger.used.units = satAdd g.ledger.used.units usage.units ∧
      g'.ledger.used.durationMs = satAdd g.ledger.used.durationMs usage.durationMs := by
  rintro r hr
  cases hr
  exact ⟨rfl, rfl, rfl⟩

/-- **The gate charges what a tool reports.** -/
theorem gate_charged (g : Gate T) : (gate policy call).Sat g fun _ g' log => Charged g.ledger g'.ledger log := by
  refine Method.Sat.ofExcept_bind (fun _ _ => Method.sat_read_bind.mpr ?_) fun _ _ => ⟨rfl, rfl⟩
  cases g.tools[call.toolId]? with
  | none => exact Method.sat_ofExcept.mpr (⟨rfl, rfl⟩)
  | some tool =>
    refine Method.Sat.ofExcept_bind (fun _ _ => ?_) fun _ _ => ⟨rfl, rfl⟩
    refine (reserve_sat g _).bind (fun _ g₁ log h => ?_) fun err g₁ log h => ?_
    swap
    · obtain ⟨rfl, -, rfl⟩ := h
      exact ⟨rfl, rfl⟩
    obtain ⟨rfl, -, rfl⟩ := h
    refine Method.sat_bind.mpr ((run_sat _ _ _).mono fun res g₂ log h => ?_)
    obtain ⟨rfl, rfl, rfl⟩ := h
    cases hx : (ToolImplementation.execute call.arguments tool).1 with
    | error err =>
      have hnone : reportedUsage [GateEvent.invoked tool call.arguments] = [] := by
        simp [reportedUsage, usageOf, hx, Except.toOption]
      exact ⟨by rw [List.nil_append, hnone]; rfl, by rw [List.nil_append, hnone]; rfl⟩
    | ok out =>
      have hone : reportedUsage [GateEvent.invoked tool call.arguments] = [out.2] := by
        simp [reportedUsage, usageOf, hx, Except.toOption]
      refine Method.sat_bind.mpr ((charge_adds _ _ _).mono fun res g₃ log h => ?_)
      obtain ⟨rfl, hunits, hduration⟩ := h
      have hcharged : Charged g.ledger g₃.ledger [GateEvent.invoked tool call.arguments] := by
        refine ⟨?_, ?_⟩
        · rw [hone, hunits]
          rfl
        · rw [hone, hduration]
          rfl
      cases res with
      | error _ => exact hcharged
      | ok _ =>
        show Method.Sat (if _ then _ else _) _ _
        split
        · exact Method.sat_ofExcept.mpr hcharged
        · exact Method.sat_pure.mpr hcharged

theorem perform_charged (r : Request) (d : Desk T) :
    (r.perform policy).Sat d fun _ d' log => Charged d.ledger d'.ledger log := by
  have hexecute : (execute policy r.call r.emit).Sat d fun _ d' log => Charged d.ledger d'.ledger log := by
    intro out hout
    obtain ⟨g, hg, h⟩ := bind_eq_ok.mp hout
    obtain ⟨sequence, -, h⟩ := bind_eq_ok.mp h
    have hcharged := gate_charged _ _ hg
    dsimp only at h
    split at h
    · cases h
      exact hcharged.trans ⟨rfl, rfl⟩
    · cases h
      exact hcharged
  refine Method.sat_bind.mpr (hexecute.mono fun res d' log h => ?_)
  cases res with
  | ok _ => exact Method.sat_pure.mpr (by simpa using h)
  | error _ => exact h

/-- **The ledger has what was reported**, over any sequence of requests. -/
theorem ledger_tracks (policy : CompiledPolicyV1) (d : Desk T) (rs : List Request) :
    Charged d.ledger ((sessionAt d).run (Request.perform policy) rs).state.ledger
      ((sessionAt d).run (Request.perform policy) rs).log := by
  refine Session.run_induct (m := Request.perform policy) (s := sessionAt d)
    (I := fun _ s => Charged d.ledger s.state.ledger s.log) ⟨rfl, rfl⟩ rs fun pre r post _ ih => ?_
  rw [Session.after_log]
  refine ih.trans ?_
  exact Session.after_of_sat
    (T := fun (d' : Desk T) log => Charged ((sessionAt d).run (Request.perform policy) pre).state.ledger d'.ledger log)
    (perform_charged r _) ⟨rfl, rfl⟩

/-! ### Calls after that -/

/-- **A request invokes nothing if and only if no tool admits it.** -/
theorem invokesNothing_iff (hp : policy.budget.maxCalls ≤ u64Max) (r : Request) (d : Desk T) :
    InvokesNothing policy r d ↔ ∀ tool, ¬Admits policy r.call d.registry.tools d.ledger tool := by
  constructor
  · intro h tool hadmits
    have hreturns : (gate policy r.call).Returns { tools := d.registry.tools, ledger := d.ledger : Gate T } :=
      gate_returns hp _
    obtain ⟨⟨res, g', log⟩, hout⟩ := hreturns
    have hnothing : invocations log = [] := h _ hout
    have hpass := gate_passage _ _ hout
    dsimp only at hpass
    cases hpass with
    | denied hno => exact hno tool hadmits
    | ran _ _ _ _ => cases hnothing
  · intro h
    refine (gate_passage _).mono fun _ _ log hpass => ?_
    cases hpass with
    | denied _ => rfl
    | ran hadmits _ _ _ => exact absurd hadmits (h _)

/-- **An exhausted budget stops the tools**, over any sequence of requests, if and only if no request that
comes after passes the checks of the call, the tool, the policy and the number of calls. -/
theorem exhausted_stops_iff (policy : CompiledPolicyV1) (hp : policy.budget.maxCalls ≤ u64Max) (d : Desk T)
    (rs : List Request) :
    (∀ pre r post, rs = pre ++ r :: post →
      Exhausted policy d.ledger ((sessionAt d).run (Request.perform policy) pre).log →
      InvokesNothing policy r ((sessionAt d).run (Request.perform policy) pre).state) ↔
    ∀ pre r post, rs = pre ++ r :: post →
      Exhausted policy d.ledger ((sessionAt d).run (Request.perform policy) pre).log →
      ∀ tool, ¬Admits policy r.call ((sessionAt d).run (Request.perform policy) pre).state.registry.tools
        ((sessionAt d).run (Request.perform policy) pre).state.ledger tool := by
  constructor
  · intro h pre r post hsplit hexhausted
    exact (invokesNothing_iff hp r _).mp (h pre r post hsplit hexhausted)
  · intro h pre r post hsplit hexhausted
    exact (invokesNothing_iff hp r _).mpr (h pre r post hsplit hexhausted)

/-- **A search after the units are used up is run**: the first one has used eleven units of ten. -/
theorem exhausted_search_runs : ¬∀ (policy : CompiledPolicyV1) (d : Desk Search) (rs pre : List Request)
    (r : Request) (post : List Request), rs = pre ++ r :: post →
    Exhausted policy d.ledger ((sessionAt d).run (Request.perform policy) pre).log →
    InvokesNothing policy r ((sessionAt d).run (Request.perform policy) pre).state := by
  intro h
  have hexhausted : Exhausted searchPolicy (searchDesk 11).ledger
      ((sessionAt (searchDesk 11)).run (Request.perform searchPolicy) [accepted searchCall]).log := by
    decide +kernel
  have hruns : (gate searchPolicy searchCall
      { tools := ((sessionAt (searchDesk 11)).run (Request.perform searchPolicy)
          [accepted searchCall]).state.registry.tools
        ledger := ((sessionAt (searchDesk 11)).run (Request.perform searchPolicy)
          [accepted searchCall]).state.ledger }).toOption.any (fun out => !(invocations out.log).isEmpty) = true := by
    decide +kernel
  obtain ⟨out, hout, hsome⟩ := (Option.any_eq_true _ _).mp hruns
  have hnothing := h searchPolicy (searchDesk 11) [accepted searchCall, accepted searchCall] [accepted searchCall]
    (accepted searchCall) [] rfl hexhausted out (toOption_eq_some.mp hout)
  rw [hnothing] at hsome
  cases hsome

/-- A policy that grants one search and ten units. -/
def onePolicy : CompiledPolicyV1 :=
  { searchPolicy with budget := { maxCalls := 1, maxUnits := 10, maxDurationMs := 10 } }

/-- Where the calls are used up too, nothing is run after the units are. -/
theorem exhausted_stops_search :
    Exhausted onePolicy (searchDesk 11).ledger
        ((sessionAt (searchDesk 11)).run (Request.perform onePolicy) [accepted searchCall]).log ∧
      InvokesNothing onePolicy (accepted searchCall)
        ((sessionAt (searchDesk 11)).run (Request.perform onePolicy) [accepted searchCall]).state := by
  have hexhausted : Exhausted onePolicy (searchDesk 11).ledger
      ((sessionAt (searchDesk 11)).run (Request.perform onePolicy) [accepted searchCall]).log := by
    decide +kernel
  have hcalls : ((sessionAt (searchDesk 11)).run (Request.perform onePolicy)
      [accepted searchCall]).state.ledger.used.calls = 1 := by
    decide +kernel
  refine ⟨hexhausted, (exhausted_stops_iff onePolicy (by decide) (searchDesk 11)
    [accepted searchCall, accepted searchCall]).mpr ?_ [accepted searchCall] (accepted searchCall) [] rfl hexhausted⟩
  intro pre r post hsplit hbefore tool hadmits
  cases pre with
  | nil => exact absurd hbefore (by decide +kernel)
  | cons x pre =>
    obtain ⟨rfl, hsplit⟩ := List.cons.inj hsplit
    obtain rfl : pre = [] := by
      cases pre with
      | nil => rfl
      | cons y pre => simp at hsplit
    have haffordable := hadmits.affordable
    rw [hcalls] at haffordable
    exact absurd haffordable (by decide)

end ToolRegistry

end Knolo.Host
