import Knolo.Runtime.Invariant
import Knolo.Runtime.Surroundings
import Mathlib.Algebra.BigOperators.Group.Finset.Basic
import Mathlib.Algebra.GroupWithZero.Nat
import Mathlib.Algebra.Order.BigOperators.Group.Finset

/-!
# How long a run can be

A run visits a node by executing its first attempt. The visits of a run are bounded
twice: by the steps that are left, and by the cycles the graph declares, because a walk
that comes back to a node is a closed walk, and every closed walk is within declared
cycles (`CompiledGraphV1.not_reach_of_cycleLimit_none`).

* `Walk` — the invariant: the visit counts are the visits, within the bound of each
  node, and the pending node is reached from every node visited.
* `run_bounded` — the bounds on visits and on calls of the executor.
* `visits_le_of_leastFirst` — the bounds of overlapping cycles.
-/

namespace Knolo.Runtime

open Core Library Library.Fallible Library.Prog Relation

/-! ### Visits -/

/-- The node a call of the executor visits: the one it is the first attempt at. -/
def visit (call : NodeRequest × Except CoreError NodeExecutionV1) : Option NodeId :=
  if call.1.attempt = 1 then some call.1.nodeId else none

/-- The nodes visited, in order. -/
def visited (obs : List Observation) : List NodeId := (executions obs).filterMap visit

@[simp] theorem visited_nil : visited [] = [] := rfl

@[simp] theorem visited_append (obs obs' : List Observation) :
    visited (obs ++ obs') = visited obs ++ visited obs' := by
  simp [visited]

@[simp] theorem visited_emitted (e : ExecutionEventV1) (obs : List Observation) :
    visited (.emitted e :: obs) = visited obs := rfl

@[simp] theorem visited_saved (cp : CheckpointV1) (obs : List Observation) :
    visited (.saved cp :: obs) = visited obs := rfl

@[simp] theorem visited_map (es : List ExecutionEventV1) : visited (es.map .emitted) = [] := by
  simp [visited]

/-- Only the first attempt is a visit. -/
@[simp] theorem visited_request (s : RunState) (n : ℕ) (a : Except CoreError NodeExecutionV1)
    (obs : List Observation) :
    visited (.executed (s.request n) a :: obs) =
      if n = 0 then s.node :: visited obs else visited obs := by
  by_cases h : n = 0 <;> simp [visited, visit, RunState.request, h]

/-! ### The visits of one turn -/

/-- The executor calls of a phase are at most `n` attempts at `s`, of one visit. -/
structure OneVisit (sch : Scheduler) (s : RunState) (obs : List Observation) : Prop where
  visited : Runtime.visited obs = [s.node]
  calls : (executions obs).length ≤ sch.policy.maxRetries + 1

namespace Scheduler

variable {sch : Scheduler} {id : ExecutionId}

theorem Retried.visits {s u : RunState} {n : ℕ} {obs : List Observation}
    (h : sch.Retried id s n obs u) :
    (executions obs).length = n ∧ visited obs = if n = 0 then [] else [s.node] := by
  induction h with
  | start => exact ⟨rfl, rfl⟩
  | @again n _ _ _ _ _ _ _ _ _ ih =>
    refine ⟨by simp [ih.1], ?_⟩
    by_cases hn : n = 0 <;> simp [ih.2, hn]

/-- The last attempt, after `n` retries, makes one visit of them. -/
theorem Retried.oneVisit {s u : RunState} {n : ℕ} {obs obs' : List Observation} {t : ℕ}
    {a : Except CoreError NodeExecutionV1} (h : sch.Retried id s n obs u)
    (hn : n ≤ sch.policy.maxRetries) (hv : visited obs' = []) (hx : executions obs' = []) :
    OneVisit sch s (obs ++ .emitted (u.nodeEvent id (.nodeStarted (n + 1)) t) ::
      .executed (s.request n) a :: obs') := by
  obtain ⟨hc, hvis⟩ := h.visits
  refine ⟨?_, by simpa [hc, hx] using hn⟩
  by_cases h0 : n = 0 <;> simp [hvis, h0, hv]

theorem Executed.oneVisit {s u : RunState} {obs : List Observation} {x : NodeExecutionV1}
    (h : sch.Executed id s obs u x) : OneVisit sch s obs := by
  cases h with
  | last h hn _ => exact h.oneVisit hn rfl rfl

theorem Exhausted.oneVisit {s u : RunState} {obs : List Observation} {err : String}
    (h : sch.Exhausted id s obs u err) : OneVisit sch s obs := by
  cases h with
  | last h hn _ => exact h.oneVisit hn.le rfl rfl

theorem Interrupted.oneVisit {s : RunState} {obs : List Observation}
    (h : sch.Interrupted id s obs) :
    executions obs = [] ∨ OneVisit sch s obs := by
  cases h with
  | between h hn =>
    obtain ⟨hc, hv⟩ := h.visits
    rcases Nat.eq_zero_or_pos _ with h0 | h0
    · exact .inl (List.length_eq_zero_iff.mp (hc.trans h0))
    · exact .inr ⟨by rw [hv, if_neg (by omega)], by omega⟩
  | @before n obs u t h hn =>
    obtain ⟨hc, hv⟩ := h.visits
    rcases Nat.eq_zero_or_pos n with h0 | h0
    · exact .inl (by simp [List.length_eq_zero_iff.mp (hc.trans h0)])
    · exact .inr ⟨by simp [hv, show n ≠ 0 by omega], by simp [hc]; omega⟩
  | during h hn => exact .inr (h.oneVisit hn rfl rfl)

theorem Completed.oneVisit {s w : RunState} {dec : Decision} {obs : List Observation}
    (h : sch.Completed id s obs w dec) : (∃ d, sch.Admitted s d) ∧ OneVisit sch s obs := by
  cases h with
  | @mk d obs₁ _ obs₃ u v _ x _ hd hx ha hdec hv hw =>
    obtain ⟨es, rfl, -, -⟩ := hv.numbered
    obtain ⟨es', rfl, -, -⟩ := hw.numbered
    obtain ⟨h1, h2⟩ := hx.oneVisit
    exact ⟨⟨d, hd⟩, by simpa using h1, by simpa using h2⟩

/-- **A turn** calls the executor only for one visit of its pending node, which the
checks at the head have let run. -/
theorem Turn.oneVisit {s : RunState} {obs : List Observation}
    {res : Except Abort (RunState ⊕ ExecutionReportV1)} (h : sch.Turn id s obs res) :
    executions obs = [] ∨ (∃ d, sch.Admitted s d) ∧ OneVisit sch s obs := by
  have hvisit : ∀ {obs' : List Observation}, OneVisit sch s.visit obs' → OneVisit sch s obs' :=
    fun h => ⟨h.visited, h.calls⟩
  cases h with
  | refused _ _ | abortedHead _ => exact .inl rfl
  | exhausted hd h => exact .inr ⟨⟨_, hd⟩, hvisit h.oneVisit⟩
  | overBudget hd hx =>
    exact .inr ⟨⟨_, hd⟩, by simpa using hx.oneVisit.visited, by simpa using hx.oneVisit.calls⟩
  | ended h _ => exact .inr h.oneVisit
  | goesOn h _ _ =>
    obtain ⟨hd, h1, h2⟩ := h.oneVisit
    exact .inr ⟨hd, by simpa using h1, by simpa using h2⟩
  | abortedAttempts _ hd h => exact h.oneVisit.imp_right fun h => ⟨⟨_, hd⟩, hvisit h⟩
  | abortedSettling _ hd hx _ =>
    exact .inr ⟨⟨_, hd⟩, by simpa using hx.oneVisit.visited, by simpa using hx.oneVisit.calls⟩

end Scheduler

/-! ### The walk -/

/-- How often a run may visit a node: as often as its cycle allows, or once. -/
def nodeBound (g : CompiledGraphV1) (n : NodeId) : ℕ := (g.cycleLimit n).getD 1

/-- How many visits a run that starts with `steps` steps may make. -/
def visitBound (g : CompiledGraphV1) (steps : ℕ) : ℕ :=
  min (g.limits.maxSteps - steps) ((g.definition.nodes.map fun n => nodeBound g n.id).sum)

/-- Visits of declared nodes, within the bound of each and the steps that are left. -/
structure Within (g : CompiledGraphV1) (steps : ℕ) (vs : List NodeId) : Prop where
  bound : ∀ n, vs.count n ≤ nodeBound g n
  declared : ∀ n ∈ vs, n ∈ g.definition.nodes.map (·.id)
  steps : vs.length ≤ g.limits.maxSteps - steps

/-- A list of declared nodes that keeps to the bounds is no longer than their sum. -/
theorem length_le_sum_of_count_le {ids vs : List NodeId} {b : NodeId → ℕ} (hnodup : ids.Nodup)
    (hmem : ∀ n ∈ vs, n ∈ ids) (hb : ∀ n, vs.count n ≤ b n) : vs.length ≤ (ids.map b).sum := by
  calc vs.length = ∑ n ∈ vs.toFinset, vs.count n := (List.sum_toFinset_count_eq_length vs).symm
    _ ≤ ∑ n ∈ vs.toFinset, b n := Finset.sum_le_sum fun n _ => hb n
    _ ≤ ∑ n ∈ ids.toFinset, b n := Finset.sum_le_sum_of_subset fun n hn => by
        simpa using hmem n (by simpa using hn)
    _ = (ids.map b).sum := List.sum_toFinset b hnodup

/-- The ids of a compiled graph are distinct. -/
theorem nodup_ids (g : CompiledGraphV1) : (g.definition.nodes.map (·.id)).Nodup := by
  have h := g.checked.nodup
  rw [List.card_toFinset] at h
  refine List.dedup_eq_self.mp ((List.dedup_sublist _).eq_of_length ?_)
  simpa using h

theorem Within.length_le {g : CompiledGraphV1} {steps : ℕ} {vs : List NodeId}
    (h : Within g steps vs) : vs.length ≤ visitBound g steps := by
  have := length_le_sum_of_count_le (nodup_ids g) h.declared h.bound
  exact le_min h.steps (by simpa [Function.comp_def] using this)

/-- The invariant of the visits: `vs` are the nodes visited when the loop is at `u`. -/
structure Walk (sch : Scheduler) (steps : ℕ) (vs : List NodeId) (u : RunState) : Prop where
  visits : ∀ n, u.visits n = vs.count n
  within : Within sch.graph steps vs
  /-- The pending node is reached from every node visited. -/
  reach : ∀ n ∈ vs, TransGen sch.graph.Next n u.node
  steps : u.steps = steps + vs.length

namespace Scheduler

variable {sch : Scheduler} {id : ExecutionId} {steps : ℕ} {vs : List NodeId} {u : RunState}

/-- **The checks at the head keep the visits of the pending node within its bound.** -/
theorem Admitted.bound {d : NodeDefinitionV1} (h : sch.Admitted u d) (hw : Walk sch steps vs u) :
    vs.count u.node + 1 ≤ nodeBound sch.graph u.node := by
  unfold nodeBound
  cases hlim : sch.graph.cycleLimit u.node with
  | some max =>
    have hc := h.cycle
    simp only [cycleExceeded, RunState.visit, hlim, hw.visits, if_true, decide_eq_false_iff_not,
      not_lt] at hc
    exact hc
  | none =>
    have hnot : u.node ∉ vs := by
      intro hmem
      obtain ⟨m, hnm, hmn⟩ := TransGen.head'_iff.mp (hw.reach _ hmem)
      exact sch.graph.not_reach_of_cycleLimit_none hlim hnm hmn
    simp [List.count_eq_zero_of_not_mem hnot]

/-- A visit the checks have let run is within the bounds. -/
theorem Admitted.within {d : NodeDefinitionV1} (h : sch.Admitted u d) (hw : Walk sch steps vs u) :
    Within sch.graph steps (vs ++ [u.node]) := by
  refine ⟨fun n => ?_, fun n hn => ?_, ?_⟩
  · rw [List.count_append]
    by_cases hn : n = u.node
    · subst hn
      simpa using h.bound hw
    · simpa [List.count_singleton, Ne.symm hn] using hw.within.bound n
  · rcases List.mem_append.mp hn with hn | hn
    · exact hw.within.declared n hn
    · rw [List.mem_singleton.mp hn]
      exact sch.graph.mem_ids_of_node h.node
  · have := h.steps
    have := hw.steps
    simp only [List.length_append, List.length_singleton]
    omega

/-- **The step lemma**: a turn that goes on is one visit, and keeps the walk. -/
theorem Turn.walk {obs : List Observation} {v : RunState} (hw : Walk sch steps vs u)
    (h : sch.Turn id u obs (.ok (.inl v))) : Walk sch steps (vs ++ visited obs) v := by
  cases h with
  | @goesOn obs w dec pending t h _ hnext =>
    obtain ⟨⟨d, hd⟩, hv, -⟩ := h.oneVisit
    have hc := h.completion
    have hedge : sch.graph.Next u.node pending := hc.next _ hnext
    simp only [visited_append, hv, visited_emitted, visited_saved, visited_nil, List.append_nil]
    refine ⟨fun n => ?_, hd.within hw, fun n hn => ?_, ?_⟩
    · simp only [RunState.noted_eq_after, RunState.after_visits, hc.visits, RunState.visit,
        List.count_append, hw.visits]
      by_cases hn : n = u.node
      · simp [hn]
      · simp [hn, Ne.symm hn]
    · rcases List.mem_append.mp hn with hn | hn
      · exact (hw.reach n hn).tail hedge
      · rw [List.mem_singleton.mp hn]
        exact .single hedge
    · have := h.steps.1
      simp only [RunState.noted_eq_after, RunState.after_steps, this, hw.steps, List.length_append,
        List.length_singleton]
      omega

/-- **The run lemma**: turns keep the walk, and make at most `max_retries + 1` calls of the
executor for each visit. -/
theorem Turns.walk {s : RunState} {obs : List Observation} (hs : ∀ n, s.visits n = 0)
    (h : sch.Turns id s obs u) :
    Walk sch s.steps (visited obs) u ∧
      (executions obs).length ≤ (visited obs).length * (sch.policy.maxRetries + 1) := by
  induction h with
  | start =>
    exact ⟨⟨fun n => hs n, ⟨by simp, by simp, by simp⟩, by simp, rfl⟩, by simp⟩
  | step _ ht ih =>
    refine ⟨by simpa using ht.walk ih.1, ?_⟩
    rcases ht.oneVisit with h0 | ⟨-, hv, hc⟩
    · simpa [visited, h0] using ih.2
    · simp only [executions_append, visited_append, hv, List.length_append, List.length_singleton,
        Nat.add_mul]
      omega

end Scheduler

/-! ### Every run -/

open Scheduler

/-- The visits of a run keep to the bounds, and each takes as many calls of the executor as there may be
attempts. -/
theorem run_within {sch : Scheduler} {call : Invocation} {tr : List (Answered HostCall Answer)}
    {res : Except Abort ExecutionReportV1} (h : Runs (call.program sch) tr res) :
    Within sch.graph (call.initial sch).steps (visited (observe tr)) ∧
      (executions (observe tr)).length ≤ (visited (observe tr)).length * (sch.policy.maxRetries + 1) ∧
      res ≠ .error .stuck := by
  rcases runs_turns h with ⟨hobs, e, rfl, he⟩ | ⟨obs, s, obs', u, obs'', hb, ht, hl, hobs⟩
  · rw [hobs]
    exact ⟨⟨by simp, by simp, by simp⟩, by simp, by simp [he]⟩
  · have hsteps : s.steps = (call.initial sch).steps := by rw [hb.eq_after, RunState.after_steps]
    have hs0 : ∀ n, s.visits n = 0 := by
      rw [hb.eq_after]
      cases call <;> exact fun n => rfl
    have hobs0 := hb.quiet.1
    obtain ⟨hw, hcalls⟩ := ht.walk hs0
    have hvis0 : visited obs = [] := by simp [visited, hobs0]
    have hstuck : res ≠ .error .stuck := by
      rintro rfl
      exact hl.ne_stuck rfl
    -- the last turn makes no visit, or one that the checks have let run
    have key : Within sch.graph s.steps (visited obs' ++ visited obs'') ∧
        (executions obs' ++ executions obs'').length ≤
          (visited obs' ++ visited obs'').length * (sch.policy.maxRetries + 1) := by
      rcases hl.oneVisit with h0 | ⟨⟨d, hd⟩, hv, hc⟩
      · have hv0 : visited obs'' = [] := by simp [visited, h0]
        exact ⟨by simpa [hv0] using hw.within, by simpa [hv0, h0] using hcalls⟩
      · refine ⟨by simpa [hv] using hd.within hw, ?_⟩
        simp only [hv, List.length_append, List.length_singleton, Nat.add_mul]
        omega
    simp only [hobs, visited_append, executions_append, hvis0, hobs0, List.nil_append, ← hsteps]
    exact ⟨key.1, key.2, hstuck⟩

/-- **A run is bounded**: whatever the executor does, one call of an entry point visits a
node no more often than its cycle allows, or once if it is on no declared cycle; it makes
no more visits than there are steps left, nor than these bounds add up to over the
nodes; it calls the executor at most `max_retries + 1` times a visit; and it ends. -/
theorem run_bounded (sch : Scheduler) (call : Invocation) {tr : List (Answered HostCall Answer)}
    {res : Except Abort ExecutionReportV1} (h : Runs (call.program sch) tr res) :
    (visited (observe tr)).length ≤ visitBound sch.graph (call.initial sch).steps ∧
      (executions (observe tr)).length ≤
        visitBound sch.graph (call.initial sch).steps * (sch.policy.maxRetries + 1) ∧
      (∀ n, (visited (observe tr)).count n ≤ (sch.graph.cycleLimit n).getD 1) ∧
      res ≠ .error .stuck := by
  obtain ⟨hwithin, hx, hstuck⟩ := run_within h
  have hlen := hwithin.length_le
  exact ⟨hlen, hx.trans (Nat.mul_le_mul_right _ hlen), hwithin.bound, hstuck⟩

/-- Without retries, a run calls the executor of a node as often as it visits it. -/
theorem count_executions_le {sch : Scheduler} {call : Invocation} {tr : List (Answered HostCall Answer)}
    {res : Except Abort ExecutionReportV1} (h : Runs (call.program sch) tr res) (hret : sch.policy.maxRetries = 0)
    (n : NodeId) :
    (executions (observe tr)).countP (fun x => x.1.nodeId = n) ≤ (sch.graph.cycleLimit n).getD 1 := by
  obtain ⟨hwithin, hx, -⟩ := run_within h
  rw [hret, Nat.zero_add, Nat.mul_one] at hx
  have hall : ∀ x ∈ executions (observe tr), (visit x).isSome = true := by
    have hlen : (executions (observe tr)).countP (fun x => (visit x).isSome) = (executions (observe tr)).length := by
      refine le_antisymm List.countP_le_length ?_
      rwa [visited, List.length_filterMap_eq_countP] at hx
    exact List.countP_eq_length.mp hlen
  refine le_trans (le_of_eq ?_) (hwithin.bound n)
  rw [visited, List.count, List.countP_filterMap]
  refine List.countP_congr fun x hmem => ?_
  have hv := hall x hmem
  unfold visit at hv ⊢
  split
  · simp
  · simp_all

/-! ### The limits in a report -/

namespace Scheduler

variable {sch : Scheduler} {id : ExecutionId}

/-- What a turn that ends the run reports of its counters. -/
theorem Turn.limits {s : RunState} {obs : List Observation} {report : ExecutionReportV1}
    (h : sch.Turn id s obs (.ok (.inr report))) (hs : s.steps ≤ sch.graph.limits.maxSteps) :
    report.steps ≤ sch.graph.limits.maxSteps ∧
      (report.costMicros ≤ sch.graph.limits.maxCostMicros ∨ (∃ msg, report.status = .failed msg) ∨
        report.status = .cancelled) := by
  cases h with
  | refused hu hkind =>
    refine ⟨by rcases hu with rfl | rfl <;> exact hs, .inr ?_⟩
    rcases hkind with ⟨-, rfl⟩ | ⟨msg, -, rfl⟩
    · exact .inr rfl
    · exact .inl ⟨msg, rfl⟩
  | exhausted hd hx =>
    cases hx with
    | last hr _ _ =>
      rw [hr.eq_after]
      exact ⟨hs, .inr (.inl ⟨_, rfl⟩)⟩
  | overBudget hd hx =>
    rw [hx.eq_after]
    exact ⟨hd.steps, .inr (.inl ⟨_, rfl⟩)⟩
  | ended h _ =>
    obtain ⟨hsteps, hlt⟩ := h.steps
    refine ⟨show _ ≤ _ by rw [RunState.report, hsteps]; exact hlt, .inl ?_⟩
    cases h with
    | mk hd hx hafford _ hv hw =>
      obtain ⟨state, rfl⟩ := hv.eq_after
      rw [hw.eq_after]
      exact hafford.cost

/-- Turns that go on keep to the limit of steps. -/
theorem Turns.steps_le {s u : RunState} {obs : List Observation} (h : sch.Turns id s obs u)
    (hs : s.steps ≤ sch.graph.limits.maxSteps) : u.steps ≤ sch.graph.limits.maxSteps := by
  cases h with
  | start => exact hs
  | step _ ht =>
    obtain ⟨hsteps, hlt⟩ := ht.steps
    omega

end Scheduler

/-- **A report keeps to the limits**: of steps, and of cost unless the run has failed or was
cancelled. -/
theorem runs_limits {sch : Scheduler} {call : Invocation} {tr : List (Answered HostCall Answer)}
    {report : ExecutionReportV1} (h : Runs (call.program sch) tr (.ok report))
    (hs : (call.initial sch).steps ≤ sch.graph.limits.maxSteps) :
    report.steps ≤ sch.graph.limits.maxSteps ∧
      (report.costMicros ≤ sch.graph.limits.maxCostMicros ∨ (∃ msg, report.status = .failed msg) ∨
        report.status = .cancelled) := by
  rcases runs_turns h with ⟨-, e, he, -⟩ | ⟨obs, s, obs', u, obs'', hb, ht, hl, -⟩
  · cases he
  · have hsteps : s.steps = (call.initial sch).steps := by rw [hb.eq_after, RunState.after_steps]
    exact Turn.limits hl (ht.steps_le (hsteps ▸ hs))

/-- On the cycle of the tests, which allows two visits a node, a run that never ends by
itself makes four visits at most. -/
theorem run_bounded_cycle :
    (visited (observe (((Invocation.run (testId "e") setupState).program (setup true)).trace
      (surroundings (stateless proceed) false 1) (World.fresh ())))).length ≤ 4 :=
  (run_bounded (setup true) (.run (testId "e") setupState) (runs_trace ..)).1.trans
    (by decide +kernel)

/-! ### Overlapping cycles -/

/-- **Declared cycles bound their nodes**, where the one with the least bound comes first: in every
run, a node is visited no more often than any declared cycle that it is on allows. -/
theorem visits_le_of_leastFirst (sch : Scheduler) (call : Invocation) {tr : List (Answered HostCall Answer)}
    {res : Except Abort ExecutionReportV1} (h : Runs (call.program sch) tr res) {n : NodeId}
    (hn : LeastFirst sch.graph.definition.cycles n) :
    ∀ c ∈ sch.graph.definition.cycles, n ∈ c.nodes → (visited (observe tr)).count n ≤ c.maxIterations := by
  intro c hc hmem
  have hbound : (visited (observe tr)).count n ≤ nodeBound sch.graph n := (run_within h).1.bound n
  unfold nodeBound at hbound
  cases hlim : sch.graph.cycleLimit n with
  | none =>
    simp only [CompiledGraphV1.cycleLimit, Option.map_eq_none_iff, List.find?_eq_none] at hlim
    exact absurd (Std.ExtTreeSet.contains_iff_mem.mpr hmem) (hlim c hc)
  | some max =>
    rw [hlim] at hbound
    exact le_trans hbound (hn.cycleLimit_le hlim hc hmem)

/-- On the cycle of the tests, a run visits `a` twice at most. -/
theorem visits_le_of_leastFirst_setup :
    (visited (observe (((Invocation.run (testId "e") setupState).program (setup true)).trace
      (surroundings (stateless proceed) false 1) (World.fresh ())))).count (testId "a") ≤ 2 :=
  visits_le_of_leastFirst (setup true) (.run (testId "e") setupState) (runs_trace ..) (leastFirst_singleton _ _)
    { nodes := {testId "a", testId "b"}, maxIterations := 2 } (List.mem_singleton_self _) (by simp)

/-- The graph of the tests with a cycle of its own for `a` within the cycle of both nodes. -/
def nestedDefinition : GraphDefinitionV1 :=
  { setupDefinition true with
    transitions := (setupDefinition true).transitions ++
      [{ id := testId "again", source := testId "a", route := "again", target := testId "a" }]
    cycles := (setupDefinition true).cycles ++ [{ nodes := {testId "a"}, maxIterations := 1 }] }

theorem nestedDefinition_valid : nestedDefinition.validate = .ok () := by decide +kernel

/-- The scheduler of the tests on that graph. -/
def nested : Scheduler :=
  { setup true with
    graph :=
      { definition := nestedDefinition
        nodes := collect (nestedDefinition.nodes.map fun n => (n.id, n))
        routes := collect (nestedDefinition.transitions.map fun t => ((t.source, t.route), t.target))
        hash := "sha256:graph"
        valid := nestedDefinition_valid
        nodes_eq := rfl
        routes_eq := rfl } }

/-- The outer cycle, which is declared first, lets `a` be visited twice; the inner one allows one visit. -/
theorem nested_exceeds : ¬ ∀ (sch : Scheduler) (call : Invocation) (tr : List (Answered HostCall Answer))
    (res : Except Abort ExecutionReportV1) (n : NodeId), Runs (call.program sch) tr res →
    ∀ c ∈ sch.graph.definition.cycles, n ∈ c.nodes → (visited (observe tr)).count n ≤ c.maxIterations := by
  intro h
  have hrun := runs_trace (surroundings (stateless proceed) false 1)
    ((Invocation.run (testId "e") setupState).program nested) (World.fresh ())
  have hle := h nested _ _ _ (testId "a") hrun { nodes := {testId "a"}, maxIterations := 1 } (by simp [nested, nestedDefinition]) (by simp)
  revert hle
  decide +kernel

end Knolo.Runtime
