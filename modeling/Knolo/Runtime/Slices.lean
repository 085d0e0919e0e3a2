import Knolo.Runtime.Bounds
import Knolo.Runtime.Resumption
import Knolo.Runtime.Suspension

/-!
# Runs in slices

An executor with a budget does as one without, for so many node executions, and suspends the next. The
suspended run is resumed from its last checkpoint, which does not know of the suspension.

* `Budgeted` — an executor with a budget.
* `loop_sliced` — a slice ends as the whole run does, or is paused at one of its heads.
* `Acyclic` — no node is visited twice, and the check of the visits never sees a difference.
-/

namespace Knolo.Runtime

open Core Library Library.Fallible Library.Prog Relation

/-! ### Budgets -/

/-- What ends a slice. -/
def sliceEnd (reason : String) : NodeExecutionV1 := { outcome := .suspend reason none, tokens := 0, costMicros := 0 }

variable {X α : Type} {exec : Executor X} {f g : NodeRequest → Except CoreError NodeExecutionV1} {reason : String}
  {x : Option ℕ → X} {now : ℕ} {left : Option ℕ} {w : World X}

/-- The executor does as `f`, as often as is left, and suspends the next execution. `x` are its states. -/
structure Budgeted (exec : Executor X) (f : NodeRequest → Except CoreError NodeExecutionV1) (reason : String)
    (x : Option ℕ → X) : Prop where
  free : ∀ r, exec r (x none) = (f r, x none)
  spend : ∀ r n, exec r (x (some (n + 1))) = (f r, x (some n))
  ended : ∀ r, exec r (x (some 0)) = (.ok (sliceEnd reason), x (some 0))

/-- With nothing left, every execution is suspended. -/
theorem Budgeted.spent (h : Budgeted exec f reason x) :
    Budgeted exec (fun _ => .ok (sliceEnd reason)) reason fun _ => x (some 0) where
  free := h.ended
  spend r _ := h.ended r
  ended := h.ended

/-- How often the executor is called. -/
def callsOf (tr : List (Answered HostCall Answer)) : ℕ := (executions (observe tr)).length

variable (now) in
/-- A program that does not use up the budget does as without one. -/
theorem run_budgeted (h : Budgeted exec f reason x) (p : Run α) (hw : w.executor = x left)
    (hleft : ∀ n, left = some n → callsOf (p.calls (answers f now)) ≤ n) :
    (p.run (surroundings exec false now) w).1 = p.eval (answers f now) ∧
      p.trace (surroundings exec false now) w = p.calls (answers f now) ∧
      (p.run (surroundings exec false now) w).2.executor =
        x (left.map (· - callsOf (p.calls (answers f now)))) := by
  induction p generalizing left w with
  | ret a => exact ⟨rfl, rfl, by cases left <;> exact hw⟩
  | throw e => exact ⟨rfl, rfl, by cases left <;> exact hw⟩
  | call c k ih =>
    cases c with
    | execute r =>
      cases left with
      | none =>
        obtain ⟨hrun, htrace, hx⟩ := ih (f r) (w := { w with executor := x none }) (rfl : _ = x none) (by simp)
        have hexec : exec r w.executor = (f r, x none) := by rw [hw, h.free]
        simp only [run_call, trace_call, surroundings, hexec]
        exact ⟨hrun, congrArg _ htrace, hx⟩
      | some n =>
        have hn := hleft n rfl
        simp only [callsOf, calls, answers, observe_execute, executions_executed, List.length_cons] at hn
        obtain ⟨n, rfl⟩ : ∃ m, n = m + 1 := ⟨n - 1, by omega⟩
        have hexec : exec r w.executor = (f r, x (some n)) := by rw [hw, h.spend]
        obtain ⟨hrun, htrace, hx⟩ := ih (f r) (w := { w with executor := x (some n) }) (rfl : _ = x (some n))
          (by rintro _ ⟨⟩; exact Nat.le_of_succ_le_succ hn)
        simp only [run_call, trace_call, surroundings, hexec]
        refine ⟨hrun, congrArg _ htrace, hx.trans ?_⟩
        simp [callsOf, calls, answers]
    | cancelled =>
      obtain ⟨hrun, htrace, hx⟩ := ih false hw hleft
      exact ⟨hrun, congrArg (List.cons _) htrace, hx⟩
    | nowMs =>
      obtain ⟨hrun, htrace, hx⟩ := ih now hw hleft
      exact ⟨hrun, congrArg (List.cons _) htrace, hx⟩
    | emit e =>
      obtain ⟨hrun, htrace, hx⟩ := ih (.ok ()) (w := { w with sink := w.sink ++ [e] }) hw hleft
      exact ⟨hrun, congrArg (List.cons _) htrace, hx⟩
    | save cp =>
      obtain ⟨hrun, htrace, hx⟩ := ih (.ok ()) (w := { w with store := w.store.save cp }) hw hleft
      exact ⟨hrun, congrArg (List.cons _) htrace, hx⟩

/-- A program that does not call the executor does not depend on it. -/
theorem eval_of_no_calls (p : Run α) (h : callsOf (p.calls (answers f now)) = 0) :
    p.eval (answers g now) = p.eval (answers f now) ∧ p.calls (answers g now) = p.calls (answers f now) := by
  refine eval_congr p fun a ha => ?_
  obtain ⟨c, r⟩ := a
  cases c with
  | execute r' =>
    have hmem : Observation.executed r' r ∈ observe (p.calls (answers f now)) := List.mem_filterMap.mpr ⟨_, ha, rfl⟩
    have hcall : (r', r) ∈ executions (observe (p.calls (answers f now))) := List.mem_filterMap.mpr ⟨_, hmem, rfl⟩
    rw [List.length_eq_zero_iff.mp h] at hcall
    cases hcall
  | _ => rfl

/-! ### The end of a slice -/

namespace Scheduler

variable {sch : Scheduler} {id : ExecutionId} {s u v : RunState} {report : ExecutionReportV1}

/-- A slice that ends at head `u`. -/
def pausedAt (id : ExecutionId) (reason : String) (now : ℕ) (u : RunState) : RunState :=
  ((u.visit.noted id (.nodeStarted 1) now).charge (sliceEnd reason)).noted id (.suspended reason) now

/-- There is room for the events of a slice's end. -/
structure Roomy (u : RunState) : Prop where
  seq : u.seq + 2 ≤ u64Max
  steps : u.steps + 1 ≤ u64Max

/-- The counters of a head that an execution has led to. -/
structure Settled (sch : Scheduler) (u : RunState) : Prop where
  afforded : sch.Afforded u
  ranges : u.tokens ≤ u64Max ∧ u.cost ≤ u64Max

theorem eval_attempts_end (hret : sch.policy.maxRetries = 0) (hs : s.seq + 1 ≤ u64Max) :
    (sch.attempts id s).eval (answers (fun _ => .ok (sliceEnd reason)) now) =
      .ok (.inl (s.noted id (.nodeStarted 1) now, sliceEnd reason)) := by
  have hone : checkedAdd u32Max 0 1 = .ok 1 := by decide
  have hseq : checkedAdd u64Max s.seq 1 = .ok (s.seq + 1) := if_pos hs
  rw [attempts, hret, loop_succ, attempt]
  simp only [eval_bind, eval_ofExcept, hone, ok_bind, eval_event, hseq, Except.map, ask_bind, eval_call, answers,
    liftError, sliceEnd, NodeOutcomeV1.retryableError]
  rfl

theorem eval_settle_end {d : NodeDefinitionV1} (hseq : s.seq + 1 ≤ u64Max) (hsteps : s.steps + 1 ≤ u64Max)
    (ha : sch.Settled s) : (sch.settle id d s (sliceEnd reason)).eval (answers f now) =
      .ok (.inr (((s.charge (sliceEnd reason)).noted id (.suspended reason) now).report (.suspended reason))) := by
  have htokens : satAdd s.tokens 0 = s.tokens := min_eq_left ha.ranges.1
  have hcost : satAdd s.cost 0 = s.cost := min_eq_left ha.ranges.2
  have hs : checkedAdd u64Max s.steps 1 = .ok (s.steps + 1) := if_pos hsteps
  have hq : checkedAdd u64Max s.seq 1 = .ok (s.seq + 1) := if_pos hseq
  have hover : ¬sch.graph.limits.maxTokens < satAdd s.tokens 0 := by
    rw [htokens]
    exact Nat.not_lt.mpr ha.afforded.tokens
  have hdear : ¬sch.graph.limits.maxCostMicros < satAdd s.cost 0 := by
    rw [hcost]
    exact Nat.not_lt.mpr ha.afforded.cost
  simp only [settle, hs, ofExcept_ok, ret_bind, RunState.charge_tokens, RunState.charge_cost, sliceEnd, hover, hdear,
    if_false, decision, liftError, conclude, commit, pure_def, record, eval_bind, eval_event, RunState.charge_seq, hq,
    Except.map, ok_bind, eval_ret]
  rfl

variable (sch id) in
/-- The checks at the head do not call the executor. -/
theorem enter_calls (start : ℕ) (s : RunState) : (sch.enter id start s).Sat fun tr _ => callsOf tr = 0 := by
  have hfail : ∀ (msg : String) (u : RunState) (tr₀ : List (Answered HostCall Answer)), observe tr₀ = [] →
      (Sum.inr <$> fail id u msg : Run ((RunState × NodeDefinitionV1) ⊕ ExecutionReportV1)).Sat
        fun tr _ => callsOf (tr₀ ++ tr) = 0 := by
    intro msg u tr₀ htr₀
    refine sat_bind.mpr ((fail_sat id u msg).mono fun tr res h => ?_)
    cases res with
    | ok report =>
      obtain ⟨t, hobs, -⟩ := h
      simp [callsOf, htr₀, hobs]
    | error e => simp [callsOf, htr₀, h.1]
  unfold enter
  simp only [ask_bind, sat_call]
  intro cancelled
  split
  · refine (event_sat ..).bind (fun tr u hu => ?_) fun tr e he => by simp [callsOf, he.1]
    obtain ⟨t, hobs, -⟩ := hu
    simp [callsOf, hobs]
  split
  · exact hfail _ s [⟨.cancelled, cancelled⟩] rfl
  simp only [sat_call]
  intro t
  split
  · exact hfail _ s [⟨.cancelled, cancelled⟩, ⟨.nowMs, t⟩] rfl
  refine Sat.ofExcept_bind (fun exceeded _ => ?_) fun e _ => rfl
  split
  · exact hfail _ s.visit [⟨.cancelled, cancelled⟩, ⟨.nowMs, t⟩] rfl
  · cases sch.graph.node s.node <;> rfl

/-- With nothing left, a turn ends as ever at the checks, or it pauses the run. -/
theorem eval_iterate_end (hret : sch.policy.maxRetries = 0) (hr : Roomy u) (hu : sch.Settled u)
    {out : RunState ⊕ ExecutionReportV1} (hout : (sch.iterate id now u).eval (answers f now) = .ok out) :
    (∃ report, out = .inr report ∧
        (sch.iterate id now u).eval (answers (fun _ => .ok (sliceEnd reason)) now) = .ok (.inr report)) ∨
      (sch.iterate id now u).eval (answers (fun _ => .ok (sliceEnd reason)) now) =
        .ok (.inr ((pausedAt id reason now u).report (.suspended reason))) := by
  have henter := sat_iff_runs.mp (sch.enter_sat id now u) _ _ (runs_calls (answers f now) _)
  have hcalls := sat_iff_runs.mp (sch.enter_calls id now u) _ _ (runs_calls (answers f now) _)
  have hsame := (eval_of_no_calls (g := fun _ => .ok (sliceEnd reason)) (sch.enter id now u) hcalls).1
  rw [iterate, eval_bind] at hout ⊢
  rw [hsame]
  cases he : (sch.enter id now u).eval (answers f now) with
  | error e =>
    rw [he] at hout
    cases hout
  | ok entered =>
    rw [he] at hout henter
    cases entered with
    | inr report =>
      cases hout
      exact .inl ⟨report, rfl, rfl⟩
    | inl p =>
      obtain ⟨s, d⟩ := p
      obtain ⟨rfl, -, -⟩ := henter
      refine .inr ?_
      have hs : (u.visit.noted id (.nodeStarted 1) now).seq + 1 ≤ u64Max := hr.seq
      have hatt : (sch.attempts id u.visit).eval (answers (fun _ => .ok (sliceEnd reason)) now) = _ :=
        eval_attempts_end hret (Nat.le_of_succ_le hr.seq)
      simp only [ok_bind, eval_bind, hatt]
      exact eval_settle_end hs hr.steps ⟨⟨hu.afforded.tokens, hu.afforded.cost⟩, hu.ranges⟩

/-! ### A slice -/

/-- The checkpoint is one of head `u`. -/
structure Marks (sch : Scheduler) (id : ExecutionId) (cp : CheckpointV1) (u : RunState) : Prop where
  restart : RunState.ofCheckpoint cp = u.restart
  executionId : cp.executionId = id
  check : (Invocation.resume cp).check sch = .ok ()

/-- A turn that goes on saves the checkpoint of the head it goes on to. -/
theorem Turn.marks {obs : List Observation} (h : sch.Turn id s obs (.ok (.inl v))) :
    ∃ cp, saves obs = [cp] ∧ sch.Marks id cp v := by
  have hone : ∃ cp, saves obs = [cp] := by
    cases h with
    | goesOn h _ _ => exact ⟨_, by simp only [saves_append, h.completion.saves]; rfl⟩
  obtain ⟨cp, hcp⟩ := hone
  have hmem : cp ∈ saves obs := hcp ▸ List.mem_singleton_self cp
  obtain ⟨v', hv', hstart, hid, hcheck⟩ := h.saved hmem
  cases hv'
  exact ⟨cp, hcp, hstart, hid, hcheck⟩

theorem Turn.settled {obs : List Observation} (h : sch.Turn id s obs (.ok (.inl v))) : sch.Settled v := by
  cases h with
  | goesOn h _ _ => exact ⟨⟨h.completion.afforded.tokens, h.completion.afforded.cost⟩, h.completion.ranges⟩

/-- Without retries, a turn calls the executor at most once. -/
theorem Turn.calls_le {obs : List Observation} {res : Except Abort (RunState ⊕ ExecutionReportV1)}
    (h : sch.Turn id s obs res) (hret : sch.policy.maxRetries = 0) : (executions obs).length ≤ 1 := by
  rcases h.oneVisit with h0 | ⟨-, -, hcalls⟩
  · simp [h0]
  · rwa [hret] at hcalls

/-- Without retries, a turn that goes on has called the executor once. -/
theorem Turn.calls_eq {obs : List Observation} (h : sch.Turn id s obs (.ok (.inl v)))
    (hret : sch.policy.maxRetries = 0) : (executions obs).length = 1 := by
  refine le_antisymm (h.calls_le hret) ?_
  cases h with
  | goesOn h _ _ =>
    have hvisit := congrArg List.length h.oneVisit.2.visited
    simp only [visited, List.length_singleton] at hvisit
    simp only [executions_append, List.length_append]
    have := List.length_filterMap_le visit (executions ‹_›)
    omega

/-- The loop from `s`, after `n` steps, is paused at `u`, and the store has a checkpoint of it. -/
structure Pauses (sch : Scheduler) (id : ExecutionId) (f : NodeRequest → Except CoreError NodeExecutionV1) (now : ℕ)
    (reason : String) (s : RunState) (n : ℕ) (out : Except Abort ExecutionReportV1 × World X) (u : RunState) : Prop where
  passes : Steps (answers f now) (sch.iterate id now) s u
  steps : u.steps = s.steps + n
  report : out.1 = .ok ((pausedAt id reason now u).report (.suspended reason))
  checkpoint : ∃ cp, out.2.store.load id = some cp ∧ sch.Marks id cp u

/-- With nothing left, a turn reports as the whole loop does, or is paused. -/
theorem iterate_ended (hb : Budgeted exec f reason x) (hret : sch.policy.maxRetries = 0) (hw : w.executor = x (some 0))
    (hr : Roomy s) (hs : sch.Settled s) (hcp : ∃ cp, w.store.load id = some cp ∧ sch.Marks id cp s)
    {out : RunState ⊕ ExecutionReportV1} (hout : (sch.iterate id now s).eval (answers f now) = .ok out) :
    ∃ report, ((sch.iterate id now s).run (surroundings exec false now) w).1 = .ok (.inr report) ∧
      (out = .inr report ∨ sch.Pauses id f now reason s 0
        (.ok report, ((sch.iterate id now s).run (surroundings exec false now) w).2) s) := by
  obtain ⟨hrun, htrace, -⟩ := @run_budgeted _ _ _ _ _ _ now none _ hb.spent (sch.iterate id now s) hw (by simp)
  have hend := @eval_iterate_end _ reason now _ id _ hret hr hs _ hout
  rcases hend with ⟨report, rfl, heval⟩ | heval
  · exact ⟨report, hrun.trans heval, .inl rfl⟩
  · have hturn := sat_iff_runs.mp (sch.iterate_turn id now s) _ _
      (runs_calls (answers (fun _ => .ok (sliceEnd reason)) now) _)
    rw [heval] at hturn
    have hstore : ((sch.iterate id now s).run (surroundings exec false now) w).2.store = w.store := by
      rw [store_run, htrace, (hturn.suspended rfl).1, InMemoryCheckpointStore.saveAll_nil]
    refine ⟨_, hrun.trans heval, .inr ⟨.refl, rfl, rfl, ?_⟩⟩
    rwa [hstore]

/-- While something is left, a turn does as without a budget. -/
theorem iterate_budgeted (hb : Budgeted exec f reason x) (hret : sch.policy.maxRetries = 0) (hw : w.executor = x left)
    (hleft : left ≠ some 0) {out : RunState ⊕ ExecutionReportV1}
    (hout : (sch.iterate id now s).eval (answers f now) = .ok out) :
    ((sch.iterate id now s).run (surroundings exec false now) w).1 = .ok out ∧
      ∀ v, out = .inl v → sch.Settled v ∧ v.steps = s.steps + 1 ∧
        ((sch.iterate id now s).run (surroundings exec false now) w).2.executor = x (left.map (· - 1)) ∧
        ∃ cp, ((sch.iterate id now s).run (surroundings exec false now) w).2.store.load id = some cp ∧
          sch.Marks id cp v := by
  have hturn := sat_iff_runs.mp (sch.iterate_turn id now s) _ _ (runs_calls (answers f now) _)
  rw [hout] at hturn
  obtain ⟨hrun, htrace, hx⟩ := run_budgeted now hb (sch.iterate id now s) hw fun n hn => by
    have hpos : n ≠ 0 := fun h => hleft (by rw [hn, h])
    exact (hturn.calls_le hret).trans (Nat.one_le_iff_ne_zero.mpr hpos)
  refine ⟨hrun.trans hout, ?_⟩
  rintro v rfl
  obtain ⟨cp, hsaves, hmarks⟩ := hturn.marks
  refine ⟨hturn.settled, hturn.steps.1, ?_, cp, ?_, hmarks⟩
  · rw [hx, callsOf, hturn.calls_eq hret]
  · rw [store_run, htrace, hsaves, InMemoryCheckpointStore.load_saveAll]
    · rfl
    · intro cp' hcp'
      rw [List.mem_singleton.mp hcp', hmarks.executionId]

/-- **A slice of a loop** ends as the whole loop does, or is paused at a head, as many steps on as the
budget allows. -/
theorem loop_sliced (hb : Budgeted exec f reason x) (hret : sch.policy.maxRetries = 0) (m : ℕ) :
    ∀ (s : RunState) (left : Option ℕ) (w : World X), w.executor = x left →
      (loop (.throw .stuck) (sch.iterate id now) m s).eval (answers f now) = .ok report →
      (∀ u, Steps (answers f now) (sch.iterate id now) s u → Roomy u) →
      (left = some 0 → sch.Settled s ∧ ∃ cp, w.store.load id = some cp ∧ sch.Marks id cp s) →
      ((loop (.throw .stuck) (sch.iterate id now) m s).run (surroundings exec false now) w).1 = .ok report ∨
        ∃ n u, left = some n ∧ sch.Pauses id f now reason s n
          ((loop (.throw .stuck) (sch.iterate id now) m s).run (surroundings exec false now) w) u := by
  induction m with
  | zero =>
    intro s left w _ hfull
    cases hfull
  | succ m ih =>
    intro s left w hw hfull hroom hzero
    rw [loop_succ, eval_bind] at hfull
    rw [loop_succ, run_bind]
    cases hout : (sch.iterate id now s).eval (answers f now) with
    | error e =>
      rw [hout] at hfull
      cases hfull
    | ok out =>
      rw [hout] at hfull
      by_cases hleft : left = some 0
      · subst hleft
        obtain ⟨hsettled, hcp⟩ := hzero rfl
        obtain ⟨report', hrun, hends⟩ := iterate_ended hb hret hw (hroom s .refl) hsettled hcp hout
        rw [← Prod.eta ((sch.iterate id now s).run (surroundings exec false now) w), hrun]
        rcases hends with rfl | hpauses
        · exact .inl hfull
        · exact .inr ⟨0, s, rfl, hpauses⟩
      · obtain ⟨hrun, hnext⟩ := iterate_budgeted hb hret hw hleft hout
        rw [← Prod.eta ((sch.iterate id now s).run (surroundings exec false now) w), hrun]
        cases out with
        | inr report' => exact .inl hfull
        | inl v =>
          obtain ⟨hsettled, hsteps, hx, hcp⟩ := hnext v rfl
          rcases ih v _ _ hx hfull (fun u hu => hroom u (.head hout hu)) (fun _ => ⟨hsettled, hcp⟩) with
            hends | ⟨n, u, hn, hpauses⟩
          · exact .inl hends
          · obtain ⟨n', rfl, hn'⟩ := Option.map_eq_some_iff.mp hn
            have hpos : n' ≠ 0 := fun h => hleft (by rw [h])
            refine .inr ⟨n', u, rfl, hpauses.passes.head hout, ?_, hpauses.report, hpauses.checkpoint⟩
            have := hpauses.steps
            omega

end Scheduler

/-! ### Graphs without cycles -/

open Scheduler

variable {sch : Scheduler} {call : Invocation} {report : ExecutionReportV1} {u v b : RunState} {cp : CheckpointV1}

/-- No walk comes back to a node. -/
def Acyclic (g : CompiledGraphV1) : Prop := ∀ n, ¬TransGen g.Next n n

/-- A head is reached by turns. -/
theorem Invocation.Reaches.turns (h : call.Reaches sch f now u) :
    ∃ obs s obs', sch.Begun call obs s ∧ sch.Turns call.id s obs' u := by
  obtain ⟨tr, hhead⟩ := h.head
  obtain ⟨obs, s, obs', hbegun, hturns, -⟩ := head_turns hhead
  exact ⟨obs, s, obs', hbegun, hturns⟩

theorem Scheduler.Begun.visits {obs : List Observation} {s : RunState} (h : sch.Begun call obs s) (n : NodeId) :
    s.visits n = 0 := by
  rw [h.eq_after]
  cases call <;> rfl

/-- Turns visit a node once. -/
theorem Scheduler.Turns.nodup (ha : Acyclic sch.graph) {id : ExecutionId} {s : RunState} {obs : List Observation}
    (hs : ∀ n, s.visits n = 0) (h : sch.Turns id s obs u) : (visited obs).Nodup := by
  induction h with
  | start => exact List.nodup_nil
  | @step obs obs' u v hts ht ih =>
    obtain ⟨hwalk, -⟩ := hts.walk hs
    cases ht with
    | goesOn hc _ _ =>
      have hvisit := hc.oneVisit.2.visited
      simp only [visited_append, hvisit, visited_emitted, visited_saved, visited_nil, List.append_nil]
      refine List.nodup_append'.mpr ⟨ih, List.nodup_singleton _, ?_⟩
      intro n hn hn'
      rw [List.mem_singleton.mp hn'] at hn
      exact ha _ (hwalk.reach _ hn)

/-- The pending node was not visited. -/
theorem Invocation.Reaches.unvisited (ha : Acyclic sch.graph) (h : call.Reaches sch f now u) : u.visits u.node = 0 := by
  obtain ⟨obs, s, obs', hbegun, hturns⟩ := h.turns
  obtain ⟨hwalk, -⟩ := hturns.walk hbegun.visits
  rw [hwalk.visits]
  refine List.count_eq_zero_of_not_mem fun hmem => ?_
  exact ha _ (hwalk.reach _ hmem)

/-- There are no more steps than nodes. -/
theorem Invocation.Reaches.steps_le (ha : Acyclic sch.graph) (h : call.Reaches sch f now u) :
    u.steps ≤ (call.initial sch).steps + sch.graph.definition.nodes.length := by
  obtain ⟨obs, s, obs', hbegun, hturns⟩ := h.turns
  obtain ⟨hwalk, -⟩ := hturns.walk hbegun.visits
  have hlen := (List.subperm_of_subset (hturns.nodup ha hbegun.visits) hwalk.within.declared).length_le
  have hsteps : s.steps = (call.initial sch).steps := by rw [hbegun.eq_after, RunState.after_steps]
  rw [List.length_map] at hlen
  have := hwalk.steps
  omega

theorem Scheduler.Committed.seq_le {id : ExecutionId} {d : NodeDefinitionV1} {s : RunState} {p : Option StatePatch}
    {obs : List Observation} (h : sch.Committed id d s p obs v) : s.seq ≤ v.seq ∧ v.seq ≤ s.seq + 1 := by
  cases h with
  | without => exact ⟨le_rfl, Nat.le_succ _⟩
  | applied _ => exact ⟨Nat.le_succ _, le_rfl⟩

theorem Scheduler.Recorded.seq_le {id : ExecutionId} {s : RunState} {kind : Option EventKindV1}
    {obs : List Observation} (h : Recorded id s kind obs v) : s.seq ≤ v.seq ∧ v.seq ≤ s.seq + 1 := by
  cases h with
  | without => exact ⟨le_rfl, Nat.le_succ _⟩
  | noted => exact ⟨Nat.le_succ _, le_rfl⟩

/-- Without retries, a turn that goes on emits at most four events. -/
theorem Scheduler.Turn.seq_le {id : ExecutionId} {s : RunState} {obs : List Observation}
    (h : sch.Turn id s obs (.ok (.inl v))) (hret : sch.policy.maxRetries = 0) : s.seq < v.seq ∧ v.seq ≤ s.seq + 4 := by
  cases h with
  | @goesOn obs w dec pending t h _ _ =>
    cases h with
    | @mk d obs₁ obs₂ obs₃ u' v' _ x _ _ hx _ _ hc hr =>
      have hstarted : u'.seq = s.seq + 1 := by
        cases hx with
        | @last n obs u'' _ t hretried hn _ =>
          obtain rfl : n = 0 := by omega
          cases hretried with
          | start => rfl
      have hcommitted := hc.seq_le
      have hrecorded := hr.seq_le
      simp only [RunState.charge_seq] at hcommitted
      simp only [RunState.noted_eq_after, RunState.after_seq, emissions_emitted, emissions_nil, List.length_singleton]
      omega

theorem Scheduler.Turns.seq_le {id : ExecutionId} {s : RunState} {obs : List Observation} (h : sch.Turns id s obs u)
    (hret : sch.policy.maxRetries = 0) :
    s.steps ≤ u.steps ∧ s.seq + (u.steps - s.steps) ≤ u.seq ∧ u.seq ≤ s.seq + 4 * (u.steps - s.steps) := by
  induction h with
  | start => simp
  | step _ ht ih =>
    obtain ⟨hlt, hle⟩ := ht.seq_le hret
    have := ht.steps.1
    omega

/-- The events of a run are bounded by its steps. -/
theorem Invocation.Reaches.seq_le (hret : sch.policy.maxRetries = 0) (h : call.Reaches sch f now u) :
    (call.initial sch).steps ≤ u.steps ∧
      (call.initial sch).seq + (u.steps - (call.initial sch).steps) ≤ u.seq ∧
      u.seq ≤ (call.initial sch).seq + 1 + 4 * (u.steps - (call.initial sch).steps) := by
  obtain ⟨obs, s, obs', hbegun, hturns⟩ := h.turns
  have hseq : (call.initial sch).seq ≤ s.seq ∧ s.seq ≤ (call.initial sch).seq + 1 := by
    cases hbegun with
    | run _ _ _ _ => exact ⟨Nat.le_succ _, le_rfl⟩
    | resume _ _ _ _ => exact ⟨le_rfl, Nat.le_succ _⟩
  have hsteps : s.steps = (call.initial sch).steps := by rw [hbegun.eq_after, RunState.after_steps]
  have := hturns.seq_le hret
  omega

/-- No visit is forgotten that the check could see. -/
theorem Acyclic.forgotten (ha : Acyclic sch.graph) (h : call.Reaches sch f now u) (v : RunState) :
    sch.visitCheck u = sch.visitCheck (u.since v) := by
  refine visitCheck_congr rfl ?_
  simp [RunState.since, h.unvisited ha]

/-! ### Nodes that never suspend -/

/-- No node of the graph suspends. -/
def NeverSuspends (g : CompiledGraphV1) (f : NodeRequest → Except CoreError NodeExecutionV1) : Prop :=
  ∀ r y, (g.node r.nodeId).isSome → f r = .ok y → ∀ reason patch, y.outcome ≠ .suspend reason patch

/-- A turn that suspends has executed a node that does. -/
theorem Scheduler.Turn.suspends {id : ExecutionId} {s : RunState} {obs : List Observation}
    (h : sch.Turn id s obs (.ok (.inr report))) (hr : report.status = .suspended reason) :
    ∃ d n y patch, sch.graph.node s.node = some d ∧ (s.request n, .ok y) ∈ executions obs ∧
      y.outcome = .suspend reason patch := by
  cases h with
  | refused _ hk =>
    rcases hk with ⟨-, rfl⟩ | ⟨msg, -, rfl⟩ <;> simp [RunState.report] at hr
  | exhausted _ _ => simp [RunState.report] at hr
  | overBudget _ _ => simp [RunState.report] at hr
  | @ended obs w dec status h hstatus =>
    obtain rfl : status = .suspended reason := hr
    cases h with
    | @mk d obs₁ obs₂ obs₃ u' v' _ y _ hd hx _ hdec _ _ =>
      have hmem : ∃ n, (s.request n, .ok y) ∈ executions obs₁ := by
        cases hx with
        | last _ _ _ => exact ⟨_, by rw [executions_append]; exact List.mem_append_right _ (List.mem_singleton_self _)⟩
      obtain ⟨n, hmem⟩ := hmem
      have hmem' : (s.request n, .ok y) ∈ executions (obs₁ ++ obs₂ ++ obs₃) := by
        simp only [executions_append, List.mem_append]
        exact .inl (.inl hmem)
      cases hy : y.outcome with
      | suspend reason' patch =>
        rw [hy] at hdec
        cases hdec
        cases hstatus
        exact ⟨d, n, y, patch, hd.node, hmem', hy⟩
      | route route patch =>
        rw [hy, decision] at hdec
        split at hdec <;> cases hdec
        cases hstatus
      | _ =>
        rw [hy] at hdec
        cases hdec
        cases hstatus

/-- Where no node suspends, no run does. -/
theorem not_suspended (hf : NeverSuspends sch.graph f) (hfull : (call.program sch).eval (answers f now) = .ok report) :
    report.status ≠ .suspended reason := by
  intro hr
  have hruns := runs_calls (answers f now) (call.program sch)
  rw [hfull] at hruns
  rcases runs_turns hruns with ⟨-, e, he, -⟩ | ⟨obs, s, obs', u, obs'', -, -, hl, hobs⟩
  · cases he
  · obtain ⟨d, n, y, patch, hd, hmem, hy⟩ := Turn.suspends hl hr
    have hcall : (u.request n, .ok y) ∈ executions (observe ((call.program sch).calls (answers f now))) := by
      rw [hobs]
      simp only [executions_append, List.mem_append]
      exact .inr hmem
    have hanswer := mem_calls (mem_executions_observe hcall)
    exact hf (u.request n) y (by rw [show (u.request n).nodeId = u.node from rfl, hd]; rfl) hanswer.symm reason patch hy

/-! ### Slices of a run -/

/-- **A slice of a call** ends as the whole call does, or is paused at a head. -/
theorem call_sliced (hb : Budgeted exec f reason x) (hret : sch.policy.maxRetries = 0) (hw : w.executor = x left)
    (hleft : left ≠ some 0) (hfull : (call.program sch).eval (answers f now) = .ok report)
    (hroom : ∀ u, call.Reaches sch f now u → Roomy u) :
    ((call.program sch).run (surroundings exec false now) w).1 = .ok report ∨
      ∃ n s u, left = some n ∧ (call.prepare sch).eval (answers f now) = .ok (now, s) ∧
        s.steps = (call.initial sch).steps ∧
        sch.Pauses call.id f now reason s n ((call.program sch).run (surroundings exec false now) w) u := by
  have hprep := sat_iff_runs.mp (sch.prepare_sat call) _ _ (runs_calls (answers f now) _)
  rw [Invocation.program_eq] at hfull ⊢
  rw [eval_bind] at hfull
  rw [run_bind]
  cases hp : (call.prepare sch).eval (answers f now) with
  | error e =>
    rw [hp] at hfull
    cases hfull
  | ok p =>
    obtain ⟨t, s⟩ := p
    obtain rfl := prepare_start hp
    rw [hp] at hfull hprep
    have hcalls : callsOf ((call.prepare sch).calls (answers f t)) = 0 := by simp [callsOf, hprep.quiet.1]
    obtain ⟨hrun, -, hx⟩ := run_budgeted t hb (call.prepare sch) hw fun n _ => by simp [hcalls]
    rw [hcalls] at hx
    have hsame : left.map (· - 0) = left := by cases left <;> rfl
    rw [hsame] at hx
    rw [← Prod.eta ((call.prepare sch).run (surroundings exec false t) w), hrun, hp]
    rcases loop_sliced hb hret _ s left _ hx hfull (fun u hu => hroom u ⟨s, hp, hu⟩) (fun h => absurd h hleft) with
      hends | ⟨n, u, hn, hpauses⟩
    · exact .inl hends
    · refine .inr ⟨n, s, u, hn, rfl, ?_, hpauses⟩
      rw [hprep.eq_after, RunState.after_steps]

/-- A checkpoint of a head the call passes through. -/
theorem Scheduler.Marks.resumed (h : sch.Marks call.id cp u) (hu : call.Reaches sch f now u) :
    Resumed sch call f now cp u :=
  ⟨hu, h.restart, h.executionId, h.check⟩

namespace Resumed

variable (h : Resumed sch call f now cp v) (ha : Acyclic sch.graph)
include h ha

/-- A resumed run passes the heads of the whole run. -/
theorem lagged (hb : (Invocation.resume cp).Passes sch f now v.restart b) :
    call.Passes sch f now v (b.lag v.events v.visits) := by
  induction hb with
  | refl =>
    rw [RunState.lag_restart]
    exact .refl
  | @tail b b' hb hstep ih =>
    have hid : (Invocation.resume cp).id = call.id := h.executionId
    obtain ⟨s, hs, hv⟩ := h.reaches
    have hagree : sch.visitCheck (b.lag v.events v.visits) = sch.visitCheck b := by
      rw [ha.forgotten ⟨s, hs, hv.trans ih⟩ v, visitCheck_since_lag]
    refine ih.tail ?_
    rw [hid] at hstep
    rw [Step, sch.iterate_lag call.id v.events v.visits now b fun _ => hagree, eval_map, hstep]
    rfl

/-- A resumed run ends as the whole run does. -/
theorem ends (hfull : (call.program sch).eval (answers f now) = .ok report) :
    ((Invocation.resume cp).program sch).eval (answers f now) = .ok (report.after cp.eventCursor) := by
  obtain ⟨s, hs, hv⟩ := h.reaches
  rw [h.eval_eq fun u hu _ => ha.forgotten ⟨s, hs, hv.trans hu⟩ v, hfull]
  rfl

/-- **A slice of a resumed run** ends as the whole run does, or is paused at a head of it. -/
theorem sliced (hb : Budgeted exec f reason x) (hret : sch.policy.maxRetries = 0) (hw : w.executor = x left)
    (hleft : left ≠ some 0) (hfull : (call.program sch).eval (answers f now) = .ok report)
    (hroom : ∀ u, call.Reaches sch f now u → Roomy u) :
    (((Invocation.resume cp).program sch).run (surroundings exec false now) w).1 =
        .ok (report.after cp.eventCursor) ∨
      ∃ n b cp', left = some n ∧ b.steps = v.steps + n ∧ v.seq + n ≤ b.seq ∧
        Resumed sch call f now cp' (b.lag v.events v.visits) ∧
        (((Invocation.resume cp).program sch).run (surroundings exec false now) w).1 =
          .ok ((pausedAt call.id reason now b).report (.suspended reason)) ∧
        (((Invocation.resume cp).program sch).run (surroundings exec false now) w).2.store.load call.id = some cp' := by
  have hid : (Invocation.resume cp).id = call.id := h.executionId
  obtain ⟨s₀, hs₀, hv⟩ := h.reaches
  have hpasses : ∀ b, (Invocation.resume cp).Reaches sch f now b →
      (Invocation.resume cp).Passes sch f now v.restart b := by
    rintro b ⟨s, hs, hsb⟩
    rw [h.prepare] at hs
    cases hs
    exact hsb
  have hroom' : ∀ b, (Invocation.resume cp).Reaches sch f now b → Roomy b := by
    intro b hb
    have hu := hroom _ ⟨s₀, hs₀, hv.trans (h.lagged ha (hpasses b hb))⟩
    exact ⟨hu.seq, hu.steps⟩
  rcases call_sliced hb hret hw hleft (h.ends ha hfull) hroom' with hends | ⟨n, s, b, hn, hs, hsteps, hpauses⟩
  · exact .inl hends
  · have hreach : (Invocation.resume cp).Reaches sch f now b := ⟨s, hs, hpauses.passes⟩
    have hstart : (RunState.ofCheckpoint cp).steps = v.steps := by rw [h.restart]; rfl
    have hseq : (RunState.ofCheckpoint cp).seq = v.seq := by rw [h.restart]; rfl
    have hbounds := hreach.seq_le hret
    have hb' := hpauses.steps
    simp only [Invocation.initial] at hbounds hsteps
    obtain ⟨cp', hcp', hmarks⟩ := hpauses.checkpoint
    have hreport := hpauses.report
    rw [hid] at hcp' hmarks hreport
    have hlag : sch.Marks call.id cp' (b.lag v.events v.visits) := ⟨hmarks.restart, hmarks.executionId, hmarks.check⟩
    exact .inr ⟨n, b, cp', hn, by omega, by omega,
      hlag.resumed ⟨s₀, hs₀, hv.trans (h.lagged ha (hpasses b hreach))⟩, hreport, hcp'⟩

end Resumed

end Knolo.Runtime
