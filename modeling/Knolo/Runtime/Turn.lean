import Knolo.Runtime.Observation

/-!
# One turn of the loop

What one turn of the scheduler's loop can do, said once: `Turn s obs res` relates the
state at the loop head, what the turn leaves outside the run, and how it ends. Every
property of runs is derived from it, case by case, and none unfolds the loop.

The phases of a turn have relations of their own: `Retried` (failures that were
retried), `Executed` (the execution that completes), `Committed` and `Recorded` (the
patch and the decision event), put together by `Completed`.

* `iterate_turn` — `iterate` does nothing else.
-/

namespace Knolo.Runtime

open Core Library Library.Fallible Library.Prog

namespace RunState

/-- The request of the attempt after `n` retries. -/
def request (s : RunState) (n : ℕ) : NodeRequest :=
  { nodeId := s.node, state := s.state, attempt := n + 1 }

end RunState

namespace Scheduler

variable (sch : Scheduler) (id : ExecutionId)

/-! ### The retry loop -/

/-- `n` attempts at the pending node of `s` failed and were retried. -/
inductive Retried (s : RunState) : ℕ → List Observation → RunState → Prop
  /-- Nothing was tried yet. -/
  | start : Retried s 0 [] s
  /-- One more attempt failed and is retried. -/
  | again {n : ℕ} {obs : List Observation} {u : RunState} {x : NodeExecutionV1} {err : String}
      {t q : ℕ} :
      Retried s n obs u → x.outcome.retryableError = some err → n < sch.policy.maxRetries →
      Retried s (n + 1)
        (obs ++ [.emitted (u.nodeEvent id (.nodeStarted (n + 1)) t), .executed (s.request n) (.ok x),
          .emitted ((u.noted id (.nodeStarted (n + 1)) t).nodeEvent id (.retrying (n + 2)) q)])
        ((u.noted id (.nodeStarted (n + 1)) t).noted id (.retrying (n + 2)) q)

/-- The pending node of `s` was executed, after retries, and does not ask for another one. -/
inductive Executed (s : RunState) : List Observation → RunState → NodeExecutionV1 → Prop
  /-- The last attempt. -/
  | last {n : ℕ} {obs : List Observation} {u : RunState} {x : NodeExecutionV1} {t : ℕ} :
      sch.Retried id s n obs u → n ≤ sch.policy.maxRetries → x.outcome.retryableError = none →
      Executed s (obs ++ [.emitted (u.nodeEvent id (.nodeStarted (n + 1)) t),
          .executed (s.request n) (.ok x)])
        (u.noted id (.nodeStarted (n + 1)) t) x

/-- The last retry of the pending node of `s` failed. -/
inductive Exhausted (s : RunState) : List Observation → RunState → String → Prop
  /-- The last attempt. -/
  | last {n : ℕ} {obs : List Observation} {u : RunState} {x : NodeExecutionV1} {err : String}
      {t q : ℕ} :
      sch.Retried id s n obs u → n = sch.policy.maxRetries → x.outcome.retryableError = some err →
      Exhausted s (obs ++ [.emitted (u.nodeEvent id (.nodeStarted (n + 1)) t),
          .executed (s.request n) (.ok x),
          .emitted ((u.noted id (.nodeStarted (n + 1)) t).nodeEvent id (.failed err) q)])
        ((u.noted id (.nodeStarted (n + 1)) t).noted id (.failed err) q) err

/-- The retry loop was cut off by an error or an overflow. -/
inductive Interrupted (s : RunState) : List Observation → Prop
  /-- Between attempts. -/
  | between {n : ℕ} {obs : List Observation} {u : RunState} :
      sch.Retried id s n obs u → n ≤ sch.policy.maxRetries → Interrupted s obs
  /-- After the last attempt was made. -/
  | during {n : ℕ} {obs : List Observation} {u : RunState} {t : ℕ}
      {a : Except CoreError NodeExecutionV1} :
      sch.Retried id s n obs u → n ≤ sch.policy.maxRetries →
      Interrupted s (obs ++ [.emitted (u.nodeEvent id (.nodeStarted (n + 1)) t),
          .executed (s.request n) a])
  /-- Before the last attempt was made. -/
  | before {n : ℕ} {obs : List Observation} {u : RunState} {t : ℕ} :
      sch.Retried id s n obs u → n ≤ sch.policy.maxRetries →
      Interrupted s (obs ++ [.emitted (u.nodeEvent id (.nodeStarted (n + 1)) t)])

variable {sch id}

/-- Retrying changes nothing but the log. -/
theorem Retried.eq_after {s u : RunState} {n : ℕ} {obs : List Observation}
    (h : sch.Retried id s n obs u) : u = s.after obs := by
  induction h with
  | start => simp
  | again _ _ _ ih => simp [ih, RunState.noted_eq_after, RunState.after, Nat.add_assoc]

theorem Executed.eq_after {s u : RunState} {obs : List Observation} {x : NodeExecutionV1}
    (h : sch.Executed id s obs u x) : u = s.after obs := by
  cases h with
  | last h _ _ => simp [h.eq_after, RunState.noted_eq_after, RunState.after, Nat.add_assoc]

variable (sch id)

/-- How the retry loop of `s` ends. -/
def Attempted (s : RunState) (obs : List Observation) :
    Except Abort ((RunState × NodeExecutionV1) ⊕ ExecutionReportV1) → Prop
  | .ok (.inl (s', x)) => sch.Executed id s obs s' x
  | .ok (.inr report) => ∃ s' err, sch.Exhausted id s obs s' err ∧ report = s'.report (.failed err)
  | .error e => e ≠ .stuck ∧ sch.Interrupted id s obs

theorem attempt_sat {s u : RunState} {n : ℕ} {obs : List Observation}
    (h : sch.Retried id s n obs u) (hn : n ≤ sch.policy.maxRetries) :
    (sch.attempt id (n, u)).Sat fun tr res =>
      match res with
      | .ok (.inl (n', u')) => n' = n + 1 ∧ n < sch.policy.maxRetries ∧
          sch.Retried id s n' (obs ++ observe tr) u'
      | .ok (.inr r) => sch.Attempted id s (obs ++ observe tr) (.ok r)
      | .error e => sch.Attempted id s (obs ++ observe tr) (.error e) := by
  have hreq : ({ nodeId := u.node, state := u.state, attempt := n + 1 } : NodeRequest) =
      s.request n := by simp [RunState.request, h.eq_after]
  refine Sat.ofExcept_bind (fun a ha => ?_) fun e he =>
    ⟨checkedAdd_ne_stuck he, by simpa using .between h hn⟩
  obtain ⟨rfl, -⟩ := checkedAdd_eq_ok ha
  refine (event_sat ..).bind (fun tr u' hu' => ?_) fun tr e he =>
    ⟨he.2, by simpa [he.1] using Interrupted.between h hn⟩
  obtain ⟨t, hobs, rfl⟩ := hu'
  simp only [ask_bind, sat_call]
  intro answer
  refine Sat.ofExcept_bind (fun x hx => ?_) fun e he => ⟨liftError_ne_stuck he, ?_⟩
  · cases hr : x.outcome.retryableError with
    | none =>
      simpa [hobs, liftError_eq_ok.mp hx] using hreq ▸ Executed.last (t := t) h hn hr
    | some err =>
      have hcut : sch.Interrupted id s (obs ++ [.emitted (u.nodeEvent id (.nodeStarted (n + 1)) t),
          .executed (s.request n) answer]) := .during h hn
      simp only
      split
      · rename_i hlt
        refine Sat.ofExcept_bind (fun b hb => ?_) fun e he => ⟨checkedAdd_ne_stuck he, ?_⟩
        · obtain ⟨rfl, -⟩ := checkedAdd_eq_ok hb
          refine (event_sat ..).bind (fun tr' u' hu' => ?_) fun tr' e he => ⟨he.2, ?_⟩
          · obtain ⟨q, hobs', rfl⟩ := hu'
            refine ⟨rfl, hlt, ?_⟩
            simpa [hobs, hobs', liftError_eq_ok.mp hx] using
              hreq ▸ Retried.again (t := t) (q := q) h hr hlt
          · simpa [hobs, he.1] using hreq ▸ hcut
        · simpa [hobs] using hreq ▸ hcut
      · rename_i hge
        refine sat_bind.mpr ((fail_sat ..).mono fun tr' res hf => ?_)
        cases res with
        | ok report =>
          obtain ⟨q, hobs', rfl⟩ := hf
          refine ⟨_, err, ?_, rfl⟩
          simpa [hobs, hobs', liftError_eq_ok.mp hx] using
            hreq ▸ Exhausted.last (t := t) (q := q) h (by omega) hr
        | error e =>
          refine ⟨hf.2, ?_⟩
          simpa [hobs, hf.1] using hreq ▸ hcut
  · simpa [hobs] using hreq ▸ Interrupted.during (t := t) (a := answer) h hn

/-- The retry loop makes at most `max_retries + 1` attempts, and does not run out of fuel. -/
theorem attempts_sat (s : RunState) :
    (sch.attempts id s).Sat fun tr res => sch.Attempted id s (observe tr) res := by
  have hloop : (sch.attempts id s).Sat fun tr res => sch.Attempted id s (observe ([] ++ tr)) res := by
    refine loop_sat (I := fun tr p => sch.Retried id s p.1 (observe tr) p.2 ∧
      p.1 ≤ sch.policy.maxRetries) (Q := fun tr res => sch.Attempted id s (observe tr) res)
      (fun p => sch.policy.maxRetries - p.1) ?_ _ [] (0, s) ⟨.start, Nat.zero_le _⟩ (by omega)
    rintro tr ⟨n, u⟩ ⟨h, hn⟩
    refine (sch.attempt_sat id h hn).mono fun tr' res hres => ?_
    match res, hres with
    | .ok (.inl (n', u')), ⟨hn', hlt, hr⟩ =>
      subst hn'
      exact ⟨⟨by simpa using hr, hlt⟩, by simp only; omega⟩
    | .ok (.inr r), hres => simpa using hres
    | .error e, hres => simpa using hres
  simpa using hloop

/-! ### What follows an execution -/

/-- The patch of an outcome is committed, if there is one. -/
inductive Committed (d : NodeDefinitionV1) (s : RunState) :
    Option StatePatch → List Observation → RunState → Prop
  /-- There is none. -/
  | without : Committed d s none [] s
  /-- It is applied, and recorded. -/
  | applied {p : StatePatch} {state : StateSnapshot} {t : ℕ} :
      sch.patch id d p s = .ok state →
      Committed d s (some p)
        [.emitted (({ s with state } : RunState).nodeEvent id (.statePatched state.revision) t)]
        (({ s with state } : RunState).noted id (.statePatched state.revision) t)

/-- The decision is recorded, if it has an event. -/
inductive Recorded (s : RunState) : Option EventKindV1 → List Observation → RunState → Prop
  /-- It has none. -/
  | without : Recorded s none [] s
  /-- It has one. -/
  | noted {kind : EventKindV1} {t : ℕ} :
      Recorded s (some kind) [.emitted (s.nodeEvent id kind t)] (s.noted id kind t)

/-- The checks at the loop head let the pending node run. -/
structure Admitted (s : RunState) (d : NodeDefinitionV1) : Prop where
  steps : s.steps < sch.graph.limits.maxSteps
  visits : s.visits s.node + 1 ≤ u32Max
  cycle : sch.cycleExceeded s.visit = false
  node : sch.graph.node s.node = some d

/-- An execution was charged, and the budgets hold. -/
structure Afforded (s : RunState) : Prop where
  tokens : s.tokens ≤ sch.graph.limits.maxTokens
  cost : s.cost ≤ sch.graph.limits.maxCostMicros

/-- The pending node of `s` was executed, charged and concluded with `dec`. -/
inductive Completed (s : RunState) : List Observation → RunState → Decision → Prop
  /-- All phases succeeded. -/
  | mk {d : NodeDefinitionV1} {obs obs' obs'' : List Observation} {u v w : RunState}
      {x : NodeExecutionV1} {dec : Decision} :
      sch.Admitted s d → sch.Executed id s.visit obs u x → sch.Afforded (u.charge x) →
      decision sch.graph s.node x.outcome = .ok dec →
      sch.Committed id d (u.charge x) dec.patch obs' v → Recorded id v dec.event obs'' w →
      Completed s (obs ++ obs' ++ obs'') w dec

/-- **What one turn of the loop can do**: the state at the head, what the turn leaves
outside the run, and how it ends. -/
inductive Turn (s : RunState) :
    List Observation → Except Abort (RunState ⊕ ExecutionReportV1) → Prop
  /-- A check at the head ends the run. -/
  | refused {u : RunState} {kind : EventKindV1} {status : ExecutionStatusV1} {t : ℕ} :
      u = s ∨ u = s.visit →
      (kind = .cancelled ∧ status = .cancelled ∨ ∃ msg, kind = .failed msg ∧ status = .failed msg) →
      Turn s [.emitted (u.nodeEvent id kind t)] (.ok (.inr ((u.noted id kind t).report status)))
  /-- The last retry failed. -/
  | exhausted {d : NodeDefinitionV1} {obs : List Observation} {u : RunState} {err : String} :
      sch.Admitted s d → sch.Exhausted id s.visit obs u err →
      Turn s obs (.ok (.inr (u.report (.failed err))))
  /-- The execution went over a budget. -/
  | overBudget {d : NodeDefinitionV1} {obs : List Observation} {u : RunState} {x : NodeExecutionV1}
      {m : String} {t : ℕ} :
      sch.Admitted s d → sch.Executed id s.visit obs u x →
      Turn s (obs ++ [.emitted ((u.charge x).nodeEvent id (.failed m) t)])
        (.ok (.inr (((u.charge x).noted id (.failed m) t).report (.failed m))))
  /-- The outcome ends the run. -/
  | ended {obs : List Observation} {u : RunState} {dec : Decision} {status : ExecutionStatusV1} :
      sch.Completed id s obs u dec → dec.status = some status →
      Turn s obs (.ok (.inr (u.report status)))
  /-- The run goes on, from a checkpoint. -/
  | goesOn {obs : List Observation} {u : RunState} {dec : Decision} {pending : NodeId} {t : ℕ} :
      sch.Completed id s obs u dec → dec.status = none → dec.next = some pending →
      Turn s (obs ++ [.emitted (u.nodeEvent id .checkpointed t),
          .saved (sch.checkpointOf id pending (u.seq + 1) u)])
        (.ok (.inl { u.noted id .checkpointed t with node := pending }))
  /-- An abort at the head. -/
  | abortedHead {e : Abort} : e ≠ .stuck → Turn s [] (.error e)
  /-- An abort in the retry loop. -/
  | abortedAttempts {d : NodeDefinitionV1} {obs : List Observation} {e : Abort} :
      e ≠ .stuck → sch.Admitted s d → sch.Interrupted id s.visit obs → Turn s obs (.error e)
  /-- An abort after the execution: at most events were emitted since. -/
  | abortedSettling {d : NodeDefinitionV1} {obs : List Observation} {u : RunState}
      {x : NodeExecutionV1} {es : List ExecutionEventV1} {e : Abort} :
      e ≠ .stuck → sch.Admitted s d → sch.Executed id s.visit obs u x → Numbered u.seq es →
      Turn s (obs ++ es.map .emitted) (.error e)

variable {sch id} in
theorem patch_ne_stuck {d : NodeDefinitionV1} {p : StatePatch} {s : RunState} {e : Abort}
    (h : sch.patch id d p s = .error e) : e ≠ .stuck := by
  rcases bind_eq_error.mp h with h | ⟨_, -, h⟩
  · exact checkedAdd_ne_stuck h
  · exact StateSnapshot.apply_ne_stuck h

theorem commit_sat (d : NodeDefinitionV1) (patch : Option StatePatch) (s : RunState) :
    (sch.commit id d patch s).Sat fun tr res =>
      match res with
      | .ok s' => sch.Committed id d s patch (observe tr) s'
      | .error e => e ≠ .stuck ∧ observe tr = [] := by
  cases patch with
  | none => exact .without
  | some p =>
    refine Sat.ofExcept_bind (fun state hst => ?_) fun e he => ⟨?_, rfl⟩
    · refine (event_sat ..).mono fun tr res h => ?_
      cases res with
      | ok s' =>
        obtain ⟨t, hobs, rfl⟩ := h
        rw [hobs]
        exact .applied hst
      | error e => exact ⟨h.2, h.1⟩
    · exact patch_ne_stuck he

theorem record_sat (kind : Option EventKindV1) (s : RunState) :
    (record id kind s).Sat fun tr res =>
      match res with
      | .ok s' => Recorded id s kind (observe tr) s'
      | .error e => e ≠ Abort.stuck ∧ observe tr = [] := by
  cases kind with
  | none => exact .without
  | some kind =>
    refine (event_sat ..).mono fun tr res h => ?_
    cases res with
    | ok s' =>
      obtain ⟨t, hobs, rfl⟩ := h
      rw [hobs]
      exact .noted
    | error e => exact ⟨h.2, h.1⟩

theorem checkpoint_sat (pending : NodeId) (s : RunState) :
    (sch.checkpoint id pending s).Sat fun tr res =>
      match res with
      | .ok s' => ∃ t, observe tr = [.emitted (s.nodeEvent id .checkpointed t),
            .saved (sch.checkpointOf id pending (s.seq + 1) s)] ∧
          s' = { s.noted id .checkpointed t with node := pending }
      | .error e => e ≠ .stuck ∧
          (observe tr = [] ∨ ∃ t, observe tr = [.emitted (s.nodeEvent id .checkpointed t)]) := by
  refine Sat.ofExcept_bind (fun cursor hc => ?_) fun e he => ⟨checkedAdd_ne_stuck he, .inl rfl⟩
  obtain ⟨rfl, -⟩ := checkedAdd_eq_ok hc
  refine (event_sat ..).bind (fun tr s' hs => ?_) fun tr e he => ⟨he.2, .inl he.1⟩
  obtain ⟨t, hobs, rfl⟩ := hs
  intro answer
  cases answer with
  | ok u => exact ⟨t, by simp [hobs, RunState.nodeEvent], rfl⟩
  | error e => exact ⟨by simp, .inr ⟨t, by simp [hobs, RunState.nodeEvent]⟩⟩

variable {sch id}

/-- Committing emits numbered events. -/
theorem Committed.numbered {d : NodeDefinitionV1} {s v : RunState} {p : Option StatePatch}
    {obs : List Observation} (h : sch.Committed id d s p obs v) :
    ∃ es, obs = es.map .emitted ∧ Numbered s.seq es ∧ v.seq = s.seq + es.length := by
  cases h with
  | without => exact ⟨[], rfl, rfl, rfl⟩
  | applied _ => exact ⟨[_], rfl, by simp, rfl⟩

/-- Recording emits numbered events. -/
theorem Recorded.numbered {s v : RunState} {kind : Option EventKindV1} {obs : List Observation}
    (h : Recorded id s kind obs v) :
    ∃ es, obs = es.map .emitted ∧ Numbered s.seq es ∧ v.seq = s.seq + es.length := by
  cases h with
  | without => exact ⟨[], rfl, rfl, rfl⟩
  | noted => exact ⟨[_], rfl, by simp, rfl⟩

/-- Committing changes the state and the log. -/
theorem Committed.eq_after {d : NodeDefinitionV1} {s v : RunState} {p : Option StatePatch}
    {obs : List Observation} (h : sch.Committed id d s p obs v) :
    ∃ state, v = ({ s with state } : RunState).after obs := by
  cases h with
  | without => exact ⟨s.state, by simp⟩
  | applied _ => exact ⟨_, rfl⟩

/-- Recording changes nothing but the log. -/
theorem Recorded.eq_after {s v : RunState} {kind : Option EventKindV1} {obs : List Observation}
    (h : Recorded id s kind obs v) : v = s.after obs := by
  cases h with
  | without => simp
  | noted => rfl

variable (sch id)

/-- How a decision about `s` is carried out. -/
def Concluded (d : NodeDefinitionV1) (dec : Decision) (s : RunState) (obs : List Observation) :
    Except Abort (RunState ⊕ ExecutionReportV1) → Prop
  | .ok (.inl s') => ∃ obs' obs'' v w pending t, sch.Committed id d s dec.patch obs' v ∧
      Recorded id v dec.event obs'' w ∧ dec.status = none ∧ dec.next = some pending ∧
      obs = obs' ++ obs'' ++ [.emitted (w.nodeEvent id .checkpointed t),
        .saved (sch.checkpointOf id pending (w.seq + 1) w)] ∧
      s' = { w.noted id .checkpointed t with node := pending }
  | .ok (.inr report) => ∃ obs' obs'' v w status, sch.Committed id d s dec.patch obs' v ∧
      Recorded id v dec.event obs'' w ∧ dec.status = some status ∧
      obs = obs' ++ obs'' ∧ report = w.report status
  | .error e => e ≠ .stuck ∧ ∃ es, obs = es.map .emitted ∧ Numbered s.seq es

theorem conclude_sat (d : NodeDefinitionV1) (dec : Decision) (s : RunState) :
    (sch.conclude id d dec s).Sat fun tr res => sch.Concluded id d dec s (observe tr) res := by
  refine (sch.commit_sat id d dec.patch s).bind (fun tr v hv => ?_) fun tr e he =>
    ⟨he.1, [], he.2, rfl⟩
  obtain ⟨es, hes, hnum, hseq⟩ := hv.numbered
  refine (record_sat id dec.event v).bind (fun tr' w hw => ?_) fun tr' e he =>
    ⟨he.1, es, by simp [hes, he.2], hnum⟩
  obtain ⟨es', hes', hnum', hseq'⟩ := hw.numbered
  have hall : Numbered s.seq (es ++ es') := (numbered_append ..).mpr ⟨hnum, hseq ▸ hnum'⟩
  cases hst : dec.status with
  | some status =>
    exact ⟨_, _, v, w, status, hv, hw, hst, by simp, rfl⟩
  | none =>
    cases hnext : dec.next with
    | none => exact ⟨by simp, es ++ es', by simp [hes, hes'], hall⟩
    | some pending =>
      refine sat_bind.mpr ((sch.checkpoint_sat id pending w).mono fun tr'' res h => ?_)
      cases res with
      | ok s' =>
        obtain ⟨t, hobs, rfl⟩ := h
        exact ⟨_, _, v, w, pending, t, hv, hw, hst, hnext, by simp [hobs], rfl⟩
      | error e =>
        rcases h with ⟨he, hobs | ⟨t, hobs⟩⟩
        · exact ⟨he, es ++ es', by simp [hes, hes', hobs], hall⟩
        · refine ⟨he, es ++ es' ++ [w.nodeEvent id .checkpointed t], by simp [hes, hes', hobs], ?_⟩
          refine (numbered_append ..).mpr ⟨hall, ?_⟩
          simp only [numbered_cons, RunState.nodeEvent_sequence, numbered_nil, and_true,
            List.length_append]
          omega

/-! ### The turn -/

/-- What follows a completed execution. -/
theorem settle_sat {d : NodeDefinitionV1} {s u : RunState} {x : NodeExecutionV1}
    {obs : List Observation} (hd : sch.Admitted s d) (hx : sch.Executed id s.visit obs u x) :
    (sch.settle id d u x).Sat fun tr res => sch.Turn id s (obs ++ observe tr) res := by
  have hcut : ∀ e, e ≠ .stuck → sch.Turn id s (obs ++ []) (.error e) := fun e he => by
    simpa using Turn.abortedSettling he hd hx (numbered_nil _)
  have hover : ∀ msg, (Sum.inr <$> fail id (u.charge x) msg : Run (RunState ⊕ ExecutionReportV1)).Sat
      fun tr res => sch.Turn id s (obs ++ observe tr) res := by
    intro msg
    refine sat_bind.mpr ((fail_sat ..).mono fun tr res hf => ?_)
    cases res with
    | ok report =>
      obtain ⟨t, hobs, rfl⟩ := hf
      simpa [hobs] using Turn.overBudget (m := msg) (t := t) hd hx
    | error e =>
      rw [hf.1]
      exact hcut e hf.2
  refine Sat.ofExcept_bind (fun n _ => ?_) fun e he => hcut e (checkedAdd_ne_stuck he)
  simp only
  split
  · exact hover _
  split
  · exact hover _
  refine Sat.ofExcept_bind (fun dec hdec => ?_) fun e he => hcut e (liftError_ne_stuck he)
  have hafford : sch.Afforded (u.charge x) := ⟨by omega, by omega⟩
  have hdec' : decision sch.graph s.node x.outcome = .ok dec := by
    rw [hx.eq_after] at hdec
    exact liftError_eq_ok.mp hdec
  refine (sch.conclude_sat id d dec (u.charge x)).mono fun tr res h => ?_
  match res, h with
  | .ok (.inl s'), ⟨obs', obs'', v, w, pending, t, hv, hw, hst, hnext, hobs, hs'⟩ =>
    subst hs'
    simpa [hobs] using Turn.goesOn (t := t) (.mk hd hx hafford hdec' hv hw) hst hnext
  | .ok (.inr report), ⟨obs', obs'', v, w, status, hv, hw, hst, hobs, hr⟩ =>
    subst hr
    simpa [hobs] using Turn.ended (.mk hd hx hafford hdec' hv hw) hst
  | .error e, ⟨he, es, hobs, hnum⟩ =>
    rw [hobs]
    exact Turn.abortedSettling he hd hx hnum

/-- What the checks at the loop head come to. -/
@[simp] def Entered (s : RunState) (tr : List (Answered HostCall Answer)) :
    Except Abort ((RunState × NodeDefinitionV1) ⊕ ExecutionReportV1) → Prop
  | .ok (.inl (s', d)) => s' = s.visit ∧ sch.Admitted s d ∧ observe tr = []
  | .ok (.inr report) => sch.Turn id s (observe tr) (.ok (.inr report))
  | .error e => sch.Turn id s (observe tr) (.error e)

/-- The checks at the loop head. -/
theorem enter_sat (start : ℕ) (s : RunState) : (sch.enter id start s).Sat (sch.Entered id s) := by
  have hfail : ∀ (msg : String) (u : RunState), u = s ∨ u = s.visit →
      ∀ tr₀, observe tr₀ = [] →
      (fail id u msg).Sat fun tr res => sch.Turn id s (observe (tr₀ ++ tr)) (res.map .inr) := by
    intro msg u hu tr₀ htr
    refine (fail_sat ..).mono fun tr res hf => ?_
    cases res with
    | ok report =>
      obtain ⟨t, hobs, rfl⟩ := hf
      simpa [hobs, htr, Except.map] using Turn.refused (t := t) hu (.inr ⟨msg, rfl, rfl⟩)
    | error e => simpa [hf.1, htr, Except.map] using Turn.abortedHead hf.2
  unfold enter
  simp only [ask_bind, sat_call]
  intro cancelled
  split
  · refine (event_sat ..).bind (fun tr u hu => ?_) fun tr e he => ?_
    · obtain ⟨t, hobs, rfl⟩ := hu
      simpa [hobs, RunState.nodeEvent, RunState.noted] using
        (Turn.refused (t := t) (.inl rfl) (.inl ⟨rfl, rfl⟩) : sch.Turn id s _ _)
    · simpa [he.1] using Turn.abortedHead he.2
  split
  · refine sat_bind.mpr ((hfail _ s (.inl rfl) [⟨.cancelled, cancelled⟩] rfl).mono fun tr res h => ?_)
    cases res <;> simpa [Except.map] using h
  rename_i hsteps
  simp only [sat_call]
  intro now
  split
  · refine sat_bind.mpr ((hfail _ s (.inl rfl) [⟨.cancelled, cancelled⟩, ⟨.nowMs, now⟩] rfl).mono
      fun tr res h => ?_)
    cases res <;> simpa [Except.map] using h
  refine Sat.ofExcept_bind (fun exceeded hc => ?_) fun e he => ?_
  · obtain ⟨n, hn, hex⟩ := bind_eq_ok.mp hc
    cases hex
    split
    · refine sat_bind.mpr ((hfail _ s.visit (.inr rfl) [⟨.cancelled, cancelled⟩, ⟨.nowMs, now⟩]
        rfl).mono fun tr res h => ?_)
      cases res <;> simpa [Except.map] using h
    · rename_i hcycle
      cases hd : sch.graph.node s.node with
      | none => exact Turn.abortedHead (by simp)
      | some d =>
        exact ⟨rfl, ⟨by omega, (checkedAdd_eq_ok hn).2, by simpa using hcycle, hd⟩, rfl⟩
  · rcases bind_eq_error.mp he with he | ⟨_, -, he⟩
    · exact Turn.abortedHead (checkedAdd_ne_stuck he)
    · cases he

/-- **The loop body does nothing else**: whatever it is answered, one iteration is a
turn. -/
theorem iterate_turn (start : ℕ) (s : RunState) :
    (sch.iterate id start s).Sat fun tr res => sch.Turn id s (observe tr) res := by
  refine sat_bind.mpr ((sch.enter_sat id start s).mono fun tr res h => ?_)
  match res, h with
  | .error e, h => exact h
  | .ok (.inr report), h => simpa using h
  | .ok (.inl (s', d)), ⟨hs', hd, hobs⟩ =>
    subst hs'
    refine sat_bind.mpr ((sch.attempts_sat id s.visit).mono fun tr' res h => ?_)
    match res, h with
    | .error e, h => simpa [hobs] using Turn.abortedAttempts h.1 hd h.2
    | .ok (.inr report), ⟨u, err, hu, hr⟩ =>
      subst hr
      simpa [hobs] using Turn.exhausted hd hu
    | .ok (.inl (u, x)), h =>
      simpa [hobs] using sch.settle_sat id hd h

end Scheduler

end Knolo.Runtime
