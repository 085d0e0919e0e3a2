import Knolo.Icp.Frame

/-!
# Executions that are over

An execution that was terminated, failed or cancelled should stay as it is. `step` and
`inject_effect_and_resume` check for it, a start refuses its name, and a tool run leaves records
alone; `resume` has no check.

* `terminal_absorbing` — calls other than `resume` of the execution leave it as it is.
* `resume_terminal` — `resume` of the execution runs it again.
-/

namespace Knolo.Icp

open Core Library Library.Fallible Host Knolo.Runtime

/-- The node executions of execution `k` in a log. -/
def executed (k : String) (log : List SchedulerRun) : List (NodeRequest × Except CoreError NodeExecutionV1) :=
  (log.filter fun run => run.call.id.text = k).flatMap fun run => executions run.observed

theorem executed_append (k : String) (log log' : List SchedulerRun) :
    executed k (log ++ log') = executed k log ++ executed k log' := by simp [executed]

theorem executed_eq_nil {k : String} {log : List SchedulerRun} (h : ∀ run ∈ log, run.call.id.text ≠ k) :
    executed k log = [] := by
  rw [executed, List.filter_eq_nil_iff.mpr fun run hrun => by simpa using h run hrun, List.flatMap_nil]

variable {codec : Codec} {e e' : AgentEngine} {k : String} {r : ExecutionRecord} {c : Call} {log : List SchedulerRun}

/-- A call other than `resume` does not go on with an execution that is over. -/
theorem Going.not_terminal {r' : ExecutionRecord} {e₁ : AgentEngine} {cp : CheckpointV1} {budget : Option ℕ}
    {hitl : Bool} (h : Going codec e c k r' e₁ cp budget hitl) (hr : e.executions[k]? = some r)
    (hc : c ≠ .resume k) : isTerminal r.statusKind = false := by
  cases h with
  | step hr' hg _ =>
    obtain rfl := Option.some.inj (hr.symm.trans hr')
    obtain ⟨_, hg, -⟩ := bind_eq_ok.mp hg
    simpa using ensure_eq_ok.mp hg
  | resume _ _ => exact absurd rfl hc
  | inject hr' hs _ _ _ =>
    obtain rfl := Option.some.inj (hr.symm.trans hr')
    rw [hs]
    decide

/-- A call other than `resume` leaves an execution that is over as it is. -/
theorem Transition.absorbed (h : Transition codec e c e' log) (ho : Owned e) (hr : e.executions[k]? = some r)
    (ht : isTerminal r.statusKind = true) (hreset : c.resets = false) (hc : c ≠ .resume k) :
    Kept k e e' ∧ executed k log = [] := by
  obtain ⟨-, hlog, hkept⟩ := h.frame ho
  by_cases htarget : c.target = some k
  · have hin : e.executions.contains k = true := by
      rw [Std.ExtTreeMap.contains_eq_isSome_getElem?, hr]
      rfl
    cases h with
    | refused => exact ⟨.refl k e, rfl⟩
    | loaded _ => cases hreset
    | cleared => cases hreset
    | limited => exact ⟨⟨rfl, fun _ _ => rfl⟩, rfl⟩
    | toolRun _ => exact ⟨⟨rfl, fun _ _ => rfl⟩, rfl⟩
    | startFailed hs hnew _ _ _ _ =>
      obtain rfl := Option.some.inj (hs.target.1.symm.trans htarget)
      simp [hin] at hnew
    | started hs hnew _ _ _ _ _ _ =>
      obtain rfl := Option.some.inj (hs.target.1.symm.trans htarget)
      simp [hin] at hnew
    | injected hr' hs _ =>
      obtain rfl := Option.some.inj htarget
      obtain rfl := Option.some.inj (hr.symm.trans hr')
      rw [hs] at ht
      exact absurd ht (by decide)
    | advanceFailed hgo _ _ _ =>
      obtain rfl := Option.some.inj ((hgo.spec ho).1.symm.trans htarget)
      rw [hgo.not_terminal hr hc] at ht
      cases ht
    | advanced hgo _ _ _ _ =>
      obtain rfl := Option.some.inj ((hgo.spec ho).1.symm.trans htarget)
      rw [hgo.not_terminal hr hc] at ht
      cases ht
  · refine ⟨hkept hreset k htarget, executed_eq_nil fun run hrun hk => htarget ?_⟩
    rw [← hk]
    exact hlog run hrun

/-- **An execution that is over stays as it is** under any calls that do not drop all executions
and do not `resume` it: its record, its checkpoint, and no node of it is executed. -/
theorem terminal_absorbing (codec : Codec) (e : AgentEngine) (he : Reachable codec e) (k : String)
    (r : ExecutionRecord) (hr : e.executions[k]? = some r) (ht : isTerminal r.statusKind = true)
    (cs : List Call) (hcs : ∀ c ∈ cs, c.resets = false ∧ c ≠ .resume k) :
    Kept k e ((sessionFrom e).run (Call.perform codec) cs).state ∧
      executed k ((sessionFrom e).run (Call.perform codec) cs).log = [] := by
  have key := Session.run_induct (m := Call.perform codec) (s := sessionFrom e)
    (I := fun _ s => Owned s.state ∧ Kept k e s.state ∧ executed k s.log = [])
    ⟨he.owned, .refl k e, rfl⟩ cs fun pre c post hsplit ih => by
      obtain ⟨ho, hkept, hlog⟩ := ih
      have htr := after_transition codec ((sessionFrom e).run (Call.perform codec) pre) c
      obtain ⟨hreset, hc⟩ := hcs c (hsplit ▸ by simp)
      obtain ⟨hkept', hnone⟩ := htr.absorbed ho (hkept.record.trans hr) ht hreset hc
      exact ⟨(htr.frame ho).1, hkept.trans hkept', by rw [Session.after_log, executed_append, hlog, hnone]; rfl⟩
  exact key.2

/-- An execution of `abSample`, to its end. -/
def abSession : EngineSession :=
  (sessionFrom .default).run (Call.perform abCodec)
    [.loadDefinition abSample.text, .startExecution "e" (Sample.stateText abValue)]

/-- **`resume` runs an execution again that is over**: node `b` is executed, and the record has
more events. -/
theorem resume_terminal :
    Reachable abCodec abSession.state ∧ ∃ r r', abSession.state.executions["e"]? = some r ∧
      isTerminal r.statusKind = true ∧
      ((sessionFrom abSession.state).run (Call.perform abCodec) [.resume "e"]).state.executions["e"]? = some r' ∧
      ((executed "e" ((sessionFrom abSession.state).run (Call.perform abCodec) [.resume "e"]).log).map
        fun x => x.1.nodeId.text) = ["b"] ∧
      r.events.length < r'.events.length := by
  have h : ((abSession.state.executions["e"]?.bind fun r =>
      (((sessionFrom abSession.state).run (Call.perform abCodec) [.resume "e"]).state.executions["e"]?).map
        fun r' => isTerminal r.statusKind && decide (r.events.length < r'.events.length)) = some true) := by
    decide +kernel
  refine ⟨⟨_, rfl⟩, ?_⟩
  obtain ⟨r, hr, h⟩ := Option.bind_eq_some_iff.mp h
  obtain ⟨r', hr', h⟩ := Option.map_eq_some_iff.mp h
  obtain ⟨ht, hlen⟩ := Bool.and_eq_true_iff.mp h
  exact ⟨r, r', hr, ht, hr', by decide +kernel, of_decide_eq_true hlen⟩

/-- Other calls leave that execution as it is. -/
theorem abSession_absorbing :
    ∃ r, abSession.state.executions["e"]? = some r ∧ isTerminal r.statusKind = true ∧
      Kept "e" abSession.state ((sessionFrom abSession.state).run (Call.perform abCodec) [.step "e" 1]).state := by
  have h : abSession.state.executions["e"]?.map (fun r => isTerminal r.statusKind) = some true := by
    decide +kernel
  obtain ⟨r, hr, ht⟩ := Option.map_eq_some_iff.mp h
  exact ⟨r, hr, ht, (terminal_absorbing abCodec abSession.state ⟨_, rfl⟩ "e" r hr ht [.step "e" 1]
    (by simp [Call.resets])).1⟩

end Knolo.Icp
