import Knolo.Icp.Upkeep
import Knolo.Icp.Handoff

/-!
# What an upgrade preserves

An upgrade keeps a snapshot of the engine, and the new instance is restored from it. Loading the
definition resets what was restored before it: the handoffs and the counters of the budget. The
checkpoints come back from the records.

* `upgrade_preserves` — an upgrade preserves the engine if and only if there is nothing to reset, and the
  store has the last checkpoints of the records.
* `upgrade_resets` — an accepted handoff and the steps it has spent are gone after an upgrade.
-/

namespace Knolo.Icp

open Core Library Library.Fallible Host Knolo.Runtime

/-- `pre_upgrade`, and `post_upgrade` on the new instance, which loads the snapshot that was kept. -/
def upgrade (codec : Codec) (e : AgentEngine) :
    Except Abort (Returned AgentEngine SchedulerRun CoreError Unit) :=
  restoreFromStable codec e.snapshot .default

/-- What an upgrade is to preserve. -/
structure Preserved (e e' : AgentEngine) : Prop where
  definition : e'.definition = e.definition
  executions : e'.executions = e.executions
  checkpoints : e'.store = e.store
  limits : e'.limits = e.limits
  handoffs : e'.handoffs = e.handoffs
  budget : e'.budget = e.budget

/-- There is nothing an upgrade resets, and nothing it cannot build again. -/
structure Survives (e : AgentEngine) : Prop where
  /-- With a definition, no handoff was accepted and nothing was spent. -/
  unspent : e.definition ≠ none → e.handoffs = ∅ ∧ e.budget = .empty
  /-- The store has the last checkpoint of each record, and no other. -/
  covered : ∀ id : ExecutionId, e.store.load id = e.executions[id.text]?.bind (·.lastCheckpoint)

variable {codec : Codec} {principal : String → Except String String} {e : AgentEngine}

theorem restored_handoffs : e.restored.handoffs = e.handoffs ↔ (e.definition ≠ none → e.handoffs = ∅) := by
  cases hd : e.definition with
  | none => simp [AgentEngine.restored, hd]
  | some d =>
    simp only [AgentEngine.restored, hd, Option.isSome_some, if_true]
    constructor
    · intro h _
      exact h.symm
    · intro h
      exact (h (by simp)).symm

theorem restored_budget (hk : Kempt codec e) :
    e.restored.budget = e.budget ↔ (e.definition ≠ none → e.budget = .empty) := by
  cases hd : e.definition with
  | none => simp [AgentEngine.restored, (hk.bare hd).2.2]
  | some d =>
    constructor
    · intro h _
      exact h.symm
    · intro h
      exact (h (by simp)).symm

theorem restored_store (ho : Owned e) : e.restored.store = e.store ↔
    ∀ id : ExecutionId, e.store.load id = e.executions[id.text]?.bind (·.lastCheckpoint) := by
  constructor
  · intro h id
    rw [← h, load_restored ho]
  · intro h
    refine store_ext fun id => ?_
    rw [load_restored ho, h]

/-- **An upgrade never fails, and it preserves the engine if and only if no handoff was accepted and
nothing was spent under its definition, and its store has the last checkpoints of its records.** -/
theorem upgrade_preserves (codec : Codec) (principal : String → Except String String) (e : AgentEngine)
    (he : Arising codec principal e) :
    ∃ e', upgrade codec e = .ok { result := .ok (), state := e', log := [] } ∧ (Preserved e e' ↔ Survives e) := by
  have hk := he.kempt
  refine ⟨e.restored, restoreFromStable_eq hk _, fun h => ⟨fun hd => ?_, ?_⟩, fun h => ?_⟩
  · exact ⟨restored_handoffs.mp h.handoffs hd, (restored_budget hk).mp h.budget hd⟩
  · exact (restored_store hk.owned).mp h.checkpoints
  · exact {
      definition := rfl
      executions := rfl
      checkpoints := (restored_store hk.owned).mpr h.covered
      limits := rfl
      handoffs := restored_handoffs.mpr fun hd => (h.unspent hd).1
      budget := (restored_budget hk).mpr fun hd => (h.unspent hd).2 }

/-- An engine that has accepted a handoff. -/
def handedEngine : AgentEngine :=
  ((sessionFrom .default).run (Call.perform toolCodec)
    [.loadDefinition toolText, .acceptHandoff "e" oneStepText (Sample.stateText toolValue) parentText]).state

/-- **An upgrade loses an accepted handoff, and the counters of the budget.** -/
theorem upgrade_resets :
    Reachable toolCodec handedEngine ∧ ∃ e', upgrade toolCodec handedEngine =
      .ok { result := .ok (), state := e', log := [] } ∧
      handedEngine.handoffs.isEmpty = false ∧ e'.handoffs.isEmpty = true ∧
      handedEngine.budget.snapshot.knoloSteps ≠ 0 ∧ e'.budget.snapshot.knoloSteps = 0 ∧
      ¬Preserved handedEngine e' := by
  have hreach : Reachable toolCodec handedEngine := ⟨_, rfl⟩
  have h : handedEngine.handoffs.isEmpty = false ∧ handedEngine.budget.snapshot.knoloSteps ≠ 0 ∧
      handedEngine.definition.isSome = true := by
    decide +kernel
  generalize handedEngine = e at *
  obtain ⟨hhandoffs, hsteps, hdefinition⟩ := h
  have hk : Kempt toolCodec e := (hreach.arising .ok).kempt
  refine ⟨hreach, e.restored, restoreFromStable_eq hk _, hhandoffs, ?_, hsteps, rfl, fun hp => ?_⟩
  · simp [AgentEngine.restored, hdefinition]
  · have hsame := congrArg (·.snapshot.knoloSteps) hp.budget
    exact hsteps hsame.symm

/-- A definition alone, with no execution, survives. -/
theorem toolEngine_preserved :
    ∃ e', upgrade toolCodec toolEngine = .ok { result := .ok (), state := e', log := [] } ∧ Preserved toolEngine e' := by
  have h : toolEngine.handoffs.isEmpty = true ∧ toolEngine.budget = .empty ∧ toolEngine.executions.isEmpty = true ∧
      toolEngine.store.checkpoints.isEmpty = true := by
    decide +kernel
  obtain ⟨hhandoffs, hbudget, hexecutions, hstore⟩ := h
  obtain ⟨e', hupgrade, hiff⟩ := upgrade_preserves toolCodec .ok toolEngine (Reachable.arising ⟨_, rfl⟩ .ok)
  refine ⟨e', hupgrade, hiff.mpr ⟨fun _ => ⟨Std.ExtTreeMap.isEmpty_iff.mp hhandoffs, hbudget⟩, fun id => ?_⟩⟩
  rw [InMemoryCheckpointStore.load, Std.ExtTreeMap.isEmpty_iff.mp hexecutions, Std.ExtTreeMap.isEmpty_iff.mp hstore]
  rfl

end Knolo.Icp
