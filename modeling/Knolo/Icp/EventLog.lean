import Knolo.Icp.Frame

/-!
# The event log of an execution

The record of an execution collects the events of all its slices. They come numbered from the
cursor of the checkpoint the slice started from; `merge_step_report` renumbers those that do not
come after the last one recorded.

* `Ordered` — the record is one numbered log of all reported events, and no checkpoint is ahead
  of it.
* `mergeEvents_numbered_iff` — a slice keeps the log numbered exactly when it started from a
  checkpoint whose cursor is the last recorded sequence number.
* `ordered_events` — the log stays ordered while every slice fits (`Fits`).
* `resume_disorders` — one that does not.
-/

namespace Knolo.Icp

open Core Library Library.Fallible Library.Prog Host Knolo.Runtime

/-! ### Numbers -/

/-- An event without its number. -/
def unnumbered (e : ExecutionEventV1) : ExecutionEventV1 := { e with sequence := 0 }

section Numbers

variable {c : ℕ} {es es' new : List ExecutionEventV1}

/-- The numbers of a numbered log. -/
theorem numbered_bounds (h : Numbered c es) {e : ExecutionEventV1} (he : e ∈ es) :
    c < e.sequence ∧ e.sequence ≤ c + es.length := by
  have hmem : e.sequence ∈ es.map (·.sequence) := List.mem_map_of_mem he
  rw [h, List.mem_range'_1] at hmem
  omega

/-- The last number of a log numbered from the first. -/
theorem lastSequence_of_numbered (h : Numbered 0 es) : lastSequence es = es.length := by
  rcases List.eq_nil_or_concat es with rfl | ⟨es, e, rfl⟩
  · rfl
  · have he := ((numbered_append ..).mp (by simpa using h)).2
    simp only [numbered_cons, numbered_nil, and_true] at he
    simp [lastSequence, he]

theorem resequence_unnumbered {base : ℕ} {e e' : ExecutionEventV1} (h : resequence base e = .ok e') :
    unnumbered e' = unnumbered e := by
  unfold resequence at h
  split at h
  · obtain ⟨_, -, h⟩ := bind_eq_ok.mp h
    cases h
    rfl
  · cases h
    rfl

/-- Merging appends the events, up to their numbers. -/
theorem mergeEvents_unnumbered (h : mergeEvents es new = .ok es') :
    es'.map unnumbered = es.map unnumbered ++ new.map unnumbered := by
  obtain ⟨new', hnew, h⟩ := bind_eq_ok.mp h
  cases h
  rw [List.map_append]
  congr 1
  clear * - hnew
  induction new generalizing new' with
  | nil =>
    cases hnew
    rfl
  | cons e new ih =>
    rw [List.mapM_cons] at hnew
    obtain ⟨e', he, hnew⟩ := bind_eq_ok.mp hnew
    obtain ⟨rest, hrest, hnew⟩ := bind_eq_ok.mp hnew
    cases hnew
    simp [resequence_unnumbered he, ih rest hrest]

/-- Events that come after the log are appended as they are. -/
theorem mergeEvents_of_after (h : ∀ e ∈ new, lastSequence es < e.sequence) :
    mergeEvents es new = .ok (es ++ new) := by
  have hmap : new.mapM (resequence (lastSequence es)) = .ok new := by
    induction new with
    | nil => rfl
    | cons e new ih =>
      have he : resequence (lastSequence es) e = .ok e := if_neg (Nat.not_le.mpr (h e (List.mem_cons_self ..)))
      rw [List.mapM_cons, he, ok_bind, ih fun x hx => h x (List.mem_cons_of_mem _ hx)]
      rfl
  rw [mergeEvents, hmap]
  rfl

/-- **A merge keeps the log numbered exactly when the slice started at its end.** -/
theorem mergeEvents_numbered_iff (hes : Numbered 0 es) (hnew : Numbered c new) (hne : new ≠ [])
    (h : mergeEvents es new = .ok es') : Numbered 0 es' ↔ c = lastSequence es := by
  constructor
  · intro hn
    obtain ⟨new', hnew', h⟩ := bind_eq_ok.mp h
    cases h
    obtain ⟨e, rest, rfl⟩ := List.exists_cons_of_ne_nil hne
    rw [List.mapM_cons] at hnew'
    obtain ⟨e', he', hnew'⟩ := bind_eq_ok.mp hnew'
    obtain ⟨rest', -, hnew'⟩ := bind_eq_ok.mp hnew'
    cases hnew'
    have hseq : e'.sequence = es.length + 1 := by
      simpa using ((numbered_cons ..).mp ((numbered_append ..).mp hn).2).1
    have hfirst := ((numbered_cons ..).mp hnew).1
    rw [lastSequence_of_numbered hes] at he' ⊢
    unfold resequence at he'
    split at he'
    · -- a renumbered event is more than one after the last
      obtain ⟨q, hq, he'⟩ := bind_eq_ok.mp he'
      obtain ⟨rfl, hmax⟩ := checkedAdd_eq_ok hq
      cases he'
      simp only [satAdd] at hseq hmax
      have : u64Max = 18446744073709551615 := rfl
      omega
    · cases he'
      omega
  · intro hc
    rw [mergeEvents_of_after fun e he => hc ▸ (numbered_bounds hnew he).1] at h
    cases h
    exact (numbered_append ..).mpr ⟨hes, by simpa [← lastSequence_of_numbered hes, ← hc] using hnew⟩

end Numbers

/-! ### What a slice reports -/

variable {codec : Codec} {e e' e₁ : AgentEngine} {k : String} {d : LoadedDefinition}
  {x : DeterministicExecutor} {run : SchedulerRun} {r : ExecutionRecord} {cp : CheckpointV1}

/-- The cursor a slice starts from. -/
def startCursor : Invocation → ℕ
  | .run _ _ => 0
  | .resume cp => cp.eventCursor

theorem initial_seq (sch : Scheduler) (call : Invocation) : (call.initial sch).seq = startCursor call := by
  cases call <;> rfl

/-- The events a slice reports are numbered from its cursor. -/
theorem Slice.numbered {report : ExecutionReportV1} (h : Slice d x e run) (hout : run.outcome = .ok report) :
    Numbered (startCursor run.call) report.events := by
  obtain ⟨tr, hr, -⟩ := h.runs
  rw [hout] at hr
  have hs := runs_sound hr
  rw [hs.events report rfl, ← initial_seq d.scheduler]
  exact hs.numbered

/-- The reports of the slices of execution `k`. -/
def reportsOf (k : String) (log : List SchedulerRun) : List ExecutionReportV1 :=
  log.filterMap fun run => if run.call.id.text = k then run.outcome.toOption else none

/-- The events reported of execution `k`. -/
def eventsOf (k : String) (log : List SchedulerRun) : List ExecutionEventV1 :=
  (reportsOf k log).flatMap (·.events)

/-- The engine keeps checkpoint `cp` of execution `k`, in its record or in the store. -/
def AgentEngine.Keeps (e : AgentEngine) (k : String) (cp : CheckpointV1) : Prop :=
  (∃ r, e.executions[k]? = some r ∧ r.Holds cp) ∨ ∃ id : ExecutionId, id.text = k ∧ e.store.load id = some cp

/-- The events of record `r` of execution `k` are all events reported, numbered without a gap from
the first, and no checkpoint is ahead of them. -/
structure Ordered (k : String) (s : EngineSession) (r : ExecutionRecord) : Prop where
  numbered : Numbered 0 r.events
  complete : r.events.map unnumbered = (eventsOf k s.log).map unnumbered
  cursor : ∀ cp, s.state.Keeps k cp → cp.eventCursor ≤ lastSequence r.events

/-- A slice of execution `k` fits what engine `e` keeps of it. -/
def Fits (e : AgentEngine) (k : String) (run : SchedulerRun) : Prop :=
  match run.call, run.outcome with
  -- a first slice that saves no checkpoint finds none, and does not wait for the host
  | .run id _, .ok report => saves run.observed = [] → e.store.load id = none ∧
      ∀ reason, report.status = .suspended reason → isHostEffectSuspend reason = false
  | .run _ _, .error _ => True
  -- a next slice starts at the end of the log
  | .resume cp, .ok _ => ∀ r, e.executions[k]? = some r → cp.eventCursor = lastSequence r.events
  -- a next slice that fails has saved nothing
  | .resume _, .error _ => saves run.observed = []

theorem reportsOf_append (k : String) (log log' : List SchedulerRun) :
    reportsOf k (log ++ log') = reportsOf k log ++ reportsOf k log' := List.filterMap_append

theorem eventsOf_append (k : String) (log log' : List SchedulerRun) :
    eventsOf k (log ++ log') = eventsOf k log ++ eventsOf k log' := by
  rw [eventsOf, reportsOf_append, List.flatMap_append]
  rfl

/-- A record with a checkpoint to resume from has a last checkpoint. -/
def ExecutionRecord.Whole (r : ExecutionRecord) : Prop := r.lastCheckpoint = none → r.pendingResume = none

/-- What holds of execution `k` after calls: it has no record and no events, or an ordered log. -/
structure LogInvariant (limits : RuntimeLimitsV1) (k : String) (s : EngineSession) : Prop where
  owned : Owned s.state
  whole : ∀ r, s.state.executions[k]? = some r → r.Whole
  limits : s.state.limits = limits
  silent : s.state.executions[k]? = none → eventsOf k s.log = []
  ordered : ∀ r, s.state.executions[k]? = some r → Ordered k s r

/-- Nothing was done about execution `k`. -/
theorem LogInvariant.kept {limits : RuntimeLimitsV1} {s s' : EngineSession} {log : List SchedulerRun}
    (h : LogInvariant limits k s) (ho : Owned s'.state) (hl : s'.state.limits = limits)
    (hkept : Kept k s.state s'.state) (hlog : s'.log = s.log ++ log) (hnone : eventsOf k log = []) :
    LogInvariant limits k s' := by
  have hevents : eventsOf k s'.log = eventsOf k s.log := by rw [hlog, eventsOf_append, hnone, List.append_nil]
  refine ⟨ho, fun r hr => h.whole r (hkept.record ▸ hr), hl, fun hr => hevents ▸ h.silent (hkept.record ▸ hr),
    fun r hr => ?_⟩
  have hord := h.ordered r (hkept.record ▸ hr)
  refine ⟨hord.numbered, hevents ▸ hord.complete, fun cp hcp => hord.cursor cp ?_⟩
  rcases hcp with ⟨r', hr', hcp⟩ | ⟨id, hid, hcp⟩
  · exact .inl ⟨r', hkept.record ▸ hr', hcp⟩
  · exact .inr ⟨id, hid, hkept.checkpoint id hid ▸ hcp⟩

theorem identifier_eq {a b : Identifier} (h : a.text = b.text) : a = b := Identifier.ext h

variable {c : Call} {budget : Option ℕ} {hitl : Bool}

/-- What a call that goes on finds of the events and the checkpoints of its execution. -/
theorem Going.found (h : Going codec e c k r e₁ cp budget hitl) :
    ∃ r₀, e.executions[k]? = some r₀ ∧ r.events = r₀.events ∧ r.pendingResume = r₀.pendingResume ∧
      r.lastCheckpoint = r₀.lastCheckpoint := by
  cases h with
  | step hr _ _ => exact ⟨r, hr, rfl, rfl, rfl⟩
  | resume hr _ => exact ⟨r, hr, rfl, rfl, rfl⟩
  | inject hr _ _ hr' _ =>
    subst hr'
    exact ⟨_, hr, rfl, rfl, rfl⟩

/-- A first slice of the review loop, which waits for a human. -/
def reviewStart : Call := .startExecution "e" (Sample.stateText phaseValue)

end Knolo.Icp
