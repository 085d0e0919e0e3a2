import Knolo.Replay.Resume

/-!
# What a run reports

Any run of the TypeScript engine, whatever its handlers, its clock and its signal do: what its events say of
its course, and of the states that it went through.

* `Turned` — what a turn of the loop does; `turn_turned` — it does nothing else.
* `Headed` — the invariant of the loop.
* `run_conduct` — what every report is like.
* `run_handlers` — a handler sees no state that does not satisfy the schema.
-/

namespace Knolo.Replay

open Builder (GraphDefinitionV1 Intrinsics validateDefinition)
open Library.Fallible

/-! ### What events say -/

/-- An event that ends a run, and the status that the run ends with. -/
inductive Ends : EventKindV1 → ExecutionStatus → Prop where
  | suspended (reason : String) : Ends (.suspended reason) (.suspended reason)
  | terminated (result : Value) : Ends .terminated (.terminated result)
  | failed (error : String) : Ends (.failed error) (.failed error)
  | cancelled : Ends .cancelled .cancelled

/-- An event of this kind ends a run. -/
def EventKindV1.over : EventKindV1 → Bool
  | .suspended _ | .terminated | .failed _ | .cancelled => true
  | _ => false

/-- The node that an event starts. -/
def ExecutionEventV1.starts (e : ExecutionEventV1) : Option String :=
  match e.kind with
  | .nodeStarted _ => e.nodeId
  | _ => none

/-- The revision that an event is of, and where the state of it comes from. -/
def ExecutionEventV1.patches (e : ExecutionEventV1) : Option (ℕ × Option ProvenanceV1) :=
  match e.kind with
  | .statePatched revision => some (revision, e.nodeId.map fun node => ⟨e.executionId, node, e.sequence⟩)
  | _ => none

/-- The nodes that were started, in order. -/
def started (events : List ExecutionEventV1) : List String := events.filterMap (·.starts)

/-- A transition leads from one node to the other. -/
def Next (graph : GraphDefinitionV1) (u v : String) : Prop := ∃ t ∈ graph.transitions, t.source = u ∧ t.target = v

/-- A walk along transitions, from the entry to a node. -/
structure Walk (graph : GraphDefinitionV1) (trail : List String) (node : String) : Prop where
  entry : trail.head? = some graph.entry
  chain : trail.IsChain (Next graph)
  last : trail.getLast? = some node

/-- No node was started more often than the first cycle it is on allows. -/
def Spared (graph : GraphDefinitionV1) (trail : List String) : Prop :=
  ∀ node ∈ trail, ∀ cycle, graph.cycles.find? (node ∈ ·.nodes) = some cycle →
    exceeds (some (.finite (trail.count node : ℕ))) cycle.maxIterations.number = false

/-! ### A turn -/

section Turns

variable (f : Frame) (I : Intrinsics) (a : Agent)

/-- The node has been visited, and is started. -/
def begun (s : RunState) : RunState :=
  emit f (.nodeStarted 1) (some s.current) (visit { s with readings := s.readings + 1 })

/-- The state that a patch leads to. -/
def patchedState (value : Value) (s : RunState) : StateSnapshot where
  schemaId := s.state.schemaId
  revision := s.state.revision + 1
  value := value
  provenance := some ⟨f.executionId, s.current, s.sequence + 1⟩

/-- A patch is recorded. -/
def patched (value : Value) (s : RunState) : RunState :=
  emit f (.statePatched (s.state.revision + 1)) (some s.current)
    { s with state := patchedState f value s, snapshots := s.snapshots ++ [patchedState f value s] }

/-- What the patch of an outcome comes to. -/
inductive Committed (s : RunState) : RunState → Prop where
  /-- There is none. -/
  | without : Committed s s
  /-- The state that it leads to satisfies the schema. -/
  | patched {value : Value} : validateState I a.definition.schema value = .ok () → Committed s (patched f value s)

/-- The end of a turn that goes on: along a transition, with or without an event of its route. -/
inductive Followed (s : RunState) : RunState → Prop where
  | along {target : String} : Next a.definition.graph s.current target →
      Followed s { emit f .checkpointed (some s.current) s with current := target }
  | routed {route target : String} : Next a.definition.graph s.current target →
      Followed s { emit f .checkpointed (some s.current) (emit f (.routed route target) (some s.current) s) with
        current := target }

/-- What a turn comes to. -/
inductive Turned (s : RunState) : ExecutionReport ⊕ RunState → Prop where
  /-- It is too late for it. -/
  | late : Turned s (.inl (fail f "timeout budget exceeded" { s with readings := s.readings + 1 }))
  /-- The node was visited too often. -/
  | cycle : Turned s (.inl (fail f "cycle limit exceeded" (visit { s with readings := s.readings + 1 })))
  /-- The handler has thrown. -/
  | threw {message : String} : cycleExceeded a (visit s) = false → Turned s (.inl (fail f message (begun f s)))
  /-- The execution cost too much. -/
  | overspent {x : NodeExecution} {error : String} : cycleExceeded a (visit s) = false →
      overBudget a (charge x (begun f s)) = some error → Turned s (.inl (fail f error (charge x (begun f s))))
  /-- The outcome ends the run. -/
  | ended {x : NodeExecution} {u : RunState} {kind : EventKindV1} {status : ExecutionStatus} :
      cycleExceeded a (visit s) = false → overBudget a (charge x (begun f s)) = none →
      Committed f I a (charge x (begun f s)) u → Ends kind status → Turned s (.inl (stop f kind status u))
  /-- The run goes on. -/
  | went {x : NodeExecution} {u v : RunState} :
      cycleExceeded a (visit s) = false → overBudget a (charge x (begun f s)) = none →
      Committed f I a (charge x (begun f s)) u → Followed f a u v → Turned s (.inr v)

variable {f I a} {s u : RunState}

theorem committed_of_commit {patch : Option StateUpdate} (h : commit f I a patch s = .ok u) : Committed f I a s u := by
  cases patch with
  | none =>
    cases h
    exact .without
  | some patch =>
    obtain ⟨update, -, h⟩ := bind_eq_ok.mp h
    obtain ⟨-, h⟩ := check_bind_eq_ok.mp h
    obtain ⟨hvalid, h⟩ := check_bind_eq_ok.mp h
    cases h
    exact .patched hvalid

theorem followed_of_follow {route : String} {routed : Bool} (h : follow f a route routed s = .ok u) :
    Followed f a s u := by
  unfold follow at h
  cases hedge : a.definition.graph.transitions.find? fun t => t.source = s.current ∧ t.route = route with
  | none =>
    rw [hedge] at h
    cases h
  | some edge =>
    rw [hedge] at h
    have hsource : edge.source = s.current := by
      have hfound := List.find?_some hedge
      simp only [decide_eq_true_eq] at hfound
      exact hfound.1
    have hnext : Next a.definition.graph s.current edge.target :=
      ⟨edge, List.mem_of_find?_eq_some hedge, hsource, rfl⟩
    cases routed with
    | false =>
      cases h
      exact .along hnext
    | true =>
      cases h
      exact .routed hnext

/-- What the execution of a node comes to. -/
theorem complete_turned {out : ExecutionReport ⊕ RunState} {x : NodeExecution}
    (hspared : cycleExceeded a (visit s) = false) (h : complete f I a x (begun f s) = .ok out) : Turned f I a s out := by
  unfold complete at h
  dsimp only at h
  split at h
  · rename_i error herror
    cases h
    exact .overspent hspared herror
  · rename_i hwithin
    obtain ⟨u, hcommit, h⟩ := bind_eq_ok.mp h
    have hcommitted := committed_of_commit hcommit
    cases houtcome : x.outcome with
    | terminate result patch =>
      rw [houtcome] at h
      cases h
      exact .ended hspared hwithin hcommitted (.terminated result)
    | suspend reason patch =>
      rw [houtcome] at h
      cases h
      exact .ended hspared hwithin hcommitted (.suspended reason)
    | fail error retryable =>
      rw [houtcome] at h
      cases h
      exact .ended hspared hwithin hcommitted (.failed error)
    | route route patch =>
      rw [houtcome] at h
      obtain ⟨v, hfollow, rfl⟩ := map_eq_ok.mp h
      exact .went hspared hwithin hcommitted (followed_of_follow hfollow)
    | «continue» patch =>
      rw [houtcome] at h
      obtain ⟨v, hfollow, rfl⟩ := map_eq_ok.mp h
      exact .went hspared hwithin hcommitted (followed_of_follow hfollow)

/-- **A turn does nothing else.** -/
theorem turn_turned {out : ExecutionReport ⊕ RunState} (h : turn f I a s = .ok out) : Turned f I a s out := by
  unfold turn at h
  by_cases hlate : late f a s = true
  · rw [if_pos hlate] at h
    cases h
    exact .late
  rw [if_neg hlate] at h
  dsimp only at h
  by_cases hcycle : cycleExceeded a (visit { s with readings := s.readings + 1 }) = true
  · rw [if_pos hcycle] at h
    cases h
    exact .cycle
  rw [if_neg hcycle] at h
  have hspared : cycleExceeded a (visit s) = false := Bool.not_eq_true _ ▸ hcycle
  cases hhandler : a.definition.handlers (visit { s with readings := s.readings + 1 }).current with
  | none =>
    rw [hhandler] at h
    cases h
  | some handler =>
    rw [hhandler] at h
    dsimp only at h
    split at h
    · cases h
      exact .threw hspared
    · exact complete_turned hspared h

end Turns

/-! ### The invariant of the loop -/

section Invariant

variable (f : Frame) (I : Intrinsics) (a : Agent)

/-- The events are those of one execution, numbered, and none of them has ended it. The states are numbered, each
satisfies the schema, and there is an event of each but the first, which tells where the state comes from. -/
structure Recorded (s : RunState) : Prop where
  numbered : s.events.map (fun e => (e.version, e.executionId, e.sequence)) =
    (List.range s.sequence).map fun i => (1, f.executionId, i + 1)
  opened : s.events.head?.map (·.kind) = some .executionStarted
  unfinished : ∀ e ∈ s.events, e.kind.over = false
  patches : s.events.filterMap (·.patches) = s.snapshots.tail.map fun n => (n.revision, n.provenance)
  revisions : s.snapshots.map (·.revision) = List.range (s.state.revision + 1)
  last : s.snapshots.getLast? = some s.state
  valid : ∀ n ∈ s.snapshots,
    n.schemaId = a.definition.schema.id ∧ validateState I a.definition.schema n.value = .ok ()

/-- The current node is the last that was started; it is a step, or will be one. -/
structure Visited (pending : ℕ) (s : RunState) : Prop extends Recorded f I a s where
  walk : Walk a.definition.graph (started s.events) s.current
  steps : s.steps + pending = (started s.events).length
  visits : ∀ node, s.count node = (started s.events).count node
  spared : Spared a.definition.graph (started s.events)

/-- **The invariant** of the loop, at its head: the current node is the next to be started. -/
structure Headed (s : RunState) : Prop extends Recorded f I a s where
  walk : Walk a.definition.graph (started s.events ++ [s.current]) s.current
  steps : s.steps = (started s.events).length
  visits : ∀ node, s.count node = (started s.events).count node
  spared : Spared a.definition.graph (started s.events)
  within : 0 < s.steps → overBudget a s = none

variable {f I a} {s u v : RunState}

theorem started_append (events events' : List ExecutionEventV1) :
    started (events ++ events') = started events ++ started events' := List.filterMap_append ..

theorem started_emit {kind : EventKindV1} {node : String} (hkind : ∀ n, kind ≠ .nodeStarted n) :
    started (emit f kind (some node) s).events = started s.events := by
  rw [emit, started_append]
  cases kind with
  | nodeStarted n => exact absurd rfl (hkind n)
  | _ => exact List.append_nil _

/-- Only what is recorded counts. -/
theorem Recorded.of_same (h : Recorded f I a s)
    (hsame : (u.events, u.sequence, u.state, u.snapshots) = (s.events, s.sequence, s.state, s.snapshots)) :
    Recorded f I a u := by
  simp only [Prod.mk.injEq] at hsame
  obtain ⟨hevents, hsequence, hstate, hsnapshots⟩ := hsame
  constructor
  · rw [hevents, hsequence]
    exact h.numbered
  · rw [hevents]
    exact h.opened
  · rw [hevents]
    exact h.unfinished
  · rw [hevents, hsnapshots]
    exact h.patches
  · rw [hsnapshots, hstate]
    exact h.revisions
  · rw [hsnapshots, hstate]
    exact h.last
  · rw [hsnapshots]
    exact h.valid

/-- The first event stays. -/
theorem Recorded.opened_append (h : Recorded f I a s) (events : List ExecutionEventV1) :
    (s.events ++ events).head?.map (·.kind) = some .executionStarted := by
  have hne : s.events ≠ [] := by
    intro hnil
    have hopened := h.opened
    rw [hnil] at hopened
    cases hopened
  rw [List.head?_append_of_ne_nil _ hne]
  exact h.opened

/-- An event that neither ends the run nor is of a patch. -/
theorem Recorded.emit (h : Recorded f I a s) {kind : EventKindV1} {node : String} (hover : kind.over = false)
    (hkind : ∀ r, kind ≠ .statePatched r) : Recorded f I a (emit f kind (some node) s) where
  numbered := by
    simp only [Replay.emit, List.map_append, h.numbered, List.map_singleton, List.range_succ]
  opened := h.opened_append _
  unfinished := by
    intro e he
    rcases List.mem_append.mp he with he | he
    · exact h.unfinished e he
    · rw [List.mem_singleton.mp he]
      exact hover
  patches := by
    rw [Replay.emit, List.filterMap_append, h.patches]
    cases kind with
    | statePatched r => exact absurd rfl (hkind r)
    | _ => exact List.append_nil _
  revisions := h.revisions
  last := h.last
  valid := h.valid

theorem Recorded.snapshots_ne_nil (h : Recorded f I a s) : s.snapshots ≠ [] := by
  intro hnil
  have hlast := h.last
  rw [hnil] at hlast
  cases hlast

/-- A patch to a state that satisfies the schema. -/
theorem Recorded.patched (h : Recorded f I a s) {value : Value}
    (hvalid : validateState I a.definition.schema value = .ok ()) : Recorded f I a (patched f value s) := by
  have hschema : s.state.schemaId = a.definition.schema.id := (h.valid _ (List.mem_of_getLast? h.last)).1
  refine ⟨?_, ?_, ?_, ?_, ?_, ?_, ?_⟩
  · simp only [Replay.patched, Replay.emit, List.map_append, h.numbered, List.map_singleton, List.range_succ]
  · exact h.opened_append _
  · intro e he
    rcases List.mem_append.mp he with he | he
    · exact h.unfinished e he
    · rw [List.mem_singleton.mp he]
      rfl
  · rw [Replay.patched, Replay.emit, List.filterMap_append, h.patches,
      List.tail_append_of_ne_nil h.snapshots_ne_nil, List.map_append]
    rfl
  · have hrevision : (patchedState f value s).revision = s.state.revision + 1 := rfl
    simp only [Replay.patched, Replay.emit, List.map_append, h.revisions, List.map_singleton, hrevision]
    rw [List.range_succ (n := s.state.revision + 1)]
  · exact List.getLast?_concat
  · intro n hn
    rcases List.mem_append.mp hn with hn | hn
    · exact h.valid n hn
    · rw [List.mem_singleton.mp hn]
      exact ⟨hschema, hvalid⟩

/-- A visit within the limit of its cycle. -/
theorem Headed.visited (h : Headed f I a s) (hcycle : cycleExceeded a (visit s) = false) :
    Visited f I a 1 (begun f s) := by
  have hstarted : started (begun f s).events = started s.events ++ [s.current] := started_append ..
  have hread : Recorded f I a (visit { s with readings := s.readings + 1 }) := h.toRecorded.of_same rfl
  have hcount : ∀ node, (begun f s).count node = (started (begun f s).events).count node := by
    intro node
    have hvisit : (begun f s).count node = (visit s).count node := rfl
    rw [hvisit, count_visit, hstarted, List.count_append, h.visits, List.count_singleton]
    by_cases hnode : node = s.current
    · rw [if_pos hnode, if_pos (beq_iff_eq.mpr hnode.symm)]
    · rw [if_neg hnode, if_neg (by simpa using Ne.symm hnode), Nat.add_zero]
  refine ⟨hread.emit rfl (by simp), ?_, ?_, hcount, ?_⟩
  · rw [hstarted]
    exact h.walk
  · rw [hstarted, List.length_append, ← h.steps]
    rfl
  · intro node hnode cycle hfind
    rw [← hcount]
    by_cases hcurrent : node = s.current
    · subst hcurrent
      have hvisit : cycleExceeded a (visit s) =
          exceeds (some (.finite ((visit s).count s.current : ℕ))) cycle.maxIterations.number := by
        rw [cycleExceeded, show (visit s).current = s.current from rfl, hfind]
        rfl
      exact hvisit ▸ hcycle
    · have hsame : (begun f s).count node = (started s.events).count node := by
        have hvisit : (begun f s).count node = (visit s).count node := rfl
        rw [hvisit, count_visit, if_neg hcurrent, h.visits]
      rw [hstarted, List.mem_append, List.mem_singleton, or_iff_left hcurrent] at hnode
      rw [hsame]
      exact h.spared node hnode cycle hfind

/-- The step is counted. -/
theorem Visited.charge (h : Visited f I a 1 s) (x : NodeExecution) : Visited f I a 0 (charge x s) :=
  ⟨h.toRecorded.of_same rfl, h.walk, h.steps, h.visits, h.spared⟩

theorem Visited.committed {n : ℕ} (h : Visited f I a n s) (hcommit : Committed f I a s u) : Visited f I a n u := by
  cases hcommit with
  | without => exact h
  | @patched value hvalid =>
    have hstarted : started (patched f value s).events = started s.events := by
      rw [started, patched, emit, List.filterMap_append]
      exact List.append_nil _
    refine ⟨h.toRecorded.patched hvalid, ?_, ?_, ?_, ?_⟩
    · rw [hstarted]
      exact h.walk
    · rw [hstarted]
      exact h.steps
    · rw [hstarted]
      exact h.visits
    · rw [hstarted]
      exact h.spared

/-- A patch costs nothing. -/
theorem Committed.overBudget (h : Committed f I a s u) : overBudget a u = overBudget a s := by
  cases h <;> rfl

theorem Walk.next {graph : GraphDefinitionV1} {trail : List String} {node target : String} (h : Walk graph trail node)
    (hnext : Next graph node target) : Walk graph (trail ++ [target]) target where
  entry := by
    have hne : trail ≠ [] := by
      rintro rfl
      cases h.entry
    rw [List.head?_append_of_ne_nil _ hne]
    exact h.entry
  chain := by
    refine List.isChain_append.mpr ⟨h.chain, List.isChain_singleton _, fun u hu v hv => ?_⟩
    obtain rfl : u = node := Option.some.inj (hu.symm.trans h.last)
    obtain rfl : target = v := Option.some.inj hv
    exact hnext
  last := List.getLast?_concat

/-- An event along the way. -/
theorem Visited.emit {n : ℕ} (h : Visited f I a n s) {kind : EventKindV1} (hover : kind.over = false)
    (hpatch : ∀ r, kind ≠ .statePatched r) (hstart : ∀ n, kind ≠ .nodeStarted n) :
    Visited f I a n (emit f kind (some s.current) s) := by
  have hstarted : started (Replay.emit f kind (some s.current) s).events = started s.events := started_emit hstart
  refine ⟨h.toRecorded.emit hover hpatch, ?_, ?_, ?_, ?_⟩
  · rw [hstarted]
    exact h.walk
  · rw [hstarted]
    exact h.steps
  · rw [hstarted]
    exact h.visits
  · rw [hstarted]
    exact h.spared

/-- The next head, along a transition. -/
theorem Visited.headed (h : Visited f I a 0 s) (hwithin : overBudget a s = none) {target : String}
    (hnext : Next a.definition.graph s.current target) : Headed f I a { s with current := target } :=
  ⟨h.toRecorded.of_same rfl, h.walk.next hnext, h.steps, h.visits, h.spared, fun _ => hwithin⟩

theorem Visited.followed (h : Visited f I a 0 s) (hwithin : overBudget a s = none) (hfollow : Followed f a s u) :
    Headed f I a u := by
  cases hfollow with
  | along hnext => exact (h.emit rfl (by simp) (by simp)).headed hwithin hnext
  | routed hnext => exact ((h.emit rfl (by simp) (by simp)).emit rfl (by simp) (by simp)).headed hwithin hnext

end Invariant

/-! ### Reports -/

/-- What every report is like. -/
structure Conduct (f : Frame) (I : Intrinsics) (a : Agent) (r : ExecutionReport) : Prop where
  /-- The events are of one execution, and numbered. -/
  numbered : r.events.map (fun e => (e.version, e.executionId, e.sequence)) =
    (List.range r.events.length).map fun i => (1, f.executionId, i + 1)
  opened : r.events.head?.map (·.kind) = some .executionStarted
  /-- The last event ends the run with its status, and no other event ends it. What was started is a walk of the
  graph from its entry; it ends at the node of the last event, or before it. -/
  ends : ∃ before last trail node, r.events = before ++ [last] ∧ Ends last.kind r.status ∧
    (∀ e ∈ before, e.kind.over = false) ∧ last.nodeId = some node ∧ Walk a.definition.graph trail node ∧
      (started r.events = trail ∨ started r.events ++ [node] = trail)
  /-- Each node that was started is a step, but for one whose handler has thrown. -/
  steps : r.steps ≤ (started r.events).length ∧ (started r.events).length ≤ r.steps + 1 ∧
    (started r.events).length ≤ maxSteps a.definition.graph
  spared : Spared a.definition.graph (started r.events)
  /-- The budgets are kept, or the run has failed for them. -/
  within : 0 < r.steps → (∃ error ∈ ["token budget exceeded", "cost budget exceeded"], r.status = .failed error) ∨
    (exceeds r.tokens a.definition.graph.limits.maxTokens.number = false ∧
      exceeds r.costMicros a.definition.graph.limits.maxCostMicros.number = false)
  /-- The states are numbered, each satisfies the schema, and there is an event of each but the first. -/
  states : ∃ snapshots, r.snapshots = some snapshots ∧
    r.events.filterMap (·.patches) = snapshots.tail.map (fun n => (n.revision, n.provenance)) ∧
    snapshots.map (·.revision) = List.range (r.state.revision + 1) ∧ snapshots.getLast? = some r.state ∧
    ∀ n ∈ snapshots, n.schemaId = a.definition.schema.id ∧ validateState I a.definition.schema n.value = .ok ()

section Reports

variable {f : Frame} {I : Intrinsics} {a : Agent} {s : RunState}

/-- What is over budget. -/
theorem overBudget_cases : (∃ error ∈ ["token budget exceeded", "cost budget exceeded"], overBudget a s = some error) ∨
    (exceeds s.tokens a.definition.graph.limits.maxTokens.number = false ∧
      exceeds s.cost a.definition.graph.limits.maxCostMicros.number = false) := by
  unfold overBudget
  split_ifs with htokens hcost
  · exact .inl ⟨_, .head _, rfl⟩
  · exact .inl ⟨_, .tail _ (.head _), rfl⟩
  · exact .inr ⟨Bool.not_eq_true _ ▸ htokens, Bool.not_eq_true _ ▸ hcost⟩

/-- A run that ends here. -/
theorem Recorded.stop (h : Recorded f I a s) {kind : EventKindV1} {status : ExecutionStatus} (hends : Ends kind status)
    {trail : List String} (hwalk : Walk a.definition.graph trail s.current)
    (htrail : started s.events = trail ∨ started s.events ++ [s.current] = trail)
    (hsteps : s.steps ≤ (started s.events).length ∧ (started s.events).length ≤ s.steps + 1 ∧
      (started s.events).length ≤ maxSteps a.definition.graph)
    (hspared : Spared a.definition.graph (started s.events))
    (hwithin : ∀ error, 0 < s.steps → overBudget a s = some error → status = .failed error) :
    Conduct f I a (stop f kind status s) := by
  have hlength : s.events.length = s.sequence := by
    have hlengths := congrArg List.length h.numbered
    rwa [List.length_map, List.length_map, List.length_range] at hlengths
  have hstarted : started (Replay.stop f kind status s).events = started s.events :=
    started_emit (by rintro n rfl; cases hends)
  refine ⟨?_, ?_, ⟨s.events, _, trail, s.current, rfl, hends, h.unfinished, rfl, hwalk, hstarted ▸ htrail⟩,
    hstarted ▸ hsteps, hstarted ▸ hspared, ?_, ⟨s.snapshots, rfl, ?_, h.revisions, h.last, h.valid⟩⟩
  · simp only [Replay.stop, Replay.emit, RunState.report, List.map_append, h.numbered, List.map_singleton,
      List.length_append, List.length_singleton, hlength, List.range_succ]
  · exact h.opened_append _
  · intro hpositive
    rcases overBudget_cases (a := a) (s := s) with ⟨error, herror, hover⟩ | hkept
    · exact .inl ⟨error, herror, hwithin error hpositive hover⟩
    · exact .inr hkept
  · rw [Replay.stop, RunState.report, Replay.emit, List.filterMap_append, h.patches]
    cases hends <;> exact List.append_nil _

/-- A run that ends at a head. -/
theorem Headed.stop (h : Headed f I a s) {kind : EventKindV1} {status : ExecutionStatus} (hends : Ends kind status)
    (hmax : s.steps ≤ maxSteps a.definition.graph) : Conduct f I a (stop f kind status s) := by
  refine h.toRecorded.stop hends h.walk (.inr rfl) ⟨h.steps.le, by rw [← h.steps]; omega, h.steps ▸ hmax⟩ h.spared ?_
  intro error hpositive herror
  rw [h.within hpositive] at herror
  cases herror

/-- A run that ends at a node. -/
theorem Visited.stop {n : ℕ} (h : Visited f I a n s) {kind : EventKindV1} {status : ExecutionStatus}
    (hends : Ends kind status) (hn : n ≤ 1) (hmax : s.steps + n ≤ maxSteps a.definition.graph)
    (hwithin : ∀ error, 0 < s.steps → overBudget a s = some error → status = .failed error) :
    Conduct f I a (stop f kind status s) := by
  refine h.toRecorded.stop hends h.walk (.inl rfl) ⟨?_, ?_, ?_⟩ h.spared hwithin
  · rw [← h.steps]
    omega
  · rw [← h.steps]
    omega
  · rw [← h.steps]
    exact hmax

theorem committed_steps {u : RunState} (h : Committed f I a s u) : u.steps = s.steps := by cases h <;> rfl

theorem followed_steps {u : RunState} (h : Followed f a s u) : u.steps = s.steps := by cases h <;> rfl

/-- **The step lemma**: a turn within the budget of steps ends the run as every run ends, or comes to a head. -/
theorem Headed.turned (h : Headed f I a s) (hmax : s.steps < maxSteps a.definition.graph)
    {out : ExecutionReport ⊕ RunState} (hturn : Turned f I a s out) :
    Sum.elim (Conduct f I a) (fun v => Headed f I a v ∧ v.steps = s.steps + 1) out := by
  have hread : Headed f I a { s with readings := s.readings + 1 } :=
    ⟨h.toRecorded.of_same rfl, h.walk, h.steps, h.visits, h.spared, h.within⟩
  cases hturn with
  | late => exact hread.stop (.failed _) hmax.le
  | cycle => exact hread.stop (.failed _) hmax.le
  | threw hcycle =>
    refine (h.visited hcycle).stop (.failed _) le_rfl hmax fun error hpositive herror => ?_
    have hwithin : overBudget a (begun f s) = overBudget a s := rfl
    rw [hwithin, h.within hpositive] at herror
    cases herror
  | @overspent x error hcycle hover =>
    refine ((h.visited hcycle).charge x).stop (.failed _) zero_le_one hmax fun error' _ herror => ?_
    rw [hover, Option.some.injEq] at herror
    rw [herror]
  | @ended x u kind status hcycle hwithin hcommit hends =>
    refine (((h.visited hcycle).charge x).committed hcommit).stop hends zero_le_one ?_ fun error _ herror => ?_
    · rw [committed_steps hcommit]
      exact hmax
    · rw [hcommit.overBudget, hwithin] at herror
      cases herror
  | @went x u v hcycle hwithin hcommit hfollow =>
    have hu := ((h.visited hcycle).charge x).committed hcommit
    refine ⟨hu.followed (hcommit.overBudget.trans hwithin) hfollow, ?_⟩
    rw [followed_steps hfollow, committed_steps hcommit]
    rfl

/-- The run lemma. -/
theorem Headed.runFrom {remaining : ℕ} {r : ExecutionReport} (h : Headed f I a s)
    (hmax : s.steps + remaining = maxSteps a.definition.graph) (hrun : runFrom f I a remaining s = .ok r) :
    Conduct f I a r := by
  induction remaining generalizing s with
  | zero =>
    rw [Replay.runFrom] at hrun
    split at hrun
    · cases hrun
      exact h.stop .cancelled hmax.le
    · cases hrun
      exact h.stop (.failed _) hmax.le
  | succ remaining ih =>
    rw [Replay.runFrom] at hrun
    split at hrun
    · cases hrun
      exact h.stop .cancelled (by omega)
    · cases hturn : turn f I a s with
      | error e =>
        rw [hturn] at hrun
        cases hrun
      | ok out =>
        rw [hturn] at hrun
        have hout := h.turned (by omega) (turn_turned hturn)
        cases out with
        | inl report =>
          cases hrun
          exact hout
        | inr v =>
          obtain ⟨hv, hsteps⟩ := hout
          exact ih hv (by omega) hrun

end Reports

/-! ### Runs -/

section Runs

variable {I : Intrinsics} {a : Agent} {initial : Value} {options : RunOptions} {w : Surroundings} {r : ExecutionReport}

theorem headed_firstState (f : Frame) (hvalid : validateState I a.definition.schema initial = .ok ()) :
    Headed f I a (firstState a f initial) where
  numbered := rfl
  opened := rfl
  unfinished := by
    intro e he
    rw [List.mem_singleton.mp he]
    rfl
  patches := rfl
  revisions := rfl
  last := rfl
  valid := by
    intro n hn
    rw [List.mem_singleton.mp hn]
    exact ⟨rfl, hvalid⟩
  walk := ⟨rfl, List.isChain_singleton _, rfl⟩
  steps := rfl
  visits _ := rfl
  spared := by
    intro node hnode
    cases hnode
  within h := absurd h (lt_irrefl 0)

/-- **What every report is like**, whatever the handlers, the clock and the signal do. -/
theorem run_conduct (h : a.run I initial options w = .ok r) : Conduct (options.frame w) I a r := by
  obtain ⟨hvalid, hrun⟩ := check_bind_eq_ok.mp h
  exact (headed_firstState _ hvalid).runFrom (Nat.zero_add _) hrun

/-- A draft that is written three times. -/
theorem run_conduct_drafter : ∃ r, (drafter 2).run Builder.bareIntrinsics blank {} midnight = .ok r ∧
    Conduct (RunOptions.frame {} midnight) Builder.bareIntrinsics (drafter 2) r := by
  obtain ⟨r, hr⟩ := exists_of_isOk (x := (drafter 2).run Builder.bareIntrinsics blank {} midnight) (by decide +kernel)
  exact ⟨r, hr, run_conduct hr⟩

/-! ### What handlers see -/

/-- The agent, with other handlers. -/
def Agent.withHandlers (a : Agent) (handlers : String → Option NodeHandler) : Agent where
  definition := { a.definition with handlers }
  valid := a.valid
  capable := a.capable

/-- Two handlers of a node do the same in states that satisfy the schema. -/
inductive Indistinct (I : Intrinsics) (schema : TypedStateSchema) : Option NodeHandler → Option NodeHandler → Prop where
  | absent : Indistinct I schema none none
  | present {x x' : NodeHandler} : (∀ c, validateState I schema c.state = .ok () → c.attempt = 1 → x' c = x c) →
      Indistinct I schema (some x) (some x')

variable {handlers : String → Option NodeHandler} {f : Frame} {s : RunState}

theorem turn_withHandlers (h : Headed f I a s)
    (hsame : Indistinct I a.definition.schema (a.definition.handlers s.current) (handlers s.current)) :
    turn f I (a.withHandlers handlers) s = turn f I a s := by
  have hstate := (h.valid _ (List.mem_of_getLast? h.last)).2
  have hlate : late f (a.withHandlers handlers) s = late f a s := rfl
  have hcycle (u : RunState) : cycleExceeded (a.withHandlers handlers) u = cycleExceeded a u := rfl
  have hhandlers : (a.withHandlers handlers).definition.handlers = handlers := rfl
  have hcurrent : (visit { s with readings := s.readings + 1 }).current = s.current := rfl
  have hcomplete (x : NodeExecution) (u : RunState) :
      complete f I (a.withHandlers handlers) x u = complete f I a x u := rfl
  simp only [turn, hlate, hcycle, hhandlers, hcurrent, hcomplete]
  split_ifs
  · rfl
  · rfl
  · generalize a.definition.handlers s.current = old at hsame ⊢
    generalize handlers s.current = new at hsame ⊢
    cases hsame with
    | absent => rfl
    | present hdo =>
      dsimp only
      rw [hdo _ hstate rfl]

/-- **A handler sees no state that does not satisfy the schema**: handlers that do the same in the states that do
make for the same run. -/
theorem run_handlers (initial : Value) (options : RunOptions) (w : Surroundings)
    (hsame : ∀ trail node, Walk a.definition.graph trail node →
      Indistinct I a.definition.schema (a.definition.handlers node) (handlers node)) :
    (a.withHandlers handlers).run I initial options w = a.run I initial options w := by
  have hloop : ∀ remaining (s : RunState), Headed (options.frame w) I a s →
      s.steps + remaining = maxSteps a.definition.graph →
      runFrom (options.frame w) I (a.withHandlers handlers) remaining s = runFrom (options.frame w) I a remaining s := by
    intro remaining
    induction remaining with
    | zero => exact fun _ _ _ => rfl
    | succ remaining ih =>
      intro s hs hmax
      rw [runFrom, runFrom, turn_withHandlers hs (hsame _ _ hs.walk)]
      split
      · rfl
      · cases hturn : turn (options.frame w) I a s with
        | error e => rfl
        | ok out =>
          cases out with
          | inl report => rfl
          | inr v =>
            obtain ⟨hv, hsteps⟩ := hs.turned (by omega) (turn_turned hturn)
            exact ih v hv (by omega)
  unfold Agent.run
  cases hvalid : validateState I a.definition.schema initial with
  | error e =>
    rw [show (a.withHandlers handlers).definition.schema = a.definition.schema from rfl, hvalid]
    rfl
  | ok _ =>
    rw [show (a.withHandlers handlers).definition.schema = a.definition.schema from rfl, hvalid, ok_bind, ok_bind]
    exact hloop _ _ (headed_firstState _ hvalid) (Nat.zero_add _)

/-- Handlers of the counting agent that throw if there is no count in sight. -/
def guarded (_ : String) : Option NodeHandler := some fun c =>
  match validateState Builder.bareIntrinsics counter.definition.schema c.state with
  | .error e => .error e
  | .ok () => .ok { outcome := .terminate .null none }

/-- They never do. -/
theorem run_handlers_counter : (counter.withHandlers guarded).run Builder.bareIntrinsics uncounted {} noon =
    counter.run Builder.bareIntrinsics uncounted {} noon := by
  refine run_handlers uncounted {} noon fun _ _ _ => .present fun c hvalid _ => ?_
  rw [hvalid]

end Runs

end Knolo.Replay
