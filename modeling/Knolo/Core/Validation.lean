import Knolo.Core.Graph
import Knolo.Library.Traverse

/-!
# What a valid graph is

The validation of a graph in the terms of graphs (`GraphDefinitionV1.Valid`): what the passes of
`GraphDefinitionV1.validate` over the nodes, transitions and cycles come to, with reachability
in place of the searches. `validate_iff` says that the two are the same, and `validate_eq_ok_iff`
says it of walks and directed cycles instead of reachability.
-/

namespace Knolo.Core

open Library Library.Fallible Library.Traverse Relation

/-- `b` is the target of a transition out of `a`. -/
def GraphDefinitionV1.Next (g : GraphDefinitionV1) (a b : NodeId) : Prop :=
  ∃ t ∈ g.transitions, t.source = a ∧ t.target = b

/-- What validation asks of a graph. -/
structure GraphDefinitionV1.Valid (g : GraphDefinitionV1) : Prop where
  version : g.version = 1
  maxSteps : 0 < g.limits.maxSteps
  timeoutMs : 0 < g.limits.timeoutMs
  nodes : (g.nodes.map (·.id)).Nodup
  entry : g.entry ∈ g.nodes.map (·.id)
  terminal : ∃ n ∈ g.nodes, n.terminal = true
  transitions : (g.transitions.map (·.id)).Nodup
  endpoints : ∀ t ∈ g.transitions, t.source ∈ g.nodes.map (·.id) ∧ t.target ∈ g.nodes.map (·.id)
  routes : (g.transitions.map fun t => (t.source, t.route)).Nodup
  reachable : ∀ n ∈ g.nodes.map (·.id), ReflTransGen g.Next g.entry n
  cycles : ∀ c ∈ g.cycles, c.maxIterations ≠ 0 ∧ c.nodes.isEmpty = false
  /-- A transition on a closed walk is within a declared cycle. -/
  declared : ∀ t ∈ g.transitions, ReflTransGen g.Next t.target t.source →
    ∃ c ∈ g.cycles, c.nodes.contains t.source = true ∧ c.nodes.contains t.target = true

theorem edge_eq_next {g : GraphDefinitionV1} : Reach.Edge (edges g.transitions) = g.Next := by
  funext a b
  simp [Reach.Edge, edges, GraphDefinitionV1.Next]

/-- A search that stops at a node comes to it when there is a walk. -/
theorem canReach_iff {g : GraphDefinitionV1} {a b : NodeId} :
    canReach a b g.transitions = true ↔ ReflTransGen g.Next a b := by
  rw [← edge_eq_next]
  unfold canReach
  cases h : Reach.explore (edges g.transitions) (fun n => n = b) (g.transitions.length + 1) [a] ∅ with
  | none =>
    obtain ⟨c, hc, hb⟩ := Reach.exists_of_explore_none h
    simp only [decide_eq_true_eq] at hb
    subst hb
    simpa using hc
  | some found =>
    refine ⟨fun hf => by simp at hf, fun hab => ?_⟩
    have := (Reach.explore_complete (by simp [edges]) h hab).2
    simp at this

/-- A set of distinct elements has as many as the list it is of. -/
theorem card_toFinset_iff {α : Type} [DecidableEq α] {l : List α} : l.toFinset.card = l.length ↔ l.Nodup :=
  ⟨fun h => Multiset.coe_nodup.mp (Multiset.toFinset_card_eq_card_iff_nodup.mp h),
    List.toFinset_card_of_nodup⟩

/-- Everything can be reached when as much is found as there is, provided that nothing else can
be found. -/
theorem card_eq_iff_reach {α : Type} [DecidableEq α] {R : α → α → Prop} {a : α} {ids found : Finset α}
    (ha : a ∈ ids) (hids : ∀ b c, R b c → c ∈ ids) (hfound : ∀ b, b ∈ found ↔ ReflTransGen R a b) :
    found.card = ids.card ↔ ∀ b ∈ ids, ReflTransGen R a b := by
  have hsub : found ⊆ ids := by
    intro b hb
    rcases ReflTransGen.cases_tail ((hfound b).mp hb) with rfl | ⟨c, -, hcb⟩
    · exact ha
    · exact hids _ _ hcb
  constructor
  · intro h b hb
    rw [← hfound, Finset.eq_of_subset_of_card_le hsub h.ge]
    exact hb
  · intro h
    rw [Finset.Subset.antisymm hsub fun b hb => (hfound b).mpr (h b hb)]

/-- The depth-first search finds everything exactly when every node can be reached. -/
theorem reached_iff {g : GraphDefinitionV1} (he : g.entry ∈ g.nodes.map (·.id))
    (ht : ∀ t ∈ g.transitions, t.source ∈ g.nodes.map (·.id) ∧ t.target ∈ g.nodes.map (·.id)) :
    (reached g.entry g.transitions).map Finset.card = some (g.nodes.map (·.id)).toFinset.card ↔
      ∀ n ∈ g.nodes.map (·.id), ReflTransGen g.Next g.entry n := by
  cases h : reached g.entry g.transitions with
  | none =>
    obtain ⟨_, -, hstop⟩ := Reach.exists_of_explore_none h
    cases hstop
  | some found =>
    have hnext : ∀ b c, g.Next b c → c ∈ (g.nodes.map (·.id)).toFinset := by
      rintro b c ⟨t, hm, -, rfl⟩
      exact List.mem_toFinset.mpr (ht t hm).2
    have hfound : ∀ b, b ∈ found ↔ ReflTransGen g.Next g.entry b := fun b => by
      rw [← edge_eq_next]
      exact Reach.mem_explore (by simp [edges]) h
    have hcard := card_eq_iff_reach (List.mem_toFinset.mpr he) hnext hfound
    simpa using hcard

theorem checkTransition_eq_ok {ids : List NodeId} {keys keys' : Finset (NodeId × String)}
    {t : TransitionDefinitionV1} : checkTransition ids keys t = .ok keys' ↔
      (t.source ∈ ids ∧ t.target ∈ ids) ∧ (t.source, t.route) ∉ keys ∧
        insert (t.source, t.route) keys = keys' := by
  simp only [checkTransition, bind_eq_ok, ensure_eq_ok, exists_const]
  constructor
  · rintro ⟨h, hk, he⟩
    exact ⟨h, hk, Except.ok.inj he⟩
  · rintro ⟨h, hk, he⟩
    exact ⟨h, hk, congrArg _ he⟩

theorem cycleDeclared_iff {g : GraphDefinitionV1} {t : TransitionDefinitionV1} :
    g.cycleDeclared t = true ↔ (ReflTransGen g.Next t.target t.source →
      ∃ c ∈ g.cycles, c.nodes.contains t.source = true ∧ c.nodes.contains t.target = true) := by
  rw [← canReach_iff]
  cases h : canReach t.target t.source g.transitions <;> simp [GraphDefinitionV1.cycleDeclared, h]

/-- **Validation accepts exactly the valid graphs.** -/
theorem GraphDefinitionV1.validate_iff {g : GraphDefinitionV1} : g.validate = .ok () ↔ g.Valid := by
  have hroutes := foldlM_distinct (s := ∅) (l := g.transitions)
    fun s t s' => @checkTransition_eq_ok (g.nodes.map (·.id)) s s' t
  simp only [Finset.notMem_empty, not_false_eq_true, implies_true, and_true] at hroutes
  have hnodes : (g.nodes.map (·.id)).toFinset.card = g.nodes.length ↔ (g.nodes.map (·.id)).Nodup := by
    rw [← card_toFinset_iff, List.length_map]
  have htransitions : (g.transitions.map (·.id)).toFinset.card = g.transitions.length ↔
      (g.transitions.map (·.id)).Nodup := by
    rw [← card_toFinset_iff, List.length_map]
  constructor
  · intro h
    obtain ⟨_, h1, h⟩ := bind_eq_ok.mp h
    obtain ⟨_, h2, h⟩ := bind_eq_ok.mp h
    obtain ⟨_, h3, h⟩ := bind_eq_ok.mp h
    obtain ⟨_, h4, h⟩ := bind_eq_ok.mp h
    obtain ⟨_, h5, h⟩ := bind_eq_ok.mp h
    obtain ⟨keys, h6, h⟩ := bind_eq_ok.mp h
    obtain ⟨_, h7, h⟩ := bind_eq_ok.mp h
    obtain ⟨_, h8, h9⟩ := bind_eq_ok.mp h
    obtain ⟨hversion, hlimits⟩ := ensure_eq_ok.mp h1
    simp only [ExecutionLimitsV1.valid, Bool.and_eq_true, decide_eq_true_eq] at hlimits
    have hentry := ensure_eq_ok.mp h3
    obtain ⟨hend, hkeys⟩ := hroutes.mp ⟨keys, h6⟩
    exact
      { version := hversion
        maxSteps := hlimits.1
        timeoutMs := hlimits.2
        nodes := hnodes.mp (ensure_eq_ok.mp h2)
        entry := hentry
        terminal := List.any_eq_true.mp (ensure_eq_ok.mp h4)
        transitions := htransitions.mp (ensure_eq_ok.mp h5)
        endpoints := hend
        routes := hkeys
        reachable := (reached_iff hentry hend).mp (ensure_eq_ok.mp h7)
        cycles := fun c hc => by
          simpa [CycleDefinitionV1.bounded] using List.all_eq_true.mp (ensure_eq_ok.mp h8) c hc
        declared := fun t ht => cycleDeclared_iff.mp (List.all_eq_true.mp (ensure_eq_ok.mp h9) t ht) }
  · intro h
    obtain ⟨keys, hkeys⟩ := hroutes.mpr ⟨h.endpoints, h.routes⟩
    refine bind_eq_ok.mpr ⟨(), ensure_eq_ok.mpr ⟨h.version, ?_⟩, ?_⟩
    · simp [ExecutionLimitsV1.valid, h.maxSteps, h.timeoutMs]
    refine bind_eq_ok.mpr ⟨(), ensure_eq_ok.mpr (hnodes.mpr h.nodes), ?_⟩
    refine bind_eq_ok.mpr ⟨(), ensure_eq_ok.mpr h.entry, ?_⟩
    refine bind_eq_ok.mpr ⟨(), ensure_eq_ok.mpr (List.any_eq_true.mpr h.terminal), ?_⟩
    refine bind_eq_ok.mpr ⟨(), ensure_eq_ok.mpr (htransitions.mpr h.transitions), ?_⟩
    refine bind_eq_ok.mpr ⟨_, hkeys, ?_⟩
    refine bind_eq_ok.mpr ⟨(), ensure_eq_ok.mpr ((reached_iff h.entry h.endpoints).mpr h.reachable), ?_⟩
    refine bind_eq_ok.mpr ⟨(), ensure_eq_ok.mpr (List.all_eq_true.mpr fun c hc => ?_), ?_⟩
    · simpa [CycleDefinitionV1.bounded] using h.cycles c hc
    · exact ensure_eq_ok.mpr (List.all_eq_true.mpr fun t ht => cycleDeclared_iff.mpr (h.declared t ht))

/-! ### Directed cycles -/

namespace GraphDefinitionV1

variable {g : GraphDefinitionV1} {a b : NodeId} {ts : List TransitionDefinitionV1} {t : TransitionDefinitionV1}

/-- A walk along transitions. -/
def Walk (g : GraphDefinitionV1) : NodeId → List TransitionDefinitionV1 → NodeId → Prop
  | a, [], b => a = b
  | a, t :: ts, b => t ∈ g.transitions ∧ t.source = a ∧ g.Walk t.target ts b

/-- A directed cycle: a walk that comes back to where it began, and leaves no node twice. -/
structure DirectedCycle (g : GraphDefinitionV1) (ts : List TransitionDefinitionV1) : Prop where
  nonempty : ts ≠ []
  closed : ∃ a, g.Walk a ts a
  simple : (ts.map (·.source)).Nodup

theorem Walk.reach (h : g.Walk a ts b) : ReflTransGen g.Next a b := by
  induction ts generalizing a with
  | nil =>
    cases h
    exact .refl
  | cons t ts ih =>
    obtain ⟨ht, rfl, h⟩ := h
    exact .head ⟨t, ht, rfl, rfl⟩ (ih h)

/-- What a walk is before and after one of its transitions. -/
theorem Walk.split {before after : List TransitionDefinitionV1} (h : g.Walk a (before ++ t :: after) b) :
    g.Walk a before t.source ∧ g.Walk t.source (t :: after) b := by
  induction before generalizing a with
  | nil =>
    have hsource := h.2.1
    exact ⟨hsource.symm, h.1, rfl, h.2.2⟩
  | cons u before ih =>
    obtain ⟨hu, rfl, h⟩ := h
    obtain ⟨h1, h2⟩ := ih h
    exact ⟨⟨hu, rfl, h1⟩, h2⟩

/-- What can be reached is reached by a walk that leaves no node twice, and its end never. -/
theorem exists_simple_walk (h : ReflTransGen g.Next a b) :
    ∃ ts, g.Walk a ts b ∧ (ts.map (·.source)).Nodup ∧ b ∉ ts.map (·.source) := by
  induction h using ReflTransGen.head_induction_on with
  | refl => exact ⟨[], rfl, List.nodup_nil, by simp⟩
  | @head a c hac _ ih =>
    obtain ⟨ts, hwalk, hsimple, hend⟩ := ih
    obtain ⟨t, ht, rfl, rfl⟩ := hac
    by_cases hb : t.source = b
    · exact ⟨[], hb, List.nodup_nil, by simp⟩
    by_cases hmem : t.source ∈ ts.map (·.source)
    · -- the walk comes back to where it began: leave out what it does in between
      obtain ⟨u, hu, hut⟩ := List.mem_map.mp hmem
      obtain ⟨before, after, rfl⟩ := List.append_of_mem hu
      rw [List.map_append] at hsimple hend
      refine ⟨u :: after, ?_, (List.nodup_append.mp hsimple).2.1, fun h => hend (List.mem_append_right _ h)⟩
      rw [← hut]
      exact hwalk.split.2
    · refine ⟨t :: ts, ⟨ht, rfl, hwalk⟩, List.nodup_cons.mpr ⟨hmem, hsimple⟩, ?_⟩
      rw [List.map_cons, List.mem_cons, not_or]
      exact ⟨Ne.symm hb, hend⟩

/-- **A transition lies on a directed cycle when its target can reach its source.** -/
theorem on_cycle_iff (ht : t ∈ g.transitions) :
    (∃ ts, g.DirectedCycle ts ∧ t ∈ ts) ↔ ReflTransGen g.Next t.target t.source := by
  constructor
  · rintro ⟨ts, hcycle, hmem⟩
    obtain ⟨a, hwalk⟩ := hcycle.closed
    obtain ⟨before, after, rfl⟩ := List.append_of_mem hmem
    obtain ⟨hbefore, -, -, hafter⟩ := hwalk.split
    exact hafter.reach.trans hbefore.reach
  · intro h
    obtain ⟨ts, hwalk, hsimple, hend⟩ := exists_simple_walk h
    refine ⟨t :: ts, ⟨List.cons_ne_nil _ _, ⟨t.source, ht, rfl, hwalk⟩, ?_⟩, List.mem_cons_self ..⟩
    exact List.nodup_cons.mpr ⟨hend, hsimple⟩

/-- **Validation meets its specification.** It accepts a graph exactly if the version is 1, the
limits of steps and time are positive, nothing is declared twice, everything that is named is
declared, every node can be reached and some node is terminal, and every transition of a directed
cycle is within one declared, bounded cycle. -/
theorem validate_eq_ok_iff (g : GraphDefinitionV1) : g.validate = .ok () ↔
    g.version = 1 ∧ 0 < g.limits.maxSteps ∧ 0 < g.limits.timeoutMs ∧
    (g.nodes.map (·.id)).Nodup ∧ (g.transitions.map (·.id)).Nodup ∧
    (g.transitions.map fun t => (t.source, t.route)).Nodup ∧
    g.entry ∈ g.nodes.map (·.id) ∧
    (∀ t ∈ g.transitions, t.source ∈ g.nodes.map (·.id) ∧ t.target ∈ g.nodes.map (·.id)) ∧
    (∃ n ∈ g.nodes, n.terminal = true) ∧
    (∀ n ∈ g.nodes, ∃ ts, g.Walk g.entry ts n.id) ∧
    (∀ c ∈ g.cycles, (∃ n, n ∈ c.nodes) ∧ 0 < c.maxIterations) ∧
    (∀ t ∈ g.transitions, (∃ ts, g.DirectedCycle ts ∧ t ∈ ts) →
      ∃ c ∈ g.cycles, t.source ∈ c.nodes ∧ t.target ∈ c.nodes) := by
  have hreach : ∀ n, (∃ ts, g.Walk g.entry ts n) ↔ ReflTransGen g.Next g.entry n := by
    refine fun n => ⟨fun ⟨ts, h⟩ => h.reach, fun h => ?_⟩
    obtain ⟨ts, hwalk, -⟩ := exists_simple_walk h
    exact ⟨ts, hwalk⟩
  have hempty : ∀ nodes : Std.ExtTreeSet NodeId, nodes.isEmpty = false ↔ ∃ n, n ∈ nodes := fun nodes => by
    rw [← Std.ExtTreeSet.isEmpty_toList, List.isEmpty_eq_false_iff_exists_mem]
    simp only [Std.ExtTreeSet.mem_toList]
  rw [validate_iff]
  constructor
  · intro h
    refine ⟨h.version, h.maxSteps, h.timeoutMs, h.nodes, h.transitions, h.routes, h.entry, h.endpoints,
      h.terminal, ?_, ?_, ?_⟩
    · intro n hn
      rw [hreach]
      exact h.reachable _ (List.mem_map_of_mem hn)
    · intro c hc
      obtain ⟨hmax, hnodes⟩ := h.cycles c hc
      exact ⟨(hempty _).mp hnodes, by omega⟩
    · intro t ht hcycle
      simpa only [Std.ExtTreeSet.contains_iff_mem] using h.declared t ht ((on_cycle_iff ht).mp hcycle)
  · rintro ⟨hversion, hsteps, htimeout, hnodes, htransitions, hroutes, hentry, hendpoints, hterminal, hreachable,
      hcycles, hdeclared⟩
    refine ⟨hversion, hsteps, htimeout, hnodes, hentry, hterminal, htransitions, hendpoints, hroutes, ?_, ?_, ?_⟩
    · intro id hid
      obtain ⟨n, hn, rfl⟩ := List.mem_map.mp hid
      exact (hreach _).mp (hreachable n hn)
    · intro c hc
      obtain ⟨hsome, hmax⟩ := hcycles c hc
      exact ⟨by omega, (hempty _).mpr hsome⟩
    · intro t ht hwalk
      simpa only [Std.ExtTreeSet.contains_iff_mem] using hdeclared t ht ((on_cycle_iff ht).mpr hwalk)

end GraphDefinitionV1

end Knolo.Core
