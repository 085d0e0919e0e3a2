import Knolo.Core.Contract
import Knolo.Library.Reach
import Mathlib.Data.Finset.Image
import Mathlib.Data.Finset.Prod

/-!
# Graph definitions

`knolo-agent-core/src/graph/mod.rs`: the graph an agent is defined by, its validation,
and the compiled form the engines run.

`CompiledGraphV1` carries the proof that its definition was validated, so what
validation guarantees is available of every compiled graph (`CompiledGraphV1.checked`).
The hash of a definition (SHA-256 of its JSON text) is a parameter, `digest`.

The point of validation for running is `cycle_declared`: every edge of a closed walk
lies within one declared cycle, so a node on no declared cycle cannot be visited twice
(`not_reach_of_cycleLimit_none`).
-/

namespace Knolo.Core

open Library.Fallible Library

/-- The bounds of an execution. -/
structure ExecutionLimitsV1 where
  maxSteps : ℕ
  maxTokens : ℕ
  maxCostMicros : ℕ
  timeoutMs : ℕ
  deriving DecidableEq

/-- The limits are usable. -/
def ExecutionLimitsV1.valid (l : ExecutionLimitsV1) : Bool := 0 < l.maxSteps && 0 < l.timeoutMs

/-- A node: what it may read and write. -/
structure NodeDefinitionV1 where
  id : NodeId
  terminal : Bool
  reads : Std.ExtTreeSet String
  writes : Std.ExtTreeSet String

/-- A transition: the named route out of a node, and where it leads. -/
structure TransitionDefinitionV1 where
  id : TransitionId
  source : NodeId
  route : String
  target : NodeId
  deriving DecidableEq

/-- A declared cycle: its nodes, and how often each may be visited. -/
structure CycleDefinitionV1 where
  nodes : Std.ExtTreeSet NodeId
  maxIterations : ℕ

/-- A graph. -/
structure GraphDefinitionV1 where
  version : ℕ
  id : GraphId
  stateSchema : StateSchemaId
  entry : NodeId
  nodes : List NodeDefinitionV1
  transitions : List TransitionDefinitionV1
  cycles : List CycleDefinitionV1
  limits : ExecutionLimitsV1

/-- The edges of a list of transitions. -/
def edges (ts : List TransitionDefinitionV1) : List (NodeId × NodeId) :=
  ts.map fun t => (t.source, t.target)

/-- The nodes a depth-first search from `start` finds. -/
def reached (start : NodeId) (ts : List TransitionDefinitionV1) : Option (Finset NodeId) :=
  Reach.explore (edges ts) (fun _ => false) (ts.length + 1) [start] ∅

/-- Does a depth-first search from `source` come to `target`? -/
def canReach (source target : NodeId) (ts : List TransitionDefinitionV1) : Bool :=
  (Reach.explore (edges ts) (fun n => n = target) (ts.length + 1) [source] ∅).isNone

/-- The endpoints of a transition are declared, and its route is the only one of that
name out of its source; `keys` are the routes seen so far. -/
def checkTransition (ids : List NodeId) (keys : Finset (NodeId × String)) (t : TransitionDefinitionV1) :
    Except CoreError (Finset (NodeId × String)) := do
  ensure (t.source ∈ ids ∧ t.target ∈ ids) (.invalidGraph "transition endpoint is not declared")
  ensure ((t.source, t.route) ∉ keys) (.invalidGraph "duplicate route from node")
  return insert (t.source, t.route) keys

/-- A declared cycle is not empty and is bounded. -/
def CycleDefinitionV1.bounded (c : CycleDefinitionV1) : Bool := c.maxIterations ≠ 0 && !c.nodes.isEmpty

/-- A transition whose target can reach its source is within a declared cycle. -/
def GraphDefinitionV1.cycleDeclared (g : GraphDefinitionV1) (t : TransitionDefinitionV1) : Bool :=
  !canReach t.target t.source g.transitions ||
    g.cycles.any fun c => c.nodes.contains t.source && c.nodes.contains t.target

/-- Validation of a graph. -/
def GraphDefinitionV1.validate (g : GraphDefinitionV1) : Except CoreError Unit := do
  let ids := g.nodes.map (·.id)
  ensure (g.version = 1 ∧ g.limits.valid) (.invalidGraph "unsupported version or unbounded limits")
  ensure (ids.toFinset.card = g.nodes.length) (.invalidGraph "duplicate node id")
  ensure (g.entry ∈ ids) (.invalidGraph "entry node is not declared")
  ensure (g.nodes.any (·.terminal)) (.invalidGraph "at least one terminal node is required")
  ensure ((g.transitions.map (·.id)).toFinset.card = g.transitions.length)
    (.invalidGraph "duplicate transition id")
  let _ ← g.transitions.foldlM (checkTransition ids) ∅
  ensure ((reached g.entry g.transitions).map Finset.card = some ids.toFinset.card)
    (.invalidGraph "unreachable node")
  ensure (g.cycles.all (·.bounded)) (.invalidGraph "cycles must be explicit and bounded")
  ensure (g.transitions.all g.cycleDeclared) (.invalidGraph "cycle is not explicitly declared")

/-- Insert one entry. -/
def collectEntry {K V : Type} [DecidableEq K] (m : K → Option V) (e : K × V) : K → Option V :=
  fun k => if k = e.1 then some e.2 else m k

/-- The map a list of entries collects into: a later entry replaces an earlier one. -/
def collect {K V : Type} [DecidableEq K] (entries : List (K × V)) : K → Option V :=
  entries.foldl collectEntry fun _ => none

/-- A validated graph with its nodes and routes indexed. -/
structure CompiledGraphV1 where
  definition : GraphDefinitionV1
  nodes : NodeId → Option NodeDefinitionV1
  routes : NodeId × String → Option NodeId
  hash : String
  /-- Only a validated definition is compiled. -/
  valid : definition.validate = .ok ()
  /-- The index of the nodes. -/
  nodes_eq : nodes = collect (definition.nodes.map fun n => (n.id, n))
  /-- The index of the routes. -/
  routes_eq : routes = collect (definition.transitions.map fun t => ((t.source, t.route), t.target))

/-- Validate and index a graph. `digest` is the hash of its JSON text. -/
def GraphDefinitionV1.compile (digest : GraphDefinitionV1 → String) (g : GraphDefinitionV1) :
    Except CoreError CompiledGraphV1 :=
  match h : g.validate with
  | .error e => .error e
  | .ok () => .ok
    { definition := g
      nodes := collect (g.nodes.map fun n => (n.id, n))
      routes := collect (g.transitions.map fun t => ((t.source, t.route), t.target))
      hash := digest g
      valid := h
      nodes_eq := rfl
      routes_eq := rfl }

/-- The definition of a compiled graph compiles to it. -/
theorem CompiledGraphV1.compile_definition {digest : GraphDefinitionV1 → String} {g : CompiledGraphV1}
    (h : g.hash = digest g.definition) : g.definition.compile digest = .ok g := by
  have hv := g.valid
  have hn := g.nodes_eq
  have hr := g.routes_eq
  unfold GraphDefinitionV1.compile
  split
  · simp_all
  · cases g
    simp_all

namespace CompiledGraphV1

/-- The definition of a node. -/
def node (g : CompiledGraphV1) (id : NodeId) : Option NodeDefinitionV1 := g.nodes id

/-- Where a route out of a node leads. -/
def route (g : CompiledGraphV1) (source : NodeId) (route : String) : Option NodeId :=
  g.routes (source, route)

/-- How often a node may be visited: the bound of the first declared cycle it is on. -/
def cycleLimit (g : CompiledGraphV1) (node : NodeId) : Option ℕ :=
  (g.definition.cycles.find? fun c => c.nodes.contains node).map (·.maxIterations)

/-- The limits of the graph. -/
def limits (g : CompiledGraphV1) : ExecutionLimitsV1 := g.definition.limits

end CompiledGraphV1

/-! ### What the indices contain -/

/-- What a map collected from entries contains comes from an entry. -/
theorem mem_of_collect {K V : Type} [DecidableEq K] {entries : List (K × V)} {k : K} {v : V}
    (h : collect entries k = some v) : (k, v) ∈ entries := by
  have key : ∀ (es : List (K × V)) (m : K → Option V),
      es.foldl collectEntry m k = some v → (k, v) ∈ es ∨ m k = some v := by
    intro es
    induction es with
    | nil => intro m h; exact .inr h
    | cons e es ih =>
      intro m h
      rcases ih _ h with hm | hm
      · exact .inl (List.mem_cons_of_mem _ hm)
      · by_cases hk : k = e.1
        · subst hk
          simp only [collectEntry, if_true, Option.some.injEq] at hm
          subst hm
          exact .inl (List.mem_cons_self ..)
        · rw [collectEntry, if_neg hk] at hm
          exact .inr hm
  rcases key entries _ h with h | h
  · exact h
  · cases h

/-- A key with an entry is in the collected map. -/
theorem collect_isSome {K V : Type} [DecidableEq K] {entries : List (K × V)} {e : K × V}
    (h : e ∈ entries) : (collect entries e.1).isSome := by
  have key : ∀ (es : List (K × V)) (m : K → Option V), (e ∈ es ∨ (m e.1).isSome) →
      (es.foldl collectEntry m e.1).isSome := by
    intro es
    induction es with
    | nil => intro m h; simpa using h
    | cons e' es ih =>
      intro m h
      refine ih _ ?_
      by_cases hk : e.1 = e'.1
      · rw [collectEntry, if_pos hk]
        exact .inr rfl
      · rw [collectEntry, if_neg hk]
        rcases h with h | h
        · rcases List.mem_cons.mp h with rfl | h
          · exact absurd rfl hk
          · exact .inl h
        · exact .inr h
  exact key entries _ (.inl h)

/-! ### What validation guarantees -/

theorem checkTransition_endpoints {ids : List NodeId} : ∀ {ts : List TransitionDefinitionV1}
    {keys keys' : Finset (NodeId × String)}, ts.foldlM (checkTransition ids) keys = .ok keys' →
    ∀ t ∈ ts, t.source ∈ ids ∧ t.target ∈ ids := by
  intro ts
  induction ts with
  | nil => intro _ _ _ t ht; simp at ht
  | cons t ts ih =>
    intro keys keys' h u hu
    rw [List.foldlM_cons] at h
    obtain ⟨k, hk, h⟩ := bind_eq_ok.mp h
    rcases List.mem_cons.mp hu with rfl | hu
    · obtain ⟨_, he, _⟩ := bind_eq_ok.mp hk
      exact ensure_eq_ok.mp he
    · exact ih h u hu

/-- What validation has checked. -/
structure GraphDefinitionV1.Checked (g : GraphDefinitionV1) : Prop where
  limits : g.limits.valid = true
  nodup : (g.nodes.map (·.id)).toFinset.card = g.nodes.length
  entry : g.entry ∈ g.nodes.map (·.id)
  endpoints : ∀ t ∈ g.transitions, t.source ∈ g.nodes.map (·.id) ∧ t.target ∈ g.nodes.map (·.id)
  bounded : ∀ c ∈ g.cycles, c.bounded = true
  cycles : ∀ t ∈ g.transitions, g.cycleDeclared t = true

theorem GraphDefinitionV1.checked {g : GraphDefinitionV1} (h : g.validate = .ok ()) : g.Checked := by
  obtain ⟨_, h0, h⟩ := bind_eq_ok.mp h
  obtain ⟨_, h1, h⟩ := bind_eq_ok.mp h
  obtain ⟨_, h2, h⟩ := bind_eq_ok.mp h
  obtain ⟨_, _, h⟩ := bind_eq_ok.mp h
  obtain ⟨_, _, h⟩ := bind_eq_ok.mp h
  obtain ⟨_, h3, h⟩ := bind_eq_ok.mp h
  obtain ⟨_, _, h⟩ := bind_eq_ok.mp h
  obtain ⟨_, h4, h5⟩ := bind_eq_ok.mp h
  exact
    { limits := (ensure_eq_ok.mp h0).2
      nodup := ensure_eq_ok.mp h1
      entry := ensure_eq_ok.mp h2
      endpoints := checkTransition_endpoints h3
      bounded := List.all_eq_true.mp (ensure_eq_ok.mp h4)
      cycles := List.all_eq_true.mp (ensure_eq_ok.mp h5) }

namespace CompiledGraphV1

open Relation

variable (g : CompiledGraphV1)

theorem checked : g.definition.Checked := GraphDefinitionV1.checked g.valid

/-- `b` is the target of a declared transition out of `a`. -/
def Next (a b : NodeId) : Prop := ∃ t ∈ g.definition.transitions, t.source = a ∧ t.target = b

/-- A route leads along a declared transition of its name. -/
theorem mem_of_route {a b : NodeId} {r : String} (h : g.route a r = some b) :
    ∃ t ∈ g.definition.transitions, t.source = a ∧ t.route = r ∧ t.target = b := by
  rw [route, g.routes_eq] at h
  have := mem_of_collect h
  simp only [List.mem_map, Prod.mk.injEq] at this
  obtain ⟨t, ht, ⟨rfl, rfl⟩, rfl⟩ := this
  exact ⟨t, ht, rfl, rfl, rfl⟩

theorem next_of_route {a b : NodeId} {r : String} (h : g.route a r = some b) : g.Next a b := by
  obtain ⟨t, ht, hs, -, hto⟩ := g.mem_of_route h
  exact ⟨t, ht, hs, hto⟩

theorem mem_ids_of_node {n : NodeId} {d : NodeDefinitionV1} (h : g.node n = some d) :
    n ∈ g.definition.nodes.map (·.id) := by
  rw [node, g.nodes_eq] at h
  have := mem_of_collect h
  simp only [List.mem_map, Prod.mk.injEq] at this
  obtain ⟨d', hd, rfl, -⟩ := this
  exact List.mem_map_of_mem hd

theorem canReach_of_reach {a b : NodeId} (h : ReflTransGen g.Next a b) :
    canReach a b g.definition.transitions = true := by
  have hedge : ∀ x y, g.Next x y → Reach.Edge (edges g.definition.transitions) x y := by
    rintro x y ⟨t, ht, rfl, rfl⟩
    exact List.mem_map_of_mem ht
  unfold canReach
  cases hx : Reach.explore (edges g.definition.transitions) (fun n => n = b)
      (g.definition.transitions.length + 1) [a] ∅ with
  | none => rfl
  | some found =>
    have := (Reach.explore_complete (by simp [edges]) hx (ReflTransGen.mono hedge _ _ h)).2
    simp at this

/-- **Every edge of a closed walk lies within one declared cycle.** -/
theorem cycle_declared {a b : NodeId} (hab : g.Next a b) (hba : ReflTransGen g.Next b a) :
    ∃ c ∈ g.definition.cycles, c.nodes.contains a = true ∧ c.nodes.contains b = true := by
  obtain ⟨t, ht, rfl, rfl⟩ := hab
  have h := g.checked.cycles t ht
  simpa [GraphDefinitionV1.cycleDeclared, g.canReach_of_reach hba] using h

/-- A node with no visit bound is on no closed walk. -/
theorem not_reach_of_cycleLimit_none {a b : NodeId} (hlim : g.cycleLimit a = none) (hab : g.Next a b) :
    ¬ ReflTransGen g.Next b a := by
  intro hba
  obtain ⟨c, hc, ha, -⟩ := g.cycle_declared hab hba
  simp only [cycleLimit, Option.map_eq_none_iff, List.find?_eq_none] at hlim
  exact hlim c hc ha

end CompiledGraphV1

/-- No cycle that a node is on has a smaller bound than the first one that is declared. -/
def LeastFirst (cycles : List CycleDefinitionV1) (n : NodeId) : Prop :=
  ∀ before first after, cycles = before ++ first :: after → (∀ c ∈ before, n ∉ c.nodes) → n ∈ first.nodes →
    ∀ c ∈ after, n ∈ c.nodes → first.maxIterations ≤ c.maxIterations

/-- A cycle that is declared alone is declared first. -/
theorem leastFirst_singleton (c : CycleDefinitionV1) (n : NodeId) : LeastFirst [c] n := by
  intro before first after heq _ _ c' hc' _
  have hlen := congrArg List.length heq
  simp only [List.length_append, List.length_cons, List.length_nil] at hlen
  have hafter : after = [] := List.eq_nil_of_length_eq_zero (by omega)
  rw [hafter] at hc'
  cases hc'

/-- **The bound that is looked up is the least one, if the least one is declared first.** -/
theorem LeastFirst.cycleLimit_le {g : CompiledGraphV1} {n : NodeId} {max : ℕ} {c : CycleDefinitionV1}
    (h : LeastFirst g.definition.cycles n) (hmax : g.cycleLimit n = some max) (hc : c ∈ g.definition.cycles)
    (hn : n ∈ c.nodes) : max ≤ c.maxIterations := by
  obtain ⟨first, hfind, rfl⟩ := Option.map_eq_some_iff.mp hmax
  obtain ⟨hfirst, before, after, heq, hbefore⟩ := List.find?_eq_some_iff_append.mp hfind
  have hnot : ∀ c ∈ before, n ∉ c.nodes := fun c hc hn => by
    simpa [Std.ExtTreeSet.contains_iff_mem.mpr hn] using hbefore c hc
  rw [heq, List.mem_append, List.mem_cons] at hc
  rcases hc with hc | rfl | hc
  · exact absurd hn (hnot c hc)
  · exact le_rfl
  · exact h before first after heq hnot (Std.ExtTreeSet.contains_iff_mem.mp hfirst) c hc hn

end Knolo.Core
