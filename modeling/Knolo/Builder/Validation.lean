import Knolo.Builder.Definition
import Knolo.Core.Validation

/-!
# The two validations of a graph

Which graphs do the script (`validateDefinition`) and the core (deserialization and
`GraphDefinitionV1.validate`) accept? Both ask for a graph whose nodes and routes are distinct,
whose endpoints are declared and all of whose nodes can be reached (`Common`). Besides that each
has demands of its own: `ScriptOnly` on numbers as JavaScript reads them, and `CoreOnly` on
numbers as they are written, on the other identifiers, and on cycles.

`accepts_iff` says that they agree on exactly the graphs on which the demands of their own make
no difference.
-/

namespace Knolo.Builder

open Core Script Library Library.Fallible Library.Traverse Relation

/-! ### What is asked of a graph -/

namespace GraphDefinitionV1

/-- `b` is the target of a transition out of `a`. -/
def Next (g : GraphDefinitionV1) (a b : String) : Prop := ∃ t ∈ g.transitions, t.source = a ∧ t.target = b

/-- What both sides ask of a graph. -/
structure Common (g : GraphDefinitionV1) : Prop where
  id : validIdentifier g.id = true
  nodes : (g.nodes.map (·.id)).Nodup
  entry : g.entry ∈ g.nodes.map (·.id)
  terminal : ∃ n ∈ g.nodes, n.terminal = true
  endpoints : ∀ t ∈ g.transitions, t.source ∈ g.nodes.map (·.id) ∧ t.target ∈ g.nodes.map (·.id)
  routes : (g.transitions.map (·.key)).Nodup
  reachable : ∀ n ∈ g.nodes.map (·.id), ReflTransGen g.Next g.entry n

/-- What only the script asks. -/
structure ScriptOnly (g : GraphDefinitionV1) : Prop where
  version : g.version.number = .finite 1
  maxSteps : positive g.limits.maxSteps = true
  timeoutMs : positive g.limits.timeoutMs = true

/-- A number the core reads as an integer from `min` to `max`. -/
def Within (min max : ℕ) (l : Literal) : Prop := ∃ n, unsigned max l = some n ∧ min ≤ n

/-- What only the core asks: of how numbers are written, of identifiers, and of cycles. -/
structure CoreOnly (g : GraphDefinitionV1) : Prop where
  version : unsigned 65535 g.version = some 1
  stateSchema : validIdentifier g.stateSchema = true
  nodeIds : ∀ n ∈ g.nodes, validIdentifier n.id = true
  transitionIds : ∀ t ∈ g.transitions, validIdentifier t.id = true
  transitions : (g.transitions.map (·.id)).Nodup
  maxSteps : Within 1 u64Max g.limits.maxSteps
  maxTokens : Within 0 u64Max g.limits.maxTokens
  maxCostMicros : Within 0 u64Max g.limits.maxCostMicros
  timeoutMs : Within 1 u64Max g.limits.timeoutMs
  cycles : ∀ c ∈ g.cycles, c.nodes ≠ [] ∧ (∀ n ∈ c.nodes, validIdentifier n = true) ∧
    Within 1 u32Max c.maxIterations
  /-- A transition on a closed walk is within a declared cycle. -/
  declared : ∀ t ∈ g.transitions, ReflTransGen g.Next t.target t.source →
    ∃ c ∈ g.cycles, t.source ∈ c.nodes ∧ t.target ∈ c.nodes

end GraphDefinitionV1

/-! ### Identifiers -/

theorem identifierChar_range {c : Char} (h : identifierChar c = true) :
    c.val.toNat ≤ 127 ∧ c.val.toNat ≠ 0 := by
  have hupper : c.isUpper = decide (c.val ≥ 'A'.val ∧ c.val ≤ 'Z'.val) := rfl
  have hlower : c.isLower = (decide (c.val ≥ 'a'.val) && decide (c.val ≤ 'z'.val)) := rfl
  have halpha : c.isAlpha = (c.isUpper || c.isLower) := rfl
  simp only [identifierChar, Char.isAlphanum, halpha, hupper, hlower, Char.isDigit,
    Bool.or_eq_true, Bool.and_eq_true, decide_eq_true_eq, ge_iff_le, UInt32.le_iff_toNat_le] at h
  have hA : 'A'.val.toNat = 65 ∧ 'Z'.val.toNat = 90 := by decide
  have ha : 'a'.val.toNat = 97 ∧ 'z'.val.toNat = 122 := by decide
  have h0 : '0'.val.toNat = 48 ∧ '9'.val.toNat = 57 := by decide
  rcases h with ((((h | h) | rfl) | rfl) | rfl) | rfl
  · omega
  · omega
  all_goals decide

/-- Text in ASCII has as many bytes as characters. -/
theorem utf8ByteSize_of_ascii {cs : List Char} (h : ∀ c ∈ cs, c.val ≤ 127) :
    (String.ofList cs).utf8ByteSize = cs.length := by
  induction cs with
  | nil => rfl
  | cons c cs ih =>
    obtain ⟨hc, hcs⟩ := List.forall_mem_cons.mp h
    rw [String.ofList_cons, String.utf8ByteSize_append, String.utf8ByteSize_singleton, ih hcs,
      Char.utf8Size_eq_one_iff.mpr hc, List.length_cons, Nat.add_comm]

/-- The script's pattern and the core's check accept the same identifiers. -/
theorem identifier_eq (value : String) : identifier value = validIdentifier value := by
  unfold identifier validIdentifier
  by_cases hall : value.toList.all identifierChar = true
  · have hsize : value.utf8ByteSize = value.toList.length := by
      conv_lhs => rw [← String.ofList_toList (s := value)]
      refine utf8ByteSize_of_ascii fun c hc => ?_
      exact UInt32.le_iff_toNat_le.mpr (identifierChar_range (List.all_eq_true.mp hall c hc)).1
    rw [hall, hsize, Bool.and_true, Bool.and_true]
    cases value.toList <;> simp
  · simp [hall]

theorem readIdentifier_eq_some {value : String} {i : Identifier} :
    readIdentifier value = some i ↔ i.text = value := by
  unfold readIdentifier
  rw [toOption_eq_some]
  constructor
  · intro h
    unfold Identifier.new at h
    split at h
    · cases h
      rfl
    · cases h
  · rintro rfl
    exact Identifier.new_text i

theorem readIdentifier_isSome {value : String} :
    (readIdentifier value).isSome ↔ validIdentifier value = true := by
  unfold readIdentifier Identifier.new
  split_ifs with h <;> simp [Except.toOption, h]

/-- The source of a transition can be told from its key. -/
theorem key_inj {s t : TransitionDefinitionV1} (hs : validIdentifier s.source = true)
    (ht : validIdentifier t.source = true) (h : s.key = t.key) : (s.source, s.route) = (t.source, t.route) := by
  have hno : ∀ {v : String}, validIdentifier v = true → '\x00' ∉ v.toList := by
    intro v hv hmem
    simp only [validIdentifier, Bool.and_eq_true, List.all_eq_true] at hv
    exact (identifierChar_range (hv.2 _ hmem)).2 rfl
  have hl : s.source.toList ++ '\x00' :: s.route.toList = t.source.toList ++ '\x00' :: t.route.toList := by
    have h' : s.source ++ "\x00" ++ s.route = t.source ++ "\x00" ++ t.route := h
    simpa using congrArg String.toList h'
  obtain ⟨hsource, hroute⟩ := StableSort.append_cons_cancel (hno hs) (hno ht) hl
  rw [String.toList_inj.mp hsource, String.toList_inj.mp hroute]

/-- Distinct keys are distinct routes out of distinct sources. -/
theorem nodup_key_iff {ts : List TransitionDefinitionV1} (h : ∀ t ∈ ts, validIdentifier t.source = true) :
    (ts.map (·.key)).Nodup ↔ (ts.map fun t => (t.source, t.route)).Nodup := by
  constructor
  · intro hn
    have hkey : ts.map (·.key) = (ts.map fun t => (t.source, t.route)).map fun p => s!"{p.1}\x00{p.2}" := by
      rw [List.map_map]
      rfl
    rw [hkey] at hn
    exact List.Nodup.of_map _ hn
  · intro hn
    refine List.Nodup.map_on (fun s hs t ht hst => ?_) (List.Nodup.of_map _ hn)
    exact List.inj_on_of_nodup_map hn hs ht (key_inj (h s hs) (h t ht) hst)

/-! ### The script -/

theorem edge_eq_next {g : GraphDefinitionV1} : Reach.Edge g.edges = g.Next := by
  funext a b
  simp [Reach.Edge, GraphDefinitionV1.edges, GraphDefinitionV1.Next]

theorem checkTransition_eq_ok {ids routes routes' : Finset String} {t : TransitionDefinitionV1} :
    checkTransition ids routes t = .ok routes' ↔
      (t.source ∈ ids ∧ t.target ∈ ids) ∧ t.key ∉ routes ∧ insert t.key routes = routes' := by
  simp only [checkTransition, bind_eq_ok, ensure_eq_ok, exists_const]
  exact ⟨fun ⟨h, hk, he⟩ => ⟨h, hk, Except.ok.inj he⟩, fun ⟨h, hk, he⟩ => ⟨h, hk, congrArg _ he⟩⟩

/-- The passes over the transitions reach as many nodes as there are when every node can be
reached. -/
theorem saturate_iff {g : GraphDefinitionV1} (he : g.entry ∈ g.nodes.map (·.id))
    (ht : ∀ t ∈ g.transitions, t.source ∈ g.nodes.map (·.id) ∧ t.target ∈ g.nodes.map (·.id)) :
    (Reach.saturate g.edges (g.transitions.length + 1) {g.entry}).card =
        (g.nodes.map (·.id)).toFinset.card ↔
      ∀ n ∈ g.nodes.map (·.id), ReflTransGen g.Next g.entry n := by
  have hnext : ∀ b c, g.Next b c → c ∈ (g.nodes.map (·.id)).toFinset := by
    rintro b c ⟨t, hm, -, rfl⟩
    exact List.mem_toFinset.mpr (ht t hm).2
  have hfound : ∀ b, b ∈ Reach.saturate g.edges (g.transitions.length + 1) {g.entry} ↔
      ReflTransGen g.Next g.entry b := fun b => by
    rw [← edge_eq_next]
    exact Reach.mem_saturate (by simp [GraphDefinitionV1.edges])
  have hcard := card_eq_iff_reach (List.mem_toFinset.mpr he) hnext hfound
  simpa using hcard

/-- **What the script accepts.** -/
theorem scriptAccepts_iff {g : GraphDefinitionV1} : g.ScriptAccepts ↔ g.Common ∧ g.ScriptOnly := by
  have hroutes := foldlM_distinct (s := ∅) (l := g.transitions)
    fun s t s' => @checkTransition_eq_ok (g.nodes.map (·.id)).toFinset s s' t
  simp only [Finset.notMem_empty, not_false_eq_true, implies_true, and_true, List.mem_toFinset] at hroutes
  have hnodes : (g.nodes.map (·.id)).toFinset.card = g.nodes.length ↔ (g.nodes.map (·.id)).Nodup := by
    rw [← card_toFinset_iff, List.length_map]
  constructor
  · intro h
    obtain ⟨_, h1, h⟩ := bind_eq_ok.mp h
    obtain ⟨_, h2, h⟩ := bind_eq_ok.mp h
    obtain ⟨_, h3, h⟩ := bind_eq_ok.mp h
    obtain ⟨_, h4, h⟩ := bind_eq_ok.mp h
    obtain ⟨_, h5, h⟩ := bind_eq_ok.mp h
    obtain ⟨_, h6, h⟩ := bind_eq_ok.mp h
    obtain ⟨keys, h7, h8⟩ := bind_eq_ok.mp h
    have hid : identifier g.id = true := ensure_eq_ok.mp h1
    obtain ⟨hsteps, htimeout⟩ := ensure_eq_ok.mp h3
    have hentry := List.mem_toFinset.mp (ensure_eq_ok.mp h5)
    obtain ⟨hend, hkeys⟩ := hroutes.mp ⟨keys, h7⟩
    refine ⟨?_, ensure_eq_ok.mp h2, hsteps, htimeout⟩
    exact
      { id := identifier_eq g.id ▸ hid
        nodes := hnodes.mp (ensure_eq_ok.mp h4)
        entry := hentry
        terminal := List.any_eq_true.mp (ensure_eq_ok.mp h6)
        endpoints := hend
        routes := hkeys
        reachable := (saturate_iff hentry hend).mp (ensure_eq_ok.mp h8) }
  · rintro ⟨h, hs⟩
    obtain ⟨keys, hkeys⟩ := hroutes.mpr ⟨h.endpoints, h.routes⟩
    have hid : identifier g.id = true := (identifier_eq g.id).trans h.id
    refine bind_eq_ok.mpr ⟨(), ensure_eq_ok.mpr hid, ?_⟩
    refine bind_eq_ok.mpr ⟨(), ensure_eq_ok.mpr hs.version, ?_⟩
    refine bind_eq_ok.mpr ⟨(), ensure_eq_ok.mpr ⟨hs.maxSteps, hs.timeoutMs⟩, ?_⟩
    refine bind_eq_ok.mpr ⟨(), ensure_eq_ok.mpr (hnodes.mpr h.nodes), ?_⟩
    refine bind_eq_ok.mpr ⟨(), ensure_eq_ok.mpr (List.mem_toFinset.mpr h.entry), ?_⟩
    refine bind_eq_ok.mpr ⟨(), ensure_eq_ok.mpr (List.any_eq_true.mpr h.terminal), ?_⟩
    refine bind_eq_ok.mpr ⟨_, hkeys, ?_⟩
    exact ensure_eq_ok.mpr ((saturate_iff h.entry h.endpoints).mpr h.reachable)

/-! ### What the core reads -/

/-- A graph of the core is what it reads. -/
structure GraphDefinitionV1.Reads (g : GraphDefinitionV1) (c : Core.GraphDefinitionV1) : Prop where
  version : unsigned 65535 g.version = some c.version
  id : readIdentifier g.id = some c.id
  stateSchema : readIdentifier g.stateSchema = some c.stateSchema
  entry : readIdentifier g.entry = some c.entry
  nodes : g.nodes.mapM NodeDefinitionV1.deserialize = some c.nodes
  transitions : g.transitions.mapM TransitionDefinitionV1.deserialize = some c.transitions
  cycles : g.cycles.mapM CycleDefinitionV1.deserialize = some c.cycles
  limits : g.limits.deserialize = some c.limits

theorem deserialize_eq_some {g : GraphDefinitionV1} {c : Core.GraphDefinitionV1} :
    g.deserialize = some c ↔ g.Reads c := by
  unfold GraphDefinitionV1.deserialize
  simp only [Option.bind_eq_bind, Option.bind_eq_some_iff, Option.pure_def, Option.some.injEq]
  constructor
  · rintro ⟨_, h1, _, h2, _, h3, _, h4, _, h5, _, h6, _, h7, _, h8, rfl⟩
    exact ⟨h1, h2, h3, h4, h5, h6, h7, h8⟩
  · rintro ⟨h1, h2, h3, h4, h5, h6, h7, h8⟩
    exact ⟨_, h1, _, h2, _, h3, _, h4, _, h5, _, h6, _, h7, _, h8, rfl⟩

theorem deserialize_node {n : NodeDefinitionV1} {d : Core.NodeDefinitionV1} (h : n.deserialize = some d) :
    d.id.text = n.id ∧ d.terminal = n.terminal ∧ d.reads = .ofList n.reads ∧ d.writes = .ofList n.writes := by
  simp only [NodeDefinitionV1.deserialize, Option.bind_eq_bind, Option.bind_eq_some_iff, Option.pure_def,
    Option.some.injEq] at h
  obtain ⟨i, hi, rfl⟩ := h
  exact ⟨readIdentifier_eq_some.mp hi, rfl, rfl, rfl⟩

theorem deserialize_transition {t : TransitionDefinitionV1} {d : Core.TransitionDefinitionV1}
    (h : t.deserialize = some d) :
    d.id.text = t.id ∧ d.source.text = t.source ∧ d.route = t.route ∧ d.target.text = t.target := by
  simp only [TransitionDefinitionV1.deserialize, Option.bind_eq_bind, Option.bind_eq_some_iff,
    Option.pure_def, Option.some.injEq] at h
  obtain ⟨i, hi, source, hsource, target, htarget, rfl⟩ := h
  exact ⟨readIdentifier_eq_some.mp hi, readIdentifier_eq_some.mp hsource, rfl,
    readIdentifier_eq_some.mp htarget⟩

theorem deserialize_cycle {c : CycleDefinitionV1} {d : Core.CycleDefinitionV1}
    (h : c.deserialize = some d) : (∃ ids, c.nodes.mapM readIdentifier = some ids ∧ d.nodes = .ofList ids) ∧
      unsigned u32Max c.maxIterations = some d.maxIterations := by
  simp only [CycleDefinitionV1.deserialize, Option.bind_eq_bind, Option.bind_eq_some_iff, Option.pure_def,
    Option.some.injEq] at h
  obtain ⟨ids, hids, n, hn, rfl⟩ := h
  exact ⟨⟨ids, hids, rfl⟩, hn⟩

theorem deserialize_limits {l : ExecutionLimitsV1} {d : Core.ExecutionLimitsV1} :
    l.deserialize = some d ↔ unsigned u64Max l.maxSteps = some d.maxSteps ∧
      unsigned u64Max l.maxTokens = some d.maxTokens ∧
      unsigned u64Max l.maxCostMicros = some d.maxCostMicros ∧
      unsigned u64Max l.timeoutMs = some d.timeoutMs := by
  simp only [ExecutionLimitsV1.deserialize, Option.bind_eq_bind, Option.bind_eq_some_iff, Option.pure_def,
    Option.some.injEq]
  constructor
  · rintro ⟨_, h1, _, h2, _, h3, _, h4, rfl⟩
    exact ⟨h1, h2, h3, h4⟩
  · rintro ⟨h1, h2, h3, h4⟩
    exact ⟨_, h1, _, h2, _, h3, _, h4, rfl⟩

/-- Is a node on a cycle? The core asks its set, the author wrote a list. -/
theorem contains_cycle {c : CycleDefinitionV1} {d : Core.CycleDefinitionV1} (h : c.deserialize = some d)
    (i : NodeId) : d.nodes.contains i = true ↔ i.text ∈ c.nodes := by
  obtain ⟨⟨ids, hids, hd⟩, -⟩ := deserialize_cycle h
  have htexts : ids.map (·.text) = c.nodes.map id :=
    map_eq_of_mapM (fun _ _ hr => readIdentifier_eq_some.mp hr) hids
  rw [hd, Std.ExtTreeSet.contains_ofList, List.contains_iff_mem, ← List.map_id c.nodes, ← htexts,
    List.mem_map_of_injective fun _ _ => Identifier.ext]

theorem isEmpty_cycle {c : CycleDefinitionV1} {d : Core.CycleDefinitionV1} (h : c.deserialize = some d) :
    d.nodes.isEmpty = false ↔ c.nodes ≠ [] := by
  obtain ⟨⟨ids, hids, hd⟩, -⟩ := deserialize_cycle h
  have hlen := (mapM_eq_some hids).1
  rw [hd, ← Bool.not_eq_true, Std.ExtTreeSet.isEmpty_iff, Std.ExtTreeSet.ofList_eq_empty_iff, ne_eq,
    ← List.length_eq_zero_iff, hlen, List.length_eq_zero_iff]

namespace GraphDefinitionV1.Reads

variable {g : GraphDefinitionV1} {c : Core.GraphDefinitionV1} (h : g.Reads c)

include h

theorem ids : (c.nodes.map (·.id)).map (·.text) = g.nodes.map (·.id) := by
  rw [List.map_map]
  exact map_eq_of_mapM (fun _ _ hn => (deserialize_node hn).1) h.nodes

theorem terminals : c.nodes.map (·.terminal) = g.nodes.map (·.terminal) :=
  map_eq_of_mapM (fun _ _ hn => (deserialize_node hn).2.1) h.nodes

theorem transitionIds : (c.transitions.map (·.id)).map (·.text) = g.transitions.map (·.id) := by
  rw [List.map_map]
  exact map_eq_of_mapM (fun _ _ ht => (deserialize_transition ht).1) h.transitions

/-- The transitions, without their identifiers. -/
theorem routes : c.transitions.map (fun t => (t.source.text, t.route, t.target.text)) =
    g.transitions.map fun t => (t.source, t.route, t.target) :=
  map_eq_of_mapM (fun _ _ ht => by
    obtain ⟨-, hs, hr, ht⟩ := deserialize_transition ht
    rw [hs, hr, ht]) h.transitions

theorem mem_ids {i : NodeId} : i ∈ c.nodes.map (·.id) ↔ i.text ∈ g.nodes.map (·.id) := by
  rw [← h.ids, List.mem_map_of_injective fun _ _ => Identifier.ext]

/-- What holds of all transitions does on both sides. -/
theorem forall_transitions {P : String → String → Prop} :
    (∀ t ∈ c.transitions, P t.source.text t.target.text) ↔ ∀ t ∈ g.transitions, P t.source t.target := by
  have hmap := List.forall_mem_map (f := fun t : TransitionDefinitionV1 => (t.source, t.route, t.target))
    (l := g.transitions) (P := fun p => P p.1 p.2.2)
  rw [← h.routes, List.forall_mem_map] at hmap
  exact hmap

theorem next_iff {a b : NodeId} : c.Next a b ↔ g.Next a.text b.text := by
  have hex : ∀ x y, g.Next x y ↔ ∃ p ∈ g.transitions.map fun t => (t.source, t.route, t.target),
      p.1 = x ∧ p.2.2 = y := by simp [GraphDefinitionV1.Next]
  rw [hex, ← h.routes]
  simp [Core.GraphDefinitionV1.Next, Identifier.ext_iff]

/-- Walks are the same on both sides. -/
theorem reach_iff {a b : NodeId} : ReflTransGen c.Next a b ↔ ReflTransGen g.Next a.text b.text := by
  constructor
  · exact ReflTransGen.lift Identifier.text (fun _ _ => h.next_iff.mp) _ _
  · have key : ∀ y, ReflTransGen g.Next a.text y → ∃ b, b.text = y ∧ ReflTransGen c.Next a b := by
      intro y hy
      induction hy with
      | refl => exact ⟨a, rfl, .refl⟩
      | @tail x y _ hxy ih =>
        obtain ⟨x, rfl, hx⟩ := ih
        obtain ⟨t, ht, hsource, rfl⟩ := hxy
        obtain ⟨d, -, hd⟩ := (mapM_eq_some h.transitions).2.1 t ht
        obtain ⟨-, -, -, htarget⟩ := deserialize_transition hd
        refine ⟨d.target, htarget, hx.tail (h.next_iff.mpr ?_)⟩
        rw [htarget]
        exact ⟨t, ht, hsource, rfl⟩
    intro hab
    obtain ⟨b', hb', hab'⟩ := key _ hab
    rwa [← Identifier.ext hb']

theorem nodup_ids : (c.nodes.map (·.id)).Nodup ↔ (g.nodes.map (·.id)).Nodup := by
  rw [← h.ids, List.nodup_map_iff fun _ _ => Identifier.ext]

theorem nodup_transitionIds : (c.transitions.map (·.id)).Nodup ↔ (g.transitions.map (·.id)).Nodup := by
  rw [← h.transitionIds, List.nodup_map_iff fun _ _ => Identifier.ext]

theorem nodup_routes : (c.transitions.map fun t => (t.source, t.route)).Nodup ↔
    (g.transitions.map (·.key)).Nodup := by
  have hvalid : ∀ t ∈ g.transitions, validIdentifier t.source = true := by
    intro t ht
    obtain ⟨d, -, hd⟩ := (mapM_eq_some h.transitions).2.1 t ht
    rw [← (deserialize_transition hd).2.1]
    exact d.source.valid
  have hmap : (c.transitions.map fun t => (t.source, t.route)).map (fun p => (p.1.text, p.2)) =
      g.transitions.map fun t => (t.source, t.route) := by
    have := congrArg (List.map fun p : String × String × String => (p.1, p.2.1)) h.routes
    simpa [List.map_map, Function.comp_def] using this
  rw [nodup_key_iff hvalid, ← hmap]
  refine (List.nodup_map_iff ?_).symm
  rintro ⟨a, r⟩ ⟨b, s⟩ hab
  simpa [Identifier.ext_iff] using hab

theorem terminal : (∃ n ∈ c.nodes, n.terminal = true) ↔ ∃ n ∈ g.nodes, n.terminal = true := by
  have hc : (∃ n ∈ c.nodes, n.terminal = true) ↔ true ∈ c.nodes.map (·.terminal) := by simp
  have hg : (∃ n ∈ g.nodes, n.terminal = true) ↔ true ∈ g.nodes.map (·.terminal) := by simp
  rw [hc, hg, h.terminals]

/-- A transition is within a declared cycle on both sides. -/
theorem declared {a b : NodeId} :
    (∃ d ∈ c.cycles, d.nodes.contains a = true ∧ d.nodes.contains b = true) ↔
      ∃ d ∈ g.cycles, a.text ∈ d.nodes ∧ b.text ∈ d.nodes := by
  obtain ⟨-, hto, hof⟩ := mapM_eq_some h.cycles
  constructor
  · rintro ⟨d, hd, ha, hb⟩
    obtain ⟨e, he, hed⟩ := hof d hd
    exact ⟨e, he, (contains_cycle hed a).mp ha, (contains_cycle hed b).mp hb⟩
  · rintro ⟨e, he, ha, hb⟩
    obtain ⟨d, hd, hed⟩ := hto e he
    exact ⟨d, hd, (contains_cycle hed a).mpr ha, (contains_cycle hed b).mpr hb⟩

theorem endpoints_iff :
    (∀ t ∈ c.transitions, t.source ∈ c.nodes.map (·.id) ∧ t.target ∈ c.nodes.map (·.id)) ↔
      ∀ t ∈ g.transitions, t.source ∈ g.nodes.map (·.id) ∧ t.target ∈ g.nodes.map (·.id) := by
  simp only [h.mem_ids]
  exact h.forall_transitions (P := fun a b => a ∈ g.nodes.map (·.id) ∧ b ∈ g.nodes.map (·.id))

/-- Every transition on a closed walk is within a declared cycle, on both sides. -/
theorem declared_iff :
    (∀ t ∈ c.transitions, ReflTransGen c.Next t.target t.source →
        ∃ d ∈ c.cycles, d.nodes.contains t.source = true ∧ d.nodes.contains t.target = true) ↔
      ∀ t ∈ g.transitions, ReflTransGen g.Next t.target t.source →
        ∃ d ∈ g.cycles, t.source ∈ d.nodes ∧ t.target ∈ d.nodes := by
  simp only [h.reach_iff, h.declared]
  exact h.forall_transitions
    (P := fun a b => ReflTransGen g.Next b a → ∃ d ∈ g.cycles, a ∈ d.nodes ∧ b ∈ d.nodes)

/-- What the core asks of cycles, of those the author wrote. -/
theorem cycles_iff : (∀ d ∈ c.cycles, d.maxIterations ≠ 0 ∧ d.nodes.isEmpty = false) ↔
    ∀ d ∈ g.cycles, d.nodes ≠ [] ∧ Within 1 u32Max d.maxIterations := by
  obtain ⟨-, hto, hof⟩ := mapM_eq_some h.cycles
  constructor
  · intro hall d hd
    obtain ⟨e, he, hde⟩ := hto d hd
    obtain ⟨hmax, hempty⟩ := hall e he
    exact ⟨(isEmpty_cycle hde).mp hempty, _, (deserialize_cycle hde).2, Nat.one_le_iff_ne_zero.mpr hmax⟩
  · intro hall e he
    obtain ⟨d, hd, hde⟩ := hof e he
    obtain ⟨hne, n, hn, hpos⟩ := hall d hd
    have hmax := (deserialize_cycle hde).2
    rw [hmax] at hn
    cases hn
    exact ⟨Nat.one_le_iff_ne_zero.mp hpos, (isEmpty_cycle hde).mpr hne⟩

end GraphDefinitionV1.Reads

theorem Within.isSome {min max : ℕ} {l : Literal} (h : GraphDefinitionV1.Within min max l) :
    ∃ n, unsigned max l = some n :=
  h.imp fun _ hn => hn.1

/-- A graph that meets the demands is read. -/
theorem exists_reads {g : GraphDefinitionV1} (hg : g.Common) (hc : g.CoreOnly) :
    ∃ c, g.Reads c ∧ c.version = 1 := by
  have hread : ∀ {v : String}, validIdentifier v = true → ∃ i, readIdentifier v = some i := fun hv =>
    Option.isSome_iff_exists.mp (readIdentifier_isSome.mpr hv)
  have hids : ∀ v ∈ g.nodes.map (·.id), validIdentifier v = true := by
    simpa using hc.nodeIds
  obtain ⟨id, hid⟩ := hread hg.id
  obtain ⟨stateSchema, hschema⟩ := hread hc.stateSchema
  obtain ⟨entry, hentry⟩ := hread (hids _ hg.entry)
  have hnodes : (g.nodes.mapM NodeDefinitionV1.deserialize).isSome := by
    refine mapM_isSome.mpr fun n hn => ?_
    obtain ⟨i, hi⟩ := hread (hc.nodeIds n hn)
    simp [NodeDefinitionV1.deserialize, hi]
  have htransitions : (g.transitions.mapM TransitionDefinitionV1.deserialize).isSome := by
    refine mapM_isSome.mpr fun t ht => ?_
    obtain ⟨i, hi⟩ := hread (hc.transitionIds t ht)
    obtain ⟨hs, htarget⟩ := hg.endpoints t ht
    obtain ⟨source, hs⟩ := hread (hids _ hs)
    obtain ⟨target, htarget⟩ := hread (hids _ htarget)
    simp [TransitionDefinitionV1.deserialize, hi, hs, htarget]
  have hcycles : (g.cycles.mapM CycleDefinitionV1.deserialize).isSome := by
    refine mapM_isSome.mpr fun d hd => ?_
    obtain ⟨-, hvalid, n, hn, -⟩ := hc.cycles d hd
    obtain ⟨is, his⟩ := Option.isSome_iff_exists.mp
      (mapM_isSome.mpr fun v hv => readIdentifier_isSome.mpr (hvalid v hv))
    simp [CycleDefinitionV1.deserialize, his, hn]
  obtain ⟨ns, hns⟩ := Option.isSome_iff_exists.mp hnodes
  obtain ⟨ts, hts⟩ := Option.isSome_iff_exists.mp htransitions
  obtain ⟨cs, hcs⟩ := Option.isSome_iff_exists.mp hcycles
  obtain ⟨maxSteps, h1, -⟩ := hc.maxSteps
  obtain ⟨maxTokens, h2, -⟩ := hc.maxTokens
  obtain ⟨maxCostMicros, h3, -⟩ := hc.maxCostMicros
  obtain ⟨timeoutMs, h4, -⟩ := hc.timeoutMs
  exact ⟨⟨1, id, stateSchema, entry, ns, ts, cs, ⟨maxSteps, maxTokens, maxCostMicros, timeoutMs⟩⟩,
    ⟨hc.version, hid, hschema, hentry, hns, hts, hcs, deserialize_limits.mpr ⟨h1, h2, h3, h4⟩⟩, rfl⟩

/-- What is read has valid identifiers and numbers. -/
theorem readable_of_reads {g : GraphDefinitionV1} {c : Core.GraphDefinitionV1} (h : g.Reads c) :
    (∀ n ∈ g.nodes, validIdentifier n.id = true) ∧ (∀ t ∈ g.transitions, validIdentifier t.id = true) ∧
      ∀ d ∈ g.cycles, ∀ n ∈ d.nodes, validIdentifier n = true := by
  refine ⟨fun n hn => ?_, fun t ht => ?_, fun d hd n hn => ?_⟩
  · obtain ⟨e, -, he⟩ := (mapM_eq_some h.nodes).2.1 n hn
    exact (deserialize_node he).1 ▸ e.id.valid
  · obtain ⟨e, -, he⟩ := (mapM_eq_some h.transitions).2.1 t ht
    exact (deserialize_transition he).1 ▸ e.id.valid
  · obtain ⟨e, -, he⟩ := (mapM_eq_some h.cycles).2.1 d hd
    obtain ⟨⟨is, his, -⟩, -⟩ := deserialize_cycle he
    obtain ⟨i, -, hi⟩ := (mapM_eq_some his).2.1 n hn
    exact readIdentifier_eq_some.mp hi ▸ i.valid

/-- **What the core accepts.** -/
theorem coreAccepts_iff {g : GraphDefinitionV1} : g.CoreAccepts ↔ g.Common ∧ g.CoreOnly := by
  unfold GraphDefinitionV1.CoreAccepts
  simp only [deserialize_eq_some, Core.GraphDefinitionV1.validate_iff]
  constructor
  · rintro ⟨c, h, hv⟩
    obtain ⟨hnodes, htransitions, hcycles⟩ := readable_of_reads h
    obtain ⟨h1, h2, h3, h4⟩ := deserialize_limits.mp h.limits
    have hentry := readIdentifier_eq_some.mp h.entry
    refine ⟨?_, ?_⟩
    · exact
        { id := readIdentifier_isSome.mp (Option.isSome_iff_exists.mpr ⟨_, h.id⟩)
          nodes := h.nodup_ids.mp hv.nodes
          entry := hentry ▸ h.mem_ids.mp hv.entry
          terminal := h.terminal.mp hv.terminal
          endpoints := h.endpoints_iff.mp hv.endpoints
          routes := h.nodup_routes.mp hv.routes
          reachable := fun n hn => by
            rw [← h.ids] at hn
            obtain ⟨i, hi, rfl⟩ := List.mem_map.mp hn
            rw [← hentry]
            exact h.reach_iff.mp (hv.reachable i hi) }
    · exact
        { version := hv.version ▸ h.version
          stateSchema := readIdentifier_isSome.mp (Option.isSome_iff_exists.mpr ⟨_, h.stateSchema⟩)
          nodeIds := hnodes
          transitionIds := htransitions
          transitions := h.nodup_transitionIds.mp hv.transitions
          maxSteps := ⟨_, h1, hv.maxSteps⟩
          maxTokens := ⟨_, h2, Nat.zero_le _⟩
          maxCostMicros := ⟨_, h3, Nat.zero_le _⟩
          timeoutMs := ⟨_, h4, hv.timeoutMs⟩
          cycles := fun d hd =>
            ⟨(h.cycles_iff.mp hv.cycles d hd).1, hcycles d hd, (h.cycles_iff.mp hv.cycles d hd).2⟩
          declared := h.declared_iff.mp hv.declared }
  · rintro ⟨hg, hc⟩
    obtain ⟨c, h, hversion⟩ := exists_reads hg hc
    obtain ⟨h1, -, -, h4⟩ := deserialize_limits.mp h.limits
    have hpos : ∀ {l : Literal} {n : ℕ}, GraphDefinitionV1.Within 1 u64Max l →
        unsigned u64Max l = some n → 0 < n := by
      rintro l n ⟨m, hm, h1⟩ hn
      rw [hm] at hn
      cases hn
      exact h1
    have hentry := readIdentifier_eq_some.mp h.entry
    refine ⟨c, h, ?_⟩
    exact
      { version := hversion
        maxSteps := hpos hc.maxSteps h1
        timeoutMs := hpos hc.timeoutMs h4
        nodes := h.nodup_ids.mpr hg.nodes
        entry := h.mem_ids.mpr (hentry ▸ hg.entry)
        terminal := h.terminal.mpr hg.terminal
        transitions := h.nodup_transitionIds.mpr hc.transitions
        endpoints := h.endpoints_iff.mpr hg.endpoints
        routes := h.nodup_routes.mpr hg.routes
        reachable := fun n hn => h.reach_iff.mpr (hentry ▸ hg.reachable n.text (h.mem_ids.mp hn))
        cycles := h.cycles_iff.mpr fun d hd => ⟨(hc.cycles d hd).1, (hc.cycles d hd).2.2⟩
        declared := h.declared_iff.mpr hc.declared }

/-! ### Agreement -/

/-- **The two validations agree on a graph exactly when their own demands make no difference.** -/
theorem accepts_iff (g : GraphDefinitionV1) :
    (g.ScriptAccepts ↔ g.CoreAccepts) ↔ (g.Common → (g.ScriptOnly ↔ g.CoreOnly)) := by
  rw [scriptAccepts_iff, coreAccepts_iff]
  constructor
  · intro h hg
    simpa [hg] using h
  · intro h
    exact and_congr_right h

/-- A node that leads to itself, on no declared cycle. -/
def selfLoop : GraphDefinitionV1 where
  version := { whole := 1 }
  id := "support"
  stateSchema := "support-state"
  entry := "triage"
  nodes := [⟨"triage", false, [], []⟩, ⟨"answer", true, [], []⟩]
  transitions := [⟨"retry", "triage", "retry", "triage"⟩, ⟨"finish", "triage", "continue", "answer"⟩]
  cycles := []
  limits := ⟨{ whole := 100 }, { whole := 1000 }, { whole := 1000 }, { whole := 30000 }⟩

/-- The script accepts an undeclared cycle, the core does not. -/
theorem validations_differ : ¬ ∀ g : GraphDefinitionV1, g.ScriptAccepts ↔ g.CoreAccepts := by
  intro h
  have hscript : selfLoop.ScriptAccepts := by
    unfold GraphDefinitionV1.ScriptAccepts
    decide +kernel
  have hcore := (coreAccepts_iff.mp ((h selfLoop).mp hscript)).2
  obtain ⟨c, hc, -⟩ := hcore.declared ⟨"retry", "triage", "retry", "triage"⟩ (.head _) .refl
  cases hc

end Knolo.Builder
