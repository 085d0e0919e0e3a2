import Knolo.Builder.Agent
import Knolo.Builder.Validation
import Mathlib.Tactic.IntervalCases

/-!
# The hash of a definition on both sides

The core hashes a graph as `serde_json` writes it (`serialize`), the script as `JSON.stringify`
does. The core keeps reads, writes and the nodes of a cycle in ordered sets, and the members of
an object in the order of the fields; the script keeps everything as its author wrote it. What
the core writes is what the script would write of the graph in order (`serialize_eq`).

`hashes_agree_iff` says that the hashes agree on exactly the graphs whose author kept that order,
unless two different texts collide under SHA-256.
-/

namespace Knolo.Builder

open Core Script Library Library.Fallible Library.Traverse Library.JsonText

/-! ### Escapes -/

/-- The value of a hexadecimal digit. -/
def hexValue (c : Char) : ℕ := if c.toNat < 58 then c.toNat - 48 else c.toNat - 87

/-- What an escaped character stands for, and what follows it. -/
def unescape : List Char → Option (Char × List Char)
  | '\\' :: 'b' :: r => some ('\x08', r)
  | '\\' :: 't' :: r => some ('\t', r)
  | '\\' :: 'n' :: r => some ('\n', r)
  | '\\' :: 'f' :: r => some ('\x0c', r)
  | '\\' :: 'r' :: r => some ('\r', r)
  | '\\' :: 'u' :: _ :: _ :: a :: b :: r => some (Char.ofNat (16 * hexValue a + hexValue b), r)
  | '\\' :: c :: r => some (c, r)
  | c :: r => some (c, r)
  | [] => none

theorem unescape_escape (c : Char) (r : List Char) : unescape (Json.escape c ++ r) = some (c, r) := by
  by_cases hq : c = '"'
  · subst hq
    rfl
  by_cases hb : c = '\\'
  · subst hb
    rfl
  by_cases h : c.toNat < 32
  · have hc := Char.ofNat_toNat c
    generalize c.toNat = n at h hc
    subst hc
    interval_cases n <;> rfl
  · have hplain : Json.escape c = [c] := by
      unfold Json.escape
      rw [if_neg hq, if_neg hb, if_neg (by omega), if_neg (by omega), if_neg (by omega), if_neg (by omega),
        if_neg (by omega), if_neg h]
    rw [hplain]
    unfold unescape
    split <;> simp_all

theorem escaping : Escaping Json.escape where
  cancel {c d r r'} h := by
    have := congrArg unescape h
    rw [unescape_escape, unescape_escape] at this
    exact Prod.mk.inj (Option.some.inj this)
  ne_nil c hc := by
    have := unescape_escape c []
    rw [hc] at this
    cases this
  head c := by
    unfold Json.escape
    split_ifs <;> simp_all

/-! ### What the core hashes -/

/-- A node, as the core writes it. -/
def serializeNode (n : Core.NodeDefinitionV1) : Written := .object
  [("id", .string n.id.text), ("terminal", boolean n.terminal), ("reads", strings n.reads.toList),
    ("writes", strings n.writes.toList)]

/-- A transition, as the core writes it. -/
def serializeTransition (t : Core.TransitionDefinitionV1) : Written := .object
  [("id", .string t.id.text), ("from", .string t.source.text), ("route", .string t.route),
    ("to", .string t.target.text)]

/-- A cycle, as the core writes it. -/
def serializeCycle (c : Core.CycleDefinitionV1) : Written := .object
  [("nodes", strings (c.nodes.toList.map (·.text))), ("max_iterations", .token (digits c.maxIterations))]

/-- The limits, as the core writes them. -/
def serializeLimits (l : Core.ExecutionLimitsV1) : Written := .object
  [("max_steps", .token (digits l.maxSteps)), ("max_tokens", .token (digits l.maxTokens)),
    ("max_cost_micros", .token (digits l.maxCostMicros)), ("timeout_ms", .token (digits l.timeoutMs))]

/-- A graph, as the core writes it. -/
def serialize (g : Core.GraphDefinitionV1) : Written := .object
  [("version", .token (digits g.version)), ("id", .string g.id.text),
    ("state_schema", .string g.stateSchema.text), ("entry", .string g.entry.text),
    ("nodes", .array (g.nodes.map serializeNode)),
    ("transitions", .array (g.transitions.map serializeTransition)),
    ("cycles", .array (g.cycles.map serializeCycle)), ("limits", serializeLimits g.limits)]

/-- The hash of a graph in the core. -/
def definitionHash (g : Core.GraphDefinitionV1) : String := Sha256.hex (bytes (serialize g))

/-! ### Graphs in order -/

/-- A list of texts is in order, each once. -/
def InOrder (xs : List String) : Prop := xs.Pairwise fun a b => compare a b = .lt

/-- The texts of a list in order, each once. -/
def ordered (xs : List String) : List String := (Std.ExtTreeSet.ofList xs).toList

/-- The author kept the order of the core: of reads, writes and nodes of cycles, and of the
members of cycles. -/
structure GraphDefinitionV1.Ordered (g : GraphDefinitionV1) : Prop where
  reads : ∀ n ∈ g.nodes, InOrder n.reads
  writes : ∀ n ∈ g.nodes, InOrder n.writes
  cycles : ∀ c ∈ g.cycles, InOrder c.nodes ∧ c.iterationsFirst = false

/-- A node in order. -/
def NodeDefinitionV1.normal (n : NodeDefinitionV1) : NodeDefinitionV1 :=
  { n with reads := ordered n.reads, writes := ordered n.writes }

/-- A cycle in order. -/
def CycleDefinitionV1.normal (c : CycleDefinitionV1) : CycleDefinitionV1 :=
  { c with nodes := ordered c.nodes, iterationsFirst := false }

/-- A graph in order. -/
def GraphDefinitionV1.normal (g : GraphDefinitionV1) : GraphDefinitionV1 :=
  { g with nodes := g.nodes.map (·.normal), cycles := g.cycles.map (·.normal) }

theorem inOrder_ordered (xs : List String) : InOrder (ordered xs) := Std.ExtTreeSet.ordered_toList

theorem mem_ordered {xs : List String} {x : String} : x ∈ ordered xs ↔ x ∈ xs := by
  rw [ordered, Std.ExtTreeSet.mem_toList, Std.ExtTreeSet.mem_ofList, List.contains_iff_mem]

/-- A list in order is determined by its elements. -/
theorem InOrder.eq {xs ys : List String} (hx : InOrder xs) (hy : InOrder ys) (h : ∀ x, x ∈ xs ↔ x ∈ ys) :
    xs = ys := by
  have hnodup : ∀ {zs : List String}, InOrder zs → zs.Nodup := fun hz =>
    hz.imp fun {a b} hab he => by
      subst he
      rw [Std.ReflOrd.compare_self] at hab
      cases hab
  have hp : xs.Perm ys := (List.perm_ext_iff_of_nodup (hnodup hx) (hnodup hy)).mpr h
  refine hp.eq_of_pairwise (fun a b _ _ hab hba => ?_) hx hy
  have := Std.OrientedOrd.eq_swap (a := a) (b := b)
  rw [hab, hba] at this
  cases this

theorem ordered_eq_self {xs : List String} : ordered xs = xs ↔ InOrder xs :=
  ⟨fun h => h ▸ inOrder_ordered xs, fun h => (inOrder_ordered xs).eq h fun _ => mem_ordered⟩

/-! ### What the core writes -/

/-- A number the core reads is written as its digits. -/
theorem literal_of_unsigned {max n : ℕ} {l : Literal} (h : unsigned max l = some n) : literal l = digits n := by
  unfold unsigned at h
  split_ifs at h with hl
  obtain ⟨hi, hneg, -⟩ := hl
  simp only [Literal.isInteger, Bool.and_eq_true, Option.isNone_iff_eq_none] at hi
  rw [← Option.some.inj h, literal, hi.1, hi.2, hneg]
  simp

theorem serializeNode_eq {n : NodeDefinitionV1} {d : Core.NodeDefinitionV1} (h : n.deserialize = some d) :
    serializeNode d = n.normal.written := by
  obtain ⟨hid, hterminal, hreads, hwrites⟩ := deserialize_node h
  rw [serializeNode, hid, hterminal, hreads, hwrites]
  rfl

theorem serializeTransition_eq {t : TransitionDefinitionV1} {d : Core.TransitionDefinitionV1}
    (h : t.deserialize = some d) : serializeTransition d = t.written := by
  obtain ⟨hid, hsource, hroute, htarget⟩ := deserialize_transition h
  rw [serializeTransition, hid, hsource, hroute, htarget]
  rfl

theorem serializeCycle_eq {c : CycleDefinitionV1} {d : Core.CycleDefinitionV1} (h : c.deserialize = some d) :
    serializeCycle d = c.normal.written := by
  have hmax := literal_of_unsigned (deserialize_cycle h).2
  have hnodes : d.nodes.toList.map (·.text) = ordered c.nodes := by
    refine InOrder.eq ?_ (inOrder_ordered c.nodes) fun x => ?_
    · have hsorted : d.nodes.toList.Pairwise fun a b => compare a b = .lt := Std.ExtTreeSet.ordered_toList
      exact List.pairwise_map.mpr hsorted
    · rw [mem_ordered, List.mem_map]
      simp only [Std.ExtTreeSet.mem_toList, ← Std.ExtTreeSet.contains_iff_mem, contains_cycle h]
      refine ⟨fun ⟨i, hi, hx⟩ => hx ▸ hi, fun hx => ?_⟩
      obtain ⟨⟨ids, hids, -⟩, -⟩ := deserialize_cycle h
      obtain ⟨i, -, hi⟩ := (mapM_eq_some hids).2.1 x hx
      obtain rfl := readIdentifier_eq_some.mp hi
      exact ⟨i, hx, rfl⟩
  rw [serializeCycle, hnodes, ← hmax]
  rfl

theorem serializeLimits_eq {l : ExecutionLimitsV1} {d : Core.ExecutionLimitsV1} (h : l.deserialize = some d) :
    serializeLimits d = l.written := by
  obtain ⟨h1, h2, h3, h4⟩ := deserialize_limits.mp h
  rw [serializeLimits, ← literal_of_unsigned h1, ← literal_of_unsigned h2, ← literal_of_unsigned h3,
    ← literal_of_unsigned h4]
  rfl

/-- **The core writes the graph in order.** -/
theorem serialize_eq {g : GraphDefinitionV1} {c : Core.GraphDefinitionV1} (h : g.Reads c) :
    serialize c = g.normal.written := by
  have hnodes : c.nodes.map serializeNode = (g.nodes.map (·.normal)).map (·.written) := by
    rw [List.map_map]
    exact map_eq_of_mapM (fun _ _ => serializeNode_eq) h.nodes
  have htransitions : c.transitions.map serializeTransition = g.transitions.map (·.written) :=
    map_eq_of_mapM (fun _ _ => serializeTransition_eq) h.transitions
  have hcycles : c.cycles.map serializeCycle = (g.cycles.map (·.normal)).map (·.written) := by
    rw [List.map_map]
    exact map_eq_of_mapM (fun _ _ => serializeCycle_eq) h.cycles
  rw [serialize, hnodes, htransitions, hcycles, serializeLimits_eq h.limits, ← literal_of_unsigned h.version,
    readIdentifier_eq_some.mp h.id, readIdentifier_eq_some.mp h.stateSchema, readIdentifier_eq_some.mp h.entry]
  rfl

/-! ### What is written tells the graph -/

theorem strings_inj {xs ys : List String} : strings xs = strings ys ↔ xs = ys := by
  unfold strings
  rw [Written.array.injEq, List.map_inj_right fun _ _ => Written.string.inj]

/-- A graph is written like the graph in order exactly when its author kept the order. -/
theorem written_normal_iff {g : GraphDefinitionV1} : g.written = g.normal.written ↔ g.Ordered := by
  have hnode : ∀ n : NodeDefinitionV1, n.written = n.normal.written ↔ InOrder n.reads ∧ InOrder n.writes := by
    intro n
    simp only [NodeDefinitionV1.written, NodeDefinitionV1.normal, Written.object.injEq, List.cons.injEq,
      Prod.mk.injEq, strings_inj, true_and, and_true, ← ordered_eq_self]
    exact and_congr eq_comm eq_comm
  have hcycle : ∀ c : CycleDefinitionV1, c.written = c.normal.written ↔
      InOrder c.nodes ∧ c.iterationsFirst = false := by
    intro c
    cases hfirst : c.iterationsFirst <;>
      simp [CycleDefinitionV1.written, CycleDefinitionV1.normal, hfirst, strings_inj, ← ordered_eq_self,
        eq_comm]
  have hwritten : g.written = g.normal.written ↔
      (∀ n ∈ g.nodes, n.written = n.normal.written) ∧ ∀ c ∈ g.cycles, c.written = c.normal.written := by
    simp only [GraphDefinitionV1.written, GraphDefinitionV1.normal, Written.object.injEq, List.cons.injEq,
      Prod.mk.injEq, Written.array.injEq, true_and, and_true, List.map_map, List.map_inj_left,
      Function.comp_apply]
  rw [hwritten]
  simp only [hnode, hcycle]
  exact ⟨fun ⟨hn, hc⟩ => ⟨fun n h => (hn n h).1, fun n h => (hn n h).2, hc⟩,
    fun h => ⟨fun n hn => ⟨h.reads n hn, h.writes n hn⟩, h.cycles⟩⟩

theorem tokenChar_of_isDigit {c : Char} (h : c.isDigit = true) : tokenChar c = true := by
  simp [tokenChar, Char.isAlphanum, h]

theorem wellFormed_literal (l : Literal) : (Written.token (literal l)).WellFormed := by
  have hdigits : ∀ n, ∀ c ∈ digits n, tokenChar c = true := fun n c hc =>
    tokenChar_of_isDigit (Nat.isDigit_of_mem_toDigits (by decide) (by decide) hc)
  have hne : digits l.whole ≠ [] := Nat.toDigits_ne_nil
  refine ⟨by simp [literal, hne], fun c hc => ?_⟩
  simp only [literal, List.mem_append] at hc
  rcases hc with ((hc | hc) | hc) | hc
  · split_ifs at hc
    · obtain rfl := List.mem_singleton.mp hc
      decide
    · cases hc
  · exact hdigits _ c hc
  · split at hc
    · rcases List.mem_cons.mp hc with rfl | hc
      · decide
      · have hdigit : ∀ d : Fin 10, tokenChar (Nat.digitChar d.val) = true := by decide
        obtain ⟨d, -, rfl⟩ := List.mem_map.mp hc
        exact hdigit d
    · cases hc
  · split at hc
    · rcases List.mem_cons.mp hc with rfl | hc
      · decide
      rcases List.mem_cons.mp hc with rfl | hc
      · split_ifs <;> decide
      · exact hdigits _ c hc
    · cases hc

theorem wellFormed_strings (xs : List String) : (strings xs).WellFormed :=
  itemsWellFormed_iff.mpr fun v hv => by
    obtain ⟨x, -, rfl⟩ := List.mem_map.mp hv
    trivial

theorem wellFormed_boolean (b : Bool) : (boolean b).WellFormed := by
  cases b <;> exact ⟨by decide, List.all_eq_true.mp (by decide)⟩

/-- Only graphs are written, not other texts. -/
theorem wellFormed_written (g : GraphDefinitionV1) : g.written.WellFormed := by
  have hnodes : (Written.array (g.nodes.map (·.written))).WellFormed :=
    itemsWellFormed_iff.mpr fun v hv => by
      obtain ⟨n, -, rfl⟩ := List.mem_map.mp hv
      exact ⟨trivial, wellFormed_boolean _, wellFormed_strings _, wellFormed_strings _, trivial⟩
  have htransitions : (Written.array (g.transitions.map (·.written))).WellFormed :=
    itemsWellFormed_iff.mpr fun v hv => by
      obtain ⟨t, -, rfl⟩ := List.mem_map.mp hv
      exact ⟨trivial, trivial, trivial, trivial, trivial⟩
  have hcycles : (Written.array (g.cycles.map (·.written))).WellFormed :=
    itemsWellFormed_iff.mpr fun v hv => by
      obtain ⟨c, -, rfl⟩ := List.mem_map.mp hv
      unfold CycleDefinitionV1.written
      split_ifs
      · exact ⟨wellFormed_literal _, wellFormed_strings _, trivial⟩
      · exact ⟨wellFormed_strings _, wellFormed_literal _, trivial⟩
  exact ⟨wellFormed_literal _, trivial, trivial, trivial, hnodes, htransitions, hcycles,
    ⟨wellFormed_literal _, wellFormed_literal _, wellFormed_literal _, wellFormed_literal _, trivial⟩, trivial⟩

theorem bytes_inj {v w : Written} (hv : v.WellFormed) (hw : w.WellFormed) : bytes v = bytes w ↔ v = w :=
  ⟨fun h => text_injective escaping hv hw (String.ofList_injective (Harness.utf8_inj h)), fun h => h ▸ rfl⟩

/-! ### Agreement -/

theorem hash_of_compile {digest : Core.GraphDefinitionV1 → String} {c : Core.GraphDefinitionV1}
    {g : CompiledGraphV1} (h : c.compile digest = .ok g) : g.hash = digest c := by
  unfold Core.GraphDefinitionV1.compile at h
  split at h
  · cases h
  · cases h
    rfl

/-- **The hashes of a definition agree exactly when its author kept the order of the core**, unless
the two texts that are hashed differ and collide. -/
theorem hashes_agree_iff {config : AgentConfig} {a : AgentDefinition} {c : Core.GraphDefinitionV1}
    {g : CompiledGraphV1} (ha : defineAgent config = .ok a) (hc : a.graph.deserialize = some c)
    (hg : c.compile definitionHash = .ok g) : ∃ s, compile a = .ok s ∧ (s.hash = g.hash ↔
      a.graph.Ordered ∨ Sha256.Collide (bytes a.graph.written) (bytes (serialize c))) := by
  refine ⟨_, compile_of_defineAgent ha, ?_⟩
  have hserialize := serialize_eq (deserialize_eq_some.mp hc)
  have hbytes : bytes a.graph.written = bytes (serialize c) ↔ a.graph.Ordered := by
    rw [hserialize, bytes_inj (wellFormed_written _) (wellFormed_written _), written_normal_iff]
  rw [hash_of_compile hg, definitionHash, StableHash.stableHash_eq, ← hbytes, Sha256.Collide]
  constructor
  · intro h
    by_cases hb : bytes a.graph.written = bytes (serialize c)
    · exact .inl hb
    · exact .inr ⟨hb, h⟩
  · rintro (h | ⟨-, h⟩)
    · exact congrArg Sha256.hex h
    · exact h

/-! ### A graph whose hashes differ -/

/-- An agent of one node that reads two fields. -/
def supportConfig (first second : String) : Except String AgentConfig := do
  let state ← stateSchema "s" ["a", "b"]
  let answer ← terminal "n" { reads := some [first, second] }
  return { id := "g", state := state, nodes := [answer], transitions := [], entry := "n"
           limits := some (limits (some { whole := 1 }) (some { whole := 1 }) (some { whole := 1 })
             (some { whole := 1 })) }

/-- The graph of that agent. -/
def supportGraph (first second : String) : GraphDefinitionV1 where
  version := { whole := 1 }
  id := "g"
  stateSchema := "s"
  entry := "n"
  nodes := [⟨"n", true, ["/" ++ first, "/" ++ second], []⟩]
  transitions := []
  cycles := []
  limits := ⟨{ whole := 1 }, { whole := 1 }, { whole := 1 }, { whole := 1 }⟩

/-- That agent. -/
def supportAgent (first second : String) : AgentDefinition :=
  ⟨supportGraph first second, ⟨"s", ["/a", "/b"]⟩, [], none⟩

theorem supportGraph_accepts (first second : String) : (supportGraph first second).CoreAccepts := by
  rw [coreAccepts_iff]
  have hone : ∀ {min max : ℕ}, min ≤ 1 → 1 ≤ max → GraphDefinitionV1.Within min max { whole := 1 } := by
    intro min max hmin hmax
    exact ⟨1, if_pos ⟨rfl, rfl, hmax⟩, hmin⟩
  constructor
  · exact
      { id := (by decide : validIdentifier "g" = true)
        nodes := List.nodup_singleton _
        entry := .head _
        terminal := ⟨_, .head _, rfl⟩
        endpoints := by simp [supportGraph]
        routes := List.nodup_nil
        reachable := by
          rintro n hn
          obtain rfl := List.mem_singleton.mp hn
          exact .refl }
  · exact
      { version := rfl
        stateSchema := (by decide : validIdentifier "s" = true)
        nodeIds := by
          rintro n hn
          obtain rfl := List.mem_singleton.mp hn
          exact (by decide : validIdentifier "n" = true)
        transitionIds := by simp [supportGraph]
        transitions := List.nodup_nil
        maxSteps := hone (by decide) (by decide)
        maxTokens := hone (by decide) (by decide)
        maxCostMicros := hone (by decide) (by decide)
        timeoutMs := hone (by decide) (by decide)
        cycles := by simp [supportGraph]
        declared := by simp [supportGraph] }

/-- The core compiles a graph it accepts. -/
theorem exists_compile {g : GraphDefinitionV1} (h : g.CoreAccepts) :
    ∃ c k, g.deserialize = some c ∧ c.compile definitionHash = .ok k := by
  obtain ⟨c, hc, hv⟩ := h
  cases hk : c.compile definitionHash with
  | ok k => exact ⟨c, k, hc, hk⟩
  | error e =>
    unfold Core.GraphDefinitionV1.compile at hk
    split at hk <;> simp_all

/-- Reads in order: the hashes agree. -/
theorem hashes_agree_sample : ∃ config c g s, supportConfig "a" "b" = .ok config ∧
    defineAgent config = .ok (supportAgent "a" "b") ∧
    (supportAgent "a" "b").graph.deserialize = some c ∧ c.compile definitionHash = .ok g ∧
    compile (supportAgent "a" "b") = .ok s ∧ s.hash = g.hash := by
  obtain ⟨c, g, hc, hg⟩ := exists_compile (supportGraph_accepts "a" "b")
  have hdefine : ∃ config, supportConfig "a" "b" = .ok config ∧
      defineAgent config = .ok (supportAgent "a" "b") := ⟨_, rfl, by decide +kernel⟩
  obtain ⟨config, hconfig, ha⟩ := hdefine
  obtain ⟨s, hs, hiff⟩ := hashes_agree_iff ha hc hg
  refine ⟨config, c, g, s, hconfig, ha, hc, hg, hs, hiff.mpr (.inl ?_)⟩
  exact
    { reads := by
        rintro n hn
        obtain rfl := List.mem_singleton.mp hn
        unfold InOrder
        decide +kernel
      writes := by
        rintro n hn
        obtain rfl := List.mem_singleton.mp hn
        exact .nil
      cycles := by simp [supportAgent, supportGraph] }

/-- Reads out of order: the hashes differ. -/
theorem hashes_differ : ¬ ∀ config a c g, defineAgent config = .ok a → a.graph.deserialize = some c →
    c.compile definitionHash = .ok g → ∃ s, compile a = .ok s ∧ s.hash = g.hash := by
  intro h
  obtain ⟨c, g, hc, hg⟩ := exists_compile (supportGraph_accepts "b" "a")
  have hdefine : ∃ config, supportConfig "b" "a" = .ok config ∧
      defineAgent config = .ok (supportAgent "b" "a") := ⟨_, rfl, by decide +kernel⟩
  obtain ⟨config, -, ha⟩ := hdefine
  obtain ⟨s, hs, hhash⟩ := h _ _ c g ha hc hg
  rw [compile_of_defineAgent ha] at hs
  cases hs
  rw [hash_of_compile hg, definitionHash, serialize_eq (deserialize_eq_some.mp hc),
    StableHash.stableHash_eq] at hhash
  revert hhash
  decide +kernel

end Knolo.Builder
