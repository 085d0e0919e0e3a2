import Knolo.Host.Gate
import Mathlib.Logic.Relation

/-!
# Registration of tools

Tools are registered and calls are executed, in any order. A tool whose id is taken is refused, and takes
the place of the one that was registered.

* `Descends` — a tool that has run is the one that was registered, in a later state.
* `register_atomic_iff` — a refused registration leaves the registry as it was, and the tools that run are
  those first registered, if and only if what is registered again is the very tool that is there.
-/

namespace Knolo.Host

open Core Library Library.Fallible Relation

namespace ToolRegistry

variable {T : Type} [ToolImplementation T]

/-! ### Operations on a registry -/

/-- An operation on a registry. -/
inductive Operation (T : Type) where
  | register (tool : T)
  | execute (policy : CompiledPolicyV1) (r : Request)

/-- Do an operation; what it returns is dropped. -/
def Operation.perform : Operation T → Method (Desk T) (GateEvent T) CoreError Abort Unit
  | .register tool => fun d =>
    let out := d.registry.register tool
    .ok { result := out.2, state := { d with registry := out.1 }, log := [] }
  | .execute policy r => r.perform policy

/-- A desk with an empty registry. -/
def newDesk (ledger : BudgetLedger) : Desk T := { registry := empty, ledger }

/-- What there is after operations, from an empty registry. -/
def deskAfter (ledger : BudgetLedger) (ops : List (Operation T)) : Desk T :=
  ((sessionAt (newDesk ledger)).run Operation.perform ops).state

/-- The name a tool is registered under. -/
def nameOf (tool : T) : ToolId := (ToolImplementation.definition tool).id

/-- `t'` is tool `t`, after it has run some times. -/
def Descends : T → T → Prop :=
  ReflTransGen fun t t' => ∃ arguments, t' = (ToolImplementation.execute arguments t).2

/-- A registration that is refused leaves the registry as it was. -/
def Atomic (ledger : BudgetLedger) (ops : List (Operation T)) : Prop :=
  ∀ pre tool post, ops = pre ++ .register tool :: post → ∀ err,
    ((deskAfter ledger pre).registry.register tool).2 = .error err →
    ((deskAfter ledger pre).registry.register tool).1 = (deskAfter ledger pre).registry

/-- `tool` was the first to be registered under a name, and was not refused. -/
def First (ledger : BudgetLedger) (ops : List (Operation T)) (id : ToolId) (tool : T) : Prop :=
  ∃ pre post, ops = pre ++ .register tool :: post ∧ nameOf tool = id ∧
    (∀ tool', .register tool' ∈ pre → nameOf tool' ≠ id) ∧
    ((deskAfter ledger pre).registry.register tool).2 = .ok ()

/-- Every tool that runs is the one first registered under the name that was called. -/
def UsesFirst (ledger : BudgetLedger) (ops : List (Operation T)) : Prop :=
  ∀ pre policy r post, ops = pre ++ .execute policy r :: post →
    ∀ i ∈ invocations (Session.logged Operation.perform (deskAfter ledger pre) (.execute policy r)),
      ∃ tool, First ledger pre r.call.toolId tool ∧ Descends tool i.1 ∧
        (Steady T → ToolImplementation.definition i.1 = ToolImplementation.definition tool)

/-- What is registered under a name that is taken is the tool that is there. -/
def Repeats (ledger : BudgetLedger) (ops : List (Operation T)) : Prop :=
  ∀ pre tool post, ops = pre ++ .register tool :: post →
    ∀ t, (deskAfter ledger pre).registry.tools[nameOf tool]? = some t → t = tool

variable {ledger : BudgetLedger} {pre ops : List (Operation T)} {op : Operation T} {tool t : T} {id : ToolId}

/-! ### One registration -/

theorem register_eq_error {reg : ToolRegistry T} : (∃ err, (reg.register tool).2 = .error err) ↔
    reg.tools.contains (nameOf tool) = true := by
  unfold register nameOf
  dsimp only
  split <;> simp_all

/-- **A refused registration leaves the registry as it was** if and only if the tool is the one that is there. -/
theorem register_atomic {reg : ToolRegistry T} :
    (∀ err, (reg.register tool).2 = .error err → (reg.register tool).1 = reg) ↔
      ∀ t, reg.tools[nameOf tool]? = some t → t = tool := by
  constructor
  · intro h t ht
    have hcontains : reg.tools.contains (nameOf tool) = true := by
      rw [Std.ExtTreeMap.contains_eq_isSome_getElem?, ht]
      rfl
    obtain ⟨err, herr⟩ := register_eq_error.mpr hcontains
    have hsame : reg.tools.insert (nameOf tool) tool = reg.tools := congrArg ToolRegistry.tools (h err herr)
    have hself : (reg.tools.insert (nameOf tool) tool)[nameOf tool]? = some tool :=
      Std.ExtTreeMap.getElem?_insert_self
    rw [hsame, ht] at hself
    exact Option.some.inj hself
  · intro h err herr
    have hcontains := register_eq_error.mp ⟨err, herr⟩
    rw [Std.ExtTreeMap.contains_eq_isSome_getElem?] at hcontains
    obtain ⟨t, ht⟩ := Option.isSome_iff_exists.mp hcontains
    obtain rfl := h t ht
    have hsame : reg.tools.insert (nameOf t) t = reg.tools := by
      refine Std.ExtTreeMap.ext_getElem? fun k => ?_
      by_cases hk : nameOf t = k
      · rw [← hk, Std.ExtTreeMap.getElem?_insert_self, ht]
      · rw [Std.ExtTreeMap.getElem?_insert, if_neg (by simpa using hk)]
    exact congrArg (fun tools => { reg with tools }) hsame

/-! ### What runs -/

theorem First.append (h : First ledger ops id tool) (op : Operation T) : First ledger (ops ++ [op]) id tool := by
  obtain ⟨pre, post, rfl, hrest⟩ := h
  exact ⟨pre, post ++ [op], by simp, hrest⟩

/-- What is registered descends from what was registered first, and what was registered is there. -/
structure Rooted (ledger : BudgetLedger) (ops : List (Operation T)) (reg : ToolRegistry T) : Prop where
  first : ∀ id t, reg.tools[id]? = some t → ∃ tool, First ledger ops id tool ∧ Descends tool t
  stays : ∀ tool, .register tool ∈ ops → reg.tools[nameOf tool]? ≠ none

/-- One more registration. -/
theorem Rooted.register (h : Rooted ledger ops (deskAfter ledger ops).registry)
    (hrepeats : ∀ t, (deskAfter ledger ops).registry.tools[nameOf tool]? = some t → t = tool) :
    Rooted ledger (ops ++ [.register tool]) ((deskAfter ledger ops).registry.register tool).1 := by
  have hget : ∀ id, ((deskAfter ledger ops).registry.register tool).1.tools[id]? =
      if nameOf tool = id then some tool else (deskAfter ledger ops).registry.tools[id]? := by
    intro id
    show ((deskAfter ledger ops).registry.tools.insert (nameOf tool) tool)[id]? = _
    by_cases hid : nameOf tool = id
    · rw [if_pos hid, hid, Std.ExtTreeMap.getElem?_insert_self]
    · rw [if_neg hid, Std.ExtTreeMap.getElem?_insert, if_neg (by simpa using hid)]
  constructor
  · intro id t ht
    rw [hget] at ht
    split at ht
    · rename_i hid
      cases ht
      cases hold : (deskAfter ledger ops).registry.tools[id]? with
      | some t₀ =>
        obtain rfl := hrepeats t₀ (hid ▸ hold)
        obtain ⟨tool', hfirst, hdescends⟩ := h.first id t₀ hold
        exact ⟨tool', hfirst.append _, hdescends⟩
      | none =>
        refine ⟨tool, ⟨ops, [], rfl, hid, fun tool' hmem hname => ?_, ?_⟩, .refl⟩
        · exact h.stays tool' hmem (hname ▸ hold)
        · cases hres : ((deskAfter ledger ops).registry.register tool).2 with
          | ok _ => rfl
          | error err =>
            have hcontains := register_eq_error.mp ⟨err, hres⟩
            rw [Std.ExtTreeMap.contains_eq_isSome_getElem?, hid, hold] at hcontains
            cases hcontains
    · obtain ⟨tool', hfirst, hdescends⟩ := h.first id t ht
      exact ⟨tool', hfirst.append _, hdescends⟩
  · intro tool' hmem
    rw [hget]
    split
    · exact Option.some_ne_none tool
    · rename_i hname
      rcases List.mem_append.mp hmem with hmem | hmem
      · exact h.stays tool' hmem
      · cases List.mem_singleton.mp hmem
        exact absurd rfl hname

/-- One more call. -/
theorem Rooted.execute {policy : CompiledPolicyV1} {r : Request} {d d' : Desk T} {log : List (GateEvent T)}
    (h : Rooted ledger ops d.registry) (hrecorded : Recorded policy r d d' log) :
    Rooted ledger (ops ++ [.execute policy r]) d'.registry := by
  have hstays : ∀ tool, Operation.register tool ∈ ops ++ [.execute policy r] → .register tool ∈ ops := by
    intro tool hmem
    rcases List.mem_append.mp hmem with hmem | hmem
    · exact hmem
    · cases List.mem_singleton.mp hmem
  obtain ⟨res, g', glog, hpass, htools, -⟩ := hrecorded.passage
  cases hpass with
  | denied _ =>
    refine ⟨fun id t ht => ?_, fun tool hmem => ?_⟩
    · rw [htools] at ht
      obtain ⟨tool, hfirst, hdescends⟩ := h.first id t ht
      exact ⟨tool, hfirst.append _, hdescends⟩
    · rw [htools]
      exact h.stays tool (hstays tool hmem)
  | @ran tool _ _ hadmits _ hg _ =>
    have hget : ∀ id, d'.registry.tools[id]? = if r.call.toolId = id
        then some (ToolImplementation.execute r.call.arguments tool).2 else d.registry.tools[id]? := by
      intro id
      rw [htools, hg]
      by_cases hid : r.call.toolId = id
      · rw [if_pos hid, hid, Std.ExtTreeMap.getElem?_insert_self]
      · rw [if_neg hid, Std.ExtTreeMap.getElem?_insert, if_neg (by simpa using hid)]
    refine ⟨fun id t ht => ?_, fun tool' hmem => ?_⟩
    · rw [hget] at ht
      split at ht
      · rename_i hid
        cases ht
        obtain ⟨tool', hfirst, hdescends⟩ := h.first id tool (hid ▸ hadmits.registered)
        exact ⟨tool', hfirst.append _, hdescends.tail ⟨r.call.arguments, rfl⟩⟩
      · obtain ⟨tool', hfirst, hdescends⟩ := h.first id t ht
        exact ⟨tool', hfirst.append _, hdescends⟩
    · rw [hget]
      split
      · exact Option.some_ne_none _
      · exact h.stays tool' (hstays tool' hmem)

theorem rooted_after (hrepeats : Repeats ledger ops) : Rooted ledger ops (deskAfter ledger ops).registry := by
  refine Session.run_induct (m := Operation.perform) (s := sessionAt (newDesk ledger))
    (I := fun pre s => Rooted ledger pre s.state.registry) ?_ ops ?_
  · refine ⟨fun id t ht => ?_, fun _ h => nomatch h⟩
    simp [sessionAt, newDesk, empty] at ht
  · intro pre op post hsplit ih
    cases op with
    | register tool => exact ih.register (hrepeats pre tool post hsplit)
    | execute policy r =>
      rcases after_recorded policy ((sessionAt (newDesk ledger)).run Operation.perform pre) r with h | ⟨hs, -⟩
      · exact ih.execute h
      · have hsame : (((sessionAt (newDesk ledger)).run Operation.perform pre).after Operation.perform
            (.execute policy r)).state = ((sessionAt (newDesk ledger)).run Operation.perform pre).state := hs
        rw [hsame]
        refine ⟨fun id t ht => ?_, fun tool hmem => ?_⟩
        · obtain ⟨tool, hfirst, hdescends⟩ := ih.first id t ht
          exact ⟨tool, hfirst.append _, hdescends⟩
        · rcases List.mem_append.mp hmem with hmem | hmem
          · exact ih.stays tool hmem
          · cases List.mem_singleton.mp hmem

theorem Descends.definition (hT : Steady T) (h : Descends tool t) :
    ToolImplementation.definition t = ToolImplementation.definition tool := by
  induction h with
  | refl => rfl
  | tail _ hstep ih =>
    obtain ⟨arguments, rfl⟩ := hstep
    rw [hT, ih]

/-- What runs is what was registered first, where only tools that are there are registered again. -/
theorem usesFirst_of_repeats (hrepeats : Repeats ledger ops) : UsesFirst ledger ops := by
  intro pre policy r post hsplit i hi
  have hpre : Repeats ledger pre := fun pre' tool post' h => hrepeats pre' tool (post' ++ .execute policy r :: post)
    (by rw [hsplit, h, List.append_assoc, List.cons_append])
  rcases after_recorded policy ((sessionAt (newDesk ledger)).run Operation.perform pre) r with h | ⟨-, hlog⟩
  · obtain ⟨hadmits, -⟩ := h.admits hi
    obtain ⟨tool, hfirst, hdescends⟩ := (rooted_after hpre).first _ _ hadmits.registered
    exact ⟨tool, hfirst, hdescends, fun hT => hdescends.definition hT⟩
  · have hnone : invocations (Session.logged Operation.perform (deskAfter ledger pre) (.execute policy r)) = [] :=
      congrArg invocations hlog
    rw [hnone] at hi
    cases hi

/-- **Registration is atomic**, and the tools that run are those first registered, over any operations, if and
only if a tool that is registered under a name that is taken is the one that is there. -/
theorem register_atomic_iff (ledger : BudgetLedger) (ops : List (Operation T)) :
    Atomic ledger ops ∧ UsesFirst ledger ops ↔ Repeats ledger ops := by
  constructor
  · rintro ⟨hatomic, -⟩ pre tool post hsplit
    exact register_atomic.mp (hatomic pre tool post hsplit)
  · intro hrepeats
    exact ⟨fun pre tool post hsplit => register_atomic.mpr (hrepeats pre tool post hsplit),
      usesFirst_of_repeats hrepeats⟩

/-- **A search tool that is refused takes the place of the one that was registered.** -/
theorem refused_search_registered : ¬∀ (ledger : BudgetLedger) (ops : List (Operation Search)),
    Atomic ledger ops ∧ UsesFirst ledger ops := by
  intro h
  have hatomic := (h .empty [.register { units := 1 }, .register { units := 11 }]).1
    [.register { units := 1 }] { units := 11 } [] rfl
  have hunits : (((deskAfter .empty [.register { units := 1 }]).registry.tools[nameOf (⟨11⟩ : Search)]?).map
      Search.units) = some 1 := by
    decide +kernel
  obtain ⟨t, ht, hone⟩ := Option.map_eq_some_iff.mp hunits
  rw [register_atomic.mp hatomic t ht] at hone
  cases hone

end ToolRegistry

end Knolo.Host
