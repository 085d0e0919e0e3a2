import Knolo.Host.Registry

/-!
# What the gate of the tools guarantees

Any sequence of calls of a registry, with one ledger and with implementations that do and report
what they like.

* `Admits` — a call passes every check, and the tool it reaches.
* `Passage` — what one call does: it invokes the tool it is admitted to, once, or nothing.
* `gate_safe` — no other tool is invoked, and no more often than the call budget allows.
* `audit_truthful` — when the audit stream says `denied` of the calls that invoked nothing, and
  of no others. `failed_call_denied` is a call for which it does not.
-/

namespace Knolo.Host

open Core Library Library.Fallible

namespace ToolRegistry

variable {T : Type} [ToolImplementation T]

/-- `call` passes every check of the gate, and reaches `tool`. -/
structure Admits (policy : CompiledPolicyV1) (call : ToolCallV1) (tools : Std.ExtTreeMap ToolId T)
    (ledger : BudgetLedger) (tool : T) : Prop where
  version : call.version = 1
  callId : call.callId ≠ ""
  object : call.arguments.asObject.isSome = true
  registered : tools[call.toolId]? = some tool
  allowed : policy.allowsTool (ToolImplementation.definition tool).id = true
  granted : policy.allowsNamespace (ToolImplementation.definition tool).ns = true
  bound : (policy.binding (ToolImplementation.definition tool).capability).isSome = true
  contract : validateSchema call.arguments (ToolImplementation.definition tool).argumentContract = true
  constraint : ∀ s, policy.constraint (ToolImplementation.definition tool).id = some s →
    validateSchema call.arguments s = true
  affordable : ledger.used.calls < policy.budget.maxCalls

/-- `tool` returns a value that satisfies its contract, and the budget allows what it has used. -/
def Completes (policy : CompiledPolicyV1) (arguments : Json) (ledger : BudgetLedger) (tool : T) : Prop :=
  ∃ value usage, (ToolImplementation.execute arguments tool).1 = .ok (value, usage) ∧
    satAdd ledger.used.units usage.units ≤ policy.budget.maxUnits ∧
    satAdd ledger.used.durationMs usage.durationMs ≤ policy.budget.maxDurationMs ∧
    validateSchema value (ToolImplementation.definition tool).resultContract = true

/-! ### The checks -/

variable {policy : CompiledPolicyV1} {call : ToolCallV1} {tool : T} {ledger : BudgetLedger}

theorem validateCall_eq_ok {u : Unit} : validateCall call = .ok u ↔
    call.version = 1 ∧ call.callId ≠ "" ∧ call.arguments.asObject.isSome = true := by
  unfold validateCall
  split
  · rename_i h
    refine iff_of_false (by simp) fun ⟨hv, hc, ho⟩ => ?_
    rcases h with h | h | h
    · exact h hv
    · exact hc (String.isEmpty_iff.mp h)
    · rw [Option.isNone_iff_eq_none.mp h] at ho
      cases ho
  · rename_i h
    push Not at h
    refine iff_of_true rfl ⟨h.1, fun hc => ?_, ?_⟩
    · simp [hc] at h
    · simpa [Option.isSome_iff_ne_none] using h.2.2

theorem authorize_eq_ok {definition : ToolDefinition} {u : Unit} : authorize policy definition call = .ok u ↔
    policy.allowsTool definition.id = true ∧ policy.allowsNamespace definition.ns = true ∧
      (policy.binding definition.capability).isSome = true ∧
      validateSchema call.arguments definition.argumentContract = true ∧
      ∀ s, policy.constraint definition.id = some s → validateSchema call.arguments s = true := by
  unfold authorize
  cases hb : policy.binding definition.capability <;> cases hc : policy.constraint definition.id <;>
    split_ifs <;> (simp_all; try grind)

theorem reserveCall_eq_ok {definition : ToolDefinition} {l : BudgetLedger}
    (h : ledger.reserveCall policy definition = .ok l) :
    ledger.used.calls < policy.budget.maxCalls ∧ l = ⟨{ ledger.used with calls := ledger.used.calls + 1 }⟩ := by
  unfold BudgetLedger.reserveCall at h
  split at h
  · cases h
  · rename_i hlt
    obtain ⟨calls, hcalls, h⟩ := bind_eq_ok.mp h
    obtain ⟨rfl, -⟩ := checkedAdd_eq_ok hcalls
    cases h
    exact ⟨by omega, rfl⟩

theorem reserveCall_eq_error {definition : ToolDefinition} {err : CoreError}
    (h : ledger.reserveCall policy definition = .error (.error err)) : policy.budget.maxCalls ≤ ledger.used.calls := by
  unfold BudgetLedger.reserveCall at h
  split at h
  · assumption
  · rcases bind_eq_error.mp h with h | ⟨_, -, h⟩
    · unfold checkedAdd at h
      split at h <;> cases h
    · cases h

/-! ### One call -/

/-- **What a call does at the gate.** -/
inductive Passage (policy : CompiledPolicyV1) (call : ToolCallV1) (g : Gate T) :
    Except CoreError ToolResultV1 → Gate T → List (GateEvent T) → Prop
  /-- It is denied, and nothing runs. -/
  | denied {err : CoreError} : (∀ tool, ¬Admits policy call g.tools g.ledger tool) →
      Passage policy call g (.error err) g []
  /-- The tool it is admitted to runs. -/
  | ran {tool : T} {res : Except CoreError ToolResultV1} {g' : Gate T} :
      Admits policy call g.tools g.ledger tool →
      (res.isOk = true ↔ Completes policy call.arguments g.ledger tool) →
      g'.tools = g.tools.insert call.toolId (ToolImplementation.execute call.arguments tool).2 →
      g'.ledger.used.calls = g.ledger.used.calls + 1 →
      Passage policy call g res g' [.invoked tool call.arguments]

omit [ToolImplementation T] in
theorem reserve_sat (g : Gate T) (definition : ToolDefinition) :
    (reserve policy definition).Sat g fun res g' log => log = [] ∧
      (match res with
        | .ok _ => g.ledger.used.calls < policy.budget.maxCalls ∧
          g' = { g with ledger := ⟨{ g.ledger.used with calls := g.ledger.used.calls + 1 }⟩ }
        | .error _ => policy.budget.maxCalls ≤ g.ledger.used.calls ∧ g' = g) := by
  intro r hr
  unfold reserve at hr
  split at hr
  · cases hr
    obtain ⟨hlt, rfl⟩ := reserveCall_eq_ok ‹_›
    exact ⟨rfl, hlt, rfl⟩
  · cases hr
    exact ⟨rfl, reserveCall_eq_error ‹_›, rfl⟩
  · cases hr

theorem run_sat (g : Gate T) (id : ToolId) (arguments : Json) :
    (run id tool arguments).Sat g fun res g' log =>
      res = (ToolImplementation.execute arguments tool).1 ∧
      g' = { g with tools := g.tools.insert id (ToolImplementation.execute arguments tool).2 } ∧
      log = [.invoked tool arguments] := by
  rintro r hr
  cases hr
  exact ⟨rfl, rfl, rfl⟩

omit [ToolImplementation T] in
theorem charge_sat (g : Gate T) (definition : ToolDefinition) (usage : ResourceUsageV1) :
    (charge policy definition usage).Sat g fun res g' log => log = [] ∧ g'.tools = g.tools ∧
      g'.ledger.used.calls = g.ledger.used.calls ∧
      (res.isOk = true ↔ satAdd g.ledger.used.units usage.units ≤ policy.budget.maxUnits ∧
        satAdd g.ledger.used.durationMs usage.durationMs ≤ policy.budget.maxDurationMs) := by
  rintro r hr
  cases hr
  refine ⟨rfl, rfl, rfl, ?_⟩
  unfold BudgetLedger.charge
  dsimp only
  split
  · simp only [Except.isOk, Except.toBool, Bool.false_eq_true, false_iff]
    omega
  · simp only [Except.isOk, Except.toBool, true_iff]
    omega

theorem gate_passage (g : Gate T) : (gate policy call).Sat g (Passage policy call g) := by
  refine Method.Sat.ofExcept_bind (fun _ hv => ?_) fun err hv => ?_
  swap
  · refine .denied fun tool h => ?_
    rw [validateCall_eq_ok (u := ()) |>.mpr ⟨h.version, h.callId, h.object⟩] at hv
    cases hv
  obtain ⟨hversion, hid, hobject⟩ := validateCall_eq_ok.mp hv
  refine Method.sat_read_bind.mpr ?_
  cases ht : g.tools[call.toolId]? with
  | none => exact Method.sat_ofExcept.mpr (.denied fun tool h => by simp [h.registered] at ht)
  | some tool =>
    have hadmit : ∀ {tool'}, Admits policy call g.tools g.ledger tool' → tool' = tool := fun h =>
      Option.some.inj (h.registered.symm.trans ht)
    refine Method.Sat.ofExcept_bind (fun _ ha => ?_) fun err ha => ?_
    swap
    · refine .denied fun tool' h => ?_
      obtain rfl := hadmit h
      rw [authorize_eq_ok (u := ()) |>.mpr ⟨h.allowed, h.granted, h.bound, h.contract, h.constraint⟩] at ha
      cases ha
    obtain ⟨hallowed, hgranted, hbound, hcontract, hconstraint⟩ := authorize_eq_ok.mp ha
    refine (reserve_sat g _).bind (fun _ g₁ log h => ?_) fun err g₁ log h => ?_
    swap
    · obtain ⟨rfl, hle, rfl⟩ := h
      exact .denied fun tool' h => absurd h.affordable (by omega)
    obtain ⟨rfl, hlt, rfl⟩ := h
    have hA : Admits policy call g.tools g.ledger tool :=
      ⟨hversion, hid, hobject, ht, hallowed, hgranted, hbound, hcontract, hconstraint, hlt⟩
    refine Method.sat_bind.mpr ((run_sat _ _ _).mono fun res g₂ log h => ?_)
    obtain ⟨rfl, rfl, rfl⟩ := h
    cases hx : (ToolImplementation.execute call.arguments tool).1 with
    | error err =>
      exact .ran hA (iff_of_false (by simp [Except.isOk, Except.toBool]) fun ⟨_, _, h, _⟩ => by simp [hx] at h) rfl rfl
    | ok out =>
      obtain ⟨value, usage⟩ := out
      have hdone : Completes policy call.arguments g.ledger tool ↔
          (satAdd g.ledger.used.units usage.units ≤ policy.budget.maxUnits ∧
            satAdd g.ledger.used.durationMs usage.durationMs ≤ policy.budget.maxDurationMs) ∧
          validateSchema value (ToolImplementation.definition tool).resultContract = true := by
        constructor
        · rintro ⟨value', usage', hx', hu, hd, hs⟩
          cases hx.symm.trans hx'
          exact ⟨⟨hu, hd⟩, hs⟩
        · rintro ⟨⟨hu, hd⟩, hs⟩
          exact ⟨value, usage, hx, hu, hd, hs⟩
      refine Method.sat_bind.mpr ((charge_sat _ _ _).mono fun res g₃ log h => ?_)
      obtain ⟨rfl, htools, hcalls, hok⟩ := h
      cases res with
      | error err =>
        refine .ran hA (iff_of_false (by simp [Except.isOk, Except.toBool]) fun h => ?_) htools hcalls
        exact absurd (hok.mpr (hdone.mp h).1) (by simp [Except.isOk, Except.toBool])
      | ok _ =>
        have hb := hok.mp rfl
        show Method.Sat (if _ then _ else _) _ _
        by_cases hs : validateSchema value (ToolImplementation.definition tool).resultContract = true
        · simp only [hs, Bool.not_true, Bool.false_eq_true, if_false]
          exact Method.sat_pure.mpr (.ran hA (iff_of_true rfl (hdone.mpr ⟨hb, hs⟩)) htools hcalls)
        · simp only [hs, Bool.not_false, if_true]
          exact Method.sat_ofExcept.mpr (.ran hA
            (iff_of_false (by simp [Except.isOk, Except.toBool]) fun h => hs (hdone.mp h).2) htools hcalls)

/-- The gate does not abort. -/
theorem gate_returns (hp : policy.budget.maxCalls ≤ u64Max) (g : Gate T) : (gate policy call).Returns g := by
  refine Method.returns_ofExcept.bind (Method.sat_ofExcept.mpr fun _ _ => ?_)
  refine Method.Returns.bind ⟨_, rfl⟩ (Method.sat_read.mpr ?_)
  rintro _ ⟨⟩
  cases g.tools[call.toolId]? with
  | none => exact Method.returns_ofExcept
  | some tool =>
    refine Method.returns_ofExcept.bind (Method.sat_ofExcept.mpr fun _ _ => ?_)
    have hreserve : (reserve policy (ToolImplementation.definition tool)).Returns g := by
      have hr : ∀ d, g.ledger.reserveCall policy (ToolImplementation.definition tool) = .error d →
          ∃ err, d = .error err := fun d h => by
        unfold BudgetLedger.reserveCall at h
        split at h
        · cases h
          exact ⟨_, rfl⟩
        · rcases bind_eq_error.mp h with h | ⟨_, -, h⟩
          · unfold checkedAdd at h
            split at h
            · cases h
            · omega
          · cases h
      unfold Method.Returns reserve
      split
      · exact ⟨_, rfl⟩
      · exact ⟨_, rfl⟩
      · obtain ⟨err, rfl⟩ := hr _ ‹_›
        simp_all
    refine hreserve.bind ((reserve_sat g _).mono fun _ g₁ _ _ _ _ => ?_)
    refine Method.Returns.bind ⟨_, rfl⟩ ((run_sat g₁ _ _).mono fun _ g₂ _ _ out _ => ?_)
    refine Method.Returns.bind ⟨_, rfl⟩ ((charge_sat g₂ _ _).mono fun _ g₃ _ _ _ _ => ?_)
    show Method.Returns (if _ then _ else _) _
    split
    · exact Method.returns_ofExcept
    · exact Method.returns_pure

/-! ### Sequences of calls -/

/-- A call with the audit stream it is recorded in. -/
structure Request where
  call : ToolCallV1
  emit : ToolAuditEventV1 → Except CoreError Unit

/-- Execute a request; what it returns is dropped. -/
def Request.perform (policy : CompiledPolicyV1) (r : Request) : Method (Desk T) (GateEvent T) CoreError Abort Unit := do
  let _ ← execute policy r.call r.emit

/-- A session that starts at a desk. -/
def sessionAt (d : Desk T) : Session (Desk T) (GateEvent T) := { state := d, log := [] }

/-- The invocations of a log. -/
def invocations (log : List (GateEvent T)) : List (T × Json) :=
  log.filterMap fun
    | .invoked tool arguments => some (tool, arguments)
    | .audited _ => none

omit [ToolImplementation T] in
@[simp] theorem invocations_nil : invocations ([] : List (GateEvent T)) = [] := rfl

omit [ToolImplementation T] in
@[simp] theorem invocations_invoked (tool : T) (arguments : Json) :
    invocations [.invoked tool arguments] = [(tool, arguments)] := rfl

omit [ToolImplementation T] in
theorem invocations_append (log log' : List (GateEvent T)) :
    invocations (log ++ log') = invocations log ++ invocations log' := List.filterMap_append ..

/-- The audit records of a log. -/
def audits (log : List (GateEvent T)) : List ToolAuditEventV1 :=
  log.filterMap fun
    | .audited event => some event
    | .invoked .. => none

/-- The record of a call. -/
def auditEvent (sequence : ℕ) (call : ToolCallV1) (executed : Bool) : ToolAuditEventV1 :=
  { version := 1, sequence, callId := call.callId, toolId := call.toolId
    outcome := if executed then "executed" else "denied" }

/-- What a request does: it passes the gate and is recorded. -/
structure Recorded (policy : CompiledPolicyV1) (r : Request) (d d' : Desk T) (log : List (GateEvent T)) : Prop where
  passage : ∃ res g' glog, Passage policy r.call { tools := d.registry.tools, ledger := d.ledger } res g' glog ∧
    d'.registry.tools = g'.tools ∧ d'.ledger = g'.ledger ∧
    (r.emit (auditEvent (d.registry.auditSequence + 1) r.call res.isOk) = .ok () →
      log = glog ++ [.audited (auditEvent (d.registry.auditSequence + 1) r.call res.isOk)]) ∧
    invocations log = invocations glog
  sequence : d'.registry.auditSequence = d.registry.auditSequence + 1 ∧ d.registry.auditSequence + 1 ≤ u64Max

theorem execute_recorded (r : Request) (d : Desk T) :
    (execute policy r.call r.emit).Sat d fun _ d' log => Recorded policy r d d' log := by
  intro out hout
  obtain ⟨g, hg, h⟩ := bind_eq_ok.mp hout
  obtain ⟨sequence, hs, h⟩ := bind_eq_ok.mp h
  obtain ⟨rfl, hle⟩ := checkedAdd_eq_ok hs
  have hpass := gate_passage _ _ hg
  dsimp only at h
  split at h
  · cases h
    exact ⟨⟨_, _, _, hpass, rfl, rfl, fun _ => rfl, by simp [invocations]⟩, rfl, hle⟩
  · cases h
    rename_i herr
    exact ⟨⟨_, _, _, hpass, rfl, rfl, fun h => absurd (herr.symm.trans h) (by simp), rfl⟩, rfl, hle⟩

theorem perform_recorded (r : Request) (d : Desk T) :
    (r.perform policy).Sat d fun _ d' log => Recorded policy r d d' log := by
  refine Method.sat_bind.mpr ((execute_recorded r d).mono fun res d' log h => ?_)
  cases res with
  | ok _ => exact Method.sat_pure.mpr (by simpa using h)
  | error _ => exact h

/-- A request invokes the tool it is admitted to, or none. -/
theorem Recorded.admits {r : Request} {d d' : Desk T} {log : List (GateEvent T)} {x : T × Json}
    (h : Recorded policy r d d' log) (hx : x ∈ invocations log) :
    Admits policy r.call d.registry.tools d.ledger x.1 ∧ x.2 = r.call.arguments := by
  obtain ⟨res, g', glog, hpass, -, -, -, hlog⟩ := h.passage
  rw [hlog] at hx
  cases hpass with
  | denied _ => simp at hx
  | ran ha _ _ _ =>
    rw [invocations_invoked, List.mem_singleton] at hx
    subst hx
    exact ⟨ha, rfl⟩

/-- One more request in a session: it is recorded, or it aborted and left nothing. -/
theorem after_recorded (policy : CompiledPolicyV1) (s : Session (Desk T) (GateEvent T)) (r : Request) :
    Recorded policy r s.state (s.after (Request.perform policy) r).state
        (Session.logged (Request.perform policy) s.state r) ∨
      (s.after (Request.perform policy) r).state = s.state ∧
        Session.logged (Request.perform policy) s.state r = [] :=
  Session.after_of_sat (T := fun d' log => Recorded policy r s.state d' log ∨ d' = s.state ∧ log = [])
    ((perform_recorded r s.state).mono fun _ _ _ h => .inl h) (.inr ⟨rfl, rfl⟩)

/-- Tools keep what they say they are when they run. -/
def Steady (T : Type) [ToolImplementation T] : Prop :=
  ∀ (arguments : Json) (t : T),
    ToolImplementation.definition (ToolImplementation.execute arguments t).2 = ToolImplementation.definition t

/-- Every tool is registered under its own name. -/
def Keyed (r : ToolRegistry T) : Prop :=
  ∀ id t, r.tools[id]? = some t → (ToolImplementation.definition t).id = id

theorem Keyed.insert {r : ToolRegistry T} (hr : Keyed r) {t : T} {n : ℕ} {id : ToolId}
    (hid : (ToolImplementation.definition t).id = id) :
    Keyed { tools := r.tools.insert id t, auditSequence := n } := by
  intro id' t' h
  by_cases hne : id = id'
  · subst hne
    rw [Std.ExtTreeMap.getElem?_insert_self] at h
    cases h
    exact hid
  · exact hr id' t' (by simpa [Std.ExtTreeMap.getElem?_insert, hne] using h)

theorem Keyed.register {r : ToolRegistry T} (hr : Keyed r) (t : T) : Keyed (r.register t).1 := hr.insert rfl

/-- A request invokes one tool at most, which it is admitted to, and takes one call of the budget for it. -/
structure Mediated (policy : CompiledPolicyV1) (r : Request) (d d' : Desk T) (log : List (GateEvent T)) : Prop where
  once : (invocations log).length ≤ 1
  admitted : ∀ i ∈ invocations log, i.2 = r.call.arguments ∧
    Admits policy r.call d.registry.tools d.ledger i.1
  spent : d'.ledger.used.calls = d.ledger.used.calls + (invocations log).length

theorem after_mediated (policy : CompiledPolicyV1) (s : Session (Desk T) (GateEvent T)) (r : Request) :
    Mediated policy r s.state (s.after (Request.perform policy) r).state
      (Session.logged (Request.perform policy) s.state r) := by
  rcases after_recorded policy s r with h | ⟨hs, hl⟩
  · obtain ⟨res, g', glog, hpass, htools, hledger, -, hinv⟩ := h.passage
    cases hpass with
    | denied _ => exact ⟨by simp [hinv], by simp [hinv], by simp [hinv, hledger]⟩
    | ran hA _ _ hcalls =>
      refine ⟨by simp [hinv], fun i hi => ?_, by simp [hinv, hledger, hcalls]⟩
      rw [hinv, invocations_invoked, List.mem_singleton] at hi
      subst hi
      exact ⟨rfl, hA⟩
  · exact ⟨by simp [hl], by simp [hl], by simp [hs, hl]⟩

/-- A request keeps the tools under their own names. -/
theorem after_keyed (policy : CompiledPolicyV1) (hT : Steady T) (s : Session (Desk T) (GateEvent T)) (r : Request) (hk : Keyed s.state.registry) :
    Keyed (s.after (Request.perform policy) r).state.registry := by
  rcases after_recorded policy s r with h | ⟨hs, -⟩
  · obtain ⟨res, g', glog, hpass, htools, -⟩ := h.passage
    cases hpass with
    | denied _ => exact fun id t ht => hk id t (by rwa [htools] at ht)
    | @ran tool _ _ hA _ hg _ =>
      have hid := hk r.call.toolId tool hA.registered
      intro id t ht
      rw [htools, hg] at ht
      exact hk.insert (n := 0) (by rw [hT, hid]) id t ht
  · rwa [hs]

/-- **The gate mediates every call**, over any sequence of requests: a request invokes one tool at
most, with its own arguments, and only if it passes every check of the policy; the tool is the
one the request names, when tools are registered under their names and keep them. In all, no more tools
are invoked than the call budget allows. -/
theorem gate_safe (policy : CompiledPolicyV1) (d : Desk T) (rs : List Request) :
    (∀ pre r post, rs = pre ++ r :: post →
      (invocations (Session.logged (Request.perform policy) ((sessionAt d).run (Request.perform policy) pre).state r)).length ≤ 1 ∧
      ∀ i ∈ invocations (Session.logged (Request.perform policy) ((sessionAt d).run (Request.perform policy) pre).state r),
        i.2 = r.call.arguments ∧
        Admits policy r.call ((sessionAt d).run (Request.perform policy) pre).state.registry.tools
          ((sessionAt d).run (Request.perform policy) pre).state.ledger i.1 ∧
        (Steady T → Keyed d.registry → (ToolImplementation.definition i.1).id = r.call.toolId)) ∧
    (invocations ((sessionAt d).run (Request.perform policy) rs).log).length ≤
      policy.budget.maxCalls - d.ledger.used.calls := by
  constructor
  · intro pre r post _
    have hm := after_mediated policy ((sessionAt d).run (Request.perform policy) pre) r
    refine ⟨hm.once, fun i hi => ?_⟩
    obtain ⟨hargs, hA⟩ := hm.admitted i hi
    refine ⟨hargs, hA, fun hT hk => ?_⟩
    have hk' := Session.run_induct (m := Request.perform policy) (s := sessionAt d)
      (I := fun _ s => Keyed s.state.registry) hk pre fun pre' r' _ _ ih => after_keyed policy hT _ r' ih
    exact hk' _ _ hA.registered
  · have key := Session.run_induct (m := Request.perform policy) (s := sessionAt d)
      (I := fun _ s => s.state.ledger.used.calls = d.ledger.used.calls + (invocations s.log).length ∧
        ((invocations s.log).length = 0 ∨ s.state.ledger.used.calls ≤ policy.budget.maxCalls))
      ⟨rfl, .inl rfl⟩ rs fun pre r post _ ih => by
        obtain ⟨hcalls, hle⟩ := ih
        have hm := after_mediated policy ((sessionAt d).run (Request.perform policy) pre) r
        rw [Session.after_log, invocations_append, List.length_append]
        have hspent := hm.spent
        refine ⟨by omega, ?_⟩
        cases hi : invocations (Session.logged (Request.perform policy)
            ((sessionAt d).run (Request.perform policy) pre).state r) with
        | nil =>
          rw [hi] at hspent
          simp only [List.length_nil, Nat.add_zero] at hspent ⊢
          rwa [hspent]
        | cons i is =>
          have hlt := (hm.admitted i (by simp [hi])).2.affordable
          have honce := hm.once
          omega
    omega

/-! ### The audit stream -/

/-- A call recorded in a stream that takes every record. -/
def accepted (call : ToolCallV1) : Request := { call, emit := fun _ => .ok () }

/-- The log of a call has one record of it, number `n`, which says `denied` if and only if nothing was invoked. -/
def Truthful (call : ToolCallV1) (n : ℕ) (log : List (GateEvent T)) : Prop :=
  ∃ event, audits log = [event] ∧ event.sequence = n ∧ event.callId = call.callId ∧ event.toolId = call.toolId ∧
    (event.outcome = "denied" ↔ invocations log = [])

theorem outcome_denied {n : ℕ} {executed : Bool} : (auditEvent n call executed).outcome = "denied" ↔ executed = false := by
  cases executed
  · exact iff_of_true rfl rfl
  · refine iff_of_false (fun h => ?_) (by decide)
    exact absurd (show "executed" = "denied" from h) (by decide)

/-- The record of a call that was recorded is truthful if and only if the tool it is admitted to
completes. -/
theorem Recorded.truthful {d d' : Desk T} {log : List (GateEvent T)} {n : ℕ}
    (h : Recorded policy (accepted call) d d' log) :
    Truthful call n log ↔ n = d.registry.auditSequence + 1 ∧
      ∀ tool, Admits policy call d.registry.tools d.ledger tool → Completes policy call.arguments d.ledger tool := by
  obtain ⟨res, g', glog, hpass, -, -, hlog, hinv⟩ := h.passage
  have hlog := hlog rfl
  have haudits : audits log = [auditEvent (d.registry.auditSequence + 1) call res.isOk] := by
    rw [hlog]
    cases hpass <;> rfl
  have hiff : Truthful call n log ↔ n = d.registry.auditSequence + 1 ∧ (res.isOk = false ↔ invocations log = []) := by
    constructor
    · rintro ⟨event, he, hn, -, -, hout⟩
      obtain rfl := List.singleton_inj.mp (haudits.symm.trans he)
      rw [outcome_denied] at hout
      exact ⟨hn.symm, hout⟩
    · rintro ⟨hn, hout⟩
      exact ⟨_, haudits, hn.symm, rfl, rfl, by rwa [outcome_denied]⟩
  rw [hiff, hinv]
  refine and_congr_right fun _ => ?_
  cases hpass with
  | denied hno => exact iff_of_true (iff_of_true rfl rfl) fun tool hA => absurd hA (hno tool)
  | @ran tool _ _ hA hok _ _ =>
    rw [invocations_invoked]
    constructor
    · intro hfalse tool' hA'
      obtain rfl := Option.some.inj (hA.registered.symm.trans hA'.registered)
      cases hres : res.isOk with
      | true => exact hok.mp hres
      | false => exact absurd (hfalse.mp hres) (by simp)
    · intro hall
      refine iff_of_false ?_ (by simp)
      rw [hok.mpr (hall tool hA)]
      decide

omit [ToolImplementation T] in
/-- A request that aborts is not recorded. -/
theorem not_truthful_nil {n : ℕ} : ¬Truthful call n ([] : List (GateEvent T)) := by
  rintro ⟨event, h, -⟩
  cases h

/-- A request does not abort while its record has a number. -/
theorem after_recorded_of_le (hp : policy.budget.maxCalls ≤ u64Max) (s : Session (Desk T) (GateEvent T)) (r : Request)
    (hle : s.state.registry.auditSequence + 1 ≤ u64Max) :
    Recorded policy r s.state (s.after (Request.perform policy) r).state
      (Session.logged (Request.perform policy) s.state r) := by
  have hgate : (gate policy r.call).Returns { tools := s.state.registry.tools, ledger := s.state.ledger : Gate T } :=
    gate_returns hp _
  obtain ⟨g, hg⟩ := hgate
  have hexec : (execute policy r.call r.emit).Returns s.state := by
    unfold Method.Returns execute
    rw [hg]
    simp only [ok_bind, checkedAdd, hle, if_true]
    split <;> exact ⟨_, rfl⟩
  have hrun : (r.perform policy).Returns s.state :=
    hexec.bind fun _ _ _ _ => Method.returns_pure
  obtain ⟨out, hout⟩ := hrun
  have h := perform_recorded r s.state out hout
  unfold Session.after Session.logged
  rw [hout]
  exact h

/-- **The audit stream tells the truth** over a sequence of calls — one record each, numbered
without gaps, that says `denied` if and only if no tool was invoked — if and only if the numbers last and every
tool that a call is admitted to completes. -/
theorem audit_truthful (policy : CompiledPolicyV1) (hp : policy.budget.maxCalls ≤ u64Max) (d : Desk T)
    (cs : List ToolCallV1) :
    (∀ pre c post, cs = pre ++ c :: post →
      Truthful c (d.registry.auditSequence + pre.length + 1)
        (Session.logged (Request.perform policy)
          ((sessionAt d).run (Request.perform policy) (pre.map accepted)).state (accepted c))) ↔
    ∀ pre c post, cs = pre ++ c :: post → d.registry.auditSequence + pre.length < u64Max ∧
      ∀ tool, Admits policy c ((sessionAt d).run (Request.perform policy) (pre.map accepted)).state.registry.tools
          ((sessionAt d).run (Request.perform policy) (pre.map accepted)).state.ledger tool →
        Completes policy c.arguments
          ((sessionAt d).run (Request.perform policy) (pre.map accepted)).state.ledger tool := by
  constructor
  · intro h pre c post hsplit
    have ht := h pre c post hsplit
    rcases after_recorded policy ((sessionAt d).run (Request.perform policy) (pre.map accepted)) (accepted c) with hr | ⟨-, hl⟩
    · obtain ⟨hn, hall⟩ := hr.truthful.mp ht
      have hle := hr.sequence.2
      exact ⟨by omega, hall⟩
    · rw [hl] at ht
      exact absurd ht not_truthful_nil
  · intro h pre c post hsplit
    obtain ⟨hlt, hall⟩ := h pre c post hsplit
    have hseq := Session.run_induct (m := Request.perform policy) (s := sessionAt d)
      (I := fun done s => s.state.registry.auditSequence = d.registry.auditSequence + done.length)
      rfl (pre.map accepted) fun done r rest hdone ih => by
        have hlen : done.length + (rest.length + 1) = pre.length := by
          have := congrArg List.length hdone
          simpa using this.symm
        have hr := after_recorded_of_le hp ((sessionAt d).run (Request.perform policy) done) r (by omega)
        rw [hr.sequence.1, ih, List.length_append, List.length_singleton, Nat.add_assoc]
    rw [List.length_map] at hseq
    have hr := after_recorded_of_le hp ((sessionAt d).run (Request.perform policy) (pre.map accepted)) (accepted c) (by omega)
    exact hr.truthful.mpr ⟨by omega, hall⟩

/-! ### A search tool -/

/-- The search tool of `tests/tools_policy.rs`, which reports a usage of `units`. -/
structure Search where
  units : ℕ

/-- An identifier of a sample. -/
abbrev sampleId (text : String) (h : validIdentifier text = true := by exact Eq.refl true) : Identifier := ⟨text, h⟩

instance : ToolImplementation Search where
  definition _ :=
    { version := 1, id := sampleId "search", ns := sampleId "knowledge/private", capability := sampleId "cortex"
      argumentContract := .object
        [("properties", .object [("q", .object [("type", .string "string")])]),
          ("required", .array [.string "q"]), ("type", .string "object")]
      resultContract := .object [("required", .array [.string "answer"]), ("type", .string "object")] }
  execute _ t := (.ok (.object [("answer", .string "ok")], { calls := 1, units := t.units, durationMs := 1 }), t)

/-- A policy that grants two searches and ten units. -/
def searchPolicy : CompiledPolicyV1 where
  allowedTools := .ofList [sampleId "search"]
  namespaces := .ofList [sampleId "knowledge/private"]
  constraints := .ofList
    [(sampleId "search", Json.object
      [("properties", .object [("q", .object [("const", .string "allowed")])]), ("type", .string "object")])]
  budget := { maxCalls := 2, maxUnits := 10, maxDurationMs := 10 }
  bindings := .ofList [(sampleId "cortex", "host:cortex")]

/-- A search. -/
def searchCall : ToolCallV1 :=
  { version := 1, callId := "1", toolId := sampleId "search", arguments := .object [("q", .string "allowed")] }

/-- A desk with a search tool. -/
def searchDesk (units : ℕ) : Desk Search :=
  { registry := (empty.register { units }).1, ledger := .empty }

/-- **A search over the budget is logged as denied**, and it has run. -/
theorem failed_call_denied :
    (invocations (Session.logged (Request.perform searchPolicy) (searchDesk 11) (accepted searchCall))).length = 1 ∧
    (audits (Session.logged (Request.perform searchPolicy) (searchDesk 11) (accepted searchCall))).map (·.outcome) =
      ["denied"] ∧
    ¬Truthful searchCall 1 (Session.logged (Request.perform searchPolicy) (searchDesk 11) (accepted searchCall)) := by
  have hinv : (invocations (Session.logged (Request.perform searchPolicy) (searchDesk 11)
      (accepted searchCall))).length = 1 := by decide +kernel
  have hout : (audits (Session.logged (Request.perform searchPolicy) (searchDesk 11)
      (accepted searchCall))).map (·.outcome) = ["denied"] := by decide +kernel
  refine ⟨hinv, hout, ?_⟩
  rintro ⟨event, he, -, -, -, hiff⟩
  rw [he, List.map_singleton, List.singleton_inj] at hout
  rw [hiff.mp hout] at hinv
  cases hinv

/-- A search within the budget is logged as executed. -/
theorem search_truthful :
    Truthful searchCall 1 (Session.logged (Request.perform searchPolicy) (searchDesk 1) (accepted searchCall)) := by
  refine (audit_truthful searchPolicy (by decide) (searchDesk 1) [searchCall]).mpr (fun pre c post hsplit => ?_)
    [] searchCall [] rfl
  cases pre with
  | cons _ _ => simp at hsplit
  | nil =>
    obtain ⟨rfl, -⟩ := List.cons.inj hsplit
    have htool : ((searchDesk 1).registry.tools[searchCall.toolId]?).map Search.units = some 1 := by decide +kernel
    refine ⟨by decide, fun tool hA => ?_⟩
    obtain rfl : tool = { units := 1 } := by
      rw [show (searchDesk 1).registry.tools[searchCall.toolId]? = some tool from hA.registered] at htool
      exact congrArg Search.mk (Option.some.inj htool)
    exact ⟨.object [("answer", .string "ok")], _, rfl, by decide, by decide, by decide⟩

end ToolRegistry

end Knolo.Host
