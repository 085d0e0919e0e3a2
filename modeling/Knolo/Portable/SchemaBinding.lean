import Knolo.Portable.Drive
import Knolo.Runtime.Surroundings

/-!
# The schema of a portable session

A session travels through the host between two messages, and comes back as the host likes. A message
is bound when every state it shows, of a dispatch or a report, satisfies the schema that came with the
message, and this is the schema that the graph and the state name.

`run` checks all of it, `resume` all but that the schema is the graph's. `continue` checks nothing of
the state that the session carries: what a patch makes of it satisfies the schema, a state that no
patch replaces is shown as it came.

* `bound_iff` — in any sequence of messages, which ones are bound.
* `untampered_bound` — with a host that hands the session back as it got it, all of them are.
-/

namespace Knolo.Portable

open Core Library.Fallible

/-! ### Small steps -/

theorem require_eq_ok {α : Type} {text : String} {o : Option α} {a : α} :
    require text o = .ok a ↔ o = some a := by
  cases o <;> simp [require, fail]

theorem check_eq_ok {c : Prop} [Decidable c] {text : String} {u : Unit} : check c text = .ok u ↔ c := by
  by_cases h : c <;> simp [check, fail, h]

theorem definition_eq_ok {α : Type} {x : Except CoreError α} {a : α} :
    definition x = .ok a ↔ x = .ok a := by
  cases x <;> simp [definition]

theorem fromCore_eq_ok {α : Type} {x : Except Abort α} {a : α} : fromCore x = .ok a ↔ x = .ok a := by
  cases x with
  | ok b => simp [fromCore]
  | error e => cases e <;> simp [fromCore, definition]

/-! ### What a message shows -/

/-- Is a state shown? -/
def ProtocolResponse.showsState : ProtocolResponse → Bool
  | .dispatch .. | .report _ => true
  | _ => false

/-- A response that shows this state. -/
def ProtocolResponse.Shows (st : StateSnapshot) : ProtocolResponse → Prop
  | .dispatch request session => request.state = st.value ∧ session.state = st
  | .report q => q.state = st
  | _ => False

/-- Events, and at last a response that shows the state. -/
def Answers (st : StateSnapshot) (responses : List ProtocolResponse) : Prop :=
  ∃ (es : List ProtocolEvent) (last : ProtocolResponse), responses = es.map .event ++ [last] ∧ last.Shows st

/-- The state satisfies the schema, which is the one that the graph and the state name. -/
structure Binds (g : GraphDefinitionV1) (schema : StateSchemaV1) (st : StateSnapshot) : Prop where
  valid : schema.validate st.value = .ok ()
  graph : schema.id = g.stateSchema
  state : st.schemaId = schema.id

/-- What the claim asks of one response to a message. -/
def ProtocolResponse.Bound (r : ProtocolRequest) : ProtocolResponse → Prop
  | .dispatch request session =>
    ∃ schema, r.schema = some schema ∧ request.state = session.state.value ∧ Binds r.graph schema session.state
  | .report q => ∃ schema, r.schema = some schema ∧ Binds r.graph schema q.state
  | _ => True

/-! ### The state of a session -/

section Sessions

variable {g : CompiledGraphV1} {schema : StateSchemaV1} {nodeId : NodeId} {now : ℕ} {p p' : Progress}
  {responses : List ProtocolResponse}

theorem state_of_emit {node : Option String} {kind : ProtocolEventKind} (h : emit node kind now p = .ok p') :
    p'.session.state = p.session.state := by
  obtain ⟨sequence, -, h⟩ := bind_eq_ok.mp h
  cases h
  rfl

theorem answers_of_failReport {message : String} (h : failReport nodeId now message p = .ok responses) :
    Answers p.session.state responses := by
  obtain ⟨p', hemit, h⟩ := bind_eq_ok.mp h
  cases h
  exact ⟨p'.fresh, _, rfl, state_of_emit hemit⟩

theorem state_of_countVisit {s s' : PortableSession} (h : countVisit s = .ok s') : s'.state = s.state := by
  obtain ⟨count, -, h⟩ := bind_eq_ok.mp h
  cases h
  rfl

/-- A dispatch, and the reports that stand for it, show the state of the session. -/
theorem answers_of_dispatchNode (h : dispatchNode g now p = .ok responses) : Answers p.session.state responses := by
  obtain ⟨nodeId, -, h⟩ := bind_eq_ok.mp h
  split_ifs at h with hsteps htimeout
  · exact answers_of_failReport h
  · exact answers_of_failReport h
  · obtain ⟨session, hvisit, h⟩ := bind_eq_ok.mp h
    rw [← state_of_countVisit hvisit]
    split_ifs at h with hcycle
    · exact answers_of_failReport h
    · obtain ⟨d, -, h⟩ := bind_eq_ok.mp h
      obtain ⟨p', hemit, h⟩ := bind_eq_ok.mp h
      cases h
      exact ⟨p'.fresh, _, rfl, congrArg StateSnapshot.value (state_of_emit hemit), state_of_emit hemit⟩

/-! ### Patches -/

/-- Operations are there where there are members. -/
theorem isEmpty_of_fold {members : Members} {acc operations : Std.ExtTreeMap String PatchOperation}
    (h : members.foldlM patchMember acc = .ok operations) :
    operations.isEmpty = (acc.isEmpty && members.isEmpty) := by
  induction members generalizing acc with
  | nil =>
    cases h
    simp
  | cons m ms ih =>
    rw [List.foldlM_cons] at h
    obtain ⟨acc', hm, h⟩ := bind_eq_ok.mp h
    rw [ih h]
    unfold patchMember at hm
    split_ifs at hm with hkey
    · cases hm
    · cases hm
      simp

/-- A patch without members leaves the state; any other makes a state that satisfies the schema. -/
theorem state_of_applyPatch {writes : Std.ExtTreeSet String} {patch : Json} {s s' : PortableSession}
    (h : applyPatch nodeId writes schema patch s = .ok s') : ∃ members, patch = .object members ∧
      if members = [] then s' = s
      else s'.state.schemaId = s.state.schemaId ∧ schema.validate s'.state.value = .ok () := by
  obtain ⟨members, hobject, h₁⟩ := bind_eq_ok.mp h
  obtain ⟨operations, hoperations, h₂⟩ := bind_eq_ok.mp h₁
  have hempty := isEmpty_of_fold hoperations
  have hpatch : patch = .object members := by
    have hms := require_eq_ok.mp hobject
    cases patch with
    | object ms =>
      cases hms
      rfl
    | _ => cases hms
  refine ⟨members, hpatch, ?_⟩
  by_cases hnil : members = []
  · rw [if_pos (by simp [hempty, hnil])] at h₂
    cases h₂
    rw [if_pos hnil]
  · rw [if_neg (by simp [hempty, hnil])] at h₂
    obtain ⟨executionId, -, h₃⟩ := bind_eq_ok.mp h₂
    obtain ⟨sequence, -, h₄⟩ := bind_eq_ok.mp h₃
    obtain ⟨next, happly, h₅⟩ := bind_eq_ok.mp h₄
    cases h₅
    obtain ⟨-, -, hvalid, hschema, -⟩ := StateSnapshot.apply_eq_ok (fromCore_eq_ok.mp happly)
    rw [if_neg hnil]
    exact ⟨hschema, hvalid⟩

/-! ### The result of a node -/

/-- A patch that has members. -/
def hasMembers : Option Json → Bool
  | some (.object (_ :: _)) => true
  | _ => false

/-- The result of a node replaces the state: the budgets bear it, and it has a patch with members. -/
def replaces (limits : ExecutionLimitsV1) (session : PortableSession) (x : ProtocolNodeExecution) : Bool :=
  (session.charge x).tokens ≤ limits.maxTokens && (session.charge x).costMicros ≤ limits.maxCostMicros &&
    hasMembers x.outcome.patch

/-- What becomes of a state: it satisfies the schema where it is replaced, and is as it was otherwise. -/
def Settled (schema : StateSchemaV1) (replaced : Bool) (st st' : StateSnapshot) : Prop :=
  if replaced = true then st'.schemaId = st.schemaId ∧ schema.validate st'.value = .ok () else st' = st

theorem settled_of_commit {d : NodeDefinitionV1} {patch : Option Json}
    (h : commit d nodeId schema now patch p = .ok p') :
    Settled schema (hasMembers patch) p.session.state p'.session.state := by
  cases patch with
  | none =>
    cases h
    rfl
  | some patch =>
    obtain ⟨session, happly, hemit⟩ := bind_eq_ok.mp h
    rw [state_of_emit hemit]
    obtain ⟨members, rfl, hstate⟩ := state_of_applyPatch happly
    cases members with
    | nil =>
      rw [if_pos rfl] at hstate
      show session.state = p.session.state
      rw [hstate]
    | cons m ms =>
      rw [if_neg (List.cons_ne_nil _ _)] at hstate
      exact hstate

theorem state_of_record {kind : Option ProtocolEventKind} (h : record nodeId now kind p = .ok p') :
    p'.session.state = p.session.state := by
  cases kind with
  | none =>
    cases h
    rfl
  | some kind => exact state_of_emit h

theorem patch_of_decision {outcome : ProtocolOutcome} {dec : PortableDecision}
    (h : decision g nodeId outcome = .ok dec) : dec.patch = outcome.patch := by
  cases outcome with
  | «continue» patch =>
    obtain ⟨next, -, h⟩ := bind_eq_ok.mp h
    cases h
    rfl
  | route route patch =>
    obtain ⟨next, -, h⟩ := bind_eq_ok.mp h
    cases h
    rfl
  | suspend reason patch =>
    cases h
    rfl
  | terminate result patch =>
    cases h
    rfl
  | fail error retryable =>
    cases h
    rfl

/-- What is shown, or worked on further, is the settled state. -/
def Settles (schema : StateSchemaV1) (replaced : Bool) (st : StateSnapshot) :
    Progress ⊕ List ProtocolResponse → Prop
  | .inl p => Settled schema replaced st p.session.state
  | .inr responses => ∃ st', Settled schema replaced st st' ∧ Answers st' responses

theorem settles_of_conclude {d : NodeDefinitionV1} {dec : PortableDecision} {res : Progress ⊕ List ProtocolResponse}
    (h : conclude d nodeId schema now dec p = .ok res) :
    Settles schema (hasMembers dec.patch) p.session.state res := by
  obtain ⟨p₁, hcommit, h₁⟩ := bind_eq_ok.mp h
  obtain ⟨p₂, hrecord, h₂⟩ := bind_eq_ok.mp h₁
  have hsettled := settled_of_commit hcommit
  rw [← state_of_record hrecord] at hsettled
  cases hstatus : dec.status with
  | some status =>
    simp only [hstatus] at h₂
    cases h₂
    exact ⟨_, hsettled, p₂.fresh, _, rfl, rfl⟩
  | none =>
    simp only [hstatus] at h₂
    obtain ⟨pending, -, h₃⟩ := bind_eq_ok.mp h₂
    obtain ⟨p₃, hemit, h₄⟩ := bind_eq_ok.mp h₃
    cases h₄
    rw [← state_of_emit hemit] at hsettled
    exact hsettled

/-- Nothing is replaced where a budget is exceeded. -/
theorem settled_refl {st : StateSnapshot} {replaced : Bool} (h : replaced = false) :
    Settled schema replaced st st := by
  rw [Settled, if_neg (by simp [h])]

theorem settles_of_completeNode {session : PortableSession} {x : ProtocolNodeExecution}
    {res : Progress ⊕ List ProtocolResponse} (h : completeNode g schema session x now = .ok res) :
    Settles schema (replaces g.limits session x) session.state res := by
  obtain ⟨-, h₁⟩ := check_bind_eq_ok.mp h
  split_ifs at h₁ with hawait
  · cases h₁
  obtain ⟨nodeId, -, h₂⟩ := bind_eq_ok.mp h₁
  obtain ⟨d, -, h₃⟩ := bind_eq_ok.mp h₂
  have hreport {message : String} {res : Progress ⊕ List ProtocolResponse}
      (hkept : replaces g.limits session x = false)
      (h : Sum.inr <$> failReport nodeId now message { session := session.charge x, fresh := [] } = .ok res) :
      Settles schema (replaces g.limits session x) session.state res := by
    cases hfail : failReport nodeId now message { session := session.charge x, fresh := [] } with
    | error e =>
      rw [hfail] at h
      cases h
    | ok responses =>
      rw [hfail] at h
      cases h
      exact ⟨_, settled_refl hkept, answers_of_failReport hfail⟩
  by_cases htokens : g.limits.maxTokens < (session.charge x).tokens
  · rw [if_pos htokens] at h₃
    exact hreport (by simp [replaces, htokens]) h₃
  rw [if_neg htokens] at h₃
  by_cases hcost : g.limits.maxCostMicros < (session.charge x).costMicros
  · rw [if_pos hcost] at h₃
    exact hreport (by simp [replaces, hcost]) h₃
  · rw [if_neg hcost] at h₃
    obtain ⟨dec, hdec, hconclude⟩ := bind_eq_ok.mp h₃
    have hreplaces : replaces g.limits session x = hasMembers dec.patch := by
      simp only [replaces, patch_of_decision hdec, not_lt] at htokens hcost ⊢
      simp [htokens, hcost]
    rw [hreplaces]
    exact settles_of_conclude hconclude

theorem answers_of_continueRun {schema? : Option StateSchemaV1} {session : PortableSession}
    {x : ProtocolNodeExecution} (h : continueRun g schema? session x now = .ok responses) :
    ∃ schema st, schema? = some schema ∧ Settled schema (replaces g.limits session x) session.state st ∧
      Answers st responses := by
  obtain ⟨schema, hschema, h₁⟩ := bind_eq_ok.mp h
  obtain ⟨res, hcomplete, h₂⟩ := bind_eq_ok.mp h₁
  have hsettles := settles_of_completeNode hcomplete
  refine ⟨schema, ?_⟩
  cases res with
  | inr responses' =>
    cases h₂
    obtain ⟨st, hsettled, hanswers⟩ := hsettles
    exact ⟨st, require_eq_ok.mp hschema, hsettled, hanswers⟩
  | inl p => exact ⟨_, require_eq_ok.mp hschema, hsettles, answers_of_dispatchNode h₂⟩

end Sessions

/-! ### Messages -/

section Messages

variable {digest : GraphDefinitionV1 → String} {r : ProtocolRequest} {answer : List ProtocolResponse}

/-- The state that a message comes to. -/
inductive StateOf (r : ProtocolRequest) (schema : StateSchemaV1) (st : StateSnapshot) : Prop
  | run {executionId : String} {value : Json} (hcommand : r.command = .run executionId value)
      (hbinds : Binds r.graph schema st)
  | resume {cp : CheckpointV1} {input : Json} (hcommand : r.command = .resume cp input)
      (hvalid : schema.validate st.value = .ok ()) (hstate : st.schemaId = schema.id)
  | continue {session : PortableSession} {x : ProtocolNodeExecution} (hcommand : r.command = .continue session x)
      (hsettled : Settled schema (replaces r.graph.limits session x) session.state st)

theorem definition_of_compile {d : GraphDefinitionV1} {g : CompiledGraphV1} (h : d.compile digest = .ok g) :
    g.definition = d := by
  unfold GraphDefinitionV1.compile at h
  split at h
  · cases h
  · cases h
    rfl

/-- What an answered message shows: no state, or the one that it comes to. -/
theorem answers_of_handle (h : handle digest r = .ok answer) :
    (∀ response ∈ answer, response.showsState = false) ∨
      ∃ schema st, r.schema = some schema ∧ StateOf r schema st ∧ Answers st answer := by
  unfold handle errorResponse at h
  split at h
  · cases h
    exact .inl (by simp [ProtocolResponse.showsState])
  split_ifs at h with hversion
  · cases h
  obtain ⟨g, hcompile, h₁⟩ := bind_eq_ok.mp h
  have hg : g.definition = r.graph := definition_of_compile (definition_eq_ok.mp hcompile)
  cases hcommand : r.command with
  | inspect =>
    simp only [hcommand] at h₁
    cases h₁
    exact .inl (by simp [ProtocolResponse.showsState])
  | replay =>
    simp only [hcommand] at h₁
    cases h₁
  | run executionId value =>
    simp only [hcommand] at h₁
    obtain ⟨schema, hschema, h₂⟩ := bind_eq_ok.mp h₁
    obtain ⟨hvalid, h₃⟩ := check_bind_eq_ok.mp h₂
    obtain ⟨hid, h₄⟩ := check_bind_eq_ok.mp h₃
    obtain ⟨p, hemit, h₅⟩ := bind_eq_ok.mp h₄
    refine .inr ⟨schema, _, require_eq_ok.mp hschema, .run hcommand ?_, answers_of_dispatchNode h₅⟩
    rw [state_of_emit hemit]
    exact ⟨definition_eq_ok.mp hvalid, hg ▸ check_eq_ok.mp hid, rfl⟩
  | resume cp input =>
    simp only [hcommand] at h₁
    obtain ⟨schema, hschema, h₂⟩ := bind_eq_ok.mp h₁
    obtain ⟨-, h₃⟩ := check_bind_eq_ok.mp h₂
    obtain ⟨hvalid, h₄⟩ := check_bind_eq_ok.mp h₃
    obtain ⟨hid, h₅⟩ := check_bind_eq_ok.mp h₄
    obtain ⟨-, h₆⟩ := check_bind_eq_ok.mp h₅
    exact .inr ⟨schema, _, require_eq_ok.mp hschema,
      .resume hcommand (definition_eq_ok.mp hvalid) (check_eq_ok.mp hid), answers_of_dispatchNode h₆⟩
  | «continue» session x =>
    simp only [hcommand] at h₁
    obtain ⟨schema, st, hschema, hsettled, hanswers⟩ := answers_of_continueRun h₁
    exact .inr ⟨schema, st, hschema, .continue hcommand (hg ▸ hsettled), hanswers⟩

/-- What shows one state is bound where this state is. -/
theorem bound_of_answers {schema : StateSchemaV1} {st : StateSnapshot} (hschema : r.schema = some schema)
    (h : Answers st answer) : (∀ response ∈ answer, response.Bound r) ↔ Binds r.graph schema st := by
  obtain ⟨es, last, rfl, hlast⟩ := h
  have hevents : ∀ response ∈ es.map ProtocolResponse.event, response.Bound r := by
    intro response hr
    obtain ⟨e, -, rfl⟩ := List.mem_map.mp hr
    trivial
  have hbound : last.Bound r ↔ Binds r.graph schema st := by
    cases last with
    | dispatch request session =>
      obtain ⟨hvalue, rfl⟩ := hlast
      simp [ProtocolResponse.Bound, hschema, hvalue]
    | report q =>
      cases hlast
      simp [ProtocolResponse.Bound, hschema]
    | inspection i => exact hlast.elim
    | event e => exact hlast.elim
    | error f => exact hlast.elim
  rw [List.forall_mem_append]
  exact ⟨fun h => hbound.mp (h.2 last (List.mem_singleton_self _)),
    fun h => ⟨hevents, fun response hr => List.mem_singleton.mp hr ▸ hbound.mpr h⟩⟩

/-- A message shows a state. -/
def ProtocolRequest.Shown (digest : GraphDefinitionV1 → String) (r : ProtocolRequest) : Prop :=
  ∃ answer, handle digest r = .ok answer ∧ ∃ response ∈ answer, response.showsState = true

/-- What the engine leaves to the host: that the schema is the graph's, and of a session that comes back, that
its state is one of this schema, unless the result at hand replaces it. -/
def ProtocolRequest.Trusted (r : ProtocolRequest) : Prop :=
  ∀ schema, r.schema = some schema →
    match r.command with
    | .resume .. => schema.id = r.graph.stateSchema
    | .continue session x => schema.id = r.graph.stateSchema ∧ session.state.schemaId = schema.id ∧
        (replaces r.graph.limits session x = true ∨ schema.validate session.state.value = .ok ())
    | _ => True

/-- The state that a message comes to is bound where the message is to be trusted. -/
theorem StateOf.binds_iff {schema : StateSchemaV1} {st : StateSnapshot} (hschema : r.schema = some schema)
    (h : StateOf r schema st) : Binds r.graph schema st ↔ r.Trusted := by
  simp only [ProtocolRequest.Trusted, hschema, Option.some.injEq, forall_eq']
  cases h with
  | run hcommand hbinds => simpa only [hcommand, iff_true] using hbinds
  | resume hcommand hvalid hstate =>
    simp only [hcommand]
    exact ⟨fun h => h.graph, fun h => ⟨hvalid, h, hstate⟩⟩
  | @«continue» session x hcommand hsettled =>
    simp only [hcommand]
    by_cases hreplaced : replaces r.graph.limits session x = true
    · rw [Settled, if_pos hreplaced] at hsettled
      obtain ⟨hid, hvalid⟩ := hsettled
      exact ⟨fun h => ⟨h.graph, hid ▸ h.state, .inl hreplaced⟩, fun h => ⟨hvalid, h.1, hid.trans h.2.1⟩⟩
    · rw [Settled, if_neg hreplaced] at hsettled
      subst hsettled
      exact ⟨fun h => ⟨h.graph, h.state, .inr h.valid⟩,
        fun h => ⟨h.2.2.resolve_left hreplaced, h.1, h.2.1⟩⟩

theorem bound_iff_trusted (h : handle digest r = .ok answer)
    (hshown : ∃ response ∈ answer, response.showsState = true) :
    (∀ response ∈ answer, response.Bound r) ↔ r.Trusted := by
  rcases answers_of_handle h with hsilent | ⟨schema, st, hschema, hstate, hanswers⟩
  · obtain ⟨response, hr, hshows⟩ := hshown
    rw [hsilent response hr] at hshows
    cases hshows
  · rw [bound_of_answers hschema hanswers, hstate.binds_iff hschema]

/-- What shows no state is bound. -/
theorem bound_of_silent {response : ProtocolResponse} (h : response.showsState = false) : response.Bound r := by
  cases response with
  | dispatch request session => cases h
  | report q => cases h
  | inspection i => trivial
  | event e => trivial
  | error f => trivial

/-- What a message that is to be trusted shows is bound, and so is what shows nothing. -/
theorem bound_of_trusted (h : handle digest r = .ok answer)
    (hr : (∃ response ∈ answer, response.showsState = true) → r.Trusted) :
    ∀ response ∈ answer, response.Bound r := by
  by_cases hshown : ∃ response ∈ answer, response.showsState = true
  · exact (bound_iff_trusted h hshown).mpr (hr hshown)
  · intro response hresponse
    refine bound_of_silent (Bool.eq_false_iff.mpr fun hshows => ?_)
    exact hshown ⟨response, hresponse, hshows⟩

/-- **Messages and schemas.** In any sequence of messages, all that is shown is bound exactly where every
message that shows a state is to be trusted. -/
theorem bound_iff (digest : GraphDefinitionV1 → String) (rs : List ProtocolRequest) :
    (∀ r ∈ rs, ∀ answer, handle digest r = .ok answer → ∀ response ∈ answer, response.Bound r) ↔
      ∀ r ∈ rs, r.Shown digest → r.Trusted := by
  constructor
  · rintro h r hr ⟨answer, hanswer, hshown⟩
    exact (bound_iff_trusted hanswer hshown).mp (h r hr answer hanswer)
  · intro h r hr answer hanswer
    exact bound_of_trusted hanswer fun hshown => h r hr ⟨answer, hanswer, hshown⟩

/-! ### Honest hosts -/

/-- The messages of a host that starts runs under one graph and schema, and hands every session back as it got
it. -/
inductive Untampered (digest : GraphDefinitionV1 → String) (g : GraphDefinitionV1) (schema : StateSchemaV1) :
    ProtocolRequest → Prop
  /-- A run is started. -/
  | run {r : ProtocolRequest} {executionId : String} {state : Json} (hgraph : r.graph = g)
      (hschema : r.schema = some schema) (hcommand : r.command = .run executionId state) :
      Untampered digest g schema r
  /-- The result of a dispatch is handed in. -/
  | continue {r r' : ProtocolRequest} {answer : List ProtocolResponse} {request : DispatchRequest}
      {session : PortableSession} {x : ProtocolNodeExecution} (hlast : Untampered digest g schema r')
      (hanswer : handle digest r' = .ok answer) (hdispatch : .dispatch request session ∈ answer)
      (hgraph : r.graph = g) (hschema : r.schema = some schema) (hcommand : r.command = .continue session x) :
      Untampered digest g schema r

theorem Untampered.about {g : GraphDefinitionV1} {schema : StateSchemaV1} (h : Untampered digest g schema r) :
    r.graph = g ∧ r.schema = some schema := by
  cases h with
  | run hgraph hschema hcommand => exact ⟨hgraph, hschema⟩
  | «continue» hlast hanswer hdispatch hgraph hschema hcommand => exact ⟨hgraph, hschema⟩

/-- With such a host, everything that is shown is bound. -/
theorem untampered_bound {g : GraphDefinitionV1} {schema : StateSchemaV1} (h : Untampered digest g schema r)
    (hanswer : handle digest r = .ok answer) : ∀ response ∈ answer, response.Bound r := by
  induction h generalizing answer with
  | @run r executionId state hgraph hschema hcommand =>
    refine bound_of_trusted hanswer fun _ schema' _ => ?_
    simp only [hcommand]
  | @«continue» r r' answer' request session x hlast hanswer' hdispatch hgraph hschema hcommand ih =>
    obtain ⟨hgraph', hschema'⟩ := hlast.about
    obtain ⟨schema₁, hschema₁, -, hbinds⟩ := ih hanswer' _ hdispatch
    obtain rfl : schema = schema₁ := Option.some.inj (hschema'.symm.trans hschema₁)
    refine bound_of_trusted hanswer fun _ schema₂ hschema₂ => ?_
    obtain rfl : schema = schema₂ := Option.some.inj (hschema.symm.trans hschema₂)
    simp only [hcommand, hgraph]
    exact ⟨hgraph' ▸ hbinds.graph, hbinds.state, .inr hbinds.valid⟩

end Messages

/-! ### A session that is made up -/

/-- A session of the test graph that awaits the result of `a`, with a state that has no `n`. -/
def madeUp : ProtocolRequest where
  version := 1
  command := .continue
    { newSession (Runtime.setup false).graph "e" { Runtime.setupState with value := .object [] } 1 with
      awaitingNode := "a" }
    { outcome := .continue none, tokens := none, costMicros := none }
  graph := Runtime.setupDefinition false
  schema := some Runtime.setupSchema
  nowMs := some 1

/-- A dispatch of a state that the schema of the test graph does not allow. -/
def ProtocolResponse.misfit : ProtocolResponse → Bool
  | .dispatch _ session => !(Runtime.setupSchema.validate session.state.value).isOk
  | _ => false

theorem madeUp_misfit :
    ((handle (fun _ => "sha256:graph") madeUp).toOption.any fun answer => answer.any (·.misfit)) = true := by
  decide +kernel

/-- The state of a made up session is dispatched to the next node, whatever it is. -/
theorem madeUp_unbound : ¬ ∀ (digest : GraphDefinitionV1 → String) (r : ProtocolRequest)
    (answer : List ProtocolResponse), handle digest r = .ok answer → ∀ response ∈ answer, response.Bound r := by
  intro h
  have htest := madeUp_misfit
  cases hanswer : handle (fun _ => "sha256:graph") madeUp with
  | error e =>
    rw [hanswer] at htest
    cases htest
  | ok answer =>
    rw [hanswer] at htest
    obtain ⟨response, hresponse, hmisfit⟩ := List.any_eq_true.mp htest
    have hbound := h _ madeUp answer hanswer response hresponse
    cases response with
    | dispatch request session =>
      obtain ⟨schema, hschema, -, hbinds⟩ := hbound
      cases hschema
      simp [ProtocolResponse.misfit, hbinds.valid, Except.isOk, Except.toBool] at hmisfit
    | inspection i => cases hmisfit
    | event e => cases hmisfit
    | report q => cases hmisfit
    | error f => cases hmisfit

end Knolo.Portable
