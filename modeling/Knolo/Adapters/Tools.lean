import Knolo.Harness.Prohibited
import Knolo.Library.Sharing

/-!
# Tools of an agent

`packages/agents/src/adapters/tool.ts`: an agent uses its tools through a bridge. Its calls may overlap. A call is
refused where the tool is not registered or the task prohibits it; the hooks of the session come before the handler,
and again when it has returned.

The handlers and the hooks are the host. The agent makes any calls, in any order of their steps, and returns at some
point: `BridgeState` is how the bridge stands then.

* `tools_gated` — which handlers are run, what the bridge says of them, and what an evaluation makes of that.
-/

namespace Knolo.Adapters

open Script Harness Library Library.Fallible Library.Prog

/-! ### The code -/

/-- What a call of the bridge asks of others. -/
inductive BridgeCall where
  /-- `emitTool`. -/
  | emit (phase : ToolPhase) (toolId : String) (payload : Option JsValue)
  /-- The handler of a tool. -/
  | handler (toolId : String) (args : JsValue)
  /-- The tool is put down in the list of the invocation. -/
  | push (toolId : String)

/-- What is answered. A value that is `none` is `undefined`. -/
abbrev BridgeCall.Answer : BridgeCall → Type
  | .emit .. => Except String Unit
  | .handler .. => Except String (Option JsValue)
  | .push _ => Unit

instance (c : BridgeCall) : Nonempty c.Answer := by
  cases c
  · exact ⟨.ok ()⟩
  · exact ⟨.ok none⟩
  · exact ⟨()⟩

/-- A part of a call. -/
abbrev BridgeM := Prog BridgeCall BridgeCall.Answer String

/-- The tools a task prohibits. -/
def prohibited (task : TaskV1) : List String := task.prohibitedActions.getD []

/-- The tools, by their ids. -/
structure ToolAwareAgentOptions where
  tools : List String

/-- `tools.call`. -/
def ToolAwareAgentOptions.call (o : ToolAwareAgentOptions) (task : TaskV1) (toolId : String) (args : JsValue) :
    BridgeM (Option JsValue) := do
  Prog.ofExcept (ensure (toolId ∈ o.tools) s!"tool is not registered: {toolId}")
  Prog.ofExcept (ensure (toolId ∉ prohibited task) s!"tool is prohibited by task policy: {toolId}")
  Prog.ofExcept (← Prog.ask (BridgeCall.emit .before toolId (some args)))
  let result ← Prog.ofExcept (← Prog.ask (BridgeCall.handler toolId args))
  Prog.ask (BridgeCall.push toolId)
  Prog.ofExcept (← Prog.ask (BridgeCall.emit .after toolId result))
  return result

/-- How the bridge of an invocation stands: the tools it has put down, and what was reported to the session. -/
structure BridgeState where
  toolCalls : List String := []
  emissions : List Emission := []

/-- The bridge keeps what is put down; the session hears what is reported. Handlers and hooks answer as they like. -/
inductive BridgeAnswers : (c : BridgeCall) → BridgeState → c.Answer → BridgeState → Prop
  | emit {phase : ToolPhase} {toolId : String} {payload : Option JsValue} {s : BridgeState} {hooks : Except String Unit} :
      BridgeAnswers (.emit phase toolId payload) s hooks { s with emissions := s.emissions ++ [⟨phase, toolId, hooks⟩] }
  | handler {toolId : String} {args : JsValue} {s : BridgeState} {answer : Except String (Option JsValue)} :
      BridgeAnswers (.handler toolId args) s answer s
  | push {toolId : String} {s : BridgeState} :
      BridgeAnswers (.push toolId) s () { s with toolCalls := s.toolCalls ++ [toolId] }

/-- The calls of an invocation, each with its tool and its arguments, have come this far. -/
def Invocation (o : ToolAwareAgentOptions) (task : TaskV1) (calls : ℕ → String × JsValue) :
    List (ℕ × Answered BridgeCall BridgeCall.Answer) → BridgeState → Prop :=
  Shared (fun i => o.call task (calls i).1 (calls i).2) BridgeAnswers {}

/-- `invoke`, with what the agent has returned or thrown: the list of the bridge comes after the agent's own. -/
def BridgeState.attempt (s : BridgeState) (returned : Except String AgentInvocationResultV1) : Attempt where
  emissions := s.emissions
  outcome := returned.map fun result => { result with toolCalls := some (result.toolCalls.getD [] ++ s.toolCalls) }

/-! ### One call -/

variable {o : ToolAwareAgentOptions} {task : TaskV1} {toolId : String} {args : JsValue}

/-- A tool may be used. -/
def MayUse (o : ToolAwareAgentOptions) (task : TaskV1) (toolId : String) : Prop :=
  toolId ∈ o.tools ∧ toolId ∉ prohibited task

/-- What a call does, as far as it has come, and how it has ended, if it has. -/
inductive Course (o : ToolAwareAgentOptions) (task : TaskV1) (toolId : String) (args : JsValue) :
    List (Answered BridgeCall BridgeCall.Answer) → Option (Except String (Option JsValue)) → Prop
  /-- It is refused. -/
  | refused {e : String} : ¬ MayUse o task toolId → Course o task toolId args [] (some (.error e))
  /-- It has begun. -/
  | begun : MayUse o task toolId → Course o task toolId args [] none
  /-- A hook before the tool has thrown. -/
  | stopped {e : String} : MayUse o task toolId →
      Course o task toolId args [⟨.emit .before toolId (some args), .error e⟩] (some (.error e))
  /-- The hooks before the tool let it be used. -/
  | allowed : MayUse o task toolId → Course o task toolId args [⟨.emit .before toolId (some args), .ok ()⟩] none
  /-- The handler has thrown. -/
  | failed {e : String} : MayUse o task toolId →
      Course o task toolId args [⟨.emit .before toolId (some args), .ok ()⟩, ⟨.handler toolId args, .error e⟩]
        (some (.error e))
  /-- It has returned. -/
  | handled {result : Option JsValue} : MayUse o task toolId →
      Course o task toolId args [⟨.emit .before toolId (some args), .ok ()⟩, ⟨.handler toolId args, .ok result⟩] none
  /-- The tool is put down. -/
  | pushed {result : Option JsValue} : MayUse o task toolId →
      Course o task toolId args
        [⟨.emit .before toolId (some args), .ok ()⟩, ⟨.handler toolId args, .ok result⟩, ⟨.push toolId, ()⟩] none
  /-- The hooks after the tool have run: what they throw is thrown, or the result is returned. -/
  | reported {result : Option JsValue} {hooks : Except String Unit} : MayUse o task toolId →
      Course o task toolId args
        [⟨.emit .before toolId (some args), .ok ()⟩, ⟨.handler toolId args, .ok result⟩, ⟨.push toolId, ()⟩,
          ⟨.emit .after toolId result, hooks⟩] (some (hooks.map fun _ => result))

theorem course_of_reaches {q : BridgeM (Option JsValue)} {tr : List (Answered BridgeCall BridgeCall.Answer)}
    (h : (o.call task toolId args).Reaches tr q) : Course o task toolId args tr q.ended := by
  unfold ToolAwareAgentOptions.call at h
  by_cases hreg : toolId ∈ o.tools
  · by_cases hfree : toolId ∉ prohibited task
    · have hmay : MayUse o task toolId := ⟨hreg, hfree⟩
      rw [ensure, if_pos hreg, ensure, if_pos hfree] at h
      -- the hooks before, the handler, the list and the hooks after: at each the call may stand or end
      rcases h with _ | h
      · exact .begun hmay
      rename_i hooks
      rcases hooks with e | u
      · cases h
        exact .stopped hmay
      rcases h with _ | h
      · exact .allowed hmay
      rename_i answer
      rcases answer with e | result
      · cases h
        exact .failed hmay
      rcases h with _ | h
      · exact .handled hmay
      rcases h with _ | h
      · exact .pushed hmay
      rename_i hooks
      rcases hooks with e | u
      · cases h
        exact .reported hmay
      · cases h
        exact .reported hmay
    · rw [ensure, if_pos hreg, ensure, if_neg hfree] at h
      cases h
      exact .refused fun hmay => hfree hmay.2
  · rw [ensure, if_neg hreg] at h
    cases h
    exact .refused fun hmay => hreg hmay.1

/-! ### All calls -/

/-- A handler of the tool has returned. -/
def returns (toolId : String) (a : Answered BridgeCall BridgeCall.Answer) : Bool :=
  match a with
  | ⟨.handler t _, .ok _⟩ => t = toolId
  | _ => false

/-- The tool is put down. -/
def puts (toolId : String) (a : Answered BridgeCall BridgeCall.Answer) : Bool :=
  match a with
  | ⟨.push t, _⟩ => t = toolId
  | _ => false

/-- The use of the tool is reported, and the session takes the report. -/
def reports (toolId : String) (a : Answered BridgeCall BridgeCall.Answer) : Bool :=
  match a with
  | ⟨.emit .after t _, .ok _⟩ => t = toolId
  | _ => false

theorem Course.counts {outcome : Option (Except String (Option JsValue))}
    {tr : List (Answered BridgeCall BridgeCall.Answer)} (h : Course o task toolId args tr outcome) (t : String) :
    tr.countP (reports t) ≤ tr.countP (puts t) ∧ tr.countP (puts t) ≤ tr.countP (returns t) := by
  cases h with
  | @reported result hooks hmay => cases hooks <;> simp [reports, puts, returns, List.countP_cons]
  | _ => simp [reports, puts, returns, List.countP_cons]

/-- The tool that is put down. -/
def putDown (a : Answered BridgeCall BridgeCall.Answer) : Option String :=
  match a with
  | ⟨.push t, _⟩ => some t
  | _ => none

/-- What is reported. -/
def emission (a : Answered BridgeCall BridgeCall.Answer) : Option Emission :=
  match a with
  | ⟨.emit phase t _, hooks⟩ => some ⟨phase, t, hooks⟩
  | _ => none

section Invocation

variable {calls : ℕ → String × JsValue} {log : List (ℕ × Answered BridgeCall BridgeCall.Answer)} {s : BridgeState}

/-- The bridge has put down what its calls have, and reported what they have. -/
theorem state_eq (h : Invocation o task calls log s) :
    s.toolCalls = (log.map Prod.snd).filterMap putDown ∧ s.emissions = (log.map Prod.snd).filterMap emission := by
  induction h with
  | nil => exact ⟨rfl, rfl⟩
  | snoc _ _ ha ih =>
    obtain ⟨htools, hemissions⟩ := ih
    rw [List.map_append, List.filterMap_append, List.filterMap_append, ← htools, ← hemissions]
    cases ha <;> simp [putDown, emission]

theorem count_toolCalls (h : Invocation o task calls log s) (t : String) :
    s.toolCalls.count t = (log.map Prod.snd).countP (puts t) := by
  rw [(state_eq h).1, List.count_filterMap]
  refine List.countP_congr fun a _ => ?_
  obtain ⟨c, r⟩ := a
  cases c <;> simp [putDown, puts]

theorem count_toolReceipts (h : Invocation o task calls log s) (t : String)
    (returned : Except String AgentInvocationResultV1) :
    (s.attempt returned).toolReceipts.count t = (log.map Prod.snd).countP (reports t) := by
  rw [Attempt.toolReceipts, BridgeState.attempt, (state_eq h).2, List.count_eq_countP, List.countP_map,
    List.countP_filter, List.countP_filterMap]
  refine List.countP_congr fun a _ => ?_
  obtain ⟨c, r⟩ := a
  cases c with
  | emit phase _ _ => cases phase <;> cases r <;> simp [emission, reports, Except.isOk, Except.toBool]
  | handler _ _ => simp [emission, reports]
  | push _ => simp [emission, reports]

/-- Each call has taken its course. -/
theorem course_own (h : Invocation o task calls log s) (i : ℕ) :
    ∃ outcome, Course o task (calls i).1 (calls i).2 (own i log) outcome := by
  obtain ⟨q, hq⟩ := h.reaches i
  exact ⟨_, course_of_reaches hq⟩

/-- A handler that is run is that of a tool that may be used, after the hooks have let it. -/
theorem Course.handler {outcome : Option (Except String (Option JsValue))}
    {tr : List (Answered BridgeCall BridgeCall.Answer)} (h : Course o task toolId args tr outcome) {t : String}
    {v : JsValue} {answer : Except String (Option JsValue)} {before after : List (Answered BridgeCall BridgeCall.Answer)}
    (htr : tr = before ++ ⟨.handler t v, answer⟩ :: after) :
    t = toolId ∧ v = args ∧ MayUse o task toolId ∧ before = [⟨.emit .before toolId (some args), .ok ()⟩] := by
  rcases before with _ | ⟨b, _ | ⟨c, before⟩⟩
  · cases h <;> simp at htr
  · cases h <;> simp at htr
    all_goals
      obtain ⟨rfl, ⟨⟨rfl, rfl⟩, -⟩, -⟩ := htr
      exact ⟨rfl, rfl, ‹_›, rfl⟩
  · cases h <;> simp [List.cons_eq_append_iff] at htr

/-- A tool that is put down may be used. -/
theorem Course.put {outcome : Option (Except String (Option JsValue))}
    {tr : List (Answered BridgeCall BridgeCall.Answer)} (h : Course o task toolId args tr outcome) {t : String} {u : Unit}
    (ht : ⟨.push t, u⟩ ∈ tr) : MayUse o task t := by
  cases h <;> simp at ht
  all_goals
    subst ht
    assumption

/-- A call that has returned was reported, and returns what its handler has. -/
theorem Course.returned {tr : List (Answered BridgeCall BridgeCall.Answer)} {result : Option JsValue}
    (h : Course o task toolId args tr (some (.ok result))) :
    tr = [⟨.emit .before toolId (some args), .ok ()⟩, ⟨.handler toolId args, .ok result⟩, ⟨.push toolId, ()⟩,
      ⟨.emit .after toolId result, .ok ()⟩] := by
  generalize hout : (some (.ok result) : Option (Except String (Option JsValue))) = outcome at h
  cases h with
  | @reported _ hooks _ =>
    cases hooks with
    | error e => simp [Except.map] at hout
    | ok u =>
      simp only [Except.map, Option.some.injEq, Except.ok.injEq] at hout
      rw [hout]
  | _ => simp at hout

/-- What holds at any point of an invocation. -/
structure Gated (language : Language) (o : ToolAwareAgentOptions) (task : TaskV1) (calls : ℕ → String × JsValue)
    (log : List (ℕ × Answered BridgeCall BridgeCall.Answer)) (s : BridgeState) : Prop where
  /-- A handler is run for a call of its tool, with the arguments of the call, where the tool is registered and not
  prohibited, and after the hooks have let this call go on. -/
  handled : ∀ before i t v answer after, log = before ++ (i, ⟨.handler t v, answer⟩) :: after →
    (t, v) = calls i ∧ MayUse o task t ∧ own i before = [⟨.emit .before t (some v), .ok ()⟩]
  /-- A call that has returned returns what its handler has, and its use was reported. -/
  returned : ∀ i result, (o.call task (calls i).1 (calls i).2).Reaches (own i log) (.ret result) →
    ⟨.handler (calls i).1 (calls i).2, .ok result⟩ ∈ own i log ∧ ⟨.emit .after (calls i).1 result, .ok ()⟩ ∈ own i log
  /-- The tools that are put down may be used, and their handlers have returned as often. -/
  listed : ∀ t ∈ s.toolCalls, MayUse o task t ∧ s.toolCalls.count t ≤ (log.map Prod.snd).countP (returns t)
  /-- The session has receipts for no more than is put down. -/
  receipts : ∀ returned t, (s.attempt returned).toolReceipts.count t ≤ s.toolCalls.count t
  /-- An evaluation of this list finds a prohibited tool only where the text of the output mentions it. -/
  blameless : ∀ status output receipt, evaluateInvocation language task status output s.toolCalls = .ok receipt →
    ∀ t ∈ receipt.prohibitedViolations, ∃ text, stringifyOutput language output = some text ∧ mentions language text t = true

/-- **The tools of an agent are gated.** However the calls of an invocation overlap, and whatever handlers and hooks do,
no tool is run that is not registered, that the task prohibits, or that a hook has not let through; what the bridge
lists has been run, what the session takes down is listed, and so an evaluation holds no tool against the agent. -/
theorem tools_gated (language : Language) (h : Invocation o task calls log s) : Gated language o task calls log s := by
  have hcounts : ∀ t, (log.map Prod.snd).countP (reports t) ≤ (log.map Prod.snd).countP (puts t) ∧
      (log.map Prod.snd).countP (puts t) ≤ (log.map Prod.snd).countP (returns t) := by
    intro t
    constructor <;> refine countP_le_of_own le_rfl fun i => ?_ <;> obtain ⟨_, hc⟩ := course_own h i
    · exact (hc.counts t).1
    · exact (hc.counts t).2
  have hlisted : ∀ t ∈ s.toolCalls, MayUse o task t := by
    intro t ht
    rw [(state_eq h).1, List.mem_filterMap] at ht
    obtain ⟨⟨c, u⟩, ha, hput⟩ := ht
    obtain ⟨⟨i, b⟩, hlog, rfl⟩ := List.mem_map.mp ha
    cases c with
    | push t' =>
      cases hput
      obtain ⟨_, hc⟩ := course_own h i
      exact hc.put (mem_own.mpr hlog)
    | _ => cases hput
  refine ⟨?_, ?_, ?_, ?_, ?_⟩
  · intro before i t v answer after hlog
    obtain ⟨_, hc⟩ := course_own h i
    have hown : own i log = own i before ++ ⟨.handler t v, answer⟩ :: own i after := by
      rw [hlog, own_append, own_cons_self]
    obtain ⟨rfl, rfl, hmay, hbefore⟩ := hc.handler hown
    exact ⟨rfl, hmay, hbefore⟩
  · intro i result hi
    rw [(course_of_reaches hi).returned]
    simp
  · intro t ht
    rw [count_toolCalls h]
    exact ⟨hlisted t ht, (hcounts t).2⟩
  · intro returned t
    rw [count_toolReceipts h, count_toolCalls h]
    exact (hcounts t).1
  · intro status output receipt hreceipt t ht
    obtain ⟨hprohibited, hseen⟩ := (mem_violations hreceipt t).mp ht
    rcases hseen with hcall | htext
    · exact absurd hprohibited (hlisted t hcall).2
    · exact htext

end Invocation

/-! ### An invocation -/

/-- Hooks that let every tool be used, and handlers that return nothing. -/
def plainHost : Host BridgeCall BridgeCall.Answer BridgeState := fun c s =>
  match c with
  | .emit phase toolId _ => (.ok (), { s with emissions := s.emissions ++ [⟨phase, toolId, .ok ()⟩] })
  | .handler _ _ => (.ok none, s)
  | .push toolId => ((), { s with toolCalls := s.toolCalls ++ [toolId] })

theorem plainHost_answers (c : BridgeCall) (s : BridgeState) : BridgeAnswers c s (plainHost c s).1 (plainHost c s).2 := by
  cases c
  · exact .emit
  · exact .handler
  · exact .push

/-- An agent with a tool, for a task that prohibits another. -/
def searching : ToolAwareAgentOptions := ⟨["search", "pay"]⟩

/-- The task. -/
def unpaid : TaskV1 := { successCriteria := ["found"], prohibitedActions := some ["pay"] }

/-- The first call searches, the others pay. -/
def searchThenPay (i : ℕ) : String × JsValue := (if i = 0 then "search" else "pay", .null)

/-- The search is listed. -/
theorem tools_gated_search : ∃ log s, s.toolCalls = ["search"] ∧ Gated sampleLanguage searching unpaid searchThenPay log s := by
  have h : Invocation searching unpaid searchThenPay [] {} := .nil
  exact ⟨_, _, rfl, tools_gated sampleLanguage (h.run plainHost_answers (i := 0) .refl)⟩

end Knolo.Adapters
