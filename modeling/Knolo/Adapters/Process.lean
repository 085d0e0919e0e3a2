import Knolo.Skills.Catalog

/-!
# A process as an agent

`packages/agents/src/adapters/process.ts`: `processAgent` gives a child its input and waits for one of three things:
that it closes, that it cannot be run, or that its time is up. The rest of what happens to a child may happen in any
order, before or after that (`ProcessEvent`); it is killed when its time is up, and when the run is aborted.

* `process_settles` — what an invocation comes to, for every order of events.
-/

namespace Knolo.Adapters

open Script Harness Skills Library

/-! ### The code -/

/-- What a child is asked for. -/
structure ProcessSpawnRequest where
  timeoutMs : Option ℕ := none
  /-- Is there a signal that may abort the run? -/
  signal : Bool := false

/-- How a child has ended. -/
structure ProcessSpawnResult where
  stdout : String
  stderr : String
  exitCode : Option ℤ
  deriving DecidableEq

/-- What happens to a child. -/
inductive ProcessEvent where
  | stdout (chunk : String)
  | stderr (chunk : String)
  /-- The time is up. -/
  | timer
  /-- The signal fires. -/
  | abort
  | error (message : String)
  | close (code : Option ℤ)

/-- A child, with what is waiting for it. -/
structure Child where
  stdout : String := ""
  stderr : String := ""
  /-- Is the timer running? -/
  timer : Bool
  /-- Does the child listen to the signal? -/
  listens : Bool
  /-- How often it was killed. -/
  kills : ℕ := 0
  /-- The promise, once it is settled. -/
  promise : Option (Except String ProcessSpawnResult) := none

/-- `setTimeout`, where a time is given. -/
def ProcessSpawnRequest.timed (request : ProcessSpawnRequest) : Bool := request.timeoutMs.any (0 < ·)

/-- A child that was spawned. -/
def spawned (request : ProcessSpawnRequest) : Child where
  timer := request.timed
  listens := request.signal

namespace Child

variable (c : Child)

/-- A promise is settled once. -/
def settle (outcome : Except String ProcessSpawnResult) : Child := { c with promise := some (c.promise.getD outcome) }

/-- Neither the timer nor the signal reaches the child any more. -/
def release : Child := { c with timer := false, listens := false }

/-- The listeners of `nodeSpawn`. -/
def on : ProcessEvent → Child
  | .stdout chunk => { c with stdout := c.stdout ++ chunk }
  | .stderr chunk => { c with stderr := c.stderr ++ chunk }
  | .timer =>
    if c.timer then { c with timer := false, kills := c.kills + 1 }.settle (.error "processAgent timed out") else c
  | .abort => if c.listens then { c with listens := false, kills := c.kills + 1 } else c
  | .error message => c.release.settle (.error message)
  | .close code => c.release.settle (.ok { stdout := c.stdout, stderr := c.stderr, exitCode := code })

/-- What has become of a child. -/
def after (es : List ProcessEvent) : Child := es.foldl Child.on c

end Child

/-- The statuses of an invocation. -/
def statusOf : JsValue → Option InvocationStatusV1
  | .string "succeeded" => some .succeeded
  | .string "partial" => some .partialResult
  | .string "failed" => some .failed
  | .string "suspended" => some .suspended
  | _ => none

/-- `normalizeInvocation`: a value with a status and an output is a result, any other is the output of one. -/
def normalizeInvocation (v : JsValue) : AgentInvocationResultV1 :=
  let ps := (asRecord v).getD []
  match (ps.lookup "status").bind statusOf, ps.lookup "output" with
  | some status, some output =>
    { status := status, output := some output
      error := (ps.lookup "error").bind asText
      toolCalls := (ps.lookup "toolCalls").bind asStringArray
      tokens := (ps.lookup "tokens").bind fun v => match v with | .number x => some x | _ => none }
  | _, _ => { status := .succeeded, output := some v }

/-- What an exit code is written as. -/
def exitText : Option ℤ → String
  | none => "null"
  | some n => toString n

/-- What `invoke` makes of a child that has closed. -/
def processResult (p : Platform) (r : ProcessSpawnResult) : AgentInvocationResultV1 :=
  if r.exitCode ≠ some 0 then
    { status := .failed
      output := some (.object [("stdout", .string r.stdout), ("stderr", .string r.stderr)])
      error := some s!"process exit {exitText r.exitCode}" }
  else if r.stdout.isEmpty then normalizeInvocation .null
  else
    match p.parse r.stdout with
    | .ok v => normalizeInvocation v
    | .error _ => normalizeInvocation (.string r.stdout)

/-- What an invocation has come to: a result, or what is thrown. -/
def Child.invocation (p : Platform) (c : Child) : Option (Except String AgentInvocationResultV1) :=
  c.promise.map fun outcome => outcome.map (processResult p)

/-! ### Orders of events -/

/-- What an event writes to the output. -/
def ProcessEvent.written : ProcessEvent → String
  | .stdout chunk => chunk
  | _ => ""

/-- What an event writes as errors. -/
def ProcessEvent.complained : ProcessEvent → String
  | .stderr chunk => chunk
  | _ => ""

/-- What was written to the output. -/
def outputOf (es : List ProcessEvent) : String := String.join (es.map ProcessEvent.written)

/-- What was written as errors. -/
def errorsOf (es : List ProcessEvent) : String := String.join (es.map ProcessEvent.complained)

/-- The child is gone. -/
def ProcessEvent.gone : ProcessEvent → Prop
  | .error _ | .close _ => True
  | _ => False

/-- What the event settles an invocation with, after the events before it. -/
def ProcessEvent.settles (request : ProcessSpawnRequest) (before : List ProcessEvent) :
    ProcessEvent → Option (Except String ProcessSpawnResult)
  | .timer => if request.timed then some (.error "processAgent timed out") else none
  | .error message => some (.error message)
  | .close code => some (.ok { stdout := outputOf before, stderr := errorsOf before, exitCode := code })
  | _ => none

variable {request : ProcessSpawnRequest} {es : List ProcessEvent} {c : Child} {e : ProcessEvent}

theorem after_append_singleton : c.after (es ++ [e]) = (c.after es).on e := by
  rw [Child.after, List.foldl_append]
  rfl

theorem on_written : (c.on e).stdout = c.stdout ++ e.written ∧ (c.on e).stderr = c.stderr ++ e.complained := by
  cases e with
  | timer => cases h : c.timer <;> simp [Child.on, Child.settle, h, ProcessEvent.written, ProcessEvent.complained]
  | abort => cases h : c.listens <;> simp [Child.on, h, ProcessEvent.written, ProcessEvent.complained]
  | _ => simp [Child.on, Child.settle, Child.release, ProcessEvent.written, ProcessEvent.complained]

/-- What was written is kept. -/
theorem after_written (es : List ProcessEvent) :
    ((spawned request).after es).stdout = outputOf es ∧ ((spawned request).after es).stderr = errorsOf es := by
  induction es using List.reverseRecOn with
  | nil => exact ⟨rfl, rfl⟩
  | append_singleton es e ih =>
    rw [after_append_singleton, on_written.1, on_written.2, ih.1, ih.2]
    simp [outputOf, errorsOf, String.join]

/-- Nothing settles the invocation. -/
def Unsettled (request : ProcessSpawnRequest) (es : List ProcessEvent) : Prop :=
  ∀ before e after, es = before ++ e :: after → e.settles request before = none

/-- Until something settles the invocation, the timer runs if there is one. -/
theorem after_unsettled : ∀ {es : List ProcessEvent}, Unsettled request es →
    ((spawned request).after es).promise = none ∧ ((spawned request).after es).timer = request.timed := by
  intro es
  induction es using List.reverseRecOn with
  | nil => exact fun _ => ⟨rfl, rfl⟩
  | append_singleton es e ih =>
    intro h
    obtain ⟨hpromise, htimer⟩ := ih fun before e' after heq => h before e' (after ++ [e]) (by rw [heq]; simp)
    have hlast := h es e [] rfl
    rw [after_append_singleton]
    cases e with
    | timer =>
      rw [ProcessEvent.settles] at hlast
      split_ifs at hlast with htimed
      rw [Child.on, htimer, if_neg htimed]
      exact ⟨hpromise, htimer⟩
    | abort => cases hl : ((spawned request).after es).listens <;> simp [Child.on, hl, hpromise, htimer]
    | error message => cases hlast
    | close code => cases hlast
    | _ => exact ⟨hpromise, htimer⟩

/-- What has settled an invocation stays. -/
theorem after_settled {outcome : Except String ProcessSpawnResult} (h : c.promise = some outcome) :
    (c.after es).promise = some outcome := by
  induction es using List.reverseRecOn with
  | nil => exact h
  | append_singleton es e ih =>
    rw [after_append_singleton]
    cases e with
    | timer => cases ht : (c.after es).timer <;> simp [Child.on, Child.settle, ht, ih]
    | abort => cases hl : (c.after es).listens <;> simp [Child.on, hl, ih]
    | _ => simp [Child.on, Child.settle, Child.release, ih]

/-- What settles an invocation first settles it. -/
theorem on_settles {outcome : Except String ProcessSpawnResult} (hes : Unsettled request es)
    (h : e.settles request es = some outcome) : (((spawned request).after es).on e).promise = some outcome := by
  obtain ⟨hpromise, htimer⟩ := after_unsettled hes
  obtain ⟨hout, herr⟩ := @after_written request es
  cases e with
  | timer =>
    rw [ProcessEvent.settles] at h
    split_ifs at h with htimed
    cases h
    rw [Child.on, htimer, if_pos htimed]
    simp [Child.settle, hpromise]
  | error message =>
    cases h
    simp [Child.on, Child.settle, Child.release, hpromise]
  | close code =>
    cases h
    simp [Child.on, Child.settle, Child.release, hpromise, hout, herr]
  | _ => cases h

/-- Each of the timer and the signal may kill the child once. -/
theorem after_kills (es : List ProcessEvent) :
    ((spawned request).after es).kills + ((spawned request).after es).timer.toNat +
      ((spawned request).after es).listens.toNat ≤ request.timed.toNat + request.signal.toNat := by
  induction es using List.reverseRecOn with
  | nil => simp [Child.after, spawned]
  | append_singleton es e ih =>
    rw [after_append_singleton]
    generalize (spawned request).after es = c at ih
    cases e with
    | timer =>
      cases ht : c.timer <;> simp only [Child.on, Child.settle, ht, if_true, if_false, Bool.toNat_true, Bool.toNat_false,
        Bool.false_eq_true] at ih ⊢ <;> omega
    | abort =>
      cases hl : c.listens <;> simp only [Child.on, hl, if_true, if_false, Bool.toNat_true, Bool.toNat_false,
        Bool.false_eq_true] at ih ⊢ <;> omega
    | error message =>
      simp only [Child.on, Child.settle, Child.release, Bool.toNat_false]
      omega
    | close code =>
      simp only [Child.on, Child.settle, Child.release, Bool.toNat_false]
      omega
    | _ => exact ih

/-- A child that nothing reaches any more is left alone. -/
theorem after_released (ht : c.timer = false) (hl : c.listens = false) :
    (c.after es).kills = c.kills ∧ (c.after es).timer = false ∧ (c.after es).listens = false := by
  induction es using List.reverseRecOn with
  | nil => exact ⟨rfl, ht, hl⟩
  | append_singleton es e ih =>
    obtain ⟨hkills, htimer, hlistens⟩ := ih
    rw [after_append_singleton]
    cases e <;> simp [Child.on, Child.settle, Child.release, hkills, htimer, hlistens]

/-- What has become of a child and of the invocation that waits for it. -/
structure Settles (p : Platform) (request : ProcessSpawnRequest) (es : List ProcessEvent) (c : Child) : Prop where
  /-- Until something settles it, an invocation waits. -/
  waits : Unsettled request es → c.invocation p = none
  /-- The first that does is what it comes to: the child has closed, with all that it has written until then; it cannot
  be run; or its time is up. -/
  first : ∀ before e after outcome, es = before ++ e :: after → Unsettled request before →
    e.settles request before = some outcome → c.invocation p = some (outcome.map (processResult p))
  /-- The child is killed at most once for its time, and once for the signal. -/
  kills : c.kills ≤ request.timed.toNat + request.signal.toNat
  /-- When it is gone it is not killed any more, and neither the timer nor the listener is left behind. -/
  gone : ∀ before e after, es = before ++ e :: after → e.gone →
    c.kills = ((spawned request).after before).kills ∧ c.timer = false ∧ c.listens = false

/-- **A process settles once.** In whatever order a child writes, closes and fails, its time is up and the run is
aborted, the invocation comes to what settles it first, and to nothing else after that. -/
theorem process_settles (p : Platform) (request : ProcessSpawnRequest) (es : List ProcessEvent) :
    Settles p request es ((spawned request).after es) where
  waits h := by rw [Child.invocation, (after_unsettled h).1, Option.map_none]
  first before e after outcome hes hbefore h := by
    have hafter : (spawned request).after es = (((spawned request).after before).on e).after after := by
      rw [hes, Child.after, List.foldl_append]
      rfl
    rw [Child.invocation, hafter, after_settled (on_settles hbefore h), Option.map_some]
  kills := by
    have h := @after_kills request es
    omega
  gone before e after hes h := by
    have hafter : (spawned request).after es = (((spawned request).after before).on e).after after := by
      rw [hes, Child.after, List.foldl_append]
      rfl
    rw [hafter]
    cases e with
    | error message => exact after_released rfl rfl
    | close code => exact after_released rfl rfl
    | _ => cases h

/-- A child that closes when its time is up has failed all the same. -/
example : ((spawned { timeoutMs := some 5 }).after [.stdout "1", .timer, .close (some 0)]).promise =
    some (.error "processAgent timed out") := by
  rfl

end Knolo.Adapters
