import Knolo.Harness.Prohibited
import Knolo.Library.History

/-!
# What recovery may cost

How often `invokeWithRecovery` invokes the adapter and what it applies in between, for every adapter
and every policy. The hooks of the middleware return.

* `Course` — a run of the loop: its calls, the strategies it applies, and the result it ends with.
* `WithinBudget` — the invariant of the strategies that were used.
* `recovery_bounded` — the invocation ends, within the budget of its policy.
-/

namespace Knolo.Harness

open Script Library

/-! ### A run of the loop -/

/-- The calls of an invocation. -/
abbrev HostTrace := List (Answered HostCall HostCall.Answer)

/-- The hooks that were run have returned. -/
def HooksReturn (tr : HostTrace) : Prop := ∀ name e, (⟨.hook name, .error e⟩ : Answered HostCall HostCall.Answer) ∉ tr

theorem hooksReturn_append {tr tr' : HostTrace} : HooksReturn (tr ++ tr') ↔ HooksReturn tr ∧ HooksReturn tr' := by
  simp only [HooksReturn, List.mem_append, not_or, forall_and]

/-- The calls of one attempt. -/
def attemptCalls (a : Attempt) : HostTrace :=
  invocation a ++ match a.outcome with
    | .ok _ => []
    | .error _ => [⟨.hook .onError, .ok ()⟩]

theorem attemptCalls_ok {a : Attempt} {result : AgentInvocationResultV1} (h : a.outcome = .ok result) :
    attemptCalls a = invocation a := by
  unfold attemptCalls
  rw [h]
  exact List.append_nil _

theorem attemptCalls_error {a : Attempt} {e : String} (h : a.outcome = .error e) :
    attemptCalls a = invocation a ++ [⟨.hook .onError, .ok ()⟩] := by
  unfold attemptCalls
  rw [h]

/-- The hooks of a recovery are run. -/
def recoveryCall : Answered HostCall HostCall.Answer := ⟨.hook .onRecovery, .ok ()⟩

/-- A run of the loop, from the strategies that were used and the result it is at: its calls, the
strategies that are applied, and the result it ends with. -/
inductive Course (language : Language) (policy : RecoveryPolicyV1) : List RecoveryStrategyV1 →
    AgentInvocationResultV1 → HostTrace → List RecoveryStrategyV1 → AgentInvocationResultV1 → Prop
  /-- Nothing has failed. -/
  | done {used : List RecoveryStrategyV1} {result : AgentInvocationResultV1} :
      needsRecovery result = false → Course language policy used result [] [] result
  /-- No strategy is left. -/
  | exhausted {used : List RecoveryStrategyV1} {result : AgentInvocationResultV1} :
      needsRecovery result = true → nextStrategy policy (classifyFailure language result) used = none →
      Course language policy used result [] [] result
  /-- The failure is passed off as a partial result. -/
  | graceful {used : List RecoveryStrategyV1} {result : AgentInvocationResultV1} :
      needsRecovery result = true → nextStrategy policy (classifyFailure language result) used = some .gracefulPartial →
      Course language policy used result [recoveryCall] [.gracefulPartial] (gracefulPartial result)
  /-- Another attempt is made. -/
  | again {used strategies : List RecoveryStrategyV1} {result final : AgentInvocationResultV1}
      {s : RecoveryStrategyV1} {a : Attempt} {tr : HostTrace} :
      needsRecovery result = true → nextStrategy policy (classifyFailure language result) used = some s →
      s ≠ .gracefulPartial → Course language policy (used ++ [s]) a.result tr strategies final →
      Course language policy used result (recoveryCall :: attemptCalls a ++ tr) (s :: strategies) final

section Runs

variable {language : Language} {policy : RecoveryPolicyV1}

theorem runHooks_returns (name : MiddlewareHookName) : (runHooks name).Sat fun tr res =>
    HooksReturn tr → tr = [⟨.hook name, .ok ()⟩] ∧ res = .ok () := by
  intro answer
  cases answer with
  | error e => exact fun h => absurd (List.mem_singleton_self _) (h name e)
  | ok u => exact fun _ => ⟨rfl, rfl⟩

theorem invokeOnce_returns : invokeOnce.Sat fun tr res => HooksReturn tr →
    ∃ a, tr = attemptCalls a ∧ res = .ok (a.result, a.toolReceipts) := by
  refine (runHooks_returns .beforeAgent).bind (fun tr _ h => ?_) (fun _ _ h hret => nomatch (h hret).2)
  intro a
  show Prog.Sat (match a.outcome with
    | .ok _ => (return (a.result, a.toolReceipts) : RunM (AgentInvocationResultV1 × List String))
    | .error _ => do
      runHooks .onError
      return (a.result, a.toolReceipts)) _
  cases ha : a.outcome with
  | ok result =>
    intro hret
    obtain ⟨htr, -⟩ := h (hooksReturn_append.mp hret).1
    exact ⟨a, by rw [htr, attemptCalls_ok ha]; rfl, rfl⟩
  | error e =>
    refine (runHooks_returns .onError).bind (fun tr' _ h' => ?_) fun _ _ h' hret => ?_
    · intro hret
      rw [List.append_nil] at hret ⊢
      obtain ⟨hret, hret'⟩ := hooksReturn_append.mp hret
      obtain ⟨htr, -⟩ := h hret
      obtain ⟨htr', -⟩ := h' fun name e hmem => hret' name e (List.mem_cons_of_mem _ hmem)
      exact ⟨a, by rw [htr, htr', attemptCalls_error ha]; rfl, rfl⟩
    · obtain ⟨-, hret'⟩ := hooksReturn_append.mp hret
      exact nomatch (h' fun name e hmem => hret' name e (List.mem_cons_of_mem _ hmem)).2

/-- The loop follows a course, and ends. -/
theorem recover_course (n : ℕ) : ∀ (used : List RecoveryStrategyV1) (attempt : ℕ) (invoked : Invoked),
    strategiesLeft policy used = n → (recover language policy used attempt invoked).Sat fun tr res => HooksReturn tr →
      ∃ x strategies, res = .ok x ∧ applied x.events = applied invoked.events ++ strategies ∧
        Course language policy used invoked.result tr strategies x.result := by
  induction n using Nat.strong_induction_on with
  | _ n ih =>
    intro used attempt invoked hn
    by_cases hneeds : needsRecovery invoked.result = true
    · cases hs : nextStrategy policy (classifyFailure language invoked.result) used with
      | none =>
        obtain ⟨events, hevents, heq⟩ := @recover_exhausted _ _ _ attempt _ hneeds hs
        rw [heq]
        exact fun _ => ⟨_, [], rfl, by rw [hevents, List.append_nil], .exhausted hneeds hs⟩
      | some strategy =>
        by_cases hgraceful : strategy = .gracefulPartial
        · subst hgraceful
          obtain ⟨events, hevents, heq⟩ := @recover_graceful _ _ _ attempt _ hneeds hs
          rw [heq]
          refine (runHooks_returns .onRecovery).bind (fun tr _ h => ?_) (fun _ _ h hret => nomatch (h hret).2)
          intro hret
          rw [List.append_nil] at hret ⊢
          obtain ⟨rfl, -⟩ := h hret
          exact ⟨_, _, rfl, hevents, .graceful hneeds hs⟩
        · obtain ⟨events, hevents, heq⟩ := @recover_again _ _ _ attempt _ _ hneeds hs hgraceful
          rw [heq]
          refine (runHooks_returns .onRecovery).bind (fun tr _ h => ?_) (fun _ _ h hret => nomatch (h hret).2)
          refine invokeOnce_returns.bind (fun tr' x h' => ?_) fun tr' e h' hret => ?_
          · obtain ⟨result, toolReceipts⟩ := x
            have hlt : strategiesLeft policy (used ++ [strategy]) < n := hn ▸ strategiesLeft_lt (nextStrategy_usable hs)
            refine (ih _ hlt _ (attempt + 1) ⟨result, toolReceipts, events⟩ rfl).mono fun tr'' res h'' hret => ?_
            obtain ⟨hret, hret'⟩ := hooksReturn_append.mp hret
            obtain ⟨hret', hret''⟩ := hooksReturn_append.mp hret'
            obtain ⟨rfl, -⟩ := h hret
            obtain ⟨a, rfl, ha⟩ := h' hret'
            cases ha
            obtain ⟨x, strategies, hres, happlied, hcourse⟩ := h'' hret''
            refine ⟨x, strategy :: strategies, hres, ?_, .again hneeds hs hgraceful hcourse⟩
            rw [happlied, hevents, List.append_assoc, List.singleton_append]
          · obtain ⟨_, -, he⟩ := h' (hooksReturn_append.mp hret).2
            cases he
    · have hneeds : needsRecovery invoked.result = false := by simpa using hneeds
      rw [recover_done hneeds]
      exact fun _ => ⟨_, [], rfl, by simp, .done hneeds⟩

/-- An invocation makes a first attempt, and follows a course. -/
theorem invokeWithRecovery_course : (invokeWithRecovery language policy).Sat fun tr res => HooksReturn tr →
    ∃ a tr' invoked strategies, tr = attemptCalls a ++ tr' ∧ res = .ok invoked ∧ applied invoked.events = strategies ∧
      Course language policy [] a.result tr' strategies invoked.result := by
  refine invokeOnce_returns.bind (fun tr x h => ?_) fun tr e h hret => ?_
  · obtain ⟨result, toolReceipts⟩ := x
    refine (recover_course _ [] 0 ⟨result, toolReceipts, []⟩ rfl).mono fun tr' res h' hret => ?_
    obtain ⟨hret, hret'⟩ := hooksReturn_append.mp hret
    obtain ⟨a, rfl, ha⟩ := h hret
    cases ha
    obtain ⟨invoked, strategies, hres, happlied, hcourse⟩ := h' hret'
    exact ⟨a, tr', invoked, strategies, rfl, hres, happlied, hcourse⟩
  · obtain ⟨_, -, he⟩ := h hret
    cases he

end Runs

/-! ### The budget -/

/-- The strategies that were used are within the budget of a policy. -/
structure WithinBudget (policy : RecoveryPolicyV1) (used : List RecoveryStrategyV1) : Prop where
  retries : used.count .retry ≤ policy.maxRetries
  once : ∀ s ≠ .retry, used.count s ≤ 1
  hitl : used.count .hitl = 0
  narrowedChild : used.count .narrowedChild = 0

section Budget

variable {language : Language} {policy : RecoveryPolicyV1} {used strategies : List RecoveryStrategyV1}
  {result final : AgentInvocationResultV1} {tr : HostTrace}

theorem withinBudget_nil : WithinBudget policy [] := ⟨by simp, by simp, rfl, rfl⟩

/-- A strategy that may be used keeps the budget. -/
theorem WithinBudget.append {s : RecoveryStrategyV1} (h : WithinBudget policy used) (hs : usable policy used s = true) :
    WithinBudget policy (used ++ [s]) := by
  obtain ⟨hretries, honce, hhitl, hchild⟩ := h
  have hfresh : s ≠ .retry → used.count s = 0 := by
    intro hretry
    rw [List.count_eq_zero]
    cases s <;> simp_all [usable]
  constructor
  · by_cases hretry : s = .retry
    · subst hretry
      have hless : used.count .retry < policy.maxRetries := by simpa [usable] using hs
      rw [List.count_append, List.count_singleton_self]
      omega
    · rwa [List.count_append, List.count_singleton, if_neg (by simpa using hretry), Nat.add_zero]
  · intro t ht
    rw [List.count_append, List.count_singleton]
    by_cases hst : s = t
    · subst hst
      rw [hfresh ht]
      simp
    · rw [if_neg (by simpa using hst)]
      exact honce t ht
  · rw [List.count_append, hhitl, List.count_singleton, if_neg]
    rintro h
    cases eq_of_beq h
    cases hs
  · rw [List.count_append, hchild, List.count_singleton, if_neg]
    rintro h
    cases eq_of_beq h
    cases hs

/-- A list of strategies is as long as its strategies are many. -/
theorem length_eq_counts (l : List RecoveryStrategyV1) : l.length =
    l.count .retry + l.count .alternatePlan + l.count .fallbackSkill + l.count .alternateTool +
      l.count .narrowedChild + l.count .hitl + l.count .gracefulPartial := by
  induction l with
  | nil => rfl
  | cons s l ih => cases s <;> simp only [List.count_cons, List.length_cons, ih, reduceCtorEq, beq_iff_eq, if_true, if_false] <;> omega

/-- The attempts that a budget allows after the first. -/
theorem WithinBudget.length_le (h : WithinBudget policy used) :
    used.length ≤ policy.maxRetries + 3 + used.count .gracefulPartial := by
  have hplan := h.once .alternatePlan (by decide)
  have hskill := h.once .fallbackSkill (by decide)
  have htool := h.once .alternateTool (by decide)
  have hlength := length_eq_counts used
  have hretries := h.retries
  have hhitl := h.hitl
  have hchild := h.narrowedChild
  omega

/-- What the loop applies is within the budget. -/
theorem Course.withinBudget (h : Course language policy used result tr strategies final) (hused : WithinBudget policy used) :
    WithinBudget policy (used ++ strategies) := by
  induction h with
  | done => rwa [List.append_nil]
  | exhausted => rwa [List.append_nil]
  | graceful _ hs => exact hused.append (nextStrategy_usable hs)
  | again _ hs _ _ ih =>
    rw [List.append_cons]
    exact ih (hused.append (nextStrategy_usable hs))

/-! ### The calls -/

/-- Are the hooks of a recovery run? -/
def isRecovery : Answered HostCall HostCall.Answer → Bool
  | ⟨.hook .onRecovery, _⟩ => true
  | _ => false

/-- How often a strategy was applied: the hooks of a recovery are run for each. -/
def recoveries (tr : HostTrace) : ℕ := tr.countP isRecovery

@[simp] theorem attemptsOf_attemptCalls (a : Attempt) : attemptsOf (attemptCalls a) = [a] := by
  unfold attemptCalls
  cases a.outcome <;> rfl

@[simp] theorem recoveries_attemptCalls (a : Attempt) : recoveries (attemptCalls a) = 0 := by
  unfold attemptCalls
  cases a.outcome <;> rfl

@[simp] theorem attemptsOf_recoveryCall (tr : HostTrace) : attemptsOf (recoveryCall :: tr) = attemptsOf tr := rfl

@[simp] theorem recoveries_recoveryCall (tr : HostTrace) : recoveries (recoveryCall :: tr) = recoveries tr + 1 :=
  List.countP_cons_of_pos rfl

@[simp] theorem recoveries_append (tr tr' : HostTrace) : recoveries (tr ++ tr') = recoveries tr + recoveries tr' :=
  List.countP_append

theorem Course.recoveries_eq (h : Course language policy used result tr strategies final) :
    recoveries tr = strategies.length := by
  induction h with
  | done => rfl
  | exhausted => rfl
  | graceful => rfl
  | again _ _ _ _ ih => simp [ih]

/-- Every strategy but the last resort is followed by an attempt. -/
theorem Course.attempts (h : Course language policy used result tr strategies final) :
    (attemptsOf tr).length + strategies.count .gracefulPartial = strategies.length := by
  induction h with
  | done => rfl
  | exhausted => rfl
  | graceful => rfl
  | again _ _ hs _ ih =>
    rw [List.cons_append, attemptsOf_recoveryCall, attemptsOf_append, attemptsOf_attemptCalls, List.length_append,
      List.count_cons_of_ne hs, List.length_singleton, List.length_cons, ← ih]
    omega

/-- The adapter is invoked only while everything it has returned has failed, and nothing was passed off
as a partial result. -/
def Warranted (strategies : List RecoveryStrategyV1) (before : HostTrace) (call : Answered HostCall HostCall.Answer) : Prop :=
  call.1 = .invoke → (∀ a ∈ attemptsOf before, needsRecovery a.result = true) ∧
    .gracefulPartial ∉ strategies.take (recoveries before)

/-- The one invocation of an attempt. -/
theorem attemptCalls_warranted {before : HostTrace} (a : Attempt)
    (hfailed : ∀ b ∈ attemptsOf before, needsRecovery b.result = true)
    (hnot : .gracefulPartial ∉ strategies.take (recoveries before)) :
    Each (Warranted strategies) before (attemptCalls a) := by
  have hinvoke : Each (Warranted strategies) before (invocation a) := by
    refine ⟨by rintro ⟨⟩, ?_, trivial⟩
    intro _
    rw [attemptsOf_append, recoveries_append]
    exact ⟨by simpa [attemptsOf, attemptOf] using hfailed, hnot⟩
  unfold attemptCalls
  refine (each_append _ _ _).mpr ⟨hinvoke, ?_⟩
  cases a.outcome with
  | ok _ => trivial
  | error _ => exact ⟨by rintro ⟨⟩, trivial⟩

theorem Course.warranted (h : Course language policy used result tr strategies final) :
    ∀ (before : HostTrace) (earlier : List RecoveryStrategyV1), recoveries before = earlier.length →
      .gracefulPartial ∉ earlier → (∀ a ∈ attemptsOf before, needsRecovery a.result = true ∨ a.result = result) →
      Each (Warranted (earlier ++ strategies)) before tr := by
  induction h with
  | done => exact fun _ _ _ _ _ => trivial
  | exhausted => exact fun _ _ _ _ _ => trivial
  | graceful => exact fun _ _ _ _ _ => ⟨fun h => (nomatch h), trivial⟩
  | @again used strategies result final s a tr hneeds _ hs _ ih =>
    intro before earlier hlength hnot hbefore
    have hfailed : ∀ b ∈ attemptsOf before, needsRecovery b.result = true := by
      intro b hb
      rcases hbefore b hb with h | h
      · exact h
      · rw [h, hneeds]
    have hnot' : RecoveryStrategyV1.gracefulPartial ∉ earlier ++ [s] := by
      simp [hnot, Ne.symm hs]
    rw [List.append_cons earlier s strategies]
    refine ⟨fun h => (nomatch h), (each_append _ _ _).mpr ⟨attemptCalls_warranted a ?_ ?_, ih _ _ ?_ hnot' ?_⟩⟩
    · simpa [attemptsOf, attemptOf, recoveryCall] using hfailed
    · have hone : recoveries (before ++ [recoveryCall]) = (earlier ++ [s]).length := by
        rw [recoveries_append, hlength, List.length_append]
        rfl
      rwa [hone, List.take_left]
    · rw [recoveries_append, recoveries_append, hlength, recoveries_attemptCalls, List.length_append]
      rfl
    · intro b hb
      simp only [attemptsOf_append, attemptsOf_attemptCalls, List.mem_append, List.mem_singleton] at hb
      rcases hb with (hb | hb) | rfl
      · exact .inl (hfailed b hb)
      · cases hb
      · exact .inr rfl

end Budget

/-- What an invocation may cost: its calls, and the strategies that were applied. -/
structure Budgeted (policy : RecoveryPolicyV1) (tr : HostTrace) (strategies : List RecoveryStrategyV1) : Prop where
  attempts : (attemptsOf tr).length ≤ policy.maxRetries + 4
  retries : strategies.count .retry ≤ policy.maxRetries
  once : ∀ s ≠ .retry, strategies.count s ≤ 1
  /-- The hooks of a recovery are run for each strategy, in order. -/
  recoveries : recoveries tr = strategies.length
  /-- Before an invocation, everything has failed and nothing was passed off as a partial result. -/
  invocations : ∀ before a after, tr = before ++ ⟨.invoke, a⟩ :: after →
    (∀ b ∈ attemptsOf before, needsRecovery b.result = true) ∧ .gracefulPartial ∉ strategies.take (Harness.recoveries before)

/-- **Recovery ends within its budget.** For every policy that is accepted and whatever the adapter does,
an invocation ends after at most `maxRetries + 4` attempts; it retries at most `maxRetries` times and
applies every other strategy at most once; and the adapter is not invoked after a partial result was made
of a failure, nor after a result that has not failed. -/
theorem recovery_bounded (language : Language) (recovery : Option JsValue) :
    ∀ policy, parseRecoveryPolicy recovery = .ok policy → (invokeWithRecovery language policy).Sat fun tr res =>
      HooksReturn tr → ∃ invoked, res = .ok invoked ∧ Budgeted policy tr (applied invoked.events) := by
  intro policy _
  refine invokeWithRecovery_course.mono fun tr res h hret => ?_
  obtain ⟨a, tr', invoked, strategies, rfl, hres, happlied, hcourse⟩ := h hret
  refine ⟨invoked, hres, ?_⟩
  rw [happlied]
  have hbudget : WithinBudget policy strategies := hcourse.withinBudget withinBudget_nil
  have hfirst : Each (Warranted strategies) [] (attemptCalls a) :=
    attemptCalls_warranted a (by simp) (by simp [Harness.recoveries])
  have hrest : Each (Warranted strategies) (attemptCalls a) tr' :=
    hcourse.warranted (attemptCalls a) [] (recoveries_attemptCalls a) (by simp) (by simp)
  have hcalls : Each (Warranted strategies) [] (attemptCalls a ++ tr') := (each_append _ _ _).mpr ⟨hfirst, hrest⟩
  constructor
  · have hattempts := hcourse.attempts
    have hlength := hbudget.length_le
    rw [attemptsOf_append, attemptsOf_attemptCalls, List.length_append, List.length_singleton]
    omega
  · exact hbudget.retries
  · exact hbudget.once
  · rw [recoveries_append, recoveries_attemptCalls, hcourse.recoveries_eq, Nat.zero_add]
  · intro before b after hsplit
    exact (each_iff_split _ _).mp hcalls before _ after hsplit rfl

/-- A policy that lists strategies twice and in another order. -/
theorem recovery_bounded_repeated : (invokeWithRecovery sampleLanguage
    { enabled := true, maxRetries := 2, strategies := [.gracefulPartial, .retry, .retry, .gracefulPartial] }).Sat fun tr res =>
      HooksReturn tr → ∃ invoked, res = .ok invoked ∧
        Budgeted { enabled := true, maxRetries := 2, strategies := [.gracefulPartial, .retry, .retry, .gracefulPartial] } tr
          (applied invoked.events) :=
  recovery_bounded sampleLanguage (some (.object [("maxRetries", .number (.finite 2)), ("strategies", .array
    [.string "graceful-partial", .string "retry", .string "retry", .string "graceful-partial"])])) _ rfl

end Knolo.Harness
