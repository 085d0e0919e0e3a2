import Knolo.Harness.RecoveryBudget

/-!
# Denials

A failure that a policy, an authority or a prohibition has caused is not to be recovered from.
`classifyFailure` goes by the words of the failure, and looks for those of a timeout first: a denial
that mentions a timeout is retried, or passed off as a partial result.

* `denial_final_iff` — when no strategy is applied to a denial, whatever was tried before.
* `denial_last` — in a run, a denial that mentions no timeout is the last attempt, and is returned.
-/

namespace Knolo.Harness

open Script Library

section Texts

variable (language : Language) (result : AgentInvocationResultV1)

/-- What a failure says, in lower case. -/
def failureText : String :=
  let error := result.error.getD ""
  let output := (stringifyOutput language result.output).getD "undefined"
  language.toLowerCase s!"{error} {output}"

/-- The words of a timeout. -/
def timeoutMarkers : List String := ["timeout", "etimedout", "timed out", "tool_timeout"]

/-- The words of a denial. -/
def policyMarkers : List String := ["prohibited", "denied", "authority", "policy", "escalation"]

/-- A failure has one of the words. -/
def Mentions (markers : List String) : Prop := ∃ word ∈ markers, includes (failureText language result) word = true

instance (markers : List String) : Decidable (Mentions language result markers) :=
  inferInstanceAs (Decidable (∃ word ∈ markers, _))

variable {language result}

/-- A denial counts as one unless it mentions a timeout. -/
theorem classifyFailure_policy_iff (hdenied : Mentions language result policyMarkers) :
    classifyFailure language result = .policy ↔ ¬ Mentions language result timeoutMarkers := by
  have htimeout : timeoutMarkers.any (includes (failureText language result)) = true ↔
      Mentions language result timeoutMarkers := List.any_eq_true
  have hpolicy : policyMarkers.any (includes (failureText language result)) = true := List.any_eq_true.mpr hdenied
  obtain ⟨rest, hclass⟩ : ∃ rest, classifyFailure language result =
      if timeoutMarkers.any (includes (failureText language result)) = true then .timeout
      else if policyMarkers.any (includes (failureText language result)) = true then .policy else rest := ⟨_, rfl⟩
  rw [← htimeout, hclass]
  by_cases htime : timeoutMarkers.any (includes (failureText language result)) = true
  · exact iff_of_false (by rw [if_pos htime]; decide) (not_not_intro htime)
  · exact iff_of_true (by rw [if_neg htime, if_pos hpolicy]) htime

end Texts

section Loop

variable {language : Language} {policy : RecoveryPolicyV1}

/-- When no strategy is applied to a denial. -/
theorem nextStrategy_denied_iff {used : List RecoveryStrategyV1} {result : AgentInvocationResultV1}
    (hdenied : Mentions language result policyMarkers) :
    nextStrategy policy (classifyFailure language result) used = none ↔
      ¬ Mentions language result timeoutMarkers ∨ policy.enabled = false ∨
        policy.strategies.find? (usable policy used) = none := by
  rw [← classifyFailure_policy_iff hdenied]
  unfold nextStrategy
  split_ifs with henabled hpolicy
  · exact iff_of_true rfl (.inr (.inl henabled))
  · exact iff_of_true rfl (.inl hpolicy)
  · simp [henabled, hpolicy]

/-- No strategy is applied: nothing is called, and the result stays as it is. -/
def Final (loop : RunM Invoked) (result : AgentInvocationResultV1) : Prop :=
  loop.Sat fun tr res => tr = [] ∧ ∃ x, res = .ok x ∧ x.result = result

/-- The loop applies a strategy exactly if there is one. -/
theorem final_recover_iff {used : List RecoveryStrategyV1} {attempt : ℕ} {invoked : Invoked}
    (hfailed : needsRecovery invoked.result = true) :
    Final (recover language policy used attempt invoked) invoked.result ↔
      nextStrategy policy (classifyFailure language invoked.result) used = none := by
  cases hs : nextStrategy policy (classifyFailure language invoked.result) used with
  | none =>
    obtain ⟨events, -, heq⟩ := @recover_exhausted _ _ _ attempt _ hfailed hs
    rw [heq]
    exact iff_of_true ⟨rfl, _, rfl, rfl⟩ rfl
  | some s =>
    refine iff_of_false (fun hfinal => ?_) (by simp)
    by_cases hgraceful : s = .gracefulPartial
    · subst hgraceful
      obtain ⟨events, -, heq⟩ := @recover_graceful _ _ _ attempt _ hfailed hs
      rw [heq] at hfinal
      exact nomatch (hfinal (.error "")).1
    · obtain ⟨events, -, heq⟩ := @recover_again _ _ _ attempt _ _ hfailed hs hgraceful
      rw [heq] at hfinal
      exact nomatch (hfinal (.error "")).1

/-- **When a denial is final.** For every failure that has the words of a denial, every policy and whatever
was tried before: no strategy is applied exactly if the failure does not mention a timeout, or the policy is
disabled, or it has no strategy left. -/
theorem denial_final_iff (language : Language) (policy : RecoveryPolicyV1) (used : List RecoveryStrategyV1)
    (attempt : ℕ) (invoked : Invoked) (hfailed : needsRecovery invoked.result = true)
    (hdenied : Mentions language invoked.result policyMarkers) :
    Final (recover language policy used attempt invoked) invoked.result ↔
      ¬ Mentions language invoked.result timeoutMarkers ∨ policy.enabled = false ∨
        policy.strategies.find? (usable policy used) = none := by
  rw [final_recover_iff hfailed, nextStrategy_denied_iff hdenied]

/-- A failure with a message. -/
def failedWith (message : String) : Invoked where
  result := { status := .failed, output := some .null, error := some message }
  toolReceipts := []
  events := []

/-- A denial that mentions a timeout is retried. -/
theorem denial_retried : ¬ ∀ (language : Language) (policy : RecoveryPolicyV1) (used : List RecoveryStrategyV1)
    (attempt : ℕ) (invoked : Invoked), needsRecovery invoked.result = true →
    Mentions language invoked.result policyMarkers →
    Final (recover language policy used attempt invoked) invoked.result := by
  intro h
  have hfinal := h sampleLanguage defaultPolicy [] 0 (failedWith "tool_timeout: access denied") rfl (by decide +kernel)
  rw [final_recover_iff rfl] at hfinal
  revert hfinal
  decide +kernel

/-- A denial that mentions none is final. -/
theorem denial_final_plain :
    (needsRecovery (failedWith "access denied").result = true ∧
      Mentions sampleLanguage (failedWith "access denied").result policyMarkers) ∧
    (Final (recover sampleLanguage defaultPolicy [] 0 (failedWith "access denied")) (failedWith "access denied").result ↔
      ¬ Mentions sampleLanguage (failedWith "access denied").result timeoutMarkers ∨ defaultPolicy.enabled = false ∨
        defaultPolicy.strategies.find? (usable defaultPolicy []) = none) :=
  ⟨⟨rfl, by decide +kernel⟩, denial_final_iff _ _ _ _ _ rfl (by decide +kernel)⟩

/-! ### Of a run -/

/-- After a denial that mentions no timeout, the loop ends. -/
theorem Course.denied {used strategies : List RecoveryStrategyV1} {result final : AgentInvocationResultV1} {tr : HostTrace}
    (h : Course language policy used result tr strategies final)
    (hdenied : Mentions language result policyMarkers) (htime : ¬ Mentions language result timeoutMarkers) :
    tr = [] ∧ strategies = [] ∧ final = result := by
  have hnone : nextStrategy policy (classifyFailure language result) used = none :=
    (nextStrategy_denied_iff hdenied).mpr (.inl htime)
  cases h with
  | done => exact ⟨rfl, rfl, rfl⟩
  | exhausted => exact ⟨rfl, rfl, rfl⟩
  | graceful _ hs => rw [hnone] at hs; cases hs
  | again _ hs => rw [hnone] at hs; cases hs

/-- So it is for every attempt of the loop. -/
theorem Course.denied_last {used strategies : List RecoveryStrategyV1} {result final : AgentInvocationResultV1} {tr : HostTrace}
    (h : Course language policy used result tr strategies final) :
    ∀ pre a post, attemptsOf tr = pre ++ a :: post →
      Mentions language a.result policyMarkers → ¬ Mentions language a.result timeoutMarkers →
      post = [] ∧ final = a.result := by
  induction h with
  | done => intro pre a post hsplit; simp at hsplit
  | exhausted => intro pre a post hsplit; simp at hsplit
  | graceful => intro pre a post hsplit; simp at hsplit
  | @again used strategies result final s b tr _ _ _ hcourse ih =>
    intro pre a post hsplit hdenied htime
    rw [List.cons_append, attemptsOf_recoveryCall, attemptsOf_append, attemptsOf_attemptCalls,
      List.singleton_append] at hsplit
    cases pre with
    | nil =>
      obtain ⟨rfl, rfl⟩ := List.cons.inj hsplit
      obtain ⟨rfl, -, hfinal⟩ := hcourse.denied hdenied htime
      exact ⟨rfl, hfinal⟩
    | cons c pre => exact ih pre a post (List.cons.inj hsplit).2 hdenied htime

/-- **A denial that mentions no timeout is final.** It is the last attempt of its run, and is what the run
returns. -/
theorem denial_last (language : Language) (policy : RecoveryPolicyV1) : (invokeWithRecovery language policy).Sat fun tr res =>
    HooksReturn tr → ∀ pre a post, attemptsOf tr = pre ++ a :: post →
      Mentions language a.result policyMarkers → ¬ Mentions language a.result timeoutMarkers →
      post = [] ∧ ∃ invoked, res = .ok invoked ∧ invoked.result = a.result := by
  refine invokeWithRecovery_course.mono fun tr res h hret pre a post hsplit hdenied htime => ?_
  obtain ⟨b, tr', invoked, strategies, rfl, hres, -, hcourse⟩ := h hret
  rw [attemptsOf_append, attemptsOf_attemptCalls, List.singleton_append] at hsplit
  cases pre with
  | nil =>
    obtain ⟨rfl, rfl⟩ := List.cons.inj hsplit
    obtain ⟨rfl, -, hfinal⟩ := hcourse.denied hdenied htime
    exact ⟨rfl, invoked, hres, hfinal⟩
  | cons c pre =>
    obtain ⟨rfl, hfinal⟩ := hcourse.denied_last pre a post (List.cons.inj hsplit).2 hdenied htime
    exact ⟨rfl, invoked, hres, hfinal⟩

end Loop

end Knolo.Harness
