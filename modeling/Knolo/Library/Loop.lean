import Knolo.Library.Interaction
import Mathlib.Logic.Relation

/-!
# Loops that call a host

A loop whose body is a program over a host, run for a bounded number of
iterations. The bound is the usual fuel; the rules below take a measure that the
body decreases and conclude that the fuel does not run out.

* `loop` — the loop, and `Heads`, the loop heads a behaviour passes through.
* `heads_inv` — the invariant rule for loop heads.
* `loop_sat` — the rule for the whole loop: an invariant at every head, a
  postcondition at the end, a measure for termination.
* `loop_fuel` — beyond the measure, the amount of fuel does not matter.
* `loop_map` — loops whose bodies are in step.
* `Steps` — the heads a loop passes through when calls are answered from a table, and
  `eval_loop_of_steps`, what is left of it at any of them.
-/

namespace Knolo.Library.Prog

open Relation

variable {C : Type} {R : C → Type} {ε α β σ ρ : Type}

/-- Repeat `body` until it returns `Sum.inr`, at most `n` times; `stuck` when that
was not enough. -/
def loop (stuck : Prog C R ε ρ) (body : σ → Prog C R ε (σ ⊕ ρ)) : ℕ → σ → Prog C R ε ρ
  | 0, _ => stuck
  | n + 1, s => body s >>= fun
    | .inl s' => loop stuck body n s'
    | .inr r => .ret r

variable {stuck : Prog C R ε ρ} {body : σ → Prog C R ε (σ ⊕ ρ)}

@[simp] theorem loop_succ (n : ℕ) (s : σ) :
    loop stuck body (n + 1) s = body s >>= fun
      | .inl s' => loop stuck body n s'
      | .inr r => .ret r := rfl

/-- The heads of the loop: `Heads body s tr s'` when some behaviour of the loop
started at `s` is back at the head in `s'` after the calls `tr`. -/
inductive Heads (body : σ → Prog C R ε (σ ⊕ ρ)) (s : σ) : List (Answered C R) → σ → Prop
  /-- The first head. -/
  | start : Heads body s [] s
  /-- One more iteration. -/
  | step {tr tr' : List (Answered C R)} {u v : σ} :
      Heads body s tr u → Runs (body u) tr' (.ok (.inl v)) → Heads body s (tr ++ tr') v

/-- **The invariant rule**: what one iteration preserves holds at every head. -/
theorem heads_inv {I : List (Answered C R) → σ → Prop} {s : σ} (h0 : I [] s)
    (hstep : ∀ tr u, I tr u → (body u).Sat fun tr' res => ∀ v, res = .ok (.inl v) → I (tr ++ tr') v)
    {tr : List (Answered C R)} {u : σ} (h : Heads body s tr u) : I tr u := by
  induction h with
  | start => exact h0
  | step _ hr ih => exact sat_iff_runs.mp (hstep _ _ ih) _ _ hr _ rfl

/-- One more iteration at the front. -/
theorem Heads.head {s v u : σ} {tr tr' : List (Answered C R)} (hr : Runs (body s) tr (.ok (.inl v)))
    (h : Heads body v tr' u) : Heads body s (tr ++ tr') u := by
  induction h with
  | start =>
    rw [List.append_nil]
    exact Heads.start.step hr
  | step _ hr' ih =>
    rw [← List.append_assoc]
    exact ih.step hr'

/-- **The rule for the loop**: an invariant `I` of the heads, a measure `μ` the body
decreases, and a postcondition `Q` of the ends. -/
theorem loop_sat {I : List (Answered C R) → σ → Prop}
    {Q : List (Answered C R) → Except ε ρ → Prop} (μ : σ → ℕ)
    (hstep : ∀ tr s, I tr s → (body s).Sat fun tr' res =>
      match res with
      | .ok (.inl v) => I (tr ++ tr') v ∧ μ v < μ s
      | .ok (.inr r) => Q (tr ++ tr') (.ok r)
      | .error e => Q (tr ++ tr') (.error e))
    (n : ℕ) : ∀ (tr : List (Answered C R)) (s : σ), I tr s → μ s < n →
      (loop stuck body n s).Sat fun tr' res => Q (tr ++ tr') res := by
  induction n with
  | zero => intro tr s _ hn; omega
  | succ n ih =>
    intro tr s hI hn
    rw [loop_succ, sat_bind]
    refine (hstep tr s hI).mono fun tr' res h => ?_
    match res, h with
    | .ok (.inl v), h =>
      have := ih (tr ++ tr') v h.1 (by omega)
      simpa only [List.append_assoc] using this
    | .ok (.inr r), h => simpa using h
    | .error e, h => exact h

/-- Two continuations that agree on what `p` can return. -/
theorem bind_congr_of_sat {p : Prog C R ε α} {f g : α → Prog C R ε β}
    (h : p.Sat fun _ res => ∀ a, res = .ok a → f a = g a) : (p >>= f) = p >>= g := by
  induction p with
  | ret a => exact h a rfl
  | throw e => rfl
  | call c k ih => exact congrArg (Prog.call c) (funext fun r => ih r (h r))

/-- Beyond the measure, the amount of fuel does not matter. -/
theorem loop_fuel (μ : σ → ℕ)
    (hμ : ∀ s, (body s).Sat fun _ res => ∀ v, res = .ok (.inl v) → μ v < μ s) (n : ℕ) :
    ∀ (m : ℕ) (s : σ), μ s < n → μ s < m → loop stuck body n s = loop stuck body m s := by
  induction n with
  | zero => intro m s hn; omega
  | succ n ih =>
    intro m s hn hm
    obtain ⟨m, rfl⟩ : ∃ k, m = k + 1 := ⟨m - 1, by omega⟩
    refine bind_congr_of_sat ((hμ s).mono fun tr res h a ha => ?_)
    cases a with
    | inl v =>
      have := h v ha
      exact ih m v (by omega) (by omega)
    | inr r => rfl

/-! ### Loops in step -/

/-- A body that does the same to mapped states, in step, makes a loop that does. -/
theorem loop_map {τ υ : Type} {e : ε} {body' : τ → Prog C R ε (τ ⊕ υ)} {f : σ → τ} {g : ρ → υ}
    (hbody : ∀ s, body' (f s) = Sum.map f g <$> body s) (n : ℕ) (s : σ) :
    loop (.throw e) body' n (f s) = g <$> loop (.throw e) body n s := by
  induction n generalizing s with
  | zero => rfl
  | succ n ih =>
    rw [loop_succ, loop_succ, hbody, map_bind, bind_map_left]
    refine congrArg _ (funext fun a => ?_)
    cases a with
    | inl s' => exact ih s'
    | inr r => rfl

/-! ### Along a deterministic run -/

section Deterministic

variable {r : σ → σ → Prop} {a b : σ} {P : σ → Prop}

/-- What holds from `a` on, where `b` is the only next state. -/
theorem forall_reach_step (h : ∀ c, r a c ↔ c = b) :
    (∀ c, ReflTransGen r a c → P c) ↔ P a ∧ ∀ c, ReflTransGen r b c → P c := by
  constructor
  · intro hall
    exact ⟨hall a .refl, fun c hc => hall c (.head ((h b).mpr rfl) hc)⟩
  · rintro ⟨ha, hall⟩ c hc
    rcases ReflTransGen.cases_head hc with rfl | ⟨d, had, hdc⟩
    · exact ha
    · obtain rfl := (h d).mp had
      exact hall c hdc

/-- What holds from `a` on, where there is no next state. -/
theorem forall_reach_final (h : ∀ c, ¬ r a c) : (∀ c, ReflTransGen r a c → P c) ↔ P a := by
  constructor
  · intro hall
    exact hall a .refl
  · rintro ha c hc
    rcases ReflTransGen.cases_head hc with rfl | ⟨d, had, -⟩
    · exact ha
    · exact absurd had (h d)

end Deterministic

/-! ### With fixed answers -/

variable (ans : (c : C) → R c)

/-- One iteration that goes on, answered by `ans`. -/
def Step (body : σ → Prog C R ε (σ ⊕ ρ)) (a b : σ) : Prop := (body a).eval ans = .ok (.inl b)

/-- The heads a loop passes through, answered by `ans`. -/
abbrev Steps (body : σ → Prog C R ε (σ ⊕ ρ)) : σ → σ → Prop := ReflTransGen (Step ans body)

variable {ans}

/-- A head passed through is one of a behaviour. -/
theorem heads_of_steps {s u : σ} (h : Steps ans body s u) : ∃ tr, Heads body s tr u := by
  induction h with
  | refl => exact ⟨[], .start⟩
  | @tail u v _ hstep ih =>
    obtain ⟨tr, htr⟩ := ih
    have hr := runs_calls ans (body u)
    rw [hstep] at hr
    exact ⟨_, htr.step hr⟩

/-- At any head it passes through, what is left is the loop from there. -/
theorem eval_loop_of_steps (μ : σ → ℕ)
    (hμ : ∀ s, (body s).Sat fun _ res => ∀ v, res = .ok (.inl v) → μ v < μ s) {a b : σ}
    (hs : Steps ans body a b) :
    (loop stuck body (μ a + 1) a).eval ans = (loop stuck body (μ b + 1) b).eval ans := by
  induction hs using ReflTransGen.head_induction_on with
  | refl => rfl
  | @head a c hac _ ih =>
    have hlt : μ c < μ a := by
      have hr := runs_calls ans (body a)
      rw [hac] at hr
      exact sat_iff_runs.mp (hμ a) _ _ hr _ rfl
    rw [loop_succ, eval_bind, hac, ← ih]
    exact congrArg _ (loop_fuel μ hμ _ _ _ (by omega) (by omega))

/-- A call the loop makes is made in the iteration of some head. -/
theorem mem_calls_loop (hstuck : stuck.calls ans = []) {n : ℕ} {s : σ} {c : Answered C R}
    (hc : c ∈ (loop stuck body n s).calls ans) : ∃ u, Steps ans body s u ∧ c ∈ (body u).calls ans := by
  induction n generalizing s with
  | zero => simp [loop, hstuck] at hc
  | succ n ih =>
    rw [loop_succ, calls_bind, List.mem_append] at hc
    rcases hc with hc | hc
    · exact ⟨s, .refl, hc⟩
    · cases hb : (body s).eval ans with
      | error e => simp [hb] at hc
      | ok a =>
        cases a with
        | inr r => simp [hb, calls] at hc
        | inl v =>
          obtain ⟨u, hu, hcu⟩ := ih (by simpa [hb] using hc)
          exact ⟨u, .head hb hu, hcu⟩

end Knolo.Library.Prog
