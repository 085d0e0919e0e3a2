import Mathlib.Tactic.Common

/-!
# Fallible computations

What a successful computation in `Except` did: each lemma turns "the whole succeeded"
into "every part succeeded", so that a proof peels a `do` block apart with `obtain`
and never unfolds the monad.

`Lockstep E R` relates two computations that succeed together, with results related by
`R`, or fail together, with errors related by `E`. Its rules follow the shape of a
program, so two programs are compared part by part.
-/

namespace Knolo.Library.Fallible

variable {ε ε' α β : Type}

@[simp] theorem ok_bind (a : α) (f : α → Except ε β) : (Except.ok a >>= f) = f a := rfl

@[simp] theorem error_bind (e : ε) (f : α → Except ε β) : (Except.error e >>= f) = .error e := rfl

/-- A sequence succeeds when both parts do. -/
theorem bind_eq_ok {x : Except ε α} {f : α → Except ε β} {b : β} :
    (x >>= f) = .ok b ↔ ∃ a, x = .ok a ∧ f a = .ok b := by
  cases x with
  | ok a => simp
  | error e => simp

theorem map_eq_ok {x : Except ε α} {f : α → β} {b : β} : x.map f = .ok b ↔ ∃ a, x = .ok a ∧ f a = b := by
  cases x with
  | ok a => simp [Except.map]
  | error e => simp [Except.map]

/-- A sequence that begins with a check. -/
theorem check_bind_eq_ok {x : Except ε Unit} {f : Unit → Except ε β} {b : β} :
    (x >>= f) = .ok b ↔ x = .ok () ∧ f () = .ok b :=
  bind_eq_ok.trans ⟨fun ⟨_, hx, hf⟩ => ⟨hx, hf⟩, fun ⟨hx, hf⟩ => ⟨(), hx, hf⟩⟩

/-- A sequence fails when one of the parts does. -/
theorem bind_eq_error {x : Except ε α} {f : α → Except ε β} {e : ε} :
    (x >>= f) = .error e ↔ x = .error e ∨ ∃ a, x = .ok a ∧ f a = .error e := by
  cases x with
  | ok a => simp
  | error e => simp

/-- A list of computations fails when one of them does. -/
theorem mapM_eq_error {f : α → Except ε β} {xs : List α} {e : ε} (h : xs.mapM f = .error e) :
    ∃ x ∈ xs, f x = .error e := by
  induction xs with
  | nil => cases h
  | cons x xs ih =>
    rw [List.mapM_cons] at h
    rcases bind_eq_error.mp h with h | ⟨_, -, h⟩
    · exact ⟨x, List.mem_cons_self .., h⟩
    rcases bind_eq_error.mp h with h | ⟨_, -, h⟩
    · obtain ⟨y, hy, h⟩ := ih h
      exact ⟨y, List.mem_cons_of_mem _ hy, h⟩
    · cases h

/-- Fail with `e` unless `c`. -/
def ensure (c : Prop) [Decidable c] (e : ε) : Except ε Unit := if c then .ok () else .error e

@[simp] theorem ensure_eq_ok {c : Prop} [Decidable c] {e : ε} {u : Unit} :
    ensure c e = .ok u ↔ c := by
  by_cases h : c <;> simp [ensure, h]

/-- `ensure` fails where the condition does. -/
theorem not_of_ensure_error {c : Prop} [Decidable c] {e e' : ε} (h : ensure c e = .error e') : ¬c := by
  intro hc
  simp [ensure, hc] at h

/-- `ensure` fails with its own error. -/
theorem ensure_ne {c : Prop} [Decidable c] {e e' e'' : ε} (h : ensure c e = .error e')
    (he : e ≠ e'') : e' ≠ e'' := by
  unfold ensure at h
  split at h
  · cases h
  · cases h
    exact he

theorem toOption_eq_some {x : Except ε α} {a : α} : x.toOption = some a ↔ x = .ok a := by
  cases x <;> simp [Except.toOption]

theorem exists_of_isOk {x : Except ε α} (h : x.isOk = true) : ∃ a, x = .ok a := by
  cases x with
  | error e => cases h
  | ok a => exact ⟨a, rfl⟩

/-- A test of what two computations return, evaluated. -/
theorem exists_of_test {x : Except ε α} {y : Except ε' β} {P : α → β → Bool}
    (h : (x.toOption.bind fun a => y.toOption.map (P a)) = some true) :
    ∃ a b, x = .ok a ∧ y = .ok b ∧ P a b = true := by
  cases x with
  | error e => cases h
  | ok a =>
    cases y with
    | error e => cases h
    | ok b => exact ⟨a, b, rfl, rfl, Option.some.inj h⟩

/-! ### Two computations in step -/

/-- Both succeed, with related results, or both fail, with related errors. -/
inductive Lockstep (E : ε → ε' → Prop) (R : α → β → Prop) : Except ε α → Except ε' β → Prop
  /-- Both succeed. -/
  | ok {a : α} {b : β} : R a b → Lockstep E R (.ok a) (.ok b)
  /-- Both fail. -/
  | error {e : ε} {e' : ε'} : E e e' → Lockstep E R (.error e) (.error e')

namespace Lockstep

variable {E : ε → ε' → Prop} {R : α → β → Prop} {x : Except ε α} {y : Except ε' β}

/-- Sequences of computations in step are in step. -/
theorem bind {γ δ : Type} {S : γ → δ → Prop} {f : α → Except ε γ} {g : β → Except ε' δ}
    (h : Lockstep E R x y) (hfg : ∀ a b, R a b → Lockstep E S (f a) (g b)) :
    Lockstep E S (x >>= f) (y >>= g) := by
  cases h with
  | ok hR => exact hfg _ _ hR
  | error hE => exact .error hE

theorem mono {S : α → β → Prop} (h : Lockstep E R x y) (hRS : ∀ a b, R a b → S a b) :
    Lockstep E S x y := by
  cases h with
  | ok hR => exact .ok (hRS _ _ hR)
  | error hE => exact .error hE

/-- Computations in step, with what the first has returned. -/
theorem returned (h : Lockstep E R x y) : Lockstep E (fun a b => R a b ∧ x = .ok a) x y := by
  cases h with
  | ok hR => exact .ok ⟨hR, rfl⟩
  | error hE => exact .error hE

/-- A step of the first only, after computations in step. -/
theorem bind_left {γ : Type} {S : γ → β → Prop} {f : α → Except ε γ} (h : Lockstep E R x y)
    (hf : ∀ a b, R a b → Lockstep E S (f a) (.ok b)) : Lockstep E S (x >>= f) y := by
  cases h with
  | ok hR => exact hf _ _ hR
  | error hE => exact .error hE

/-- Where the first has succeeded, so has the second. -/
theorem ok_left {a : α} (h : Lockstep E R x y) (hx : x = .ok a) : ∃ b, y = .ok b ∧ R a b := by
  subst hx
  cases h with
  | ok hR => exact ⟨_, rfl, hR⟩

/-- Where the first has failed, so has the second. -/
theorem error_left {e : ε} (h : Lockstep E R x y) (hx : x = .error e) :
    ∃ e', y = .error e' ∧ E e e' := by
  subst hx
  cases h with
  | error hE => exact ⟨_, rfl, hE⟩

end Lockstep

end Knolo.Library.Fallible
