import Mathlib.Data.List.Basic
import Mathlib.Tactic.Common

/-!
# Programs that call a host

A program does its own computation and, at certain points, calls something it
does not own: an executor, a sink, a clock, a store. This module gives such
programs as finite trees over an arbitrary signature of calls, so that one
program can be run against any host.

## The model

* `Prog C R ε α` — a program over calls `C`, where `R c` is what call `c` is
  answered with. It returns an `α`, aborts with an `ε`, or makes a call and goes
  on with the answer. It is a lawful monad.
* `Host C R H` — a host with state `H`; `Prog.run` runs a program against it and
  `Prog.trace` is the calls made with their answers. `Prog.play` is `Prog.run` as a
  computation that may fail.
* `Runs p tr res` — some sequence of answers makes `p` behave as `tr` and end as
  `res`. Every run against a host is one of these (`runs_trace`), so a property
  of all `Runs` holds whatever the host does.
* `Sat p Q` — every behaviour of `p` satisfies `Q`, computed over the tree, with
  the rule for sequencing `sat_bind` (`sat_iff_runs` connects the two).
* `Only P Q p` — every call of `p` is one of `P`, and what it returns satisfies `Q`.
* `eval ans p` — what `p` returns when every call is answered from a table, with the
  calls it makes, `calls ans p`; a run against a host that answers so is this
  (`run_of_answers`, `trace_of_answers`).
-/

namespace Knolo.Library

/-- A program over calls `C` answered by `R`. -/
inductive Prog (C : Type) (R : C → Type) (ε α : Type) where
  /-- Return. -/
  | ret (a : α)
  /-- Abort. -/
  | throw (e : ε)
  /-- Make call `c` and go on with the answer. -/
  | call (c : C) (k : R c → Prog C R ε α)

/-- A call and its answer. -/
abbrev Answered (C : Type) (R : C → Type) := (c : C) × R c

/-- A host: what it answers, and its state afterwards. -/
abbrev Host (C : Type) (R : C → Type) (H : Type) := (c : C) → H → R c × H

namespace Prog

variable {C : Type} {R : C → Type} {ε α β γ : Type}

/-- Run `p`, then `f` on what it returns. -/
def bind : Prog C R ε α → (α → Prog C R ε β) → Prog C R ε β
  | .ret a, f => f a
  | .throw e, _ => .throw e
  | .call c k, f => .call c fun r => (k r).bind f

instance : Monad (Prog C R ε) where
  pure := .ret
  bind := Prog.bind

/-- Make a call and return its answer. -/
def ask (c : C) : Prog C R ε (R c) := .call c .ret

/-- A pure computation that may abort. -/
def ofExcept : Except ε α → Prog C R ε α
  | .ok a => .ret a
  | .error e => .throw e

@[simp] theorem pure_def (a : α) : (pure a : Prog C R ε α) = .ret a := rfl

@[simp] theorem ret_bind (a : α) (f : α → Prog C R ε β) : (Prog.ret a >>= f) = f a := rfl

@[simp] theorem throw_bind (e : ε) (f : α → Prog C R ε β) : (Prog.throw e >>= f) = .throw e := rfl

@[simp] theorem call_bind (c : C) (k : R c → Prog C R ε α) (f : α → Prog C R ε β) :
    (Prog.call c k >>= f) = .call c fun r => k r >>= f := rfl

@[simp] theorem ask_bind (c : C) (f : R c → Prog C R ε β) : (ask c >>= f) = .call c f := rfl

@[simp] theorem ofExcept_ok (a : α) : (ofExcept (.ok a) : Prog C R ε α) = .ret a := rfl

@[simp] theorem ofExcept_error (e : ε) : (ofExcept (.error e) : Prog C R ε α) = .throw e := rfl

theorem bind_ret (p : Prog C R ε α) : (p >>= Prog.ret) = p := by
  induction p with
  | ret a => rfl
  | throw e => rfl
  | call c k ih => exact congrArg (Prog.call c) (funext ih)

theorem bind_assoc (p : Prog C R ε α) (f : α → Prog C R ε β) (g : β → Prog C R ε γ) :
    (p >>= f >>= g) = p >>= fun a => f a >>= g := by
  induction p with
  | ret a => rfl
  | throw e => rfl
  | call c k ih => exact congrArg (Prog.call c) (funext ih)

instance : LawfulMonad (Prog C R ε) :=
  LawfulMonad.mk' (Prog C R ε) bind_ret (fun _ _ => rfl) bind_assoc

/-! ### Running against a host -/

variable {H : Type}

/-- Run `p` against the host `h` in state `x`. -/
def run (h : Host C R H) : Prog C R ε α → H → Except ε α × H
  | .ret a, x => (.ok a, x)
  | .throw e, x => (.error e, x)
  | .call c k, x => (k (h c x).1).run h (h c x).2

/-- The calls `p` makes against `h`, with their answers. -/
def trace (h : Host C R H) : Prog C R ε α → H → List (Answered C R)
  | .ret _, _ => []
  | .throw _, _ => []
  | .call c k, x => ⟨c, (h c x).1⟩ :: (k (h c x).1).trace h (h c x).2

@[simp] theorem run_ret (h : Host C R H) (a : α) (x : H) :
    (Prog.ret a : Prog C R ε α).run h x = (.ok a, x) := rfl

@[simp] theorem run_throw (h : Host C R H) (e : ε) (x : H) :
    (Prog.throw e : Prog C R ε α).run h x = (.error e, x) := rfl

@[simp] theorem run_call (h : Host C R H) (c : C) (k : R c → Prog C R ε α) (x : H) :
    (Prog.call c k).run h x = (k (h c x).1).run h (h c x).2 := rfl

@[simp] theorem trace_ret (h : Host C R H) (a : α) (x : H) :
    (Prog.ret a : Prog C R ε α).trace h x = [] := rfl

@[simp] theorem trace_throw (h : Host C R H) (e : ε) (x : H) :
    (Prog.throw e : Prog C R ε α).trace h x = [] := rfl

@[simp] theorem trace_call (h : Host C R H) (c : C) (k : R c → Prog C R ε α) (x : H) :
    (Prog.call c k).trace h x = ⟨c, (h c x).1⟩ :: (k (h c x).1).trace h (h c x).2 := rfl

/-- Sequencing, against a host. -/
theorem run_bind (h : Host C R H) (p : Prog C R ε α) (f : α → Prog C R ε β) (x : H) :
    (p >>= f).run h x =
      match p.run h x with
      | (.ok a, y) => (f a).run h y
      | (.error e, y) => (.error e, y) := by
  induction p generalizing x with
  | ret a => rfl
  | throw e => rfl
  | call c k ih => exact ih _ _

/-- Run `p`, and keep the state of the host only where `p` returns. -/
def play (h : Host C R H) (p : Prog C R ε α) (x : H) : Except ε (α × H) :=
  match p.run h x with
  | (.ok a, y) => .ok (a, y)
  | (.error e, _) => .error e

@[simp] theorem play_ret (h : Host C R H) (a : α) (x : H) :
    (Prog.ret a : Prog C R ε α).play h x = .ok (a, x) := rfl

@[simp] theorem play_throw (h : Host C R H) (e : ε) (x : H) :
    (Prog.throw e : Prog C R ε α).play h x = .error e := rfl

@[simp] theorem play_call (h : Host C R H) (c : C) (k : R c → Prog C R ε α) (x : H) :
    (Prog.call c k).play h x = (k (h c x).1).play h (h c x).2 := rfl

@[simp] theorem play_ofExcept_bind (h : Host C R H) (x : Except ε α) (f : α → Prog C R ε β) (y : H) :
    (ofExcept x >>= f).play h y = x >>= fun a => (f a).play h y := by
  cases x <;> rfl

/-- Sequencing, played. -/
theorem play_bind (h : Host C R H) (p : Prog C R ε α) (f : α → Prog C R ε β) (x : H) :
    (p >>= f).play h x = p.play h x >>= fun r => (f r.1).play h r.2 := by
  induction p generalizing x with
  | ret a => rfl
  | throw e => rfl
  | call c k ih => exact ih _ _

theorem play_map (h : Host C R H) (p : Prog C R ε α) (f : α → β) (x : H) :
    (f <$> p).play h x = p.play h x >>= fun r => .ok (f r.1, r.2) := by
  induction p generalizing x with
  | ret a => rfl
  | throw e => rfl
  | call c k ih => exact ih _ _

/-- What `p` returns against `h`. -/
theorem run_fst (h : Host C R H) (p : Prog C R ε α) (x : H) :
    (p.run h x).1 = (p.play h x).map Prod.fst := by
  unfold play
  rcases p.run h x with ⟨a | e, y⟩ <;> rfl

/-- A host that answers as a part of another does: a program returns the same. -/
theorem run_of_part {H' : Type} {h : Host C R H} {h' : Host C R H'} (part : H → H')
    (hpart : ∀ c x, h' c (part x) = ((h c x).1, part (h c x).2)) (p : Prog C R ε α) (x : H) :
    (p.run h x).1 = (p.run h' (part x)).1 := by
  induction p generalizing x with
  | ret a => rfl
  | throw e => rfl
  | call c k ih => rw [run_call, run_call, hpart, ih]

/-! ### Behaviours -/

/-- `p` behaves as `tr` and ends as `res`, for some answers. -/
inductive Runs : Prog C R ε α → List (Answered C R) → Except ε α → Prop
  /-- A program that returns. -/
  | ret {a : α} : Runs (.ret a) [] (.ok a)
  /-- A program that aborts. -/
  | throw {e : ε} : Runs (.throw e) [] (.error e)
  /-- A call answered by `r`. -/
  | call {c : C} {k : R c → Prog C R ε α} {r : R c} {tr : List (Answered C R)} {res : Except ε α} :
      Runs (k r) tr res → Runs (.call c k) (⟨c, r⟩ :: tr) res

/-- A behaviour of a sequence. -/
theorem Runs.bind {p : Prog C R ε α} {f : α → Prog C R ε β} {tr tr' : List (Answered C R)} {a : α} {res : Except ε β}
    (hp : Runs p tr (.ok a)) (hf : Runs (f a) tr' res) : Runs (p >>= f) (tr ++ tr') res := by
  generalize hres : (.ok a : Except ε α) = res' at hp
  induction hp with
  | ret =>
    cases hres
    exact hf
  | throw => cases hres
  | call _ ih => exact .call (ih hres)

/-- A run against a host is a behaviour. -/
theorem runs_trace (h : Host C R H) (p : Prog C R ε α) (x : H) :
    Runs p (p.trace h x) (p.run h x).1 := by
  induction p generalizing x with
  | ret a => exact .ret
  | throw e => exact .throw
  | call c k ih => exact .call (ih _ _)

/-- What a host keeps, and what its answers satisfy while it does, holds of every answer in a run. -/
theorem answers_of_kept {h : Host C R H} {I : H → Prop} {P : Answered C R → Prop}
    (hstep : ∀ c x, I x → I (h c x).2 ∧ P ⟨c, (h c x).1⟩) (p : Prog C R ε α) {x : H} (hx : I x) :
    ∀ a ∈ p.trace h x, P a := by
  induction p generalizing x with
  | ret a => simp
  | throw e => simp
  | call c k ih =>
    obtain ⟨hkept, hP⟩ := hstep c x hx
    rw [trace_call]
    intro a ha
    rcases List.mem_cons.mp ha with rfl | ha
    · exact hP
    · exact ih _ hkept a ha

/-- Every behaviour of `p` satisfies `Q`. -/
def Sat : Prog C R ε α → (List (Answered C R) → Except ε α → Prop) → Prop
  | .ret a, Q => Q [] (.ok a)
  | .throw e, Q => Q [] (.error e)
  | .call c k, Q => ∀ r, (k r).Sat fun tr res => Q (⟨c, r⟩ :: tr) res

@[simp] theorem sat_ret (a : α) (Q : List (Answered C R) → Except ε α → Prop) :
    (Prog.ret a).Sat Q ↔ Q [] (.ok a) := Iff.rfl

@[simp] theorem sat_throw (e : ε) (Q : List (Answered C R) → Except ε α → Prop) :
    (Prog.throw e).Sat Q ↔ Q [] (.error e) := Iff.rfl

@[simp] theorem sat_call (c : C) (k : R c → Prog C R ε α)
    (Q : List (Answered C R) → Except ε α → Prop) :
    (Prog.call c k).Sat Q ↔ ∀ r, (k r).Sat fun tr res => Q (⟨c, r⟩ :: tr) res := Iff.rfl

/-- `Sat` is "for every behaviour". -/
theorem sat_iff_runs {p : Prog C R ε α} {Q : List (Answered C R) → Except ε α → Prop} :
    p.Sat Q ↔ ∀ tr res, Runs p tr res → Q tr res := by
  induction p generalizing Q with
  | ret a =>
    constructor
    · rintro h _ _ ⟨⟩
      exact h
    · intro h
      exact h _ _ .ret
  | throw e =>
    constructor
    · rintro h _ _ ⟨⟩
      exact h
    · intro h
      exact h _ _ .throw
  | call c k ih =>
    constructor
    · intro h tr res hr
      cases hr with
      | call hr => exact (ih _).mp (h _) _ _ hr
    · intro h r
      exact (ih r).mpr fun tr res hr => h _ _ (.call hr)

/-- The rule of consequence. -/
theorem Sat.mono {p : Prog C R ε α} {Q Q' : List (Answered C R) → Except ε α → Prop}
    (h : p.Sat Q) (hQ : ∀ tr res, Q tr res → Q' tr res) : p.Sat Q' :=
  sat_iff_runs.mpr fun tr res hr => hQ tr res (sat_iff_runs.mp h tr res hr)

/-- The rule of sequencing. -/
theorem sat_bind {p : Prog C R ε α} {f : α → Prog C R ε β}
    {Q : List (Answered C R) → Except ε β → Prop} :
    (p >>= f).Sat Q ↔ p.Sat fun tr res =>
      match res with
      | .ok a => (f a).Sat fun tr' res' => Q (tr ++ tr') res'
      | .error e => Q tr (.error e) := by
  induction p generalizing Q with
  | ret a => simp
  | throw e => simp
  | call c k ih => exact forall_congr' fun r => ih r

/-- What a program that fails against a host has done. -/
theorem Sat.play_error {h : Host C R H} {p : Prog C R ε α} {Q : List (Answered C R) → Except ε α → Prop}
    (hp : p.Sat Q) {x : H} {e : ε} (he : p.play h x = .error e) : Q (p.trace h x) (.error e) := by
  have hr := sat_iff_runs.mp hp _ _ (runs_trace h p x)
  rw [run_fst, he] at hr
  exact hr

/-- Sequencing from a known specification of the first part. -/
theorem Sat.bind {p : Prog C R ε α} {f : α → Prog C R ε β}
    {P : List (Answered C R) → Except ε α → Prop} {Q : List (Answered C R) → Except ε β → Prop}
    (hp : p.Sat P) (hok : ∀ tr a, P tr (.ok a) → (f a).Sat fun tr' res' => Q (tr ++ tr') res')
    (herr : ∀ tr e, P tr (.error e) → Q tr (.error e)) : (p >>= f).Sat Q := by
  refine sat_bind.mpr (hp.mono fun tr res h => ?_)
  cases res with
  | ok a => exact hok tr a h
  | error e => exact herr tr e h

/-- Sequencing after a pure computation. -/
theorem Sat.ofExcept_bind {x : Except ε α} {f : α → Prog C R ε β}
    {Q : List (Answered C R) → Except ε β → Prop} (hok : ∀ a, x = .ok a → (f a).Sat Q)
    (herr : ∀ e, x = .error e → Q [] (.error e)) : (ofExcept x >>= f).Sat Q := by
  cases x with
  | ok a => exact hok a rfl
  | error e => exact herr e rfl

/-! ### Which calls are made -/

/-- Every call of `p` is one of `P`, and what `p` returns satisfies `Q`. -/
def Only (P : C → Prop) (Q : α → Prop) (p : Prog C R ε α) : Prop :=
  p.Sat fun tr res => (∀ a ∈ tr, P a.1) ∧ ∀ a, res = .ok a → Q a

section Only

variable {P : C → Prop} {Q : α → Prop}

theorem only_ret {a : α} (h : Q a) : Only P Q (Prog.ret a : Prog C R ε α) := by simp [Only, h]

theorem only_throw (e : ε) : Only P Q (Prog.throw e : Prog C R ε α) := by simp [Only]

theorem only_ask {c : C} (h : P c) : Only P (fun _ => True) (ask c : Prog C R ε (R c)) := by simp [Only, ask, h]

theorem only_ofExcept {x : Except ε α} (h : ∀ a, x = .ok a → Q a) :
    Only P Q (ofExcept x : Prog C R ε α) := by
  cases x with
  | ok a => exact only_ret (h a rfl)
  | error e => exact only_throw e

theorem Only.bind {Q' : β → Prop} {p : Prog C R ε α} {f : α → Prog C R ε β} (hp : Only P Q p)
    (hf : ∀ a, Q a → Only P Q' (f a)) : Only P Q' (p >>= f) := by
  refine Sat.bind hp (fun tr a h => (hf a (h.2 a rfl)).mono fun tr' res h' => ⟨?_, h'.2⟩) fun tr e h =>
    ⟨h.1, fun _ he => nomatch he⟩
  intro x hx
  rcases List.mem_append.mp hx with hx | hx
  · exact h.1 x hx
  · exact h'.1 x hx

theorem Only.mapM {ι : Type} {f : ι → Prog C R ε α} {l : List ι} (hf : ∀ i ∈ l, Only P (fun _ => True) (f i)) :
    Only P (fun _ => True) (l.mapM f) := by
  induction l with
  | nil => exact only_ret trivial
  | cons i l ih =>
    obtain ⟨hi, hl⟩ := List.forall_mem_cons.mp hf
    rw [List.mapM_cons]
    exact hi.bind fun _ _ => (ih hl).bind fun _ _ => only_ret trivial

end Only

/-! ### Fixed answers -/

section Eval

variable (ans : (c : C) → R c)

/-- What `p` returns when call `c` is answered `ans c`. -/
def eval : Prog C R ε α → Except ε α
  | .ret a => .ok a
  | .throw e => .error e
  | .call c k => (k (ans c)).eval

/-- The calls `p` makes when call `c` is answered `ans c`. -/
def calls : Prog C R ε α → List (Answered C R)
  | .ret _ => []
  | .throw _ => []
  | .call c k => ⟨c, ans c⟩ :: (k (ans c)).calls

@[simp] theorem eval_ret (a : α) : (Prog.ret a : Prog C R ε α).eval ans = .ok a := rfl

@[simp] theorem eval_throw (e : ε) : (Prog.throw e : Prog C R ε α).eval ans = .error e := rfl

@[simp] theorem eval_call (c : C) (k : R c → Prog C R ε α) :
    (Prog.call c k).eval ans = (k (ans c)).eval ans := rfl

@[simp] theorem eval_ofExcept (x : Except ε α) :
    (ofExcept x : Prog C R ε α).eval ans = x := by
  cases x <;> rfl

/-- Evaluation is a morphism of monads. -/
@[simp] theorem eval_bind (p : Prog C R ε α) (f : α → Prog C R ε β) :
    (p >>= f).eval ans = p.eval ans >>= fun a => (f a).eval ans := by
  induction p with
  | ret a => rfl
  | throw e => rfl
  | call c k ih => exact ih _

@[simp] theorem eval_map (p : Prog C R ε α) (f : α → β) : (f <$> p).eval ans = (p.eval ans).map f := by
  induction p with
  | ret a => rfl
  | throw e => rfl
  | call c k ih => exact ih _

theorem calls_bind (p : Prog C R ε α) (f : α → Prog C R ε β) :
    (p >>= f).calls ans = p.calls ans ++
      match p.eval ans with
      | .ok a => (f a).calls ans
      | .error _ => [] := by
  induction p with
  | ret a => rfl
  | throw e => rfl
  | call c k ih => exact congrArg (List.cons _) (ih _)

/-- An evaluation is a behaviour. -/
theorem runs_calls (p : Prog C R ε α) : Runs p (p.calls ans) (p.eval ans) := by
  induction p with
  | ret a => exact .ret
  | throw e => exact .throw
  | call c k ih => exact .call (ih _)

variable {ans} {h : Host C R H}

/-- Calls are answered from the table. -/
theorem mem_calls {p : Prog C R ε α} {a : Answered C R} (h : a ∈ p.calls ans) : a.2 = ans a.1 := by
  induction p with
  | ret _ => cases h
  | throw _ => cases h
  | call c k ih =>
    rcases List.mem_cons.mp h with rfl | h
    · rfl
    · exact ih _ h

/-- Where another table answers the calls the same, the program does the same. -/
theorem eval_congr {ans' : (c : C) → R c} (p : Prog C R ε α) (h : ∀ a ∈ p.calls ans, ans' a.1 = ans a.1) :
    p.eval ans' = p.eval ans ∧ p.calls ans' = p.calls ans := by
  induction p with
  | ret a => exact ⟨rfl, rfl⟩
  | throw e => exact ⟨rfl, rfl⟩
  | call c k ih =>
    have hc : ans' c = ans c := h ⟨c, ans c⟩ (List.mem_cons_self ..)
    obtain ⟨heval, hcalls⟩ := ih (ans c) fun a ha => h a (List.mem_cons_of_mem _ ha)
    simp only [eval_call, calls, hc]
    exact ⟨heval, congrArg _ hcalls⟩

/-- A run against a host that answers from the table. -/
theorem run_of_answers (hans : ∀ c x, (h c x).1 = ans c) (p : Prog C R ε α) (x : H) :
    (p.run h x).1 = p.eval ans := by
  induction p generalizing x with
  | ret a => rfl
  | throw e => rfl
  | call c k ih => rw [run_call, hans, ih, eval_call]

theorem trace_of_answers (hans : ∀ c x, (h c x).1 = ans c) (p : Prog C R ε α) (x : H) :
    p.trace h x = p.calls ans := by
  induction p generalizing x with
  | ret a => rfl
  | throw e => rfl
  | call c k ih => rw [trace_call, hans, ih, calls]

end Eval

end Prog

end Knolo.Library
