import Knolo.Library.Interaction

/-!
# Programs that share an environment

Several programs run against one environment, which has a state. At any point one of them makes its
next call and is answered; the answer may depend on the state and change it. What they do together
is a log of calls, each with the program that made it.

* `Prog.Reaches p tr q` — after the calls `tr`, program `q` is left of `p`. A program that has come
  that far can be answered to its end (`Reaches.exists_runs`), so what holds of every behaviour and of
  its initial parts holds of every part of one (`Sat.reaches`).
* `Shared programs answers s₀ log s` — from state `s₀`, the programs together have made the calls
  `log`, in any order of their steps, and the state is `s`. Each has followed its own program
  (`Shared.reaches`), and every call was answered by the state it was made in (`Shared.answered`).
  One of them may go on alone (`Shared.run`).
* `countP_le_of_own` — what each program does at least as often as something else, they do together.
-/

namespace Knolo.Library

namespace Prog

variable {C : Type} {R : C → Type} {ε α : Type}

/-- After the calls `tr`, program `q` is left of `p`. -/
inductive Reaches : Prog C R ε α → List (Answered C R) → Prog C R ε α → Prop
  /-- No call was made. -/
  | refl {p : Prog C R ε α} : Reaches p [] p
  /-- The first call was answered by `r`. -/
  | call {c : C} {k : R c → Prog C R ε α} {r : R c} {tr : List (Answered C R)} {q : Prog C R ε α} :
      Reaches (k r) tr q → Reaches (.call c k) (⟨c, r⟩ :: tr) q

variable {p q : Prog C R ε α} {tr tr' : List (Answered C R)}

/-- One more call. -/
theorem Reaches.snoc {c : C} {k : R c → Prog C R ε α} (h : Reaches p tr (.call c k)) (r : R c) :
    Reaches p (tr ++ [⟨c, r⟩]) (k r) := by
  generalize hq : Prog.call c k = q at h
  induction h with
  | refl =>
    subst hq
    exact .call .refl
  | call _ ih => exact .call (ih hq)

/-- A behaviour of what is left goes on from the calls made. -/
theorem Reaches.runs {res : Except ε α} (h : Reaches p tr q) (hq : Runs q tr' res) : Runs p (tr ++ tr') res := by
  induction h with
  | refl => exact hq
  | call _ ih => exact .call (ih hq)

/-- A behaviour is as far as a program comes. -/
theorem Runs.reaches {a : α} (h : Runs p tr (.ok a)) : Reaches p tr (.ret a) := by
  generalize hres : (.ok a : Except ε α) = res at h
  induction h with
  | ret =>
    cases hres
    exact .refl
  | throw => cases hres
  | call _ ih => exact .call (ih hres)

/-- How a program has ended, if it has. -/
def ended : Prog C R ε α → Option (Except ε α)
  | .ret a => some (.ok a)
  | .throw e => some (.error e)
  | .call _ _ => none

variable [∀ c, Nonempty (R c)]

/-- A program can be answered to its end. -/
theorem exists_runs (p : Prog C R ε α) : ∃ tr res, Runs p tr res := by
  induction p with
  | ret a => exact ⟨[], _, .ret⟩
  | throw e => exact ⟨[], _, .throw⟩
  | call c k ih =>
    obtain ⟨r⟩ := (inferInstance : Nonempty (R c))
    obtain ⟨tr, res, h⟩ := ih r
    exact ⟨_, res, .call h⟩

/-- What holds of all behaviours, and of the beginning of what it holds of, holds of every part of one. -/
theorem Sat.reaches {Q : List (Answered C R) → Prop} (hp : p.Sat fun tr _ => Q tr)
    (hQ : ∀ tr tr', Q (tr ++ tr') → Q tr) (h : Reaches p tr q) : Q tr := by
  obtain ⟨tr', res, hq⟩ := exists_runs q
  exact hQ tr tr' (sat_iff_runs.mp hp _ _ (h.runs hq))

end Prog

/-! ### A shared environment -/

section Sharing

variable {C : Type} {R : C → Type} {ε α ι S : Type} [DecidableEq ι]

/-- The calls that program `i` has made. -/
def own (i : ι) (log : List (ι × Answered C R)) : List (Answered C R) :=
  log.filterMap fun e => if e.1 = i then some e.2 else none

@[simp] theorem own_nil (i : ι) : own i ([] : List (ι × Answered C R)) = [] := rfl

@[simp] theorem own_append (i : ι) (log log' : List (ι × Answered C R)) :
    own i (log ++ log') = own i log ++ own i log' := List.filterMap_append ..

@[simp] theorem own_cons_self (i : ι) (a : Answered C R) (log : List (ι × Answered C R)) :
    own i ((i, a) :: log) = a :: own i log := by simp [own]

theorem own_cons_ne {i j : ι} (h : j ≠ i) (a : Answered C R) (log : List (ι × Answered C R)) :
    own i ((j, a) :: log) = own i log := by simp [own, h]

theorem mem_own {i : ι} {a : Answered C R} {log : List (ι × Answered C R)} : a ∈ own i log ↔ (i, a) ∈ log := by
  simp only [own, List.mem_filterMap, Option.ite_none_right_eq_some, Option.some.injEq]
  constructor
  · rintro ⟨⟨j, b⟩, hmem, rfl, rfl⟩
    exact hmem
  · intro h
    exact ⟨(i, a), h, rfl, rfl⟩

@[simp] theorem own_map_self (i : ι) (tr : List (Answered C R)) : own i (tr.map fun a => (i, a)) = tr := by
  simp [own, List.filterMap_map]

theorem own_map_ne {i j : ι} (h : j ≠ i) (tr : List (Answered C R)) : own i (tr.map fun a => (j, a)) = [] := by
  simp [own, List.filterMap_map, h]

/-- The log without the calls of a program. -/
theorem own_filter_ne {i j : ι} (h : j ≠ i) (log : List (ι × Answered C R)) :
    own i (log.filter fun e => e.1 ≠ j) = own i log := by
  induction log with
  | nil => rfl
  | cons e log ih =>
    obtain ⟨k, a⟩ := e
    by_cases hk : k = j
    · subst hk
      rw [List.filter_cons_of_neg (by simp), ih, own_cons_ne h]
    · rw [List.filter_cons_of_pos (by simpa using hk)]
      by_cases hki : k = i
      · subst hki
        rw [own_cons_self, own_cons_self, ih]
      · rw [own_cons_ne hki, own_cons_ne hki, ih]

theorem own_filter_self (i : ι) (log : List (ι × Answered C R)) : own i (log.filter fun e => e.1 ≠ i) = [] := by
  rw [own, List.filterMap_eq_nil_iff]
  intro e he
  rw [if_neg]
  simpa using (List.mem_filter.mp he).2

theorem countP_own_add (i : ι) (P : Answered C R → Bool) (log : List (ι × Answered C R)) :
    (log.map Prod.snd).countP P =
      (own i log).countP P + ((log.filter fun e => e.1 ≠ i).map Prod.snd).countP P := by
  induction log with
  | nil => rfl
  | cons e log ih =>
    obtain ⟨k, a⟩ := e
    by_cases hk : k = i
    · subst hk
      rw [own_cons_self, List.filter_cons_of_neg (by simp), List.map_cons, List.countP_cons, List.countP_cons, ih]
      exact Nat.add_right_comm ..
    · rw [own_cons_ne hk, List.filter_cons_of_pos (by simpa using hk), List.map_cons, List.map_cons,
        List.countP_cons, List.countP_cons, ih]
      omega

/-- What each program does at least as often as something else, they do together. -/
theorem countP_le_of_own {P Q : Answered C R → Bool} : ∀ {n : ℕ} {log : List (ι × Answered C R)}, log.length ≤ n →
    (∀ i, (own i log).countP P ≤ (own i log).countP Q) → (log.map Prod.snd).countP P ≤ (log.map Prod.snd).countP Q
  | 0, log, hn, _ => by simp [List.length_eq_zero_iff.mp (Nat.le_zero.mp hn)]
  | _ + 1, [], _, _ => by simp
  | n + 1, e :: log, hn, h => by
    have hlen : ((e :: log).filter fun f => f.1 ≠ e.1).length ≤ n := by
      rw [List.filter_cons_of_neg (by simp)]
      exact Nat.le_trans (List.length_filter_le ..) (Nat.le_of_succ_le_succ hn)
    rw [countP_own_add e.1 P, countP_own_add e.1 Q]
    refine Nat.add_le_add (h e.1) (countP_le_of_own hlen fun i => ?_)
    by_cases hi : e.1 = i
    · subst hi
      rw [own_filter_self]
      exact Nat.le_refl _
    · rw [own_filter_ne hi]
      exact h i

/-- A call of program `i`, found in the log. -/
theorem own_eq_append_cons {i : ι} {a : Answered C R} {tr tr' : List (Answered C R)} :
    ∀ {log : List (ι × Answered C R)}, own i log = tr ++ a :: tr' →
      ∃ before after, log = before ++ (i, a) :: after ∧ own i before = tr ∧ own i after = tr' := by
  intro log
  induction log generalizing tr with
  | nil =>
    intro h
    simp at h
  | cons e log ih =>
    intro h
    obtain ⟨j, b⟩ := e
    by_cases hj : j = i
    · subst hj
      rw [own_cons_self] at h
      cases tr with
      | nil =>
        obtain ⟨rfl, rfl⟩ := List.cons.inj h
        exact ⟨[], log, rfl, rfl, rfl⟩
      | cons b' tr =>
        obtain ⟨rfl, hrest⟩ := List.cons.inj h
        obtain ⟨before, after, rfl, rfl, rfl⟩ := ih hrest
        exact ⟨(j, b) :: before, after, rfl, own_cons_self .., rfl⟩
    · rw [own_cons_ne hj] at h
      obtain ⟨before, after, rfl, rfl, rfl⟩ := ih h
      exact ⟨(j, b) :: before, after, rfl, own_cons_ne hj .., rfl⟩

variable (programs : ι → Prog C R ε α) (answers : (c : C) → S → R c → S → Prop) (s₀ : S)

/-- From state `s₀`, the programs together have made the calls of the log. -/
inductive Shared : List (ι × Answered C R) → S → Prop
  /-- No call was made. -/
  | nil : Shared [] s₀
  /-- Program `i` makes its next call. -/
  | snoc {log : List (ι × Answered C R)} {s s' : S} {i : ι} {c : C} {k : R c → Prog C R ε α} {r : R c} :
      Shared log s → (programs i).Reaches (own i log) (.call c k) → answers c s r s' →
        Shared (log ++ [(i, ⟨c, r⟩)]) s'

variable {programs answers s₀} {log log' : List (ι × Answered C R)} {s : S}

/-- Each program does as it would alone. -/
theorem Shared.reaches (h : Shared programs answers s₀ log s) (i : ι) : ∃ q, (programs i).Reaches (own i log) q := by
  induction h with
  | nil => exact ⟨_, .refl⟩
  | @snoc log s s' j c k r _ hp _ ih =>
    by_cases hj : j = i
    · subst hj
      refine ⟨k r, ?_⟩
      rw [own_append, own_cons_self, own_nil]
      exact hp.snoc r
    · rw [own_append, own_cons_ne hj, own_nil, List.append_nil]
      exact ih

/-- Every call was answered by the state it was made in. -/
theorem Shared.answered {i : ι} {a : Answered C R} (h : Shared programs answers s₀ log' s)
    {after : List (ι × Answered C R)} (hlog : log' = log ++ (i, a) :: after) :
    ∃ t t', Shared programs answers s₀ log t ∧ answers a.1 t a.2 t' := by
  induction h generalizing after with
  | nil => simp at hlog
  | @snoc log₀ s s' j c k r h _ ha ih =>
    rcases List.eq_nil_or_concat after with rfl | ⟨after, e, rfl⟩
    · obtain ⟨rfl, he⟩ := List.append_inj' hlog rfl
      cases he
      exact ⟨_, _, h, ha⟩
    · rw [List.concat_eq_append, ← List.cons_append, ← List.append_assoc] at hlog
      exact ih (List.append_inj' hlog rfl).1

/-- A program that goes on alone, to its end. -/
theorem Shared.run {host : Host C R S} (hhost : ∀ c t, answers c t (host c t).1 (host c t).2) {i : ι}
    {q : Prog C R ε α} (h : Shared programs answers s₀ log s) (hi : (programs i).Reaches (own i log) q) :
    Shared programs answers s₀ (log ++ (q.trace host s).map fun a => (i, a)) (q.run host s).2 := by
  induction q generalizing log s with
  | ret a =>
    rw [Prog.trace_ret, List.map_nil, List.append_nil]
    exact h
  | throw e =>
    rw [Prog.trace_throw, List.map_nil, List.append_nil]
    exact h
  | call c k ih =>
    rw [Prog.trace_call, List.map_cons, ← List.singleton_append, ← List.append_assoc]
    refine ih _ (.snoc h hi (hhost c s)) ?_
    rw [own_append, own_cons_self, own_nil]
    exact hi.snoc _

end Sharing

end Knolo.Library
