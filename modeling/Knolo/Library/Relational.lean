import Knolo.Library.Method

/-!
# Two runs of a method

A method that looks only at a part of its state does the same in two states with the same part.
`Matched R x y` compares what two runs come to: both abort alike, or they return and log the same and
leave states that `R` relates. There is one rule for each way to put methods together.

* `bind_assoc` — sequences of methods are lawful.
* `Matched.bind` — the rule of sequencing.
* `matched_read_bind` — the rule for reading the state: the rest may differ with what was read.
* `Session.run_filter` — calls that a relation does not see can be left out of a run.
-/

namespace Knolo.Library

variable {S T L ε δ α β C : Type}

namespace Method

/-! ### Sequences -/

theorem bind_assoc (p : Method S L ε δ α) (f : α → Method S L ε δ β) {γ : Type} (g : β → Method S L ε δ γ) :
    p >>= f >>= g = p >>= fun a => f a >>= g := by
  funext s
  show (p.bind f).bind g s = p.bind (fun a => (f a).bind g) s
  unfold Method.bind
  cases p s with
  | error d => rfl
  | ok r =>
    cases hr : r.result with
    | error e => simp [hr]
    | ok a =>
      cases hf : f a r.state with
      | error d => simp [hr, hf]
      | ok r' =>
        cases hr' : r'.result with
        | error e => simp [hr, hf, hr']
        | ok b => cases hg : g b r'.state <;> simp [hr, hf, hr', hg, List.append_assoc]

instance : LawfulMonad (Method S L ε δ) :=
  LawfulMonad.mk' (Method S L ε δ)
    (fun p => by
      funext s
      show p.bind (fun a => ret a) s = p s
      unfold Method.bind
      rcases p s with d | ⟨res | a, s', l⟩ <;> simp [ret])
    (fun a f => by
      funext s
      exact bind_of_quiet rfl)
    (fun p f g => bind_assoc p f g)

/-- Sequencing after a part that changes nothing. -/
theorem Still.sat_bind {p : Method S L ε δ α} {f : α → Method S L ε δ β} {s : S} {Q : Except ε β → S → List L → Prop}
    (hp : Still p) (hf : ∀ a, (f a).Sat s Q) (herr : ∀ e, Q (.error e) s []) : (p >>= f).Sat s Q := by
  refine (hp s).bind ?_ ?_
  · rintro a _ _ ⟨rfl, rfl⟩
    exact hf a
  · rintro e _ _ ⟨rfl, rfl⟩
    exact herr e

/-! ### Two runs -/

/-- Two runs come to the same, up to states that `R` relates. -/
inductive Matched (R : S → T → Prop) : Except δ (Returned S L ε α) → Except δ (Returned T L ε α) → Prop where
  | returned {res : Except ε α} {s : S} {t : T} {l : List L} : R s t →
      Matched R (.ok { result := res, state := s, log := l }) (.ok { result := res, state := t, log := l })
  | aborted (d : δ) : Matched R (.error d) (.error d)

variable {R : S → T → Prop} {s : S} {t : T}

theorem matched_pure (a : α) (h : R s t) :
    Matched R ((pure a : Method S L ε δ α) s) ((pure a : Method T L ε δ α) t) := .returned h

theorem matched_ofExcept {x y : Except ε α} (hxy : x = y) (h : R s t) :
    Matched R ((ofExcept x : Method S L ε δ α) s) ((ofExcept y : Method T L ε δ α) t) := hxy ▸ .returned h

theorem matched_modify {f : S → S} {g : T → T} (h : R (f s) (g t)) :
    Matched R ((modify f : Method S L ε δ Unit) s) ((modify g : Method T L ε δ Unit) t) := .returned h

/-- The rule of sequencing. -/
theorem Matched.bind {p : Method S L ε δ α} {q : Method T L ε δ α} {f : α → Method S L ε δ β}
    {g : α → Method T L ε δ β} (hp : Matched R (p s) (q t))
    (hf : ∀ a s' t', R s' t' → Matched R (f a s') (g a t')) : Matched R ((p >>= f) s) ((q >>= g) t) := by
  show Matched R (p.bind f s) (q.bind g t)
  unfold Method.bind
  generalize p s = x at hp
  generalize q t = y at hp
  cases hp with
  | aborted d => exact .aborted d
  | @returned res s' t' l h =>
    cases res with
    | error e => exact .returned h
    | ok a =>
      have hrest := hf a s' t' h
      dsimp only
      generalize f a s' = x at hrest
      generalize g a t' = y at hrest
      cases hrest with
      | aborted d => exact .aborted d
      | returned h' => exact .returned h'

/-- Sequencing after reading the states. -/
theorem matched_read_bind {f : S → Method S L ε δ β} {g : T → Method T L ε δ β} (h : Matched R (f s s) (g t t)) :
    Matched R ((read >>= f) s) ((read >>= g) t) := by
  rwa [bind_of_quiet (p := read) rfl, bind_of_quiet (p := read) rfl]

/-- Sequencing after a change of the states. -/
theorem matched_modify_bind {m : S → S} {n : T → T} {f : Unit → Method S L ε δ β} {g : Unit → Method T L ε δ β}
    (h : Matched R (f () (m s)) (g () (n t))) : Matched R ((modify m >>= f) s) ((modify n >>= g) t) := by
  rwa [bind_of_quiet (p := modify m) rfl, bind_of_quiet (p := modify n) rfl]

/-- Sequencing after a computation that may fail. -/
theorem matched_ofExcept_bind {x y : Except ε α} {f : α → Method S L ε δ β} {g : α → Method T L ε δ β} (hxy : x = y)
    (hst : R s t) (h : ∀ a, x = .ok a → Matched R (f a s) (g a t)) :
    Matched R ((ofExcept x >>= f) s) ((ofExcept y >>= g) t) := by
  subst hxy
  cases x with
  | error e => exact .returned hst
  | ok a =>
    rw [bind_of_quiet (p := ofExcept (.ok a)) rfl, bind_of_quiet (p := ofExcept (.ok a)) rfl]
    exact h a rfl

end Method

/-! ### Sessions -/

namespace Session

open Method

variable (m : C → Method S L ε δ Unit)

/-- What a call returns, if it does not abort. -/
def reply (x : S) (c : C) : Except δ (Except ε Unit) := (m c x).map (·.result)

variable {m} {R : S → S → Prop} {s s' : Session S L} {c : C}

/-- A call that matches leaves related states, logs the same and returns the same. -/
theorem after_of_matched (hR : R s.state s'.state) (h : Matched R (m c s.state) (m c s'.state)) :
    R (s.after m c).state (s'.after m c).state ∧ logged m s'.state c = logged m s.state c ∧
      reply m s'.state c = reply m s.state c := by
  unfold after logged reply
  generalize m c s.state = x at h
  generalize m c s'.state = y at h
  cases h with
  | returned h' => exact ⟨h', rfl, rfl⟩
  | aborted d => exact ⟨hR, rfl, rfl⟩

/-- A call that matches itself, where what it logs is shown. -/
structure Seen (R : S → S → Prop) (shown : L → Bool) (m : C → Method S L ε δ Unit) (x : S) (c : C) : Prop where
  matched : ∀ y, R x y → Matched R (m c x) (m c y)
  shown : ∀ l ∈ logged m x c, shown l = true

/-- A call that a relation does not see, where nothing that it logs is shown. -/
structure Unseen (R : S → S → Prop) (shown : L → Bool) (m : C → Method S L ε δ Unit) (s : Session S L) (c : C) :
    Prop where
  related : ∀ y, R s.state y → R (s.after m c).state y
  hidden : ∀ l ∈ logged m s.state c, shown l = false

/-- **Calls that are not seen can be left out of a run**: the rest of the calls come to a related state, and log
what is shown of the log of all. -/
theorem run_filter {kept : C → Bool} {shown : L → Bool} (hR : R s.state s'.state) (hlog : s'.log = s.log.filter shown)
    (cs : List C)
    (hkept : ∀ pre c post, cs = pre ++ c :: post → kept c = true → Seen R shown m (s.run m pre).state c)
    (hother : ∀ pre c post, cs = pre ++ c :: post → kept c = false → Unseen R shown m (s.run m pre) c) :
    R (s.run m cs).state (s'.run m (cs.filter kept)).state ∧
      (s'.run m (cs.filter kept)).log = (s.run m cs).log.filter shown := by
  refine run_induct (I := fun pre v => R v.state (s'.run m (pre.filter kept)).state ∧
    (s'.run m (pre.filter kept)).log = v.log.filter shown) ⟨hR, hlog⟩ cs fun pre c post hcs ih => ?_
  obtain ⟨hpre, hprelog⟩ := ih
  rw [List.filter_append, run_append, after_log, List.filter_append]
  cases hc : kept c with
  | true =>
    have hseen := hkept pre c post hcs hc
    obtain ⟨hafter, hlogged, -⟩ := after_of_matched hpre (hseen.matched _ hpre)
    rw [List.filter_cons_of_pos hc, List.filter_nil, run_singleton, after_log, hlogged, hprelog,
      List.filter_eq_self.mpr hseen.shown]
    exact ⟨hafter, rfl⟩
  | false =>
    have hunseen := hother pre c post hcs hc
    have hnone : (logged m (s.run m pre).state c).filter shown = [] :=
      List.filter_eq_nil_iff.mpr fun l hl => by simp [hunseen.hidden l hl]
    rw [List.filter_cons_of_neg (by simp [hc]), List.filter_nil, run_nil, hnone, List.append_nil]
    exact ⟨hunseen.related _ hpre, hprelog⟩

end Session

end Knolo.Library
