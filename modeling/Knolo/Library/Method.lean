import Mathlib.Data.List.Induction
import Mathlib.Tactic.Common

/-!
# Methods that may fail

A method works on a state it owns a reference to, may return an error, and keeps what it has
changed when it does. What is worth observing of it is a log. It may also abort, which leaves
nothing.

* `Method S L ε δ α` — a method on states `S`, with log entries `L`, errors `ε` and aborts `δ`.
* `Method.Sat p s Q` — what `p` returns, leaves and logs from `s` satisfies `Q`, unless it
  aborts. `sat_bind` is the rule for sequences: a failing first part ends the sequence with its
  changes kept.
* `Method.Keeps I p` — `p` preserves `I`.
* `Session` — a state and a log, after calls of methods (`Session.run`). `run_induct` is the
  induction over the calls.
-/

namespace Knolo.Library

/-- What a method has returned, left and logged. -/
structure Returned (S L ε α : Type) where
  result : Except ε α
  state : S
  log : List L

/-- A method on states `S`. -/
def Method (S L ε δ α : Type) := S → Except δ (Returned S L ε α)

namespace Method

variable {S L ε δ α β : Type}

/-- Return a value. -/
def ret (a : α) : Method S L ε δ α := fun s => .ok { result := .ok a, state := s, log := [] }

/-- Run `p`, then `f` on what it returns. -/
def bind (p : Method S L ε δ α) (f : α → Method S L ε δ β) : Method S L ε δ β := fun s =>
  match p s with
  | .error d => .error d
  | .ok r =>
    match r.result with
    | .error e => .ok { result := .error e, state := r.state, log := r.log }
    | .ok a =>
      match f a r.state with
      | .error d => .error d
      | .ok r' => .ok { r' with log := r.log ++ r'.log }

instance : Monad (Method S L ε δ) where
  pure := ret
  bind := bind

/-- The state. -/
def read : Method S L ε δ S := fun s => .ok { result := .ok s, state := s, log := [] }

/-- Change the state. -/
def modify (f : S → S) : Method S L ε δ Unit := fun s => .ok { result := .ok (), state := f s, log := [] }

/-- A computation that may fail. -/
def ofExcept (x : Except ε α) : Method S L ε δ α := fun s => .ok { result := x, state := s, log := [] }

/-- Change the error that `p` returns. -/
def mapError (f : ε → ε) (p : Method S L ε δ α) : Method S L ε δ α := fun s =>
  (p s).map fun r => { r with result := r.result.mapError f }

/-- Add to the log. -/
def tell (l : L) : Method S L ε δ Unit := fun s => .ok { result := .ok (), state := s, log := [l] }

/-- Run `p` and return its result, be it an error. -/
def observe (p : Method S L ε δ α) : Method S L ε δ (Except ε α) := fun s =>
  (p s).map fun r => { r with result := .ok r.result }

/-- Abort. -/
def abort (d : δ) : Method S L ε δ α := fun _ => .error d

/-- What `p` returns, leaves and logs from `s` satisfies `Q`, unless it aborts. -/
def Sat (p : Method S L ε δ α) (s : S) (Q : Except ε α → S → List L → Prop) : Prop :=
  ∀ r, p s = .ok r → Q r.result r.state r.log

variable {s : S} {Q : Except ε α → S → List L → Prop}

@[simp] theorem sat_pure {a : α} : (pure a : Method S L ε δ α).Sat s Q ↔ Q (.ok a) s [] :=
  ⟨fun h => h _ rfl, fun h r hr => by cases hr; exact h⟩

@[simp] theorem sat_read {Q : Except ε S → S → List L → Prop} :
    (read : Method S L ε δ S).Sat s Q ↔ Q (.ok s) s [] :=
  ⟨fun h => h _ rfl, fun h r hr => by cases hr; exact h⟩

@[simp] theorem sat_modify {f : S → S} {Q : Except ε Unit → S → List L → Prop} :
    (modify f : Method S L ε δ Unit).Sat s Q ↔ Q (.ok ()) (f s) [] :=
  ⟨fun h => h _ rfl, fun h r hr => by cases hr; exact h⟩

@[simp] theorem sat_ofExcept {x : Except ε α} :
    (ofExcept x : Method S L ε δ α).Sat s Q ↔ Q x s [] :=
  ⟨fun h => h _ rfl, fun h r hr => by cases hr; exact h⟩

@[simp] theorem sat_tell {l : L} {Q : Except ε Unit → S → List L → Prop} :
    (tell l : Method S L ε δ Unit).Sat s Q ↔ Q (.ok ()) s [l] :=
  ⟨fun h => h _ rfl, fun h r hr => by cases hr; exact h⟩

theorem sat_abort {d : δ} : (abort d : Method S L ε δ α).Sat s Q := fun _ h => by cases h

/-- Methods that change what another returns. -/
theorem sat_map {g : Except ε α → Except ε β} {p : Method S L ε δ α} {Q : Except ε β → S → List L → Prop} :
    Sat (fun s => (p s).map fun r => { result := g r.result, state := r.state, log := r.log }) s Q ↔
      p.Sat s fun res s' l => Q (g res) s' l := by
  unfold Sat
  cases hp : p s with
  | error d => simp [Except.map, hp]
  | ok r => simp [Except.map, hp]

theorem sat_observe {p : Method S L ε δ α} {Q : Except ε (Except ε α) → S → List L → Prop} :
    (observe p).Sat s Q ↔ p.Sat s fun res s' l => Q (.ok res) s' l := sat_map

theorem sat_mapError {f : ε → ε} {p : Method S L ε δ α} :
    (p.mapError f).Sat s Q ↔ p.Sat s fun res s' l => Q (res.mapError f) s' l := sat_map

/-- The rule of consequence. -/
theorem Sat.mono {p : Method S L ε δ α} {Q' : Except ε α → S → List L → Prop} (h : p.Sat s Q)
    (hQ : ∀ res s' l, Q res s' l → Q' res s' l) : p.Sat s Q' :=
  fun r hr => hQ _ _ _ (h r hr)

/-- Two specifications at once. -/
theorem Sat.and {p : Method S L ε δ α} {Q' : Except ε α → S → List L → Prop} (h : p.Sat s Q) (h' : p.Sat s Q') :
    p.Sat s fun res s' l => Q res s' l ∧ Q' res s' l :=
  fun r hr => ⟨h r hr, h' r hr⟩

/-- The rule of sequencing. -/
theorem sat_bind {p : Method S L ε δ α} {f : α → Method S L ε δ β}
    {Q : Except ε β → S → List L → Prop} :
    (p >>= f).Sat s Q ↔ p.Sat s fun res s' l =>
      match res with
      | .ok a => (f a).Sat s' fun res' s'' l' => Q res' s'' (l ++ l')
      | .error e => Q (.error e) s' l := by
  show (p.bind f).Sat s Q ↔ _
  constructor
  · intro h r hr
    cases hres : r.result with
    | error e => exact h { result := .error e, state := r.state, log := r.log } (by simp [bind, hr, hres])
    | ok a =>
      intro r' hr'
      exact h { r' with log := r.log ++ r'.log } (by simp [bind, hr, hres, hr'])
  · intro h r hr
    cases hp : p s with
    | error d => simp [bind, hp] at hr
    | ok r₁ =>
      have h₁ := h r₁ hp
      cases hres : r₁.result with
      | error e =>
        simp only [bind, hp, hres, Except.ok.injEq] at hr
        subst hr
        simpa [hres] using h₁
      | ok a =>
        cases hf : f a r₁.state with
        | error d => simp [bind, hp, hres, hf] at hr
        | ok r₂ =>
          simp only [bind, hp, hres, hf, Except.ok.injEq] at hr
          subst hr
          simp only [hres] at h₁
          exact h₁ r₂ hf

/-- Sequencing from a known specification of the first part. -/
theorem Sat.bind {p : Method S L ε δ α} {f : α → Method S L ε δ β} {Q : Except ε β → S → List L → Prop}
    {P : Except ε α → S → List L → Prop} (hp : p.Sat s P)
    (hok : ∀ a s' l, P (.ok a) s' l → (f a).Sat s' fun res' s'' l' => Q res' s'' (l ++ l'))
    (herr : ∀ e s' l, P (.error e) s' l → Q (.error e) s' l) : (p >>= f).Sat s Q := by
  refine sat_bind.mpr (hp.mono fun res s' l h => ?_)
  cases res with
  | ok a => exact hok a s' l h
  | error e => exact herr e s' l h

/-- Sequencing after a computation that may fail. -/
theorem Sat.ofExcept_bind {x : Except ε α} {f : α → Method S L ε δ β} {Q : Except ε β → S → List L → Prop}
    (hok : ∀ a, x = .ok a → (f a).Sat s Q) (herr : ∀ e, x = .error e → Q (.error e) s []) :
    (ofExcept x >>= f).Sat s Q := by
  refine sat_bind.mpr (sat_ofExcept.mpr ?_)
  cases x with
  | ok a => exact hok a rfl
  | error e => exact herr e rfl

/-- Sequencing after reading the state. -/
theorem sat_read_bind {f : S → Method S L ε δ β} {Q : Except ε β → S → List L → Prop} :
    (read >>= f).Sat s Q ↔ (f s).Sat s Q := by
  simp [sat_bind]

/-- Sequencing after a change of the state. -/
theorem sat_modify_bind {g : S → S} {f : Unit → Method S L ε δ β} {Q : Except ε β → S → List L → Prop} :
    (modify g >>= f).Sat s Q ↔ (f ()).Sat (g s) Q := by
  simp [sat_bind]

/-- Sequencing after a first part that logs nothing. -/
theorem bind_of_quiet {p : Method S L ε δ α} {f : α → Method S L ε δ β} {s s' : S} {a : α}
    (hp : p s = .ok { result := .ok a, state := s', log := [] }) : (p >>= f) s = f a s' := by
  show p.bind f s = _
  simp only [bind, hp, List.nil_append]
  cases f a s' <;> rfl

/-- A method for each item of a list, of which each logs nothing. -/
theorem forM_of_quiet {p : β → Method S L ε δ PUnit} {g : S → β → S} (l : List β)
    (hp : ∀ b ∈ l, ∀ s, p b s = .ok { result := .ok ⟨⟩, state := g s b, log := [] }) (s : S) :
    l.forM p s = .ok { result := .ok ⟨⟩, state := l.foldl g s, log := [] } := by
  induction l generalizing s with
  | nil => rfl
  | cons b l ih =>
    exact (bind_of_quiet (hp b (List.mem_cons_self ..) s)).trans
      (ih (fun b hb => hp b (List.mem_cons_of_mem _ hb)) _)

/-- Dropping what a method returns changes nothing else. -/
theorem drop_eq {p : Method S L ε δ α} {r : Returned S L ε α} (hp : p s = .ok r) :
    (do let _ ← p : Method S L ε δ Unit) s =
      .ok { result := r.result.map fun _ => (), state := r.state, log := r.log } := by
  show p.bind (fun _ => ret ()) s = _
  cases hr : r.result with
  | error e => simp [bind, hp, hr, Except.map]
  | ok a => simp [bind, ret, hp, hr, Except.map]

/-! ### Invariants -/

/-- `p` preserves `I`, whether it succeeds or fails. -/
def Keeps (I : S → Prop) (p : Method S L ε δ α) : Prop := ∀ s, I s → p.Sat s fun _ s' _ => I s'

variable {I : S → Prop}

theorem keeps_pure (a : α) : Keeps I (pure a : Method S L ε δ α) := fun _ hs => sat_pure.mpr hs

theorem keeps_ofExcept (x : Except ε α) : Keeps I (ofExcept x : Method S L ε δ α) := fun _ hs => sat_ofExcept.mpr hs

theorem keeps_modify {f : S → S} (h : ∀ s, I s → I (f s)) : Keeps I (modify f : Method S L ε δ Unit) :=
  fun s hs => sat_modify.mpr (h s hs)

/-- Sequences preserve what their parts do. -/
theorem Keeps.bind {p : Method S L ε δ α} {f : α → Method S L ε δ β} (hp : Keeps I p)
    (hf : ∀ a, Keeps I (f a)) : Keeps I (p >>= f) := by
  intro s hs
  refine sat_bind.mpr ((hp s hs).mono fun res s' _ h => ?_)
  cases res with
  | ok a => exact hf a s' h
  | error e => exact h

/-- A method for each item of a list preserves what it does for each. -/
theorem Keeps.forM {p : β → Method S L ε δ PUnit} (l : List β) (hp : ∀ b, Keeps I (p b)) : Keeps I (l.forM p) := by
  induction l with
  | nil => exact keeps_pure _
  | cons b l ih => exact (hp b).bind fun _ => ih

/-- Reading the state gives a state with the invariant. -/
theorem Keeps.read_bind {f : S → Method S L ε δ β} (hf : ∀ s, I s → Keeps I (f s)) : Keeps I (read >>= f) :=
  fun s hs => sat_read_bind.mpr (hf s hs s hs)

/-- What a method preserves, it preserves when its result is observed. -/
theorem Keeps.observe {p : Method S L ε δ α} (hp : Keeps I p) : Keeps I p.observe :=
  fun s hs => sat_observe.mpr (hp s hs)

theorem Keeps.mapError {p : Method S L ε δ α} (hp : Keeps I p) (f : ε → ε) : Keeps I (p.mapError f) :=
  fun s hs => sat_mapError.mpr (hp s hs)

theorem keeps_tell (l : L) : Keeps I (tell l : Method S L ε δ Unit) := fun _ hs => sat_tell.mpr hs

/-- `p` succeeds where `I` holds, logs nothing, and preserves `I`. -/
def Succeeds (I : S → Prop) (p : Method S L ε δ α) : Prop :=
  ∀ s, I s → ∃ a s', p s = .ok { result := .ok a, state := s', log := [] } ∧ I s'

theorem succeeds_pure (a : α) : Succeeds I (pure a : Method S L ε δ α) := fun s hs => ⟨a, s, rfl, hs⟩

theorem succeeds_modify {f : S → S} (h : ∀ s, I s → I (f s)) : Succeeds I (modify f : Method S L ε δ Unit) :=
  fun s hs => ⟨(), f s, rfl, h s hs⟩

theorem succeeds_ofExcept {x : Except ε α} (h : ∃ a, x = .ok a) : Succeeds I (ofExcept x : Method S L ε δ α) := by
  obtain ⟨a, rfl⟩ := h
  exact fun s hs => ⟨a, s, rfl, hs⟩

/-- Sequences succeed where their parts do. -/
theorem Succeeds.bind {p : Method S L ε δ α} {f : α → Method S L ε δ β} (hp : Succeeds I p)
    (hf : ∀ a, Succeeds I (f a)) : Succeeds I (p >>= f) := by
  intro s hs
  obtain ⟨a, s', hp, hs'⟩ := hp s hs
  obtain ⟨b, s'', hf, hs''⟩ := hf a s' hs'
  exact ⟨b, s'', (bind_of_quiet hp).trans hf, hs''⟩

theorem Succeeds.forM {p : β → Method S L ε δ PUnit} (l : List β) (hp : ∀ b, Succeeds I (p b)) :
    Succeeds I (l.forM p) := by
  induction l with
  | nil => exact succeeds_pure _
  | cons b l ih => exact (hp b).bind fun _ => ih

/-! ### Invariants of the log -/

/-- From `s`, with `past` logged before, `p` ends where `J` holds of the log and the state. -/
def Ends (J : List L → S → Prop) (past : List L) (p : Method S L ε δ α) (s : S) : Prop :=
  p.Sat s fun _ s' l => J (past ++ l) s'

variable {J : List L → S → Prop} {past : List L}

theorem ends_pure {a : α} (h : J past s) : Ends J past (pure a : Method S L ε δ α) s :=
  sat_pure.mpr (by rwa [List.append_nil])

/-- Sequencing from a known specification of the first part. -/
theorem Ends.of_sat {p : Method S L ε δ α} {f : α → Method S L ε δ β} {P : Except ε α → S → List L → Prop}
    (hp : p.Sat s P) (hok : ∀ a s' l, P (.ok a) s' l → Ends J (past ++ l) (f a) s')
    (herr : ∀ e s' l, P (.error e) s' l → J (past ++ l) s') : Ends J past (p >>= f) s := by
  refine hp.bind (fun a s' l h => ?_) herr
  exact (hok a s' l h).mono fun _ _ _ h => by rwa [List.append_assoc] at h

/-- Sequencing after a change of the state. -/
theorem Ends.of_modify {g : S → S} {f : Unit → Method S L ε δ β} (h : Ends J past (f ()) (g s)) :
    Ends J past (modify g >>= f) s :=
  sat_modify_bind.mpr h

/-- Sequencing after something was logged. -/
theorem Ends.of_tell {l : L} {f : Unit → Method S L ε δ β} (h : Ends J (past ++ [l]) (f ()) s) :
    Ends J past (tell l >>= f) s := by
  refine Ends.of_sat (P := fun res s' l' => (∃ a, res = .ok a) ∧ s' = s ∧ l' = [l])
    (sat_tell.mpr ⟨⟨(), rfl⟩, rfl, rfl⟩) ?_ ?_
  · rintro _ _ _ ⟨-, rfl, rfl⟩
    exact h
  · rintro _ _ _ ⟨⟨_, h⟩, -⟩
    cases h

theorem ends_tell {l : L} (h : J (past ++ [l]) s) : Ends J past (tell l : Method S L ε δ Unit) s := sat_tell.mpr h

/-- `p` changes and logs nothing. -/
def Still (p : Method S L ε δ α) : Prop := ∀ s, p.Sat s fun _ s' l => s' = s ∧ l = []

theorem still_ofExcept (x : Except ε α) : Still (ofExcept x : Method S L ε δ α) := fun _ => sat_ofExcept.mpr ⟨rfl, rfl⟩

theorem Still.read {f : S → Method S L ε δ α} (hf : ∀ s, Still (f s)) : Still (read >>= f) :=
  fun s => sat_read_bind.mpr (hf s s)

/-- Sequencing after a part that changes nothing. -/
theorem Still.ends {p : Method S L ε δ α} {f : α → Method S L ε δ β} (hp : Still p) (hJ : J past s)
    (hf : ∀ a, Ends J past (f a) s) : Ends J past (p >>= f) s := by
  refine Ends.of_sat (hp s) ?_ ?_
  · rintro a _ _ ⟨rfl, rfl⟩
    rw [List.append_nil]
    exact hf a
  · rintro _ _ _ ⟨rfl, rfl⟩
    rwa [List.append_nil]

/-! ### Methods that do not abort -/

/-- `p` does not abort from `s`. -/
def Returns (p : Method S L ε δ α) (s : S) : Prop := ∃ r, p s = .ok r

theorem returns_ofExcept {x : Except ε α} : (ofExcept x : Method S L ε δ α).Returns s := ⟨_, rfl⟩

theorem returns_pure {a : α} : (pure a : Method S L ε δ α).Returns s := ⟨_, rfl⟩

/-- Sequences that do not abort. -/
theorem Returns.bind {p : Method S L ε δ α} {f : α → Method S L ε δ β} (hp : p.Returns s)
    (hf : p.Sat s fun res s' _ => ∀ a, res = .ok a → (f a).Returns s') : (p >>= f).Returns s := by
  obtain ⟨r, hr⟩ := hp
  have hf := hf r hr
  show ∃ r, p.bind f s = .ok r
  cases hres : r.result with
  | error e => exact ⟨{ result := .error e, state := r.state, log := r.log }, by simp [Method.bind, hr, hres]⟩
  | ok a =>
    obtain ⟨r', hr'⟩ := hf a hres
    exact ⟨{ r' with log := r.log ++ r'.log }, by simp [Method.bind, hr, hres, hr']⟩

/-! ### Methods that succeed -/

/-- From `s`, `p` succeeds, and `Q` holds of what it returns and leaves. -/
def Achieves (p : Method S L ε δ α) (s : S) (Q : α → S → Prop) : Prop :=
  ∃ a s' l, p s = .ok { result := .ok a, state := s', log := l } ∧ Q a s'

variable {R : α → S → Prop} {T : β → S → Prop}

theorem achieves_pure {a : α} (h : R a s) : (pure a : Method S L ε δ α).Achieves s R := ⟨a, s, [], rfl, h⟩

theorem Achieves.mono {p : Method S L ε δ α} {R' : α → S → Prop} (h : p.Achieves s R) (hR : ∀ a s', R a s' → R' a s') :
    p.Achieves s R' := by
  obtain ⟨a, s', l, hp, ha⟩ := h
  exact ⟨a, s', l, hp, hR a s' ha⟩

/-- Sequences that succeed. -/
theorem Achieves.bind {p : Method S L ε δ α} {f : α → Method S L ε δ β} (hp : p.Achieves s R)
    (hf : ∀ a s', R a s' → (f a).Achieves s' T) : (p >>= f).Achieves s T := by
  obtain ⟨a, s', l, hp, ha⟩ := hp
  obtain ⟨b, s'', l', hf, hb⟩ := hf a s' ha
  refine ⟨b, s'', l ++ l', ?_, hb⟩
  show p.bind f s = _
  simp [Method.bind, hp, hf]

theorem achieves_read_bind {f : S → Method S L ε δ β} (h : (f s).Achieves s T) : (read >>= f).Achieves s T :=
  Achieves.bind (R := fun a s' => a = s ∧ s' = s) ⟨s, s, [], rfl, rfl, rfl⟩ (by rintro _ _ ⟨rfl, rfl⟩; exact h)

theorem achieves_ofExcept_bind {x : Except ε α} {f : α → Method S L ε δ β} {a : α} (hx : x = .ok a)
    (h : (f a).Achieves s T) : (ofExcept x >>= f).Achieves s T := by
  subst hx
  exact Achieves.bind (R := fun b s' => b = a ∧ s' = s) ⟨a, s, [], rfl, rfl, rfl⟩ (by rintro _ _ ⟨rfl, rfl⟩; exact h)

theorem achieves_modify {g : S → S} {T : Unit → S → Prop} (h : T () (g s)) :
    (modify g : Method S L ε δ Unit).Achieves s T := ⟨(), g s, [], rfl, h⟩

end Method

/-! ### Sessions -/

/-- A state after calls of methods, and what the calls have logged. -/
@[ext]
structure Session (S L : Type) where
  state : S
  log : List L

namespace Session

variable {S L ε δ C : Type} (m : C → Method S L ε δ Unit)

/-- The session after one more call. A call that aborts leaves nothing. -/
def after (s : Session S L) (c : C) : Session S L :=
  match m c s.state with
  | .ok r => { state := r.state, log := s.log ++ r.log }
  | .error _ => s

/-- The session after calls, in order. -/
def run (s : Session S L) (cs : List C) : Session S L := cs.foldl (after m) s

@[simp] theorem run_nil (s : Session S L) : s.run m [] = s := rfl

@[simp] theorem run_append (s : Session S L) (cs cs' : List C) :
    s.run m (cs ++ cs') = (s.run m cs).run m cs' := List.foldl_append ..

@[simp] theorem run_singleton (s : Session S L) (c : C) : s.run m [c] = s.after m c := rfl

/-- What one more call logs. -/
def logged (x : S) (c : C) : List L :=
  match m c x with
  | .ok r => r.log
  | .error _ => []

theorem after_log (s : Session S L) (c : C) : (s.after m c).log = s.log ++ logged m s.state c := by
  unfold after logged
  cases m c s.state <;> simp

variable {m}

/-- What a call does, from its specification. -/
theorem after_of_sat {s : Session S L} {c : C} {T : S → List L → Prop}
    (h : (m c).Sat s.state fun _ s' l => T s' l) (habort : T s.state []) :
    T (s.after m c).state (logged m s.state c) := by
  unfold after logged
  cases hm : m c s.state with
  | ok r => exact h r hm
  | error d => exact habort

/-- What a call does, where no call aborts. -/
theorem after_of_sat_of_isEmpty [IsEmpty δ] {s : Session S L} {c : C} {T : S → List L → Prop}
    (h : (m c).Sat s.state fun _ s' l => T s' l) : T (s.after m c).state (logged m s.state c) := by
  unfold after logged
  cases hm : m c s.state with
  | ok r => exact h r hm
  | error d => exact isEmptyElim d

/-- What every call preserves holds after every run: the calls before and the one made are at
hand. -/
theorem run_induct {s : Session S L} {I : List C → Session S L → Prop} (h0 : I [] s) (cs : List C)
    (hstep : ∀ pre c post, cs = pre ++ c :: post → I pre (s.run m pre) → I (pre ++ [c]) ((s.run m pre).after m c)) :
    I cs (s.run m cs) := by
  induction cs using List.reverseRecOn with
  | nil => exact h0
  | append_singleton cs c ih =>
    rw [run_append, run_singleton]
    refine hstep cs c [] rfl (ih fun pre c' post hcs hI => hstep pre c' (post ++ [c]) ?_ hI)
    rw [hcs, List.append_assoc, List.cons_append]

end Session

end Knolo.Library
