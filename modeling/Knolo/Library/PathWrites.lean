import Mathlib.Data.List.Infix
import Mathlib.Order.WellFounded
import Mathlib.Tactic.Common

/-!
# Writing at paths

Values whose parts are found under names, such as documents with members and items. A path is a list
of names; what is written at a path is read there, and nothing else changes but what is below it.

* `walk_put_below`, `walk_put_frame`, `outline_put` — what a write at a path changes;
* `walk_putAll_first` — of several writes of a value without parts, those count whose paths do not
  lead through others;
* `outline_putAll_congr` — **noninterference**: the result says nothing about what was at the paths.
-/

namespace Knolo.Library

/-- Values with parts under names. -/
structure Parts (T V : Type) where
  /-- The part under a name. -/
  child : T → V → Option V
  /-- Another value for the part under a name. -/
  setChild : T → V → V → V
  /-- A value without what is in its parts. -/
  outline : V → V
  child_set_self {t : T} {y v : V} : (child t v).isSome → child t (setChild t y v) = some y
  child_set_ne {t u : T} {y v : V} : u ≠ t → child u (setChild t y v) = child u v
  outline_set {t : T} {y v : V} : (child t v).isSome → outline (setChild t y v) = outline v
  child_of_outline {t : T} {v w : V} : outline v = outline w → (child t v).isSome = (child t w).isSome

namespace Parts

variable {T V : Type} (P : Parts T V)

/-- The value at a path. -/
def walk : List T → V → Option V
  | [], v => some v
  | t :: ts, v => (P.child t v).bind (walk ts)

/-- Write a value at a path that is there. -/
def put : List T → V → V → Option V
  | [], s, _ => some s
  | t :: ts, s, v => (P.child t v).bind fun x => (put ts s x).map fun y => P.setChild t y v

variable {P} {t : T} {ts p q : List T} {s v v' w : V}

theorem walk_append : P.walk (p ++ q) v = (P.walk p v).bind (P.walk q) := by
  induction p generalizing v with
  | nil => rfl
  | cons t p ih =>
    simp only [List.cons_append, walk, Option.bind_assoc]
    exact Option.bind_congr fun x _ => ih

theorem put_cons : P.put (t :: ts) s v = some v' ↔
    ∃ x y, P.child t v = some x ∧ P.put ts s x = some y ∧ P.setChild t y v = v' := by
  simp only [put, Option.bind_eq_some_iff, Option.map_eq_some_iff]
  constructor
  · rintro ⟨x, hx, y, hy, rfl⟩
    exact ⟨x, y, hx, hy, rfl⟩
  · rintro ⟨x, y, hx, hy, rfl⟩
    exact ⟨x, hx, y, hy, rfl⟩

/-- A path can be written at if it is there. -/
theorem isSome_put : (P.put p s v).isSome = (P.walk p v).isSome := by
  induction p generalizing v with
  | nil => rfl
  | cons t p ih =>
    rw [put, walk]
    cases P.child t v with
    | none => rfl
    | some x => simpa using ih

/-- What is read at and below the path. -/
theorem walk_put_below (h : P.put p s v = some v') : P.walk (p ++ q) v' = P.walk q s := by
  induction p generalizing v v' with
  | nil =>
    cases h
    rfl
  | cons t p ih =>
    obtain ⟨x, y, hx, hy, rfl⟩ := put_cons.mp h
    rw [List.cons_append, walk, P.child_set_self (by rw [hx]; rfl)]
    exact ih hy

/-- What is read beside the path. -/
theorem walk_put_frame (h : P.put p s v = some v') (hpq : ¬ p <+: q) (hqp : ¬ q <+: p) :
    P.walk q v' = P.walk q v := by
  induction p generalizing v v' q with
  | nil => exact absurd List.nil_prefix hpq
  | cons t p ih =>
    obtain ⟨x, y, hx, hy, rfl⟩ := put_cons.mp h
    cases q with
    | nil => exact absurd List.nil_prefix hqp
    | cons u q =>
      rw [walk, walk]
      by_cases hut : u = t
      · subst hut
        rw [P.child_set_self (by rw [hx]; rfl), hx]
        refine ih hy (fun hpre => hpq ?_) fun hpre => hqp ?_
        · exact List.cons_prefix_cons.mpr ⟨rfl, hpre⟩
        · exact List.cons_prefix_cons.mpr ⟨rfl, hpre⟩
      · rw [P.child_set_ne hut]

/-- What is read above the path. -/
theorem outline_put (h : P.put p s v = some v') (hqp : q <+: p) (hne : q ≠ p) :
    (P.walk q v').map P.outline = (P.walk q v).map P.outline := by
  induction p generalizing v v' q with
  | nil => exact absurd (List.prefix_nil.mp hqp) hne
  | cons t p ih =>
    obtain ⟨x, y, hx, hy, rfl⟩ := put_cons.mp h
    have hsome : (P.child t v).isSome := by rw [hx]; rfl
    cases q with
    | nil => exact congrArg some (P.outline_set hsome)
    | cons u q =>
      obtain ⟨rfl, hpre⟩ := List.cons_prefix_cons.mp hqp
      rw [walk, walk, P.child_set_self hsome, hx]
      exact ih hy hpre fun heq => hne (by rw [heq])

/-- Whether a path is there depends on the outlines above it. -/
theorem isSome_walk_of_outline (h : (P.walk p v).map P.outline = (P.walk p w).map P.outline) :
    (P.walk (p ++ [t]) v).isSome = (P.walk (p ++ [t]) w).isSome := by
  have hlast : ∀ x : V, P.walk [t] x = P.child t x := fun x => by
    rw [walk]
    cases P.child t x <;> rfl
  rw [walk_append, walk_append]
  cases hv : P.walk p v with
  | none =>
    rw [hv] at h
    rw [Option.map_eq_none_iff.mp h.symm]
  | some x =>
    rw [hv] at h
    obtain ⟨y, hy, houtline⟩ := Option.map_eq_some_iff.mp h.symm
    rw [hy, Option.bind_some, Option.bind_some, hlast, hlast]
    exact P.child_of_outline houtline.symm

/-! ### Several paths -/

variable (P) in
/-- Write a value at each of several paths, one after the other; those that are not there are left out. -/
def putAll (ps : List (List T)) (s v : V) : V := ps.foldl (fun v p => (P.put p s v).getD v) v

variable {ps : List (List T)}

theorem putAll_concat : P.putAll (ps ++ [p]) s v = (P.put p s (P.putAll ps s v)).getD (P.putAll ps s v) := by
  simp [putAll]

/-- A path is at one of the paths or below. -/
def Covered (ps : List (List T)) (q : List T) : Prop := ∃ p ∈ ps, p <+: q

/-- A path is one of the paths and below no other. -/
def First (ps : List (List T)) (q : List T) : Prop := q ∈ ps ∧ ∀ p ∈ ps, p <+: q → p = q

theorem not_covered_concat (h : ¬ Covered (ps ++ [p]) q) : ¬ Covered ps q ∧ ¬ p <+: q :=
  ⟨fun ⟨r, hr, hpre⟩ => h ⟨r, List.mem_append_left _ hr, hpre⟩,
    fun hpre => h ⟨p, List.mem_append_right _ (.head _), hpre⟩⟩

/-- What is read beside all of the paths. -/
theorem walk_putAll_frame (h : ∀ p ∈ ps, ¬ p <+: q ∧ ¬ q <+: p) : P.walk q (P.putAll ps s v) = P.walk q v := by
  induction ps using List.reverseRecOn with
  | nil => rfl
  | append_singleton ps p ih =>
    have hps := ih fun r hr => h r (List.mem_append_left _ hr)
    obtain ⟨hpq, hqp⟩ := h p (List.mem_append_right _ (.head _))
    rw [putAll_concat]
    cases hput : P.put p s (P.putAll ps s v) with
    | none => exact hps
    | some v' => exact (walk_put_frame hput hpq hqp).trans hps

/-- What is read above the paths and beside them. -/
theorem outline_putAll (h : ¬ Covered ps q) :
    (P.walk q (P.putAll ps s v)).map P.outline = (P.walk q v).map P.outline := by
  induction ps using List.reverseRecOn with
  | nil => rfl
  | append_singleton ps p ih =>
    obtain ⟨hps, hpq⟩ := not_covered_concat h
    rw [putAll_concat, ← ih hps]
    cases hput : P.put p s (P.putAll ps s v) with
    | none => rfl
    | some v' =>
      rw [Option.getD_some]
      by_cases hqp : q <+: p
      · exact outline_put hput hqp fun heq => hpq (heq ▸ List.prefix_rfl)
      · rw [walk_put_frame hput hpq hqp]

/-- Every path that is covered is at or below a first one. -/
theorem exists_first (h : Covered ps q) : ∃ p, First ps p ∧ p <+: q := by
  obtain ⟨r, ⟨hr, hpre⟩, hleast⟩ : ∃ r, (r ∈ ps ∧ r <+: q) ∧ ∀ p, p ∈ ps ∧ p <+: q → r.length ≤ p.length := by
    obtain ⟨r, hr, hleast⟩ := (measure (fun p : List T => p.length)).wf.has_min {p | p ∈ ps ∧ p <+: q} h
    exact ⟨r, hr, fun p hp => not_lt.mp (hleast p hp)⟩
  refine ⟨r, ⟨hr, fun p hp hpr => ?_⟩, hpre⟩
  exact hpr.eq_of_length_le (hleast p ⟨hp, hpr.trans hpre⟩)

theorem put_eq_none (h : P.walk p v = none) : P.put p s v = none := by
  rw [← Option.isNone_iff_eq_none, ← Option.not_isSome, isSome_put, h]
  rfl

/-- A path that leads through another that is not there, or through a value without parts, is not there. -/
theorem walk_through (hqp : q <+: p) (hne : q ≠ p) (hleaf : ∀ t, P.child t s = none)
    (h : P.walk q v = some s ∨ P.walk q v = none) : P.walk p v = none := by
  obtain ⟨r, rfl⟩ := hqp
  cases r with
  | nil => exact absurd (List.append_nil q).symm hne
  | cons t r =>
    rw [walk_append]
    rcases h with h | h
    · rw [h, Option.bind_some, walk, hleaf]
      rfl
    · rw [h]
      rfl

/-- Where a first path is there, the value is written. -/
theorem walk_putAll_first (hleaf : ∀ t, P.child t s = none) (h : First ps q) :
    P.walk q (P.putAll ps s v) = (P.walk q v).map fun _ => s := by
  suffices hgo : ∀ ps, (∀ p ∈ ps, p <+: q → p = q) →
      (q ∈ ps → P.walk q (P.putAll ps s v) = (P.walk q v).map fun _ => s) from hgo ps h.2 h.1
  clear h
  intro ps
  induction ps using List.reverseRecOn with
  | nil => exact fun _ h => nomatch h
  | append_singleton ps p ih =>
    intro hfirst hmem
    have hps : ∀ r ∈ ps, r <+: q → r = q := fun r hr => hfirst r (List.mem_append_left _ hr)
    rw [putAll_concat]
    by_cases hpq : p = q
    · subst hpq
      have hsame : (P.walk p (P.putAll ps s v)).isSome = (P.walk p v).isSome := by
        by_cases hin : p ∈ ps
        · rw [ih hps hin, Option.isSome_map]
        · have hcover : ¬ Covered ps p := fun ⟨r, hr, hpre⟩ => hin (hps r hr hpre ▸ hr)
          have houtline := congrArg Option.isSome (outline_putAll (P := P) (s := s) (v := v) hcover)
          rwa [Option.isSome_map, Option.isSome_map] at houtline
      cases hput : P.put p s (P.putAll ps s v) with
      | none =>
        have hnone := congrArg Option.isSome hput
        rw [isSome_put, hsame] at hnone
        have hv : P.walk p v = none := by simpa using hnone
        rw [hv] at hsame ⊢
        simpa using hsame
      | some v' =>
        have hsome := congrArg Option.isSome hput
        rw [isSome_put, hsame] at hsome
        obtain ⟨x, hx⟩ := Option.isSome_iff_exists.mp hsome
        have hbelow := walk_put_below (q := []) hput
        rw [List.append_nil] at hbelow
        rw [hx]
        exact hbelow
    · have hin : q ∈ ps := by
        rcases List.mem_append.mp hmem with hin | hin
        · exact hin
        · exact absurd (List.mem_singleton.mp hin).symm hpq
      have hu := ih hps hin
      rw [← hu]
      have hnot : ¬ p <+: q := fun hpre => hpq (hfirst p (List.mem_append_right _ (.head _)) hpre)
      by_cases hqp : q <+: p
      · have hor : P.walk q (P.putAll ps s v) = some s ∨ P.walk q (P.putAll ps s v) = none := by
          rw [hu]
          cases P.walk q v with
          | none => exact .inr rfl
          | some _ => exact .inl rfl
        rw [put_eq_none (walk_through hqp (Ne.symm hpq) hleaf hor)]
        rfl
      · cases hput : P.put p s (P.putAll ps s v) with
        | none => rfl
        | some v' => exact walk_put_frame hput hnot hqp

/-- Two values that differ only at the paths and below. -/
def Agree (P : Parts T V) (ps : List (List T)) (v w : V) : Prop :=
  ∀ q, ¬ Covered ps q → (P.walk q v).map P.outline = (P.walk q w).map P.outline

/-- A first path is in both of them or in neither. -/
theorem Agree.isSome_first (h : P.Agree ps v w) (hq : First ps q) : (P.walk q v).isSome = (P.walk q w).isSome := by
  rcases List.eq_nil_or_concat q with rfl | ⟨r, t, rfl⟩
  · rfl
  · rw [List.concat_eq_append] at hq ⊢
    refine isSome_walk_of_outline (h r ?_)
    rintro ⟨p, hp, hpre⟩
    have heq := hq.2 p hp (hpre.trans (List.prefix_append ..))
    have hlen := hpre.length_le
    rw [heq, List.length_append, List.length_singleton] at hlen
    omega

/-- What is read at a path that is covered, afterwards. -/
theorem walk_putAll_below (hleaf : ∀ t, P.child t s = none) (hp : First ps p) :
    P.walk (p ++ q) (P.putAll ps s v) = (P.walk p v).bind fun _ => P.walk q s := by
  rw [walk_append, walk_putAll_first hleaf hp]
  cases P.walk p v <;> rfl

/-- **Noninterference**: of two values that differ only at the paths, the results read the same. -/
theorem outline_putAll_congr (hleaf : ∀ t, P.child t s = none) (h : P.Agree ps v w) (q : List T) :
    (P.walk q (P.putAll ps s v)).map P.outline = (P.walk q (P.putAll ps s w)).map P.outline := by
  by_cases hq : Covered ps q
  · obtain ⟨p, hp, r, rfl⟩ := exists_first hq
    rw [walk_putAll_below hleaf hp, walk_putAll_below hleaf hp]
    have hsome := h.isSome_first hp
    cases hv : P.walk p v with
    | none =>
      rw [hv] at hsome
      rw [Option.isNone_iff_eq_none.mp (Option.isSome_eq_false_iff.mp hsome.symm)]
    | some x =>
      rw [hv] at hsome
      obtain ⟨y, hy⟩ := Option.isSome_iff_exists.mp hsome.symm
      rw [hy]
      rfl
  · rw [outline_putAll hq, outline_putAll hq]
    exact h q hq

end Parts

end Knolo.Library
