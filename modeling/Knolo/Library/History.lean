import Mathlib.Data.List.Basic
import Mathlib.Tactic.Common

/-!
# Properties of what happens after what

`Each P pre tr` says that every item of `tr` satisfies `P` together with the items
before it, where `pre` is what came before `tr`. It is the shape of a safety property
of a run that looks back: "when this is sent, that has been received".

`each_append` cuts it where a trace is cut, `each_iff_split` reads it off the splits of
the trace.
-/

namespace Knolo.Library

variable {α : Type} {P : List α → α → Prop}

/-- Every item of the trace satisfies `P`, given the items before it. -/
def Each (P : List α → α → Prop) : List α → List α → Prop
  | _, [] => True
  | pre, a :: tr => P pre a ∧ Each P (pre ++ [a]) tr

@[simp] theorem each_nil (pre : List α) : Each P pre [] := trivial

@[simp] theorem each_cons (pre : List α) (a : α) (tr : List α) :
    Each P pre (a :: tr) ↔ P pre a ∧ Each P (pre ++ [a]) tr := Iff.rfl

/-- A trace in two parts. -/
theorem each_append (pre tr tr' : List α) :
    Each P pre (tr ++ tr') ↔ Each P pre tr ∧ Each P (pre ++ tr) tr' := by
  induction tr generalizing pre with
  | nil => simp
  | cons a tr ih => simp [ih, and_assoc]

/-- `Each` is about every way to split the trace at an item. -/
theorem each_iff_split (pre tr : List α) :
    Each P pre tr ↔ ∀ t a t', tr = t ++ a :: t' → P (pre ++ t) a := by
  constructor
  · rintro h t a t' rfl
    exact ((each_append pre t _).mp h).2.1
  · intro h
    induction tr generalizing pre with
    | nil => trivial
    | cons a tr ih =>
      refine ⟨by simpa using h [] a tr rfl, ih _ fun t b t' ht => ?_⟩
      simpa using h (a :: t) b t' (by rw [ht]; rfl)

theorem Each.mono {Q : List α → α → Prop} (hPQ : ∀ t a, P t a → Q t a) {pre tr : List α} (h : Each P pre tr) :
    Each Q pre tr :=
  (each_iff_split pre tr).mpr fun t a t' ht => hPQ _ _ ((each_iff_split pre tr).mp h t a t' ht)

/-- Items that satisfy `P` whatever came before. -/
theorem each_of_forall {pre tr : List α} (h : ∀ a ∈ tr, ∀ t, P t a) : Each P pre tr := by
  induction tr generalizing pre with
  | nil => trivial
  | cons a tr ih => exact ⟨h a (by simp) _, ih fun b hb => h b (by simp [hb])⟩

end Knolo.Library
