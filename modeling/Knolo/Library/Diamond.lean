import Knolo.Library.Fallible
import Mathlib.Data.List.Perm.Basic
import Mathlib.Tactic.Common

/-!
# Steps that commute

Labelled steps that may fail, of which some pairs are independent: where both can be made, each can be made after
the other, and the order does not matter.

* `Diamond.foldlM` — then the same holds of lists of steps.
* `Diamond.perm` — several steps that are pairwise independent can be made in any order.
-/

namespace Knolo.Library

open Fallible

variable {σ ι ε : Type} {f : σ → ι → Except ε σ} {I : σ → Prop} {L : ι → Prop} {indep : ι → ι → Prop} {s a b : σ}
  {x y : ι} {l l' : List ι}

/-- Independent steps commute, in states that satisfy an invariant; the steps of `L` keep it. -/
structure Diamond (f : σ → ι → Except ε σ) (I : σ → Prop) (L : ι → Prop) (indep : ι → ι → Prop) : Prop where
  keep {s a : σ} {x : ι} : I s → L x → f s x = .ok a → I a
  join {s a b : σ} {x y : ι} : I s → indep x y → f s x = .ok a → f s y = .ok b → ∃ c, f a y = .ok c ∧ f b x = .ok c

namespace Diamond

variable (h : Diamond f I L indep)
include h

theorem keep_foldlM (hs : I s) (hL : ∀ x ∈ l, L x) (ha : l.foldlM f s = .ok a) : I a := by
  induction l generalizing s with
  | nil =>
    cases ha
    exact hs
  | cons x l ih =>
    rw [List.foldlM_cons] at ha
    obtain ⟨s', hx, ha⟩ := bind_eq_ok.mp ha
    exact ih (h.keep hs (hL x (.head _)) hx) (fun y hy => hL y (.tail _ hy)) ha

/-- A step and a list of steps. -/
theorem join_list (hs : I s) (hL : ∀ y ∈ l, L y) (hx : ∀ y ∈ l, indep x y) (ha : f s x = .ok a)
    (hb : l.foldlM f s = .ok b) : ∃ c, l.foldlM f a = .ok c ∧ f b x = .ok c := by
  induction l generalizing s a with
  | nil =>
    cases hb
    exact ⟨a, rfl, ha⟩
  | cons y l ih =>
    rw [List.foldlM_cons] at hb ⊢
    obtain ⟨s', hy, hb⟩ := bind_eq_ok.mp hb
    obtain ⟨a', hay, hxa'⟩ := h.join hs (hx y (.head _)) ha hy
    obtain ⟨c, hac, hbc⟩ := ih (h.keep hs (hL y (.head _)) hy) (fun z hz => hL z (.tail _ hz))
      (fun z hz => hx z (.tail _ hz)) hxa' hb
    exact ⟨c, bind_eq_ok.mpr ⟨a', hay, hac⟩, hbc⟩

/-- **Lists of steps**, each of one list independent of each of the other. -/
theorem foldlM : Diamond (fun s (l : List ι) => l.foldlM f s) I (fun l => ∀ x ∈ l, L x)
    fun l l' => (∀ x ∈ l, L x) ∧ (∀ y ∈ l', L y) ∧ ∀ x ∈ l, ∀ y ∈ l', indep x y where
  keep := h.keep_foldlM
  join := by
    rintro s a b l l' hs ⟨hL, hL', hl⟩ ha hb
    induction l generalizing s b with
    | nil =>
      cases ha
      exact ⟨b, hb, rfl⟩
    | cons x l ih =>
      rw [List.foldlM_cons] at ha
      obtain ⟨s', hx, ha⟩ := bind_eq_ok.mp ha
      obtain ⟨b', hb', hxb⟩ := h.join_list hs hL' (hl x (.head _)) hx hb
      obtain ⟨c, hac, hbc⟩ := ih (h.keep hs (hL x (.head _)) hx) (fun z hz => hL z (.tail _ hz))
        (fun z hz => hl z (.tail _ hz)) ha hb'
      refine ⟨c, hac, ?_⟩
      rw [List.foldlM_cons]
      exact bind_eq_ok.mpr ⟨b', hxb, hbc⟩

/-- A step leaves those possible that are independent of it. -/
theorem ok_after (hs : I s) (hxy : indep x y) (ha : f s x = .ok a) (hb : ∃ b, f s y = .ok b) : ∃ c, f a y = .ok c := by
  obtain ⟨b, hb⟩ := hb
  obtain ⟨c, hc, -⟩ := h.join hs hxy ha hb
  exact ⟨c, hc⟩

/-- Steps that are pairwise independent can be made one after the other. -/
theorem exists_foldlM (hs : I s) (hL : ∀ x ∈ l, L x) (hl : l.Pairwise indep) (hok : ∀ x ∈ l, ∃ a, f s x = .ok a) :
    ∃ c, l.foldlM f s = .ok c := by
  induction l generalizing s with
  | nil => exact ⟨s, rfl⟩
  | cons x l ih =>
    obtain ⟨hx, hl⟩ := List.pairwise_cons.mp hl
    obtain ⟨a, ha⟩ := hok x (.head _)
    obtain ⟨c, hc⟩ := ih (h.keep hs (hL x (.head _)) ha) (fun y hy => hL y (.tail _ hy)) hl fun y hy =>
       h.ok_after hs (hx y hy) ha (hok y (.tail _ hy))
    rw [List.foldlM_cons]
    exact ⟨c, bind_eq_ok.mpr ⟨a, ha, hc⟩⟩

/-- **Any order** of steps that are pairwise independent comes to the same. -/
theorem perm (hsymm : ∀ x y, indep x y → indep y x) (hperm : l.Perm l') (hs : I s) (hL : ∀ x ∈ l, L x)
    (hl : l.Pairwise indep) (hok : ∀ x ∈ l, ∃ a, f s x = .ok a) : ∃ c, l.foldlM f s = .ok c ∧ l'.foldlM f s = .ok c := by
  induction hperm generalizing s with
  | nil => exact ⟨s, rfl, rfl⟩
  | @cons x l l' hperm ih =>
    obtain ⟨hx, hl⟩ := List.pairwise_cons.mp hl
    obtain ⟨a, ha⟩ := hok x (.head _)
    obtain ⟨c, hc, hc'⟩ := ih (h.keep hs (hL x (.head _)) ha) (fun y hy => hL y (.tail _ hy)) hl fun y hy =>
       h.ok_after hs (hx y hy) ha (hok y (.tail _ hy))
    simp only [List.foldlM_cons]
    exact ⟨c, bind_eq_ok.mpr ⟨a, ha, hc⟩, bind_eq_ok.mpr ⟨a, ha, hc'⟩⟩
  | swap x y l =>
    obtain ⟨c, hc⟩ := h.exists_foldlM hs hL hl hok
    have hyx : indep y x := (List.pairwise_cons.mp hl).1 x (.head _)
    obtain ⟨b, hb⟩ := hok x (.tail _ (.head _))
    refine ⟨c, hc, ?_⟩
    simp only [List.foldlM_cons] at hc ⊢
    obtain ⟨a, hy, hc⟩ := bind_eq_ok.mp hc
    obtain ⟨d, hd, hc⟩ := bind_eq_ok.mp hc
    obtain ⟨d', hd', hb'⟩ := h.join hs hyx hy hb
    obtain rfl : d' = d := Except.ok.inj (hd'.symm.trans hd)
    exact bind_eq_ok.mpr ⟨b, hb, bind_eq_ok.mpr ⟨d', hb', hc⟩⟩
  | @trans l₁ l₂ l₃ h₁ h₂ ih₁ ih₂ =>
    obtain ⟨c, hc, hc'⟩ := ih₁ hs hL hl hok
    obtain ⟨c', hd, hd'⟩ := ih₂ hs (fun x hx => hL x (h₁.mem_iff.mpr hx)) (hl.perm h₁ fun hxy => hsymm _ _ hxy)
      fun x hx => hok x (h₁.mem_iff.mpr hx)
    obtain rfl : c' = c := Except.ok.inj (hd.symm.trans hc')
    exact ⟨c', hc, hd'⟩

end Diamond

end Knolo.Library
