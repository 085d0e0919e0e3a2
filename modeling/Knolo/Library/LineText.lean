import Mathlib.Data.List.DropRight
import Mathlib.Data.List.TakeWhile
import Mathlib.Tactic.Common

/-!
# Texts that are read by lines

The parts of which readers of plain texts are made, on lists of characters, and the records they fill.

* `trim` — a list without what is blank at its ends; `trim_append_cons` — about a separator, each part is
  trimmed on its own.
* `splitOnce` — what is before and after a separator that comes first.
* `lines` — the lines of a text; `IsLines` — the texts that consist of given lines, where a last one need not
  be ended.
* `foldl_field_of_mem` — a field of a record that is filled by entries is what the one entry for it has put.
-/

namespace Knolo.Library

/-! ### What is blank at the ends -/

section Trim

variable {α : Type} {p : α → Bool} {l a b : List α}

/-- `l` without what is blank at its ends. -/
def trim (p : α → Bool) (l : List α) : List α := (l.dropWhile p).rdropWhile p

theorem dropWhile_eq_self_of_head (h : ∀ x ∈ l.head?, p x = false) : l.dropWhile p = l := by
  cases l with
  | nil => rfl
  | cons x l => rw [List.dropWhile_cons_of_neg (by simp [h x rfl])]

theorem rdropWhile_eq_self_of_getLast (h : ∀ x ∈ l.getLast?, p x = false) : l.rdropWhile p = l := by
  refine List.rdropWhile_eq_self_iff.mpr fun hl => ?_
  have hlast : p (l.getLast hl) = false := h _ (List.getLast?_eq_some_getLast hl)
  simp [hlast]

theorem rdropWhile_append_of_all (hb : ∀ x ∈ b, p x = true) : (l ++ b).rdropWhile p = l.rdropWhile p := by
  unfold List.rdropWhile
  rw [List.reverse_append, List.dropWhile_append_of_pos fun x hx => hb x (List.mem_reverse.mp hx)]

theorem trim_eq_nil_iff : trim p l = [] ↔ ∀ x ∈ l, p x = true := by
  unfold trim
  rw [List.rdropWhile_eq_nil_iff]
  constructor
  · intro h x hx
    rw [← List.takeWhile_append_dropWhile (p := p) (l := l), List.mem_append] at hx
    rcases hx with hx | hx
    · exact List.mem_takeWhile_imp hx
    · exact h x hx
  · exact fun h x hx => h x ((List.dropWhile_suffix p).mem hx)

theorem trim_eq_self (hhead : ∀ x ∈ l.head?, p x = false) (hlast : ∀ x ∈ l.getLast?, p x = false) : trim p l = l := by
  rw [trim, dropWhile_eq_self_of_head hhead, rdropWhile_eq_self_of_getLast hlast]

theorem trim_eq_self_of_forall (h : ∀ x ∈ l, p x = false) : trim p l = l :=
  trim_eq_self (fun x hx => h x (List.mem_of_mem_head? hx)) fun x hx => h x (List.mem_of_getLast? hx)

theorem trim_append_left (ha : ∀ x ∈ a, p x = true) : trim p (a ++ l) = trim p l := by
  rw [trim, List.dropWhile_append_of_pos ha, trim]

/-- **About a separator, each part is trimmed on its own.** -/
theorem trim_append_cons {c : α} (hc : p c = false) (k v : List α) :
    trim p (k ++ c :: v) = k.dropWhile p ++ c :: v.rdropWhile p := by
  have hdrop : (k ++ c :: v).dropWhile p = k.dropWhile p ++ c :: v := by
    rw [List.dropWhile_append]
    split
    · rename_i hnil
      rw [List.isEmpty_iff.mp hnil, List.dropWhile_cons, hc]
      rfl
    · rfl
  rw [trim, hdrop, List.rdropWhile, List.reverse_append, List.reverse_cons, List.append_assoc, List.dropWhile_append]
  split
  · rename_i hnil
    rw [List.singleton_append, List.dropWhile_cons, hc]
    simp [List.rdropWhile, List.isEmpty_iff.mp hnil]
  · simp [List.rdropWhile]

theorem rdropWhile_cons_of_not {c : α} (hc : p c = false) (k v : List α) :
    (k ++ c :: v).rdropWhile p = k ++ c :: v.rdropWhile p := by
  rw [List.rdropWhile, List.reverse_append, List.reverse_cons, List.append_assoc, List.dropWhile_append]
  split
  · rename_i hnil
    rw [List.singleton_append, List.dropWhile_cons, hc]
    simp [List.rdropWhile, List.isEmpty_iff.mp hnil]
  · simp [List.rdropWhile]

theorem trim_dropWhile : trim p (l.dropWhile p) = trim p l := by
  rw [trim, List.dropWhile_idempotent, trim]

theorem trim_append_right (hb : ∀ x ∈ b, p x = true) : trim p (l ++ b) = trim p l := by
  by_cases hl : ∀ x ∈ l, p x = true
  · rw [trim_eq_nil_iff.mpr hl, trim_eq_nil_iff]
    intro x hx
    exact (List.mem_append.mp hx).elim (hl x) (hb x)
  · have hne : l.dropWhile p ≠ [] := fun h => hl (List.dropWhile_eq_nil_iff.mp h)
    rw [trim, List.dropWhile_append, if_neg (by simpa using hne), rdropWhile_append_of_all hb, trim]

theorem trim_rdropWhile : trim p (l.rdropWhile p) = trim p l := by
  have hsplit : l.rdropWhile p ++ l.rtakeWhile p = l := List.rdropWhile_append_rtakeWhile
  have hblank : ∀ x ∈ l.rtakeWhile p, p x = true := fun x hx => List.mem_rtakeWhile_imp hx
  have htrim : trim p (l.rdropWhile p ++ l.rtakeWhile p) = trim p (l.rdropWhile p) := trim_append_right hblank
  rw [hsplit] at htrim
  exact htrim.symm

end Trim

/-! ### Separators -/

section Split

variable {α : Type} [DecidableEq α] {c : α} {l k v : List α}

/-- What is before and after the first `c`. -/
def splitOnce (c : α) (l : List α) : Option (List α × List α) :=
  match l.dropWhile (· ≠ c) with
  | [] => none
  | _ :: v => some (l.takeWhile (· ≠ c), v)

theorem splitOnce_append_cons (hk : c ∉ k) : splitOnce c (k ++ c :: v) = some (k, v) := by
  have hne : ∀ x ∈ k, decide (x ≠ c) = true := fun x hx => decide_eq_true fun h => hk (h ▸ hx)
  rw [splitOnce, List.dropWhile_append_of_pos hne, List.takeWhile_append_of_pos hne]
  simp

theorem splitOnce_eq_none (h : c ∉ l) : splitOnce c l = none := by
  have hne : ∀ x ∈ l, decide (x ≠ c) = true := fun x hx => decide_eq_true fun hc => h (hc ▸ hx)
  simp only [splitOnce, List.dropWhile_eq_nil_iff.mpr hne]

end Split

/-! ### Lines -/

section Lines

variable {l text : List Char} {ls : List (List Char)}

/-- A line without the carriage return at its end. -/
def dropReturn (l : List Char) : List Char :=
  match l.getLast? with
  | some '\r' => l.dropLast
  | _ => l

/-- The lines of a text: each is ended, but for the last. -/
def lines (text : List Char) : List (List Char) :=
  let parts := text.splitOn '\n'
  let ended := parts.dropLast.map dropReturn
  match parts.getLast? with
  | none | some [] => ended
  | some last => ended ++ [last]

theorem lines_append_cons (hl : '\n' ∉ l) (text : List Char) : lines (l ++ '\n' :: text) = dropReturn l :: lines text := by
  have hne : text.splitOn '\n' ≠ [] := List.splitOn_ne_nil '\n' text
  simp only [lines]
  rw [List.splitOn_append_cons_self_of_not_mem hl, List.dropLast_cons_of_ne_nil hne, List.getLast?_cons]
  cases hlast : (text.splitOn '\n').getLast? with
  | none => exact absurd (List.getLast?_eq_none_iff.mp hlast) hne
  | some last =>
    rw [Option.getD_some]
    cases last <;> rfl

theorem lines_of_not_mem (hl : '\n' ∉ l) (hne : l ≠ []) : lines l = [l] := by
  unfold lines
  rw [List.splitOn_eq_singleton hl]
  cases l with
  | nil => exact absurd rfl hne
  | cons c l => rfl

/-- The text consists of the lines. -/
inductive IsLines : List (List Char) → List Char → Prop
  /-- There are none. -/
  | nil : IsLines [] []
  /-- A last line that is not ended. -/
  | last {l : List Char} : '\n' ∉ l → l ≠ [] → IsLines [l] l
  /-- A line that is. -/
  | cons {l : List Char} {ls : List (List Char)} {text : List Char} :
      '\n' ∉ l → IsLines ls text → IsLines (l :: ls) (l ++ '\n' :: text)

/-- Lines that are all ended. -/
theorem isLines_flatMap (h : ∀ l ∈ ls, '\n' ∉ l) : IsLines ls (ls.flatMap fun l => l ++ ['\n']) := by
  induction ls with
  | nil => exact .nil
  | cons l ls ih =>
    rw [List.flatMap_cons, List.append_assoc]
    exact .cons (h l (List.mem_cons_self ..)) (ih fun l' hl' => h l' (List.mem_cons_of_mem _ hl'))

/-- A text has its lines, up to carriage returns. -/
theorem IsLines.lines (h : IsLines ls text) :
    List.Forall₂ (fun l l' => l' = l ∨ l' = dropReturn l) ls (Library.lines text) := by
  induction h with
  | nil => exact .nil
  | last hl hne =>
    rw [lines_of_not_mem hl hne]
    exact .cons (.inl rfl) .nil
  | cons hl _ ih =>
    rw [lines_append_cons hl]
    exact .cons (.inr rfl) ih

/-- A line is its part before the carriage return, with it or without. -/
theorem dropReturn_append (l : List Char) : l = dropReturn l ∨ l = dropReturn l ++ ['\r'] := by
  unfold dropReturn
  split
  · rename_i h
    obtain ⟨k, rfl⟩ := List.getLast?_eq_some_iff.mp h
    exact .inr (by simp)
  · exact .inl rfl

end Lines

/-! ### Records that entries fill -/

section Fill

variable {σ ε κ β : Type} {put : σ → ε → σ} {key : ε → κ} {field : σ → β} {k : κ}

/-- A field that no entry is for is as before. -/
theorem foldl_field_of_forall (hframe : ∀ s e, key e ≠ k → field (put s e) = field s) {es : List ε}
    (h : ∀ e ∈ es, key e ≠ k) (s : σ) : field (es.foldl put s) = field s := by
  induction es generalizing s with
  | nil => rfl
  | cons e es ih =>
    rw [List.foldl_cons, ih fun e' he' => h e' (List.mem_cons_of_mem _ he')]
    exact hframe s e (h e (List.mem_cons_self ..))

/-- **A field is what the one entry for it has put.** -/
theorem foldl_field_of_mem (hframe : ∀ s e, key e ≠ k → field (put s e) = field s) {es : List ε}
    (hnodup : (es.map key).Nodup) {e : ε} (he : e ∈ es) (hk : key e = k) {b : β} (hput : ∀ s, field (put s e) = b) (s : σ) :
    field (es.foldl put s) = b := by
  obtain ⟨pre, post, rfl⟩ := List.append_of_mem he
  have hpost : ∀ e' ∈ post, key e' ≠ k := by
    intro e' he' h
    rw [List.map_append, List.map_cons] at hnodup
    have hlater := (List.nodup_cons.mp (List.nodup_append.mp hnodup).2.1).1
    exact hlater (hk.trans h.symm ▸ List.mem_map_of_mem he')
  rw [List.foldl_append, List.foldl_cons, foldl_field_of_forall hframe hpost]
  exact hput _

end Fill

end Knolo.Library
