import Knolo.Library.Fallible
import Mathlib.Data.Finset.Insert
import Mathlib.Data.Finset.Card

/-!
# Going through a list

What a list gone through with a computation that may fail says of its elements: with optional
values (`mapM_isSome`, `forall₂_of_mapM`), with values that may fail (`forall₂_of_mapM_ok`,
`exists_of_mapM`), with a filter that may fail (`mem_filterM`), with a state that every step keeps
(`foldlM_keeps`), and with a set of the keys met so far, which fails at a key it has met
(`foldlM_distinct`); and what a list of pairs has under a key (`lookup_of_mem`).
-/

namespace Knolo.Library.Traverse

open Fallible

/-! ### Optional values -/

section Optional

variable {α β : Type} {f : α → Option β}

theorem mapM_isSome {l : List α} : (l.mapM f).isSome ↔ ∀ a ∈ l, (f a).isSome := by
  induction l with
  | nil => simp
  | cons a l ih =>
    rw [List.mapM_cons, List.forall_mem_cons, ← ih]
    cases f a <;> cases l.mapM f <;> simp

theorem mapM_congr {g : α → Option β} {l : List α} (h : ∀ a ∈ l, f a = g a) : l.mapM f = l.mapM g := by
  induction l with
  | nil => rfl
  | cons a l ih =>
    obtain ⟨ha, hl⟩ := List.forall_mem_cons.mp h
    rw [List.mapM_cons, List.mapM_cons, ha, ih hl]

/-- The values are those of the elements, one by one. -/
theorem forall₂_of_mapM {l : List α} {bs : List β} (h : l.mapM f = some bs) :
    List.Forall₂ (fun a b => f a = some b) l bs := by
  induction l generalizing bs with
  | nil =>
    cases h
    exact .nil
  | cons a l ih =>
    simp only [List.mapM_cons, Option.bind_eq_bind, Option.bind_eq_some_iff, Option.pure_def,
      Option.some.injEq] at h
    obtain ⟨b, hb, bs, hbs, rfl⟩ := h
    exact .cons hb (ih hbs)

theorem mapM_eq_some {l : List α} {bs : List β} (h : l.mapM f = some bs) : bs.length = l.length ∧
    (∀ a ∈ l, ∃ b ∈ bs, f a = some b) ∧ ∀ b ∈ bs, ∃ a ∈ l, f a = some b := by
  have h' := forall₂_of_mapM h
  clear h
  induction h' with
  | nil => simp
  | @cons a b l bs hb hbs ih =>
    obtain ⟨hlen, h1, h2⟩ := ih
    refine ⟨by rw [List.length_cons, List.length_cons, hlen], ?_, ?_⟩
    · refine List.forall_mem_cons.mpr ⟨⟨b, .head _, hb⟩, fun c hc => ?_⟩
      obtain ⟨b', hb', h⟩ := h1 c hc
      exact ⟨b', .tail _ hb', h⟩
    · refine List.forall_mem_cons.mpr ⟨⟨a, .head _, hb⟩, fun c hc => ?_⟩
      obtain ⟨a', ha', h⟩ := h2 c hc
      exact ⟨a', .tail _ ha', h⟩

theorem mapM_inj {g : α → Option β} {l : List α} {bs : List β} (h : l.mapM f = some bs)
    (h' : l.mapM g = some bs) : ∀ a ∈ l, f a = g a := by
  induction l generalizing bs with
  | nil => simp
  | cons a l ih =>
    simp only [List.mapM_cons, Option.bind_eq_bind, Option.bind_eq_some_iff, Option.pure_def,
      Option.some.injEq] at h h'
    obtain ⟨b, hb, bs, hbs, rfl⟩ := h
    obtain ⟨c, hc, cs, hcs, h'⟩ := h'
    cases h'
    exact List.forall_mem_cons.mpr ⟨hb.trans hc.symm, ih hbs hcs⟩

/-- What the values have in common with the elements. -/
theorem map_eq_of_mapM {γ : Type} {p : α → γ} {q : β → γ} (hf : ∀ a b, f a = some b → q b = p a)
    {l : List α} {bs : List β} (h : l.mapM f = some bs) : bs.map q = l.map p := by
  have h' := forall₂_of_mapM h
  clear h
  induction h' with
  | nil => rfl
  | cons hb _ ih => rw [List.map_cons, List.map_cons, hf _ _ hb, ih]

end Optional

/-! ### Values that may fail -/

/-- Every element is gone through without failure. -/
theorem forM_eq_ok {ε α : Type} {f : α → Except ε Unit} {l : List α} :
    l.forM f = .ok () ↔ ∀ a ∈ l, f a = .ok () := by
  induction l with
  | nil => exact ⟨fun _ => by simp, fun _ => rfl⟩
  | cons a l ih =>
    rw [List.forall_mem_cons, ← ih]
    exact check_bind_eq_ok

/-- What a computation that may fail makes of a list. -/
theorem forall₂_of_mapM_ok {ε α β : Type} {f : α → Except ε β} {l : List α} {bs : List β} (h : l.mapM f = .ok bs) :
    List.Forall₂ (fun a b => f a = .ok b) l bs := by
  induction l generalizing bs with
  | nil =>
    cases h
    exact .nil
  | cons a l ih =>
    rw [List.mapM_cons] at h
    obtain ⟨b, hb, h⟩ := bind_eq_ok.mp h
    obtain ⟨bs, hbs, h⟩ := bind_eq_ok.mp h
    cases h
    exact .cons hb (ih hbs)

/-- The values of a pass are those of its elements. -/
theorem exists_of_mapM {ε α β : Type} {f : α → Except ε β} {l : List α} {bs : List β} (h : l.mapM f = .ok bs) :
    ∀ b ∈ bs, ∃ a ∈ l, f a = .ok b := by
  have h' := forall₂_of_mapM_ok h
  clear h
  induction h' with
  | nil => simp
  | cons hb _ ih =>
    refine List.forall_mem_cons.mpr ⟨⟨_, .head _, hb⟩, fun c hc => ?_⟩
    obtain ⟨a, ha, hc⟩ := ih c hc
    exact ⟨a, .tail _ ha, hc⟩

theorem mem_filterAuxM {ε α : Type} {p : α → Except ε Bool} {l acc l' : List α}
    (h : l.filterAuxM p acc = .ok l') (a : α) : a ∈ l' ↔ a ∈ acc ∨ a ∈ l ∧ p a = .ok true := by
  induction l generalizing acc with
  | nil =>
    cases h
    simp
  | cons b l ih =>
    obtain ⟨keep, hb, h⟩ := bind_eq_ok.mp h
    rw [ih h]
    cases keep with
    | true =>
      constructor
      · rintro (ha | ⟨ha, hp⟩)
        · rcases List.mem_cons.mp ha with rfl | ha
          · exact .inr ⟨List.mem_cons_self .., hb⟩
          · exact .inl ha
        · exact .inr ⟨List.mem_cons_of_mem _ ha, hp⟩
      · rintro (ha | ⟨ha, hp⟩)
        · exact .inl (List.mem_cons_of_mem _ ha)
        · rcases List.mem_cons.mp ha with rfl | ha
          · exact .inl (List.mem_cons_self ..)
          · exact .inr ⟨ha, hp⟩
    | false =>
      constructor
      · rintro (ha | ⟨ha, hp⟩)
        · exact .inl ha
        · exact .inr ⟨List.mem_cons_of_mem _ ha, hp⟩
      · rintro (ha | ⟨ha, hp⟩)
        · exact .inl ha
        · rcases List.mem_cons.mp ha with rfl | ha
          · rw [hb] at hp
            cases hp
          · exact .inr ⟨ha, hp⟩

theorem filterAuxM_total {ε α : Type} {p : α → Except ε Bool} {l acc l' : List α}
    (h : l.filterAuxM p acc = .ok l') : ∀ a ∈ l, ∃ b, p a = .ok b := by
  induction l generalizing acc with
  | nil => simp
  | cons b l ih =>
    obtain ⟨keep, hb, h⟩ := bind_eq_ok.mp h
    intro a ha
    rcases List.mem_cons.mp ha with rfl | ha
    · exact ⟨keep, hb⟩
    · exact ih h a ha

/-- What a filter that does not throw keeps. -/
theorem mem_filterM {ε α : Type} {p : α → Except ε Bool} {l l' : List α} (h : l.filterM p = .ok l') (a : α) :
    a ∈ l' ↔ a ∈ l ∧ p a = .ok true := by
  obtain ⟨_, haux, h⟩ := bind_eq_ok.mp h
  cases h
  rw [List.mem_reverse, mem_filterAuxM haux]
  simp

/-! ### Invariants of a pass -/

/-- What every step of a pass keeps, the pass keeps. -/
theorem foldlM_keeps {ε α σ : Type} {f : σ → α → Except ε σ} {I : σ → Prop} {l : List α}
    (hf : ∀ a ∈ l, ∀ s s', I s → f s a = .ok s' → I s') {s s' : σ} (hs : I s) (h : l.foldlM f s = .ok s') : I s' := by
  induction l generalizing s with
  | nil =>
    cases h
    exact hs
  | cons a l ih =>
    rw [List.foldlM_cons] at h
    obtain ⟨t, ht, h⟩ := bind_eq_ok.mp h
    exact ih (fun b hb => hf b (.tail _ hb)) (hf a (.head _) s t hs ht) h

/-! ### Keys met so far -/

/-- **A pass that checks every element and fails at a key it has met** succeeds on lists whose
elements pass and whose keys are distinct. -/
theorem foldlM_distinct {ε α κ : Type} [DecidableEq κ] {f : Finset κ → α → Except ε (Finset κ)}
    {P : α → Prop} {key : α → κ}
    (hf : ∀ s a s', f s a = .ok s' ↔ P a ∧ key a ∉ s ∧ insert (key a) s = s') {l : List α} {s : Finset κ} :
    (∃ s', l.foldlM f s = .ok s') ↔ (∀ a ∈ l, P a) ∧ (l.map key).Nodup ∧ ∀ a ∈ l, key a ∉ s := by
  induction l generalizing s with
  | nil => exact ⟨fun _ => ⟨by simp, by simp, by simp⟩, fun _ => ⟨s, rfl⟩⟩
  | cons a l ih =>
    have hstep : (∃ s', (a :: l).foldlM f s = .ok s') ↔
        (P a ∧ key a ∉ s) ∧ ∃ s', l.foldlM f (insert (key a) s) = .ok s' := by
      simp only [List.foldlM_cons, bind_eq_ok, hf]
      constructor
      · rintro ⟨s', t, ⟨hP, hk, rfl⟩, h⟩
        exact ⟨⟨hP, hk⟩, s', h⟩
      · rintro ⟨⟨hP, hk⟩, s', h⟩
        exact ⟨s', _, ⟨hP, hk, rfl⟩, h⟩
    rw [hstep, ih]
    simp only [List.forall_mem_cons, List.map_cons, List.nodup_cons, List.mem_map, Finset.mem_insert,
      not_or, not_exists, not_and]
    constructor
    · rintro ⟨⟨hP, hk⟩, hl, hnd, hs⟩
      exact ⟨⟨hP, hl⟩, ⟨fun b hb => (hs b hb).1, hnd⟩, hk, fun b hb => (hs b hb).2⟩
    · rintro ⟨⟨hP, hl⟩, ⟨ha, hnd⟩, hk, hs⟩
      exact ⟨⟨hP, hk⟩, hl, hnd, fun b hb => ⟨ha b hb, hs b hb⟩⟩

/-! ### Pairs -/

/-- What is in a list of pairs with distinct keys is found under its key. -/
theorem lookup_of_mem {κ α : Type} [DecidableEq κ] {key : κ} {value : α} {ps : List (κ × α)}
    (hnodup : (ps.map Prod.fst).Nodup) (h : (key, value) ∈ ps) : ps.lookup key = some value := by
  induction ps with
  | nil => cases h
  | cons q ps ih =>
    obtain ⟨k, v⟩ := q
    obtain ⟨hk, hps⟩ := List.nodup_cons.mp hnodup
    rcases List.mem_cons.mp h with heq | hmem
    · cases heq
      exact List.lookup_cons_self
    · have hkey : key ∈ ps.map Prod.fst := List.mem_map_of_mem hmem
      have hne : key ≠ k := fun heq => hk (heq ▸ hkey)
      rw [List.lookup_cons, beq_eq_false_iff_ne.mpr hne]
      exact ih hps hmem

end Knolo.Library.Traverse
