import Mathlib.Data.List.Basic
import Mathlib.Data.List.Infix
import Mathlib.Tactic.Common

/-!
# Patterns of texts

A pattern is a row of pieces, each for one character of a kind, for at most one, or for any number
of them. `Denotes` says which texts a pattern stands for, `test` whether one of them is somewhere in
a text.

* `test_iff` — the test finds what the pattern denotes.
* `Survives` — a pattern that is still found when the characters are rewritten, each for itself:
  where the rewriting leaves the characters of the pattern alone (`survives_of_plain`), and where a
  pattern of this kind is before it (`Survives.append`).
* `denotes_gap` — a gap that has to have a character of some kind in it.
-/

namespace Knolo.Library.Pattern

/-- A piece of a pattern. -/
inductive Piece where
  /-- One character. -/
  | one (q : Char → Bool)
  /-- A character or none. -/
  | maybe (q : Char → Bool)
  /-- Any number of characters. -/
  | many (q : Char → Bool)

/-- The characters of a piece. -/
def Piece.accepts : Piece → Char → Bool
  | .one q | .maybe q | .many q => q

/-- The texts of a piece. -/
def Piece.Denotes : Piece → List Char → Prop
  | .one q, w => ∃ c, q c = true ∧ w = [c]
  | .maybe q, w => w = [] ∨ ∃ c, q c = true ∧ w = [c]
  | .many q, w => ∀ c ∈ w, q c = true

/-- The texts of a pattern. -/
def Denotes : List Piece → List Char → Prop
  | [], w => w = []
  | p :: ps, w => ∃ u v, w = u ++ v ∧ p.Denotes u ∧ Denotes ps v

/-- The characters of a text, one after the other. -/
def literal (s : String) : List Piece := s.toList.map fun c => .one (· = c)

/-- At least `n` characters. -/
def atLeast (n : ℕ) (q : Char → Bool) : List Piece := List.replicate n (.one q) ++ [.many q]

/-! ### The test -/

/-- Does a text begin with a character of a kind, and then as is asked? -/
def oneThen (q : Char → Bool) (next : List Char → Bool) : List Char → Bool
  | [] => false
  | c :: cs => q c && next cs

/-- Does a text begin with characters of a kind, and then as is asked? -/
def manyThen (q : Char → Bool) (next : List Char → Bool) : List Char → Bool
  | [] => next []
  | c :: cs => next (c :: cs) || q c && manyThen q next cs

/-- Does a text begin with one of a pattern? -/
def startsWith : List Piece → List Char → Bool
  | [], _ => true
  | .one q :: ps, s => oneThen q (startsWith ps) s
  | .maybe q :: ps, s => startsWith ps s || oneThen q (startsWith ps) s
  | .many q :: ps, s => manyThen q (startsWith ps) s

/-- Is a text of a pattern somewhere in a text? -/
def test (ps : List Piece) (s : List Char) : Bool := s.tails.any (startsWith ps)

theorem manyThen_iff {q : Char → Bool} {next : List Char → Bool} {s : List Char} :
    manyThen q next s = true ↔ ∃ u r, s = u ++ r ∧ (∀ c ∈ u, q c = true) ∧ next r = true := by
  induction s with
  | nil =>
    constructor
    · exact fun h => ⟨[], [], rfl, by simp, h⟩
    · rintro ⟨u, r, he, -, hr⟩
      obtain ⟨rfl, rfl⟩ := List.append_eq_nil_iff.mp he.symm
      exact hr
  | cons c cs ih =>
    rw [manyThen, Bool.or_eq_true, Bool.and_eq_true, ih]
    constructor
    · rintro (h | ⟨hc, u, r, rfl, hu, hr⟩)
      · exact ⟨[], c :: cs, rfl, by simp, h⟩
      · exact ⟨c :: u, r, rfl, List.forall_mem_cons.mpr ⟨hc, hu⟩, hr⟩
    · rintro ⟨u, r, he, hu, hr⟩
      cases u with
      | nil =>
        rw [List.nil_append] at he
        exact .inl (he ▸ hr)
      | cons d u =>
        obtain ⟨rfl, rfl⟩ := List.cons.inj he
        obtain ⟨hc, hu⟩ := List.forall_mem_cons.mp hu
        exact .inr ⟨hc, u, r, rfl, hu, hr⟩

theorem oneThen_iff {q : Char → Bool} {P : List Char → Prop} {next : List Char → Bool} {s : List Char}
    (hnext : ∀ r, next r = true ↔ ∃ v, v <+: r ∧ P v) :
    oneThen q next s = true ↔ ∃ u v, u ++ v <+: s ∧ (∃ c, q c = true ∧ u = [c]) ∧ P v := by
  cases s with
  | nil =>
    refine ⟨fun h => (nomatch h), ?_⟩
    rintro ⟨_, v, h, ⟨c, -, rfl⟩, -⟩
    cases List.prefix_nil.mp h
  | cons c cs =>
    rw [oneThen, Bool.and_eq_true, hnext]
    constructor
    · rintro ⟨hc, v, hv, hP⟩
      exact ⟨[c], v, (List.prefix_cons_inj c).mpr hv, ⟨c, hc, rfl⟩, hP⟩
    · rintro ⟨_, v, h, ⟨d, hd, rfl⟩, hP⟩
      obtain ⟨rfl, hv⟩ := List.cons_prefix_cons.mp h
      exact ⟨hd, v, hv, hP⟩

theorem startsWith_iff {ps : List Piece} {s : List Char} :
    startsWith ps s = true ↔ ∃ w, w <+: s ∧ Denotes ps w := by
  induction ps generalizing s with
  | nil => exact ⟨fun _ => ⟨[], List.nil_prefix, rfl⟩, fun _ => rfl⟩
  | cons p ps ih =>
    -- what is found is a text of the piece and then one of the rest
    have hrest : (∃ w, w <+: s ∧ Denotes (p :: ps) w) ↔ ∃ u v, u ++ v <+: s ∧ p.Denotes u ∧ Denotes ps v := by
      constructor
      · rintro ⟨_, h, u, v, rfl, hu, hv⟩
        exact ⟨u, v, h, hu, hv⟩
      · rintro ⟨u, v, h, hu, hv⟩
        exact ⟨_, h, u, v, rfl, hu, hv⟩
    rw [hrest]
    cases p with
    | one q => exact oneThen_iff fun r => ih
    | maybe q =>
      rw [startsWith, Bool.or_eq_true, ih, oneThen_iff fun r => ih]
      constructor
      · rintro (⟨v, hv, hd⟩ | ⟨u, v, h, hu, hv⟩)
        · exact ⟨[], v, hv, .inl rfl, hd⟩
        · exact ⟨u, v, h, .inr hu, hv⟩
      · rintro ⟨u, v, h, rfl | hu, hv⟩
        · exact .inl ⟨v, h, hv⟩
        · exact .inr ⟨u, v, h, hu, hv⟩
    | many q =>
      rw [startsWith, manyThen_iff]
      constructor
      · rintro ⟨u, r, rfl, hu, hr⟩
        obtain ⟨v, hv, hd⟩ := ih.mp hr
        exact ⟨u, v, (List.prefix_append_right_inj u).mpr hv, hu, hd⟩
      · rintro ⟨u, v, ⟨r, rfl⟩, hu, hv⟩
        exact ⟨u, v ++ r, List.append_assoc .., hu, ih.mpr ⟨v, List.prefix_append .., hv⟩⟩

/-- **The test finds what the pattern denotes.** -/
theorem test_iff {ps : List Piece} {s : List Char} : test ps s = true ↔ ∃ w, w <:+: s ∧ Denotes ps w := by
  simp only [test, List.any_eq_true, List.mem_tails, startsWith_iff]
  constructor
  · rintro ⟨t, ht, w, hw, hd⟩
    exact ⟨w, hw.isInfix.trans ht.isInfix, hd⟩
  · rintro ⟨w, hw, hd⟩
    obtain ⟨t, hwt, hts⟩ := List.infix_iff_prefix_suffix.mp hw
    exact ⟨t, hts, w, hwt, hd⟩

/-- What is found in a part is found in the whole. -/
theorem test_mono {ps : List Piece} {s t : List Char} (h : s <:+: t) (hs : test ps s = true) :
    test ps t = true := by
  obtain ⟨w, hw, hd⟩ := test_iff.mp hs
  exact test_iff.mpr ⟨w, hw.trans h, hd⟩

/-! ### The texts of patterns -/

theorem denotes_append {ps qs : List Piece} {w : List Char} :
    Denotes (ps ++ qs) w ↔ ∃ u v, w = u ++ v ∧ Denotes ps u ∧ Denotes qs v := by
  induction ps generalizing w with
  | nil =>
    constructor
    · exact fun h => ⟨[], w, rfl, rfl, h⟩
    · rintro ⟨_, v, rfl, rfl, hv⟩
      exact hv
  | cons p ps ih =>
    constructor
    · rintro ⟨u, v, rfl, hu, hv⟩
      obtain ⟨v₁, v₂, rfl, h₁, h₂⟩ := ih.mp hv
      exact ⟨u ++ v₁, v₂, (List.append_assoc ..).symm, ⟨u, v₁, rfl, hu, h₁⟩, h₂⟩
    · rintro ⟨_, v₂, rfl, ⟨u, v₁, rfl, hu, h₁⟩, h₂⟩
      exact ⟨u, v₁ ++ v₂, List.append_assoc .., hu, ih.mpr ⟨v₁, v₂, rfl, h₁, h₂⟩⟩

theorem denotes_many {q : Char → Bool} {w : List Char} : Denotes [.many q] w ↔ ∀ c ∈ w, q c = true := by
  constructor
  · rintro ⟨u, _, rfl, hu, rfl⟩
    rwa [List.append_nil]
  · exact fun h => ⟨w, [], (List.append_nil w).symm, h, rfl⟩

/-- One character of a kind or more. -/
theorem denotes_atLeast_one {q : Char → Bool} {w : List Char} :
    Denotes (atLeast 1 q) w ↔ w ≠ [] ∧ ∀ c ∈ w, q c = true := by
  constructor
  · rintro ⟨_, v, rfl, ⟨c, hc, rfl⟩, hv⟩
    exact ⟨by simp, List.forall_mem_cons.mpr ⟨hc, denotes_many.mp hv⟩⟩
  · rintro ⟨hne, hw⟩
    obtain ⟨c, w, rfl⟩ := List.exists_cons_of_ne_nil hne
    obtain ⟨hc, hw⟩ := List.forall_mem_cons.mp hw
    exact ⟨[c], w, rfl, ⟨c, hc, rfl⟩, denotes_many.mpr hw⟩

/-- Every character of a text belongs to a piece. -/
theorem Denotes.accepted {ps : List Piece} {w : List Char} (h : Denotes ps w) :
    ∀ c ∈ w, ∃ p : Piece, p ∈ ps ∧ p.accepts c = true := by
  induction ps generalizing w with
  | nil =>
    cases h
    exact fun c hc => (nomatch hc)
  | cons p ps ih =>
    obtain ⟨u, v, rfl, hu, hv⟩ := h
    have hp : ∀ c ∈ u, p.accepts c = true := by
      cases p with
      | one q =>
        obtain ⟨c, hc, rfl⟩ := hu
        simpa [Piece.accepts] using hc
      | maybe q =>
        obtain rfl | ⟨c, hc, rfl⟩ := hu
        · exact fun c hc => (nomatch hc)
        · simpa [Piece.accepts] using hc
      | many q => exact hu
    intro c hc
    rcases List.mem_append.mp hc with hc | hc
    · exact ⟨p, .head _, hp c hc⟩
    · obtain ⟨p', hp', hc⟩ := ih hv c hc
      exact ⟨p', .tail _ hp', hc⟩

/-- A gap of characters `q` that has a character `r` in it. -/
theorem denotes_gap {q r : Char → Bool} {w : List Char} (hr : ∀ c, r c = true → q c = true) :
    Denotes [.many q, .one r, .many q] w ↔ (∀ c ∈ w, q c = true) ∧ ∃ c ∈ w, r c = true := by
  constructor
  · rintro ⟨u, _, rfl, hu, _, v, rfl, ⟨c, hc, rfl⟩, hv⟩
    have hv := denotes_many.mp hv
    refine ⟨fun d hd => ?_, c, by simp, hc⟩
    rcases List.mem_append.mp hd with hd | hd
    · exact hu d hd
    · rcases List.mem_cons.mp hd with rfl | hd
      · exact hr d hc
      · exact hv d hd
  · rintro ⟨hq, c, hc, hrc⟩
    obtain ⟨u, v, rfl⟩ := List.append_of_mem hc
    refine ⟨u, c :: v, rfl, fun d hd => hq d (List.mem_append_left _ hd), [c], v, rfl, ⟨c, hrc, rfl⟩, ?_⟩
    exact denotes_many.mpr fun d hd => hq d (List.mem_append_right _ (.tail _ hd))

/-! ### Rewriting characters -/

/-- Characters are rewritten, each for itself; a text of the pattern begins with one of the pattern
afterwards. -/
def Survives (f : Char → List Char) (ps : List Piece) : Prop :=
  ∀ w, Denotes ps w → ∃ v, v <+: w.flatMap f ∧ Denotes ps v

/-- The characters of a pattern are left alone. -/
def Plain (f : Char → List Char) (ps : List Piece) : Prop := ∀ p ∈ ps, ∀ c, p.accepts c = true → f c = [c]

variable {f : Char → List Char} {ps qs : List Piece} {w : List Char}

theorem flatMap_eq_self (h : ∀ c ∈ w, f c = [c]) : w.flatMap f = w := by
  rw [List.flatMap_congr h, List.flatMap_singleton']

theorem Plain.flatMap_eq (h : Plain f ps) (hw : Denotes ps w) : w.flatMap f = w := by
  refine flatMap_eq_self fun c hc => ?_
  obtain ⟨p, hp, hacc⟩ := hw.accepted c hc
  exact h p hp c hacc

theorem Plain.append (h : Plain f ps) (h' : Plain f qs) : Plain f (ps ++ qs) := by
  intro p hp
  rcases List.mem_append.mp hp with hp | hp
  · exact h p hp
  · exact h' p hp

theorem survives_of_plain (h : Plain f ps) : Survives f ps :=
  fun w hw => ⟨w, by rw [h.flatMap_eq hw], hw⟩

theorem Survives.append (h : Plain f ps) (h' : Survives f qs) : Survives f (ps ++ qs) := by
  intro w hw
  obtain ⟨u, v, rfl, hu, hv⟩ := denotes_append.mp hw
  obtain ⟨v', hv', hd⟩ := h' v hv
  refine ⟨u ++ v', ?_, denotes_append.mpr ⟨u, v', rfl, hu, hd⟩⟩
  rw [List.flatMap_append, h.flatMap_eq hu]
  exact (List.prefix_append_right_inj u).mpr hv'

/-- What a part of a text becomes is found in what the text becomes. -/
theorem test_flatMap {s v : List Char} (hw : w <:+: s) (hv : v <+: w.flatMap f) (hd : Denotes ps v) :
    test ps (s.flatMap f) = true := by
  obtain ⟨a, b, rfl⟩ := hw
  obtain ⟨r, hr⟩ := hv
  refine test_iff.mpr ⟨v, ⟨a.flatMap f, r ++ b.flatMap f, ?_⟩, hd⟩
  rw [List.flatMap_append, List.flatMap_append, ← hr]
  simp only [List.append_assoc]

/-- What is found before the characters are rewritten is found afterwards. -/
theorem Survives.test {s : List Char} (h : Survives f ps) (hs : test ps s = true) : test ps (s.flatMap f) = true := by
  obtain ⟨w, hw, hd⟩ := test_iff.mp hs
  obtain ⟨v, hv, hdv⟩ := h w hd
  exact test_flatMap hw hv hdv

end Knolo.Library.Pattern
