import Mathlib.Data.List.Basic
import Mathlib.Tactic.Common

/-!
# Compact JSON texts

A JSON value as it is written without white space: tokens (numbers, `true`, `false`, `null`) by
their characters, strings by an escaping that is a parameter, arrays and objects in the order of
their parts.

`text_cancel` says that a text has one reading: from a text with something behind it both can be
told. So two trees are written the same only if they are the same (`text_injective`). Every string
in a value is written somewhere in its text (`quoted_infix_text`).
-/

namespace Knolo.Library.JsonText

/-- A value to be written. -/
inductive Written where
  /-- A number or a literal name. -/
  | token (cs : List Char)
  /-- A string. -/
  | string (s : String)
  /-- An array. -/
  | array (items : List Written)
  /-- An object: its members in the order in which they are written. -/
  | object (members : List (String × Written))

/-- The characters of tokens. -/
def tokenChar (c : Char) : Bool := c.isAlphanum || c = '+' || c = '-' || c = '.'

mutual

/-- The tokens are not empty and consist of their characters. -/
def Written.WellFormed : Written → Prop
  | .token cs => cs ≠ [] ∧ ∀ c ∈ cs, tokenChar c = true
  | .string _ => True
  | .array vs => ItemsWellFormed vs
  | .object ms => MembersWellFormed ms
termination_by structural v => v

/-- The same of all items. -/
def ItemsWellFormed : List Written → Prop
  | [] => True
  | v :: vs => v.WellFormed ∧ ItemsWellFormed vs

/-- The same of all members. -/
def MembersWellFormed : List (String × Written) → Prop
  | [] => True
  | (_, v) :: ms => v.WellFormed ∧ MembersWellFormed ms

end

theorem itemsWellFormed_iff {vs : List Written} : ItemsWellFormed vs ↔ ∀ v ∈ vs, v.WellFormed := by
  induction vs with
  | nil => simp [ItemsWellFormed]
  | cons v vs ih => simp [ItemsWellFormed, ih]

/-- What an escaping of characters has to satisfy: from an escaped character with something behind
it both can be told, and none begins with the quotation mark. -/
structure Escaping (escape : Char → List Char) : Prop where
  cancel : ∀ {c d : Char} {r r' : List Char}, escape c ++ r = escape d ++ r' → c = d ∧ r = r'
  ne_nil : ∀ c, escape c ≠ []
  head : ∀ c, (escape c).head? ≠ some '"'

section Text

variable (escape : Char → List Char)

/-- A string in quotation marks. -/
def quoted (s : String) : List Char := '"' :: s.toList.flatMap escape ++ ['"']

mutual

/-- The text of a value. -/
def text : Written → List Char
  | .token cs => cs
  | .string s => quoted escape s
  | .array [] => ['[', ']']
  | .array (v :: vs) => '[' :: text v ++ itemsText vs
  | .object [] => ['\x7b', '\x7d']
  | .object ((k, v) :: ms) => '\x7b' :: quoted escape k ++ ':' :: text v ++ membersText ms

/-- What follows the first item. -/
def itemsText : List Written → List Char
  | [] => [']']
  | v :: vs => ',' :: text v ++ itemsText vs

/-- What follows the first member. -/
def membersText : List (String × Written) → List Char
  | [] => ['\x7d']
  | (k, v) :: ms => ',' :: quoted escape k ++ ':' :: text v ++ membersText ms

end

end Text

/-! ### One reading -/

/-- A text ends before what follows: that does not begin with the character of a token. -/
def Ends (r : List Char) : Prop := ∀ c ∈ r.head?, tokenChar c = false

theorem ends_cons {c : Char} {r : List Char} (h : tokenChar c = false) : Ends (c :: r) := by
  simpa [Ends] using h

/-- A token is read up to where it ends. -/
theorem token_cancel {xs ys r r' : List Char} (hx : ∀ c ∈ xs, tokenChar c = true)
    (hy : ∀ c ∈ ys, tokenChar c = true) (hr : Ends r) (hr' : Ends r') (h : xs ++ r = ys ++ r') :
    xs = ys ∧ r = r' := by
  induction xs generalizing ys with
  | nil =>
    cases ys with
    | nil => exact ⟨rfl, h⟩
    | cons c ys =>
      rw [List.nil_append] at h
      subst h
      have hc := hr c rfl
      simp [hy c (.head _)] at hc
  | cons c xs ih =>
    obtain ⟨hc, hx⟩ := List.forall_mem_cons.mp hx
    cases ys with
    | nil =>
      rw [List.nil_append] at h
      subst h
      have hc' := hr' c rfl
      simp [hc] at hc'
    | cons d ys =>
      obtain ⟨rfl, hrest⟩ := List.cons.inj h
      obtain ⟨rfl, rfl⟩ := ih hx (List.forall_mem_cons.mp hy).2 hrest
      exact ⟨rfl, rfl⟩

variable {escape : Char → List Char}

/-- Escaped characters are read up to the quotation mark. -/
theorem escaped_cancel (he : Escaping escape) {cs ds r r' : List Char}
    (h : cs.flatMap escape ++ '"' :: r = ds.flatMap escape ++ '"' :: r') : cs = ds ∧ r = r' := by
  have hhead : ∀ {c : Char} {xs ys : List Char}, escape c ++ xs ≠ '"' :: ys := by
    intro c xs ys hc
    have hh := he.head c
    cases hec : escape c with
    | nil => exact he.ne_nil c hec
    | cons d ds =>
      rw [hec, List.cons_append] at hc
      rw [hec, List.head?_cons, (List.cons.inj hc).1] at hh
      exact hh rfl
  induction cs generalizing ds with
  | nil =>
    cases ds with
    | nil => exact ⟨rfl, (List.cons.inj h).2⟩
    | cons d ds =>
      rw [List.flatMap_cons, List.append_assoc] at h
      exact absurd h.symm hhead
  | cons c cs ih =>
    cases ds with
    | nil =>
      rw [List.flatMap_cons, List.append_assoc] at h
      exact absurd h hhead
    | cons d ds =>
      rw [List.flatMap_cons, List.flatMap_cons, List.append_assoc, List.append_assoc] at h
      obtain ⟨rfl, hrest⟩ := he.cancel h
      obtain ⟨rfl, rfl⟩ := ih hrest
      exact ⟨rfl, rfl⟩

theorem quoted_cancel (he : Escaping escape) {s t : String} {r r' : List Char}
    (h : quoted escape s ++ r = quoted escape t ++ r') : s = t ∧ r = r' := by
  simp only [quoted, List.cons_append, List.append_assoc, List.nil_append, List.cons.injEq, true_and] at h
  obtain ⟨hs, hr⟩ := escaped_cancel he h
  exact ⟨String.toList_inj.mp hs, hr⟩

/-- What a text begins with tells what kind of value it is. -/
def kind (c : Char) : ℕ := if c = '"' then 1 else if c = '[' then 2 else if c = '\x7b' then 3 else 0

/-- The kind of a value. -/
def Written.kind : Written → ℕ
  | .token _ => 0
  | .string _ => 1
  | .array _ => 2
  | .object _ => 3

theorem exists_text (v : Written) (hv : v.WellFormed) :
    ∃ c cs, text escape v = c :: cs ∧ kind c = v.kind ∧ c ≠ ']' := by
  cases v with
  | token cs =>
    obtain ⟨hne, hall⟩ := hv
    obtain ⟨c, cs, rfl⟩ := List.exists_cons_of_ne_nil hne
    have hc := hall c (.head _)
    have hother : c ≠ '"' ∧ c ≠ '[' ∧ c ≠ '\x7b' ∧ c ≠ ']' := by
      refine ⟨?_, ?_, ?_, ?_⟩ <;>
      · rintro rfl
        revert hc
        decide
    exact ⟨c, cs, rfl, by simp [kind, Written.kind, hother], hother.2.2.2⟩
  | string s => exact ⟨_, _, rfl, rfl, by decide⟩
  | array vs => cases vs <;> exact ⟨_, _, rfl, rfl, by decide⟩
  | object ms => cases ms <;> exact ⟨_, _, rfl, rfl, by decide⟩

/-- A value is not written like the end of an array. -/
theorem text_ne_end {v : Written} (hv : v.WellFormed) {r r' : List Char} :
    text escape v ++ r ≠ ']' :: r' := by
  obtain ⟨c, cs, hc, -, hne⟩ := @exists_text escape v hv
  intro h
  rw [hc] at h
  exact hne (List.cons.inj h).1

theorem ends_itemsText {vs : List Written} {r : List Char} : Ends (itemsText escape vs ++ r) := by
  cases vs <;> exact ends_cons (by decide)

theorem ends_membersText {ms : List (String × Written)} {r : List Char} :
    Ends (membersText escape ms ++ r) := by
  cases ms with
  | nil => exact ends_cons (by decide)
  | cons m ms => exact ends_cons (by decide)

/-- Texts that begin the same are of values of one kind. -/
theorem kind_eq {v w : Written} {r r' : List Char} (hv : v.WellFormed) (hw : w.WellFormed)
    (h : text escape v ++ r = text escape w ++ r') : v.kind = w.kind := by
  obtain ⟨c, cs, hc, hkv, -⟩ := @exists_text escape v hv
  obtain ⟨d, ds, hd, hkw, -⟩ := @exists_text escape w hw
  rw [hc, hd] at h
  rw [← hkv, ← hkw, (List.cons.inj h).1]

mutual

/-- **A text has one reading.** -/
theorem text_cancel (he : Escaping escape) : ∀ {v w : Written} {r r' : List Char}, v.WellFormed →
    w.WellFormed → Ends r → Ends r' → text escape v ++ r = text escape w ++ r' → v = w ∧ r = r'
  | .token cs, w, r, r', hv, hw, hr, hr', h => by
    have hkind := kind_eq hv hw h
    cases w with
    | token ds =>
      obtain ⟨rfl, rfl⟩ := token_cancel hv.2 hw.2 hr hr' h
      exact ⟨rfl, rfl⟩
    | _ => cases hkind
  | .string s, w, r, r', hv, hw, _, _, h => by
    have hkind := kind_eq hv hw h
    cases w with
    | string t =>
      obtain ⟨rfl, rfl⟩ := quoted_cancel he h
      exact ⟨rfl, rfl⟩
    | _ => cases hkind
  | .array [], w, r, r', hv, hw, _, _, h => by
    have hkind := kind_eq hv hw h
    cases w with
    | array ws =>
      cases ws with
      | nil => exact ⟨rfl, by simpa [text] using h⟩
      | cons w ws =>
        simp only [text, List.cons_append, List.append_assoc, List.cons.injEq, true_and] at h
        exact absurd h.symm (text_ne_end hw.1)
    | _ => cases hkind
  | .array (v :: vs), w, r, r', hv, hw, _, _, h => by
    have hkind := kind_eq hv hw h
    cases w with
    | array ws =>
      cases ws with
      | nil =>
        simp only [text, List.cons_append, List.append_assoc, List.cons.injEq, true_and] at h
        exact absurd h (text_ne_end hv.1)
      | cons w ws =>
        simp only [text, List.cons_append, List.append_assoc, List.cons.injEq, true_and] at h
        obtain ⟨rfl, hrest⟩ := text_cancel he hv.1 hw.1 ends_itemsText ends_itemsText h
        obtain ⟨rfl, rfl⟩ := itemsText_cancel he hv.2 hw.2 hrest
        exact ⟨rfl, rfl⟩
    | _ => cases hkind
  | .object [], w, r, r', hv, hw, _, _, h => by
    have hkind := kind_eq hv hw h
    cases w with
    | object ns =>
      cases ns with
      | nil => exact ⟨rfl, by simpa [text] using h⟩
      | cons n ns => simp [text, quoted] at h
    | _ => cases hkind
  | .object ((k, v) :: ms), w, r, r', hv, hw, _, _, h => by
    have hkind := kind_eq hv hw h
    cases w with
    | object ns =>
      cases ns with
      | nil => simp [text, quoted] at h
      | cons n ns =>
        obtain ⟨l, w⟩ := n
        simp only [text, List.cons_append, List.append_assoc, List.cons.injEq, true_and] at h
        obtain ⟨rfl, hv'⟩ := quoted_cancel he h
        obtain ⟨rfl, hrest⟩ := text_cancel he hv.1 hw.1 ends_membersText ends_membersText (List.cons.inj hv').2
        obtain ⟨rfl, rfl⟩ := membersText_cancel he hv.2 hw.2 hrest
        exact ⟨rfl, rfl⟩
    | _ => cases hkind

theorem itemsText_cancel (he : Escaping escape) : ∀ {vs ws : List Written} {r r' : List Char},
    ItemsWellFormed vs → ItemsWellFormed ws → itemsText escape vs ++ r = itemsText escape ws ++ r' →
      vs = ws ∧ r = r'
  | [], ws, r, r', _, _, h => by
    cases ws with
    | nil => exact ⟨rfl, (List.cons.inj h).2⟩
    | cons w ws => exact absurd (List.cons.inj h).1 (by decide)
  | v :: vs, ws, r, r', hv, hw, h => by
    cases ws with
    | nil => exact absurd (List.cons.inj h).1 (by decide)
    | cons w ws =>
      simp only [itemsText, List.cons_append, List.append_assoc, List.cons.injEq, true_and] at h
      obtain ⟨rfl, hrest⟩ := text_cancel he hv.1 hw.1 ends_itemsText ends_itemsText h
      obtain ⟨rfl, rfl⟩ := itemsText_cancel he hv.2 hw.2 hrest
      exact ⟨rfl, rfl⟩

theorem membersText_cancel (he : Escaping escape) : ∀ {ms ns : List (String × Written)} {r r' : List Char},
    MembersWellFormed ms → MembersWellFormed ns →
      membersText escape ms ++ r = membersText escape ns ++ r' → ms = ns ∧ r = r'
  | [], ns, r, r', _, _, h => by
    cases ns with
    | nil => exact ⟨rfl, (List.cons.inj h).2⟩
    | cons n ns => exact absurd (List.cons.inj h).1 (by decide)
  | (k, v) :: ms, ns, r, r', hv, hw, h => by
    cases ns with
    | nil => exact absurd (List.cons.inj h).1 (by decide)
    | cons n ns =>
      obtain ⟨l, w⟩ := n
      simp only [membersText, List.cons_append, List.append_assoc, List.cons.injEq, true_and] at h
      obtain ⟨rfl, hv'⟩ := quoted_cancel he h
      obtain ⟨rfl, hrest⟩ := text_cancel he hv.1 hw.1 ends_membersText ends_membersText (List.cons.inj hv').2
      obtain ⟨rfl, rfl⟩ := membersText_cancel he hv.2 hw.2 hrest
      exact ⟨rfl, rfl⟩

end

/-- Values that are written the same are the same. -/
theorem text_injective (he : Escaping escape) {v w : Written} (hv : v.WellFormed) (hw : w.WellFormed)
    (h : text escape v = text escape w) : v = w := by
  have hends : Ends [] := by simp [Ends]
  exact (text_cancel he hv hw hends hends (congrArg (· ++ []) h)).1

/-! ### The strings of a value -/

mutual

/-- The strings in a value, at every depth; the keys of members are not among them. -/
def Written.strings : Written → List String
  | .token _ => []
  | .string s => [s]
  | .array vs => itemsStrings vs
  | .object ms => membersStrings ms
termination_by structural v => v

/-- The strings in items. -/
def itemsStrings : List Written → List String
  | [] => []
  | v :: vs => v.strings ++ itemsStrings vs

/-- The strings in members. -/
def membersStrings : List (String × Written) → List String
  | [] => []
  | (_, v) :: ms => v.strings ++ membersStrings ms

end

theorem mem_itemsStrings {s : String} {vs : List Written} :
    s ∈ itemsStrings vs ↔ ∃ v : Written, v ∈ vs ∧ s ∈ v.strings := by
  induction vs with
  | nil => simp [itemsStrings]
  | cons v vs ih => simp [itemsStrings, ih]

theorem mem_membersStrings {s : String} {ms : List (String × Written)} :
    s ∈ membersStrings ms ↔ ∃ m : String × Written, m ∈ ms ∧ s ∈ m.2.strings := by
  induction ms with
  | nil => simp [membersStrings]
  | cons m ms ih => simp [membersStrings, ih]

theorem escaped_infix_quoted (s : String) : s.toList.flatMap escape <:+: quoted escape s :=
  ⟨['"'], ['"'], rfl⟩

mutual

/-- A string in a value is written somewhere in its text. -/
theorem quoted_infix_text {s : String} : ∀ {v : Written}, s ∈ v.strings → quoted escape s <:+: text escape v
  | .string t, h => by
    obtain rfl := List.mem_singleton.mp h
    exact List.infix_rfl
  | .array (v :: vs), h => by
    rw [text]
    rcases List.mem_append.mp h with h | h
    · exact (List.infix_cons (quoted_infix_text h)).trans (List.prefix_append ..).isInfix
    · exact (quoted_infix_itemsText h).trans (List.suffix_append ..).isInfix
  | .object ((k, v) :: ms), h => by
    rw [text]
    rcases List.mem_append.mp h with h | h
    · exact (quoted_infix_text h).trans ⟨'\x7b' :: quoted escape k ++ [':'], membersText escape ms, by simp⟩
    · exact (quoted_infix_membersText h).trans (List.suffix_append ..).isInfix

theorem quoted_infix_itemsText {s : String} : ∀ {vs : List Written}, s ∈ itemsStrings vs →
    quoted escape s <:+: itemsText escape vs
  | v :: vs, h => by
    rw [itemsText]
    rcases List.mem_append.mp h with h | h
    · exact (List.infix_cons (quoted_infix_text h)).trans (List.prefix_append ..).isInfix
    · exact (quoted_infix_itemsText h).trans (List.suffix_append ..).isInfix

theorem quoted_infix_membersText {s : String} : ∀ {ms : List (String × Written)}, s ∈ membersStrings ms →
    quoted escape s <:+: membersText escape ms
  | (k, v) :: ms, h => by
    rw [membersText]
    rcases List.mem_append.mp h with h | h
    · exact (quoted_infix_text h).trans ⟨',' :: quoted escape k ++ [':'], membersText escape ms, by simp⟩
    · exact (quoted_infix_membersText h).trans (List.suffix_append ..).isInfix

end

end Knolo.Library.JsonText
