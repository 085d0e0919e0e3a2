import Knolo.Library.JsonText
import Knolo.Library.Pattern
import Knolo.Skills.Catalog

/-!
# Secrets in packs

`assertNoSecrets` of `packages/agents/src/skills/publish.ts`, and `canonicalJson` of
`packages/agents/src/harness/hash.ts`: before a pack is built, the text it is written as is searched
for what looks like a secret.

What is searched is the written text, in which line breaks and other control characters are escaped.
Three of the patterns have white space in them that is not at their end; with a control character
there, a secret is not found (`hiddenPatterns`).

* `secret_survives` — every other secret is found in the text that is written.
* `leaks_eq_hides` — so of a value that passes the search, a string has a secret in it exactly where it
  has a hidden one.
-/

namespace Knolo.Skills

open Core Script Harness Library Library.Fallible Library.StableSort Library.JsonText Library.Pattern

/-! ### Canonical texts -/

mutual

/-- `canonicalize`: a value as `JSON.stringify` writes it, its properties sorted by their keys. -/
def canonicalize (language : Language) : JsValue → Written
  | .null => .token ['n', 'u', 'l', 'l']
  | .bool b => .token (if b then ['t', 'r', 'u', 'e'] else ['f', 'a', 'l', 's', 'e'])
  | .number (.infinite _) => .token ['n', 'u', 'l', 'l']
  | .number x => .token (language.numberText x).toList
  | .string s => .string s
  | .array items => .array (canonicalizeItems language items)
  | .object ps => .object (Script.ownProperties
      (sortBy (fun a b => compare (codeUnits a.1) (codeUnits b.1)) (canonicalizeProperties language ps)))

/-- The same of items. -/
def canonicalizeItems (language : Language) : List JsValue → List Written
  | [] => []
  | v :: vs => canonicalize language v :: canonicalizeItems language vs

/-- The same of properties. -/
def canonicalizeProperties (language : Language) : List (String × JsValue) → List (String × Written)
  | [] => []
  | (k, v) :: ps => (k, canonicalize language v) :: canonicalizeProperties language ps

end

/-- `canonicalJson`. -/
def canonicalJson (language : Language) (v : JsValue) : List Char :=
  JsonText.text Json.escape (canonicalize language v)

mutual

/-- The strings in a value, at every depth. -/
def stringsOf : JsValue → List String
  | .string s => [s]
  | .array items => itemStrings items
  | .object ps => propertyStrings ps
  | _ => []

/-- The strings in items. -/
def itemStrings : List JsValue → List String
  | [] => []
  | v :: vs => stringsOf v ++ itemStrings vs

/-- The strings in the values of properties. -/
def propertyStrings : List (String × JsValue) → List String
  | [] => []
  | (_, v) :: ps => stringsOf v ++ propertyStrings ps

end

theorem propertyStrings_append (ps qs : List (String × JsValue)) :
    propertyStrings (ps ++ qs) = propertyStrings ps ++ propertyStrings qs := by
  induction ps with
  | nil => rfl
  | cons q ps ih => rw [List.cons_append, propertyStrings, propertyStrings, ih, List.append_assoc]

/-- Sorting members keeps the strings in them. -/
theorem mem_membersStrings_sorted {s : String} {cmp : String × Written → String × Written → Ordering}
    {ms : List (String × Written)} (h : s ∈ membersStrings ms) :
    s ∈ membersStrings (Script.ownProperties (sortBy cmp ms)) := by
  obtain ⟨m, hm, hs⟩ := mem_membersStrings.mp h
  exact mem_membersStrings.mpr ⟨m, ((ownProperties_perm _).trans sortBy_perm).mem_iff.mpr hm, hs⟩

mutual

/-- Every string in a value is one in what is written. -/
theorem mem_strings_canonicalize {language : Language} {s : String} : ∀ {v : JsValue}, s ∈ stringsOf v →
    s ∈ (canonicalize language v).strings
  | .string _, h => h
  | .array _, h => mem_itemsStrings_canonicalize h
  | .object _, h => mem_membersStrings_sorted (mem_membersStrings_canonicalize h)

theorem mem_itemsStrings_canonicalize {language : Language} {s : String} : ∀ {items : List JsValue},
    s ∈ itemStrings items → s ∈ itemsStrings (canonicalizeItems language items)
  | _ :: _, h => List.mem_append.mpr ((List.mem_append.mp h).imp mem_strings_canonicalize mem_itemsStrings_canonicalize)

theorem mem_membersStrings_canonicalize {language : Language} {s : String} : ∀ {ps : List (String × JsValue)},
    s ∈ propertyStrings ps → s ∈ membersStrings (canonicalizeProperties language ps)
  | _ :: _, h =>
    List.mem_append.mpr ((List.mem_append.mp h).imp mem_strings_canonicalize mem_membersStrings_canonicalize)

end

/-- A string in a value is written, with its characters escaped, somewhere in the text. -/
theorem escaped_infix_canonicalJson {language : Language} {s : String} {v : JsValue} (h : s ∈ stringsOf v) :
    s.toList.flatMap Json.escape <:+: canonicalJson language v :=
  (escaped_infix_quoted s).trans (quoted_infix_text (mem_strings_canonicalize h))

/-! ### The search -/

/-- `[A-Za-z0-9]`. -/
def alphanumeric (c : Char) : Bool := c.isAlphanum

/-- `\s`. -/
def space (c : Char) : Bool := TypeScript.isWhitespace c

/-- `[A-Za-z0-9\-._~+/]`. -/
def bearerChar (c : Char) : Bool := c.isAlphanum || c = '-' || c = '.' || c = '_' || c = '~' || c = '+' || c = '/'

/-- A text in capital or small letters. -/
def anyCase (s : String) : List Piece := s.toList.map fun c => .one fun d => d = c.toLower || d = c.toUpper

/-- `Bearer` and `[A-Za-z0-9\-._~+/]+=*` behind it. -/
def bearerToken : List Piece := atLeast 1 bearerChar ++ [.many (· = '=')]

/-- `api[_-]?key`. -/
def apiKey : List Piece := anyCase "api" ++ [.maybe fun c => c = '_' || c = '-'] ++ anyCase "key"

/-- `\s*\S+`. -/
def spaced : List Piece := [.many space] ++ atLeast 1 fun c => !space c

/-- `[:=]\s*\S+`. -/
def assigned : List Piece := [.one fun c => c = ':' || c = '='] ++ spaced

/-- `SECRET_PATTERNS`. -/
def secretPatterns : List (List Piece) := [
  literal "sk-" ++ atLeast 16 alphanumeric,
  literal "kno_" ++ atLeast 8 alphanumeric,
  literal "xai-" ++ atLeast 8 alphanumeric,
  anyCase "Bearer" ++ (atLeast 1 space ++ bearerToken),
  apiKey ++ ([.many space] ++ assigned),
  literal "-----BEGIN " ++ [.many fun c => c.isUpper || c = ' '] ++ literal "PRIVATE KEY-----",
  anyCase "password" ++ ([.many space] ++ assigned)]

/-- `assertNoSecrets`, of a value that is not a text. -/
def assertNoSecrets (language : Language) (value : JsValue) : Except String Unit :=
  secretPatterns.forM fun pattern =>
    ensure (test pattern (canonicalJson language value) = false)
      "capability pack contains a secret; secrets never enter .knolo bytes"

/-- A text has in it what looks like a secret. -/
def leaks (s : String) : Bool := secretPatterns.any fun pattern => test pattern s.toList

/-- White space that is escaped in a text: tab, line feed, vertical tab, form feed, carriage return. -/
def control (c : Char) : Bool := 0x09 ≤ c.toNat && c.toNat ≤ 0x0d

/-- White space with a control character in it. -/
def brokenSpace : List Piece := [.many space, .one control, .many space]

/-- Secrets whose white space is broken before what is secret of them. -/
def hiddenPatterns : List (List Piece) := [
  anyCase "Bearer" ++ (brokenSpace ++ bearerToken),
  apiKey ++ (brokenSpace ++ assigned),
  anyCase "password" ++ (brokenSpace ++ assigned)]

/-- A text has in it what looks like a secret with broken white space. -/
def hides (s : String) : Bool := hiddenPatterns.any fun pattern => test pattern s.toList

/-! ### What the search finds -/

/-- A character is written as it is, or with a backslash in front. -/
theorem escape_cases (c : Char) : Json.escape c = [c] ∨ ∃ r, Json.escape c = '\\' :: r := by
  unfold Json.escape
  split_ifs <;> simp

/-- Printing characters other than the quotation mark and the backslash. -/
def printing (c : Char) : Bool := 32 ≤ c.toNat && c ≠ '"' && c ≠ '\\'

theorem printing_iff {c : Char} : printing c = true ↔ 32 ≤ c.toNat ∧ c ≠ '"' ∧ c ≠ '\\' := by
  simp [printing, and_assoc]

theorem escape_of_printing {c : Char} (h : printing c = true) : Json.escape c = [c] := by
  obtain ⟨h32, hq, hb⟩ := printing_iff.mp h
  unfold Json.escape
  rw [if_neg hq, if_neg hb, if_neg (by omega), if_neg (by omega), if_neg (by omega), if_neg (by omega),
    if_neg (by omega), if_neg (by omega)]

theorem printing_of_isAlphanum {c : Char} (h : c.isAlphanum = true) : printing c = true := by
  have hcontrol : ∀ n < 32, (Char.ofNat n).isAlphanum = false := by decide
  refine printing_iff.mpr ⟨?_, ?_, ?_⟩
  · by_contra hlt
    have hc := hcontrol c.toNat (by omega)
    rw [Char.ofNat_toNat, h] at hc
    cases hc
  all_goals
    rintro rfl
    revert h
    decide

/-- White space without a control character is written as it is. -/
theorem printing_of_space {c : Char} (h : space c = true) (h' : control c = false) : printing c = true := by
  refine printing_iff.mpr ⟨?_, ?_, ?_⟩
  · simp only [space, TypeScript.isWhitespace, control, Bool.or_eq_true, Bool.and_eq_true, decide_eq_true_eq,
      Bool.and_eq_false_imp, decide_eq_false_iff_not] at h h'
    omega
  all_goals
    rintro rfl
    revert h
    decide

theorem space_of_control {c : Char} (h : control c = true) : space c = true := by
  simp only [control, Bool.and_eq_true, decide_eq_true_eq] at h
  simp [space, TypeScript.isWhitespace, h]

theorem plain_atLeast {n : ℕ} {q : Char → Bool} (h : ∀ c, q c = true → printing c = true) :
    Plain Json.escape (atLeast n q) := by
  intro p hp c hc
  refine escape_of_printing (h c ?_)
  rcases List.mem_append.mp hp with hp | hp
  · rwa [List.eq_of_mem_replicate hp] at hc
  · rwa [List.mem_singleton.mp hp] at hc

theorem plain_literal {s : String} (h : s.toList.all printing = true) : Plain Json.escape (literal s) := by
  intro p hp c hc
  obtain ⟨d, hd, rfl⟩ := List.mem_map.mp hp
  obtain rfl := of_decide_eq_true hc
  exact escape_of_printing (List.all_eq_true.mp h c hd)

theorem plain_anyCase {s : String} (h : (s.toList.all fun c => printing c.toLower && printing c.toUpper) = true) :
    Plain Json.escape (anyCase s) := by
  intro p hp c hc
  obtain ⟨d, hd, rfl⟩ := List.mem_map.mp hp
  simp only [Piece.accepts, Bool.or_eq_true, decide_eq_true_eq] at hc
  obtain ⟨hlower, hupper⟩ := (Bool.and_eq_true _ _).mp (List.all_eq_true.mp h d hd)
  rcases hc with rfl | rfl
  · exact escape_of_printing hlower
  · exact escape_of_printing hupper

theorem plain_singleton {p : Piece} (h : ∀ c, p.accepts c = true → printing c = true) : Plain Json.escape [p] := by
  intro p' hp' c hc
  obtain rfl := List.mem_singleton.mp hp'
  exact escape_of_printing (h c hc)

theorem plain_apiKey : Plain Json.escape apiKey := by
  refine .append (.append (plain_anyCase (by decide +kernel)) (plain_singleton fun c hc => ?_)) (plain_anyCase (by decide +kernel))
  simp only [Piece.accepts, Bool.or_eq_true, decide_eq_true_eq] at hc
  rcases hc with rfl | rfl <;> decide

theorem survives_bearerToken : Survives Json.escape bearerToken := by
  refine survives_of_plain (.append (plain_atLeast fun c hc => ?_) (plain_singleton fun c hc => ?_))
  · simp only [bearerChar, Bool.or_eq_true, decide_eq_true_eq] at hc
    rcases hc with (((((hc | rfl) | rfl) | rfl) | rfl) | rfl) | rfl
    · exact printing_of_isAlphanum hc
    all_goals decide
  · obtain rfl := of_decide_eq_true hc
    decide

theorem denotes_spaced {w : List Char} {c : Char} (hw : ∀ d ∈ w, space d = true) (hc : space c = false) :
    Denotes spaced (w ++ [c]) :=
  denotes_append.mpr ⟨w, [c], rfl, denotes_many.mpr hw, denotes_atLeast_one.mpr ⟨by simp, by simpa using hc⟩⟩

/-- White space is followed by something also after the characters are escaped: an escape is something. -/
theorem survives_spaced : Survives Json.escape spaced := by
  intro w hw
  obtain ⟨a, b, rfl, ha, hb⟩ := denotes_append.mp hw
  rw [denotes_many] at ha
  obtain ⟨hne, hb⟩ := denotes_atLeast_one.mp hb
  obtain ⟨c, cs, rfl⟩ := List.exists_cons_of_ne_nil hne
  obtain ⟨hc, -⟩ := List.forall_mem_cons.mp hb
  -- what is found is white space and one character: that behind it, or the backslash of an escape
  suffices h : ∃ u d, (∀ x ∈ u, space x = true) ∧ space d = false ∧ u ++ [d] <+: (a ++ c :: cs).flatMap Json.escape by
    obtain ⟨u, d, hu, hd, hprefix⟩ := h
    exact ⟨u ++ [d], hprefix, denotes_spaced hu hd⟩
  clear hw hne hb
  induction a with
  | nil =>
    rw [List.nil_append, List.flatMap_cons]
    rcases escape_cases c with he | ⟨r, he⟩ <;> rw [he]
    · exact ⟨[], c, by simp, by simpa using hc, List.prefix_append ..⟩
    · exact ⟨[], '\\', by simp, by decide, by simp⟩
  | cons x a ih =>
    obtain ⟨hx, ha⟩ := List.forall_mem_cons.mp ha
    rw [List.cons_append, List.flatMap_cons]
    rcases escape_cases x with he | ⟨r, he⟩ <;> rw [he]
    · obtain ⟨u, d, hu, hd, hprefix⟩ := ih ha
      exact ⟨x :: u, d, List.forall_mem_cons.mpr ⟨hx, hu⟩, hd, (List.prefix_cons_inj x).mpr hprefix⟩
    · exact ⟨[], '\\', by simp, by decide, by simp⟩

/-- What is assigned is found with its first character. -/
theorem survives_assigned : Survives Json.escape assigned := by
  refine Survives.append (plain_singleton fun c hc => ?_) survives_spaced
  simp only [Piece.accepts, Bool.or_eq_true, decide_eq_true_eq] at hc
  rcases hc with rfl | rfl <;> decide

/-- A secret with white space in it is hidden by a control character there, and else is found. -/
theorem survives_or_hides {before gap after : List Piece} (hbefore : Plain Json.escape before)
    (hgap : ∀ w, Denotes gap w → ∀ c ∈ w, space c = true) (hafter : Survives Json.escape after) {s : List Char}
    (hs : test (before ++ (gap ++ after)) s = true) :
    test (before ++ (gap ++ after)) (s.flatMap Json.escape) = true ∨
      test (before ++ (brokenSpace ++ after)) s = true := by
  obtain ⟨w, hws, hw⟩ := test_iff.mp hs
  obtain ⟨a, _, rfl, ha, hw⟩ := denotes_append.mp hw
  obtain ⟨b, c, rfl, hb, hc⟩ := denotes_append.mp hw
  by_cases h : ∃ x ∈ b, control x = true
  · have hbroken : Denotes brokenSpace b := (denotes_gap fun x hx => space_of_control hx).mpr ⟨hgap b hb, h⟩
    exact .inr (test_iff.mpr ⟨_, hws, denotes_append.mpr ⟨a, _, rfl, ha, denotes_append.mpr ⟨b, c, rfl, hbroken, hc⟩⟩⟩)
  · obtain ⟨v, hv, hd⟩ := hafter c hc
    have hplain : b.flatMap Json.escape = b := flatMap_eq_self fun x hx =>
      escape_of_printing (printing_of_space (hgap b hb x hx) (by simpa using fun hx' => h ⟨x, hx, hx'⟩))
    have hprefix : a ++ (b ++ v) <+: (a ++ (b ++ c)).flatMap Json.escape := by
      rw [List.flatMap_append, List.flatMap_append, hbefore.flatMap_eq ha, hplain]
      exact (List.prefix_append_right_inj a).mpr ((List.prefix_append_right_inj b).mpr hv)
    exact .inl (test_flatMap hws hprefix (denotes_append.mpr ⟨a, _, rfl, ha, denotes_append.mpr ⟨b, v, rfl, hb, hd⟩⟩))

/-- Broken white space is white space. -/
theorem secret_of_broken {before gap after : List Piece}
    (hgap : ∀ w, w ≠ [] → (∀ c ∈ w, space c = true) → Denotes gap w) {s : List Char}
    (hs : test (before ++ (brokenSpace ++ after)) s = true) : test (before ++ (gap ++ after)) s = true := by
  obtain ⟨w, hws, hw⟩ := test_iff.mp hs
  obtain ⟨a, _, rfl, ha, hw⟩ := denotes_append.mp hw
  obtain ⟨b, c, rfl, hb, hc⟩ := denotes_append.mp hw
  obtain ⟨hspace, x, hx, -⟩ := (denotes_gap fun x hx => space_of_control hx).mp hb
  exact test_iff.mpr ⟨_, hws, denotes_append.mpr ⟨a, _, rfl, ha,
    denotes_append.mpr ⟨b, c, rfl, hgap b (List.ne_nil_of_mem hx) hspace, hc⟩⟩⟩

theorem survives_key {start : String} {n : ℕ} (h : start.toList.all printing = true) :
    Survives Json.escape (literal start ++ atLeast n alphanumeric) :=
  survives_of_plain (.append (plain_literal h) (plain_atLeast fun _ => printing_of_isAlphanum))

theorem survives_privateKey :
    Survives Json.escape (literal "-----BEGIN " ++ [.many fun c => c.isUpper || c = ' '] ++ literal "PRIVATE KEY-----") := by
  refine survives_of_plain (.append (.append (plain_literal (by decide +kernel)) (plain_singleton fun c hc => ?_))
    (plain_literal (by decide +kernel)))
  simp only [Piece.accepts, Bool.or_eq_true, decide_eq_true_eq] at hc
  rcases hc with hc | rfl
  · have halnum : (c.isUpper || c.isLower || c.isDigit) = true := by rw [hc]; rfl
    exact printing_of_isAlphanum halnum
  · decide

/-- **A secret is found in the text that is written, unless it is hidden.** -/
theorem secret_survives {s : String} (h : leaks s = true) : hides s = true ∨
    ∃ p : List Piece, p ∈ secretPatterns ∧ test p (s.toList.flatMap Json.escape) = true := by
  obtain ⟨p, hp, hs⟩ := List.any_eq_true.mp h
  suffices h : test p (s.toList.flatMap Json.escape) = true ∨ ∃ q : List Piece, q ∈ hiddenPatterns ∧ test q s.toList = true by
    rcases h with h | h
    · exact .inr ⟨p, hp, h⟩
    · exact .inl (List.any_eq_true.mpr h)
  have hmany : ∀ w, Denotes [.many space] w → ∀ c ∈ w, space c = true := fun w hw => denotes_many.mp hw
  have hatLeast : ∀ w, Denotes (atLeast 1 space) w → ∀ c ∈ w, space c = true := fun w hw =>
    (denotes_atLeast_one.mp hw).2
  have hbearer : Plain Json.escape (anyCase "Bearer") := plain_anyCase (by decide +kernel)
  have hpassword : Plain Json.escape (anyCase "password") := plain_anyCase (by decide +kernel)
  rcases List.mem_cons.mp hp with rfl | hp
  · exact .inl ((survives_key (by decide +kernel)).test hs)
  rcases List.mem_cons.mp hp with rfl | hp
  · exact .inl ((survives_key (by decide +kernel)).test hs)
  rcases List.mem_cons.mp hp with rfl | hp
  · exact .inl ((survives_key (by decide +kernel)).test hs)
  rcases List.mem_cons.mp hp with rfl | hp
  · exact (survives_or_hides hbearer hatLeast survives_bearerToken hs).imp_right fun h => ⟨_, .head _, h⟩
  rcases List.mem_cons.mp hp with rfl | hp
  · exact (survives_or_hides plain_apiKey hmany survives_assigned hs).imp_right fun h => ⟨_, .tail _ (.head _), h⟩
  rcases List.mem_cons.mp hp with rfl | hp
  · exact .inl (survives_privateKey.test hs)
  obtain rfl := List.mem_singleton.mp hp
  exact (survives_or_hides hpassword hmany survives_assigned hs).imp_right fun h => ⟨_, .tail _ (.tail _ (.head _)), h⟩

/-- What is hidden is a secret. -/
theorem leaks_of_hides {s : String} (h : hides s = true) : leaks s = true := by
  obtain ⟨q, hq, hs⟩ := List.any_eq_true.mp h
  have hmany : ∀ w, w ≠ [] → (∀ c ∈ w, space c = true) → Denotes [.many space] w := fun w _ hw => denotes_many.mpr hw
  have hatLeast : ∀ w, w ≠ [] → (∀ c ∈ w, space c = true) → Denotes (atLeast 1 space) w := fun w hne hw =>
    denotes_atLeast_one.mpr ⟨hne, hw⟩
  have hfound : ∃ p : List Piece, p ∈ secretPatterns ∧ test p s.toList = true := by
    rcases List.mem_cons.mp hq with rfl | hq
    · exact ⟨_, .tail _ <| .tail _ <| .tail _ <| .head _, secret_of_broken hatLeast hs⟩
    rcases List.mem_cons.mp hq with rfl | hq
    · exact ⟨_, .tail _ <| .tail _ <| .tail _ <| .tail _ <| .head _, secret_of_broken hmany hs⟩
    obtain rfl := List.mem_singleton.mp hq
    exact ⟨_, .tail _ <| .tail _ <| .tail _ <| .tail _ <| .tail _ <| .tail _ <| .head _, secret_of_broken hmany hs⟩
  exact List.any_eq_true.mpr hfound

/-- A value passes: then its strings have secrets in them only where they are hidden. -/
theorem leaks_eq_hides {language : Language} {v : JsValue} (h : assertNoSecrets language v = .ok ()) {s : String}
    (hs : s ∈ stringsOf v) : leaks s = hides s := by
  refine Bool.eq_iff_iff.mpr ⟨fun hleaks => ?_, leaks_of_hides⟩
  refine (secret_survives hleaks).resolve_right ?_
  rintro ⟨p, hp, hfound⟩
  have hnone := Traverse.forM_eq_ok.mp h p hp
  rw [ensure, if_neg (by simp [test_mono (escaped_infix_canonicalJson hs) hfound])] at hnone
  cases hnone

/-- A text without control characters hides nothing. -/
theorem hides_eq_false {s : String} (h : ∀ c ∈ s.toList, control c = false) : hides s = false := by
  have hbroken : ∀ before after : List Piece, test (before ++ (brokenSpace ++ after)) s.toList = false := by
    intro before after
    refine Bool.eq_false_iff.mpr fun hs => ?_
    obtain ⟨w, hws, hw⟩ := test_iff.mp hs
    obtain ⟨a, _, rfl, -, hw⟩ := denotes_append.mp hw
    obtain ⟨b, c, rfl, hb, -⟩ := denotes_append.mp hw
    obtain ⟨-, x, hx, hcontrol⟩ := (denotes_gap fun x hx => space_of_control hx).mp hb
    have hmem : x ∈ s.toList := hws.subset (by simp [hx])
    rw [h x hmem] at hcontrol
    cases hcontrol
  simp [hides, hiddenPatterns, hbroken]

end Knolo.Skills
