import Knolo.Host.NativePack

/-!
# What is ignored of a native pack

A text that is accepted has the authority that its author believes to have written, if every line of it is
in the declaration as it is written.

* `Honoured` — a line is in the declaration as it is written; `Strict` — every line of the text is.
* `native_strict_iff` — the lines of an accepted text are, if and only if headers have no value, lines are
  indented by spaces, and no item of a list is left empty.
* `native_ignored` — a text with a grant behind `authority:` is accepted.
-/

namespace Knolo.Host

open Core Library Library.Fallible
open Icp (isWhitespace)

variable {display : CoreError → String} {d : PackDeclarationV1} {es : List Entry} {ls : List (List Char)}
  {heading key : String} {line value v : List Char} {e : Entry}

/-! ### Lines that are honoured -/

/-- The line has the key, with what is behind the colon, and stands where it is indented to. -/
structure Writes (indent : List Char) (key : String) (v : List Char) (line : List Char) : Prop where
  split : ∃ k, line = k ++ ':' :: v ∧ ':' ∉ k ∧ trim isWhitespace k = key.toList
  indented : indentation line = indent

/-- The items of a list, from what is between its brackets. -/
def listItems (inner : List Char) : List (List Char) :=
  if inner.all isWhitespace then [] else (inner.splitOn ',').map (trim isWhitespace)

/-- The value is a list in brackets; each of its items is an identifier, with the property. -/
def EachItem (P : Identifier → Prop) (value : List Char) : Prop :=
  ∃ inner, value = '[' :: inner ++ [']'] ∧ ∀ item ∈ listItems inner, ∃ i : Identifier, item = i.text.toList ∧ P i

/-- The line is in the declaration, as it is written under the heading. -/
inductive Honoured (d : PackDeclarationV1) (heading : String) (line : List Char) : Prop
  | version {v : List Char} : Writes [] "version" v line →
      parseNumber (2 ^ 16) (trim isWhitespace v) = .ok d.version → Honoured d heading line
  | id {v : List Char} : Writes [] "id" v line → trim isWhitespace v = d.id.text.toList → Honoured d heading line
  | tools {v : List Char} : Writes [] "tools" v line → EachItem (· ∈ d.tools) (trim isWhitespace v) →
      Honoured d heading line
  /-- A header has no value. -/
  | header {key : String} {v : List Char} : key = "authority" ∨ key = "budget" → Writes [] key v line →
      trim isWhitespace v = [] → Honoured d heading line
  | capabilities {v : List Char} : heading = "authority" → Writes [' ', ' '] "capabilities" v line →
      EachItem (· ∈ d.capabilityBindings) (trim isWhitespace v) → Honoured d heading line
  | namespaces {v : List Char} : heading = "authority" → Writes [' ', ' '] "namespaces" v line →
      EachItem (· ∈ d.namespaces) (trim isWhitespace v) → Honoured d heading line
  | maxCalls {v : List Char} : heading = "budget" → Writes [' ', ' '] "max_calls" v line →
      parseNumber (2 ^ 64) (trim isWhitespace v) = .ok d.budget.maxCalls → Honoured d heading line
  | maxUnits {v : List Char} : heading = "budget" → Writes [' ', ' '] "max_units" v line →
      parseNumber (2 ^ 64) (trim isWhitespace v) = .ok d.budget.maxUnits → Honoured d heading line
  | maxDurationMs {v : List Char} : heading = "budget" → Writes [' ', ' '] "max_duration_ms" v line →
      parseNumber (2 ^ 64) (trim isWhitespace v) = .ok d.budget.maxDurationMs → Honoured d heading line
  /-- A limit of the runtime. -/
  | runtime {key : String} {v : List Char} {n : ℕ} : key = "max_steps" ∨ key = "max_cost_micros" →
      heading = "budget" → Writes [' ', ' '] key v line → parseNumber (2 ^ 64) (trim isWhitespace v) = .ok n →
      Honoured d heading line

/-- The key of a line at the left margin. -/
def marginKey (line : List Char) : Option String :=
  if indentation line = [] then (splitOnce ':' line).map fun parts => String.ofList (trim isWhitespace parts.1)
  else none

/-- The heading that lines leave: the last key at the left margin. -/
def headingAfter (heading : String) (ls : List (List Char)) : String :=
  ls.foldl (fun heading line => (marginKey line).getD heading) heading

/-- Every line of the text that is not blank is in the declaration, as it is written. -/
def Strict (ls : List (List Char)) (d : PackDeclarationV1) : Prop :=
  ∀ pre line post, ls = pre ++ line :: post → ¬ (∀ c ∈ line, isWhitespace c = true) →
    Honoured d (headingAfter "" pre) line

/-- Headers have no value, lines are indented by spaces, and no item of a list is left empty. -/
structure Plain (ls : List (List Char)) : Prop where
  headers : ∀ line ∈ ls, ∀ key v, key = "authority" ∨ key = "budget" → Writes [] key v line → ∀ c ∈ v, isWhitespace c = true
  indents : ∀ line ∈ ls, ¬ (∀ c ∈ line, isWhitespace c = true) →
    indentation line = [] ∨ indentation line = [' ', ' ']
  items : ∀ line ∈ ls, ∀ indent key v inner, Writes indent key v line →
    trim isWhitespace v = '[' :: inner ++ [']'] → (∀ c ∈ inner, isWhitespace c = true) ∨
      ∀ item ∈ inner.splitOn ',', ¬ ∀ c ∈ item, isWhitespace c = true

/-! ### Entries of lines -/

theorem marginKey_blank (h : ∀ c ∈ line, isWhitespace c = true) : marginKey line = none := by
  have hcolon : ':' ∉ line := fun hc => absurd (h _ hc) (by decide)
  rw [marginKey, splitOnce_eq_none hcolon]
  split <;> rfl

theorem EntryAt.indentation (h : EntryAt heading line e) :
    indentation line = [] ∧ e.home = none ∨ indentation line ≠ [] ∧ e.home ≠ none := by
  have hbytes := h.indented
  by_cases hhome : e.home = none
  · rw [if_pos hhome] at hbytes
    exact .inl ⟨NativeReading.byteLength_eq_zero.mp hbytes, hhome⟩
  · rw [if_neg hhome] at hbytes
    refine .inr ⟨fun hnil => ?_, hhome⟩
    rw [hnil] at hbytes
    cases hbytes

/-- A line leaves the heading of its entry. -/
theorem EntryAt.marginKey (h : EntryAt heading line e) : (marginKey line).getD heading = e.heading heading := by
  rcases h.indentation with ⟨hnil, hhome⟩ | ⟨hne, hhome⟩
  · obtain ⟨⟨k, v, rfl, hk, hkey, -⟩, -, -⟩ := h
    rw [Host.marginKey, if_pos hnil, splitOnce_append_cons hk, Entry.heading, hhome]
    simp [hkey, String.ofList_toList]
  · rw [Host.marginKey, if_neg hne, Entry.heading]
    cases hk : e.home with
    | none => exact absurd hk hhome
    | some _ => rfl

/-- The line that is not blank has an entry, under the heading that is left before it. -/
theorem Reads.at {pre post : List (List Char)} (h : Reads heading (pre ++ line :: post) es)
    (hline : ¬ ∀ c ∈ line, isWhitespace c = true) : ∃ e ∈ es, EntryAt (headingAfter heading pre) line e := by
  induction pre generalizing heading es with
  | nil =>
    cases h with
    | blank hblank _ => exact absurd hblank hline
    | entry hat _ => exact ⟨_, List.mem_cons_self .., hat⟩
  | cons l pre ih =>
    have hafter : headingAfter heading (l :: pre) = headingAfter ((marginKey l).getD heading) pre := rfl
    cases h with
    | blank hblank h =>
      rw [hafter, marginKey_blank hblank]
      exact ih h
    | entry hat h =>
      obtain ⟨e, he, hat'⟩ := ih h
      rw [hafter, hat.marginKey]
      exact ⟨e, List.mem_cons_of_mem _ he, hat'⟩

/-- There is one entry for a key. -/
theorem entry_unique {e' : Entry} (he : e ∈ es) (he' : e' ∈ es) (hnodup : (es.map Entry.key).Nodup)
    (hkey : e.key = e'.key) : e = e' :=
  List.inj_on_of_nodup_map hnodup he he' hkey

/-- It says what the field has. -/
theorem Sets.unique {β : Type} {mk : β → Entry} {initial b b' : β} (h : Sets mk initial es b) (hb' : mk b' ∈ es)
    (hnodup : (es.map Entry.key).Nodup) (hkey : (mk b).key = (mk b').key) : mk b = mk b' := by
  rcases h with hb | ⟨hnone, -⟩
  · exact entry_unique hb hb' hnodup hkey
  · exact absurd hb' (hnone b')

/-- A list without empty items is read as it is written. -/
theorem Lists.eachItem {ids : Std.ExtTreeSet Identifier} (h : Lists value ids)
    (hitems : ∀ inner, value = '[' :: inner ++ [']'] → (∀ c ∈ inner, isWhitespace c = true) ∨
      ∀ item ∈ inner.splitOn ',', ¬ ∀ c ∈ item, isWhitespace c = true) {P : Identifier → Prop} (hP : ∀ i ∈ ids, P i) :
    EachItem P value := by
  obtain ⟨inner, names, hbrackets, rfl, hnames⟩ := h
  have hvalue := unbracket_eq_some.mp hbrackets
  refine ⟨inner, hvalue, fun item hitem => ?_⟩
  unfold listItems at hitem
  split at hitem
  · cases hitem
  · rename_i hblank
    rcases hitems inner hvalue with hall | hall
    · exact absurd (List.all_eq_true.mpr hall) hblank
    · have hfilter : ((inner.splitOn ',').map (trim isWhitespace)).filter (fun v => !v.isEmpty) =
          (inner.splitOn ',').map (trim isWhitespace) := by
        refine List.filter_eq_self.mpr fun text htext => ?_
        obtain ⟨item, hitem, rfl⟩ := List.mem_map.mp htext
        have hne : trim isWhitespace item ≠ [] := fun h => hall item hitem (trim_eq_nil_iff.mp h)
        simpa using hne
      rw [← hfilter, hnames] at hitem
      obtain ⟨name, hname, rfl⟩ := List.mem_map.mp hitem
      refine ⟨name, rfl, hP name ?_⟩
      rwa [Std.ExtTreeSet.mem_ofList, List.contains_iff_mem]

/-- **A plain line is honoured.** -/
theorem EntryAt.honoured (hplain : Plain ls) (hline : line ∈ ls) (hnodup : (es.map Entry.key).Nodup)
    (hdeclares : Declares es d) (he : e ∈ es) (hat : EntryAt heading line e) : Honoured d heading line := by
  have hindent := hat.indentation
  obtain ⟨⟨k, v, rfl, hk, hkey, hmeans⟩, -, hplaced⟩ := hat
  have hnotblank : ¬ ∀ c ∈ k ++ ':' :: v, isWhitespace c = true := fun h =>
    absurd (h ':' (by simp)) (by decide)
  have hmargin : e.home = none → Writes [] e.key v (k ++ ':' :: v) := fun hhome =>
    ⟨⟨k, rfl, hk, hkey⟩, hindent.elim And.left fun h => absurd hhome h.2⟩
  have hsection : ∀ {header}, e.home = some header → Writes [' ', ' '] e.key v (k ++ ':' :: v) := by
    intro header hhome
    have hne : e.home ≠ none := Option.ne_none_iff_exists'.mpr ⟨header, hhome⟩
    exact ⟨⟨k, rfl, hk, hkey⟩, (hplain.indents _ hline hnotblank).resolve_left
      (hindent.elim (fun h => absurd h.2 hne) And.left)⟩
  have hitems : ∀ {indent key}, Writes indent key v (k ++ ':' :: v) → ∀ inner, trim isWhitespace v = '[' :: inner ++ [']'] →
      (∀ c ∈ inner, isWhitespace c = true) ∨ ∀ item ∈ inner.splitOn ',', ¬ ∀ c ∈ item, isWhitespace c = true :=
    fun hwrites inner => hplain.items _ hline _ _ _ inner hwrites
  cases e with
  | version n =>
    cases entry_unique hdeclares.version.1 he hnodup rfl
    exact .version (hmargin rfl) (by rw [hdeclares.version.2]; exact hmeans)
  | id i =>
    cases entry_unique hdeclares.id he hnodup rfl
    exact .id (hmargin rfl) hmeans
  | tools ids =>
    cases hdeclares.tools.unique he hnodup rfl
    exact .tools (hmargin rfl) (hmeans.eachItem (hitems (hmargin rfl)) fun _ h => h)
  | authority =>
    have hvalue := hplain.headers _ hline _ _ (.inl rfl) (hmargin rfl)
    exact .header (.inl rfl) (hmargin rfl) (trim_eq_nil_iff.mpr hvalue)
  | budget =>
    have hvalue := hplain.headers _ hline _ _ (.inr rfl) (hmargin rfl)
    exact .header (.inr rfl) (hmargin rfl) (trim_eq_nil_iff.mpr hvalue)
  | capabilities ids =>
    have hwrites := hsection rfl
    obtain ⟨ids', hids', hbindings⟩ := hdeclares.capabilities
    cases hids'.unique he hnodup rfl
    refine .capabilities (hplaced _ rfl).symm hwrites (hmeans.eachItem (hitems hwrites) fun i hi => ?_)
    rw [hbindings, Std.ExtTreeMap.mem_ofList]
    simpa [List.map_map, Function.comp_def] using hi
  | namespaces ids =>
    have hwrites := hsection rfl
    cases hdeclares.namespaces.unique he hnodup rfl
    exact .namespaces (hplaced _ rfl).symm hwrites (hmeans.eachItem (hitems hwrites) fun _ h => h)
  | maxCalls n =>
    have hwrites := hsection rfl
    cases entry_unique hdeclares.maxCalls.1 he hnodup rfl
    exact .maxCalls (hplaced _ rfl).symm hwrites hmeans
  | maxUnits n =>
    have hwrites := hsection rfl
    cases hdeclares.maxUnits.unique he hnodup rfl
    exact .maxUnits (hplaced _ rfl).symm hwrites hmeans
  | maxDurationMs n =>
    have hwrites := hsection rfl
    cases hdeclares.maxDurationMs.unique he hnodup rfl
    exact .maxDurationMs (hplaced _ rfl).symm hwrites hmeans
  | maxSteps n =>
    have hwrites := hsection rfl
    exact .runtime (.inl rfl) (hplaced _ rfl).symm hwrites hmeans
  | maxCostMicros n =>
    have hwrites := hsection rfl
    exact .runtime (.inr rfl) (hplaced _ rfl).symm hwrites hmeans

/-! ### Lines that are not -/

theorem Writes.unique {indent indent' : List Char} {key' : String} {v' : List Char} (h : Writes indent key v line)
    (h' : Writes indent' key' v' line) : indent = indent' ∧ key = key' ∧ v = v' := by
  obtain ⟨⟨k, rfl, hk, hkey⟩, rfl⟩ := h
  obtain ⟨⟨k', hline, hk', hkey'⟩, rfl⟩ := h'
  have hparts : splitOnce ':' (k ++ ':' :: v) = some (k', v') := hline ▸ splitOnce_append_cons hk'
  rw [splitOnce_append_cons hk] at hparts
  cases hparts
  exact ⟨rfl, String.toList_injective (hkey.symm.trans hkey'), rfl⟩

theorem Writes.not_blank {indent : List Char} (h : Writes indent key v line) : ¬ ∀ c ∈ line, isWhitespace c = true := by
  obtain ⟨⟨k, rfl, -, -⟩, -⟩ := h
  exact fun h => absurd (h ':' (by simp)) (by decide)

theorem parseNumber_bracket {bound n : ℕ} {l : List Char} : parseNumber bound ('[' :: l) ≠ .ok n := by
  simp [parseNumber, parseDigits, List.foldlM_cons]

/-- Only lists have an item, and none is empty. -/
theorem EachItem.items {P : Identifier → Prop} (h : EachItem P value) {inner : List Char}
    (hvalue : value = '[' :: inner ++ [']']) : (∀ c ∈ inner, isWhitespace c = true) ∨
      ∀ item ∈ inner.splitOn ',', ¬ ∀ c ∈ item, isWhitespace c = true := by
  obtain ⟨inner', rfl, hitems⟩ := h
  obtain rfl : inner' = inner := by simpa using hvalue
  by_cases hblank : inner'.all isWhitespace = true
  · exact .inl (List.all_eq_true.mp hblank)
  · refine .inr fun item hitem hall => ?_
    rw [listItems, if_neg hblank] at hitems
    obtain ⟨i, hi, -⟩ := hitems _ (List.mem_map_of_mem hitem)
    rw [trim_eq_nil_iff.mpr hall] at hi
    exact (identifier_plain i).1 hi.symm

/-- **A line that is honoured is plain.** -/
theorem Honoured.plain (h : Honoured d heading line) :
    (indentation line = [] ∨ indentation line = [' ', ' ']) ∧
      (∀ key v, key = "authority" ∨ key = "budget" → Writes [] key v line → ∀ c ∈ v, isWhitespace c = true) ∧
      ∀ indent key v inner, Writes indent key v line → trim isWhitespace v = '[' :: inner ++ [']'] →
        (∀ c ∈ inner, isWhitespace c = true) ∨ ∀ item ∈ inner.splitOn ',', ¬ ∀ c ∈ item, isWhitespace c = true := by
  have hother : ∀ {indent : List Char} {key : String} {v : List Char}, Writes indent key v line → key ≠ "authority" →
      key ≠ "budget" → ∀ key v, key = "authority" ∨ key = "budget" → Writes [] key v line →
        ∀ c ∈ v, isWhitespace c = true := by
    rintro indent key v hwrites hauthority hbudget key' v' (rfl | rfl) hwrites'
    · exact absurd (hwrites.unique hwrites').2.1 hauthority
    · exact absurd (hwrites.unique hwrites').2.1 hbudget
  have hnumber : ∀ {indent : List Char} {key : String} {v : List Char} {bound n : ℕ}, Writes indent key v line →
      parseNumber bound (trim isWhitespace v) = .ok n → ∀ indent key v inner, Writes indent key v line →
        trim isWhitespace v = '[' :: inner ++ [']'] →
        (∀ c ∈ inner, isWhitespace c = true) ∨ ∀ item ∈ inner.splitOn ',', ¬ ∀ c ∈ item, isWhitespace c = true := by
    intro indent key v bound n hwrites hn indent' key' v' inner hwrites' hvalue
    obtain ⟨-, -, rfl⟩ := hwrites.unique hwrites'
    rw [hvalue] at hn
    exact absurd hn parseNumber_bracket
  have hlist : ∀ {indent : List Char} {key : String} {v : List Char} {P : Identifier → Prop}, Writes indent key v line →
      EachItem P (trim isWhitespace v) → ∀ indent key v inner, Writes indent key v line →
        trim isWhitespace v = '[' :: inner ++ [']'] →
        (∀ c ∈ inner, isWhitespace c = true) ∨ ∀ item ∈ inner.splitOn ',', ¬ ∀ c ∈ item, isWhitespace c = true := by
    intro indent key v P hwrites hitems indent' key' v' inner hwrites' hvalue
    obtain ⟨-, -, rfl⟩ := hwrites.unique hwrites'
    exact hitems.items hvalue
  cases h with
  | version hwrites hn => exact ⟨.inl hwrites.indented, hother hwrites (by decide) (by decide), hnumber hwrites hn⟩
  | id hwrites hid =>
    refine ⟨.inl hwrites.indented, hother hwrites (by decide) (by decide), fun indent key v inner hwrites' hvalue => ?_⟩
    obtain ⟨-, -, rfl⟩ := hwrites.unique hwrites'
    have hbracket : '[' ∈ d.id.text.toList := by rw [← hid, hvalue]; simp
    exact absurd rfl (identifierChar_plain ((identifier_plain d.id).2 _ hbracket)).2.2.2
  | tools hwrites hitems => exact ⟨.inl hwrites.indented, hother hwrites (by decide) (by decide), hlist hwrites hitems⟩
  | header _ hwrites hvalue =>
    refine ⟨.inl hwrites.indented, fun key v _ hwrites' => ?_, fun indent key v inner hwrites' hbrackets => ?_⟩
    · obtain ⟨-, -, rfl⟩ := hwrites.unique hwrites'
      exact trim_eq_nil_iff.mp hvalue
    · obtain ⟨-, -, rfl⟩ := hwrites.unique hwrites'
      rw [hvalue] at hbrackets
      cases hbrackets
  | capabilities _ hwrites hitems | namespaces _ hwrites hitems =>
    exact ⟨.inr hwrites.indented, hother hwrites (by decide) (by decide), hlist hwrites hitems⟩
  | maxCalls _ hwrites hn | maxUnits _ hwrites hn | maxDurationMs _ hwrites hn =>
    exact ⟨.inr hwrites.indented, hother hwrites (by decide) (by decide), hnumber hwrites hn⟩
  | runtime hkey _ hwrites hn =>
    refine ⟨.inr hwrites.indented, ?_, hnumber hwrites hn⟩
    rcases hkey with rfl | rfl <;> exact hother hwrites (by decide) (by decide)

theorem Strict.plain (h : Strict ls d) : Plain ls := by
  have hat : ∀ line ∈ ls, ¬ (∀ c ∈ line, isWhitespace c = true) → ∃ heading, Honoured d heading line := by
    intro line hline hblank
    obtain ⟨pre, post, hsplit⟩ := List.append_of_mem hline
    exact ⟨_, h pre line post hsplit hblank⟩
  refine ⟨fun line hline key v hkey hwrites => ?_, fun line hline hblank => ?_,
    fun line hline indent key v inner hwrites hvalue => ?_⟩
  · obtain ⟨heading, hline⟩ := hat line hline hwrites.not_blank
    exact hline.plain.2.1 key v hkey hwrites
  · obtain ⟨heading, hline⟩ := hat line hline hblank
    exact hline.plain.1
  · obtain ⟨heading, hline⟩ := hat line hline hwrites.not_blank
    exact hline.plain.2.2 indent key v inner hwrites hvalue

/-- **The lines of an accepted text are in the declaration as they are written**, if and only if headers have
no value, lines are indented by spaces, and no item of a list is left empty. -/
theorem native_strict_iff (display : CoreError → String) (utf8Error : ByteArray → String) (text : String)
    (d : PackDeclarationV1) (hload : loadNativePack display utf8Error text.toUTF8 = .ok d) :
    Strict (lines text.toList) d ↔ Plain (lines text.toList) := by
  rw [loadNativePack_toUTF8] at hload
  obtain ⟨es, hreads, hnodup, hdeclares⟩ := parseNativeDeclaration_eq_ok.mp hload
  refine ⟨Strict.plain, fun hplain pre line post hsplit hblank => ?_⟩
  have hline : line ∈ lines text.toList := hsplit ▸ List.mem_append_right _ (List.mem_cons_self ..)
  rw [hsplit] at hreads
  obtain ⟨e, he, hat⟩ := hreads.at hblank
  exact hat.honoured hplain hline (nodup_keys hnodup) hdeclares he

/-- A pack whose author has granted `notes.write`, on the line of the header. -/
def grantText : String := "version: 1\nid: notes\nauthority: [notes.write]\nbudget:\n  max_calls: 3\n"

/-- The line of the header. -/
def grantLine : List Char := "authority: [notes.write]".toList

theorem grant_loads (display : CoreError → String) :
    ∃ d, parseNativeDeclaration display grantText.toList = .ok d ∧ d.capabilityBindings.isEmpty = true := by
  have hloads : (parseNativeDeclaration display grantText.toList).toOption.map (·.capabilityBindings.isEmpty) =
      some true := by
    rfl
  obtain ⟨d, hd, hempty⟩ := Option.map_eq_some_iff.mp hloads
  exact ⟨d, toOption_eq_some.mp hd, hempty⟩

theorem grant_not_plain : ¬ Plain (lines grantText.toList) := by
  intro hplain
  have hline : grantLine ∈ lines grantText.toList := by decide +kernel
  have hwrites : Writes [] "authority" " [notes.write]".toList grantLine :=
    ⟨⟨"authority".toList, by decide +kernel, by decide, by decide⟩, by decide +kernel⟩
  exact absurd (hplain.headers _ hline _ _ (.inl rfl) hwrites '[' (by decide)) (by decide)

/-- **A grant behind a header is ignored**: the text is accepted, without it. -/
theorem native_ignored :
    ¬ ∀ (display : CoreError → String) (utf8Error : ByteArray → String) (text : String) (d : PackDeclarationV1),
      loadNativePack display utf8Error text.toUTF8 = .ok d → Strict (lines text.toList) d := by
  intro h
  obtain ⟨d, hd, -⟩ := grant_loads fun _ => ""
  have hload : loadNativePack (fun _ => "") (fun _ => "") grantText.toUTF8 = .ok d :=
    (loadNativePack_toUTF8 _ grantText).trans hd
  exact grant_not_plain (h _ _ _ d hload).plain

/-- The text that grants is not in its declaration as it is written. -/
theorem native_strict_grant : ∃ d, loadNativePack (fun _ => "") (fun _ => "") grantText.toUTF8 = .ok d ∧
    d.capabilityBindings.isEmpty = true ∧ ¬ Strict (lines grantText.toList) d := by
  obtain ⟨d, hd, hempty⟩ := grant_loads fun _ => ""
  have hload : loadNativePack (fun _ => "") (fun _ => "") grantText.toUTF8 = .ok d :=
    (loadNativePack_toUTF8 _ grantText).trans hd
  exact ⟨d, hload, hempty, fun h => grant_not_plain ((native_strict_iff _ _ grantText d hload).mp h)⟩

end Knolo.Host
