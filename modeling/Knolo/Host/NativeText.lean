import Knolo.Host.NativePack

/-!
# Packs as texts

What a declaration may look like as a native pack.

* `Rendering` — lines that declare what is in a declaration: sections in any order, keys of a section in any
  order, with blank lines and spaces. Each declaration that the format has words for has one.
* `native_round_trip` — what is rendered is what is loaded, and no key may be written twice.
-/

namespace Knolo.Host

open Core Library Library.Fallible
open Icp (isWhitespace)

variable {display : CoreError → String} {d : PackDeclarationV1} {es : List Entry} {ls : List (List Char)}
  {heading : String} {line value : List Char} {e : Entry}

/-! ### What may be written -/

/-- White space within a line. -/
def Spaces (cs : List Char) : Prop := ∀ c ∈ cs, isWhitespace c = true ∧ c ≠ '\n'

instance : DecidablePred Spaces := List.decidableBAll fun c => isWhitespace c = true ∧ c ≠ '\n'

/-- A number below `bound`, in decimal digits. -/
structure NumberText (bound n : ℕ) (value : List Char) : Prop where
  nonempty : value ≠ []
  digits : ∀ c ∈ value, c.isDigit = true
  number : Nat.ofDigitChars 10 value 0 = n
  small : n < bound

/-- An identifier with spaces around it. -/
def ItemText (item : List Char) (name : Identifier) : Prop :=
  ∃ a b, Spaces a ∧ Spaces b ∧ item = a ++ name.text.toList ++ b

/-- A list of identifiers in brackets, in any order. -/
inductive ListText : Std.ExtTreeSet Identifier → List Char → Prop
  /-- There are none. -/
  | nil {a : List Char} : Spaces a → ListText ∅ ('[' :: a ++ [']'])
  /-- There are some, and commas between them. -/
  | items {names : List Identifier} {items : List (List Char)} : names ≠ [] → List.Forall₂ ItemText items names →
      ListText (.ofList names) ('[' :: [','].intercalate items ++ [']'])

/-- The value of an entry, as it is written. -/
def Entry.Text (value : List Char) : Entry → Prop
  | version n => NumberText (2 ^ 16) n value
  | id i => value = i.text.toList
  | tools ids | capabilities ids | namespaces ids => ListText ids value
  | authority | budget => value = []
  | maxCalls n | maxUnits n | maxDurationMs n | maxSteps n | maxCostMicros n => NumberText (2 ^ 64) n value

/-- The spaces before the key of an entry. -/
def Entry.margin (e : Entry) : List Char := if e.home = none then [] else [' ', ' ']

/-- The line of an entry. -/
def Entry.Line (e : Entry) (line : List Char) : Prop :=
  ∃ a b c value, Spaces a ∧ Spaces b ∧ Spaces c ∧ e.Text value ∧
    line = (e.margin ++ e.key.toList ++ a) ++ ':' :: (b ++ value ++ c)

/-- Lines with the entries, each of a section under its header. -/
inductive Written : String → List (List Char) → List Entry → Prop
  /-- There are no lines. -/
  | nil {heading : String} : Written heading [] []
  /-- A blank line. -/
  | blank {heading : String} {line : List Char} {ls : List (List Char)} {es : List Entry} :
      Spaces line → Written heading ls es → Written heading (line :: ls) es
  /-- The line of an entry. -/
  | entry {heading : String} {line : List Char} {ls : List (List Char)} {e : Entry} {es : List Entry} :
      e.Line line → (∀ h, e.home = some h → h = heading) → Written (e.heading heading) ls es →
      Written heading (line :: ls) (e :: es)

/-- The capabilities that are bound. -/
def capabilitiesOf (d : PackDeclarationV1) : Std.ExtTreeSet CapabilityId := .ofList d.capabilityBindings.keys

/-- The entries are those of the declaration. What it has by default may be left out. -/
structure Covers (es : List Entry) (d : PackDeclarationV1) : Prop where
  version : Entry.version d.version ∈ es
  id : Entry.id d.id ∈ es
  tools : Sets .tools ∅ es d.tools
  capabilities : Sets .capabilities ∅ es (capabilitiesOf d)
  namespaces : Sets .namespaces ∅ es d.namespaces
  maxCalls : Entry.maxCalls d.budget.maxCalls ∈ es
  maxUnits : Sets .maxUnits 0 es d.budget.maxUnits
  maxDurationMs : Sets .maxDurationMs 0 es d.budget.maxDurationMs

/-- Lines that render a declaration. -/
structure Rendering (d : PackDeclarationV1) (ls : List (List Char)) (es : List Entry) : Prop where
  written : Written "" ls es
  /-- No key is written twice. -/
  once : (es.map Entry.path).Nodup
  covers : Covers es d

/-- What the format has words for. -/
structure Expressible (d : PackDeclarationV1) : Prop where
  version : d.version = 1
  calls : 0 < d.budget.maxCalls
  numbers : d.budget.maxCalls < 2 ^ 64 ∧ d.budget.maxUnits < 2 ^ 64 ∧ d.budget.maxDurationMs < 2 ^ 64
  /-- Capabilities are bound to their own names. -/
  identity : ∀ (c : CapabilityId) (b : String), d.capabilityBindings[c]? = some b → b = c.text
  unconstrained : d.argumentConstraints = ∅

/-! ### What is written is read -/

theorem Spaces.blank {cs : List Char} (h : Spaces cs) : ∀ c ∈ cs, isWhitespace c = true := fun c hc => (h c hc).1

theorem Spaces.not_mem {cs : List Char} (h : Spaces cs) {c : Char} (hc : isWhitespace c = false) : c ∉ cs :=
  fun hmem => by simp [(h c hmem).1] at hc

theorem identifierChar_of_isDigit {c : Char} (h : c.isDigit = true) : identifierChar c = true := by
  simp [identifierChar, Char.isAlphanum, h]

/-- A number of digits is read. -/
theorem foldlM_digits {bound : ℕ} {cs : List Char} (hdigits : ∀ c ∈ cs, c.isDigit = true) {n : ℕ}
    (hsmall : Nat.ofDigitChars 10 cs n < bound) :
    cs.foldlM (fun n c =>
      if c.isDigit then
        if 10 * n + (c.toNat - '0'.toNat) < bound then .ok (10 * n + (c.toNat - '0'.toNat))
        else .error "number too large to fit in target type"
      else .error "invalid digit found in string") n = (.ok (Nat.ofDigitChars 10 cs n) : Except String ℕ) := by
  induction cs generalizing n with
  | nil => rfl
  | cons c cs ih =>
    rw [Nat.ofDigitChars_cons] at hsmall ⊢
    have hle : 10 * n + (c.toNat - '0'.toNat) ≤ Nat.ofDigitChars 10 cs (10 * n + (c.toNat - '0'.toNat)) := by
      rw [Nat.ofDigitChars_eq_ofDigitChars_zero]
      exact (Nat.le_mul_of_pos_left _ (Nat.pow_pos (by decide))).trans (Nat.le_add_right _ _)
    rw [List.foldlM_cons, if_pos (hdigits c (List.mem_cons_self ..)), if_pos (by omega)]
    exact ih (fun c hc => hdigits c (List.mem_cons_of_mem _ hc)) hsmall

theorem NumberText.parseNumber {bound n : ℕ} (h : NumberText bound n value) : parseNumber bound value = .ok n := by
  have hread : parseDigits bound value = .ok n := by
    have hsmall : Nat.ofDigitChars 10 value 0 < bound := h.number ▸ h.small
    rw [← h.number]
    exact foldlM_digits h.digits hsmall
  unfold Host.parseNumber
  split
  · exact absurd rfl h.nonempty
  · exact absurd (h.digits '+' (by simp)) (by decide)
  · exact absurd (h.digits '-' (by simp)) (by decide)
  · exact absurd (h.digits '+' (by simp)) (by decide)
  · exact hread

theorem ItemText.trim {item : List Char} {name : Identifier} (h : ItemText item name) :
    trim isWhitespace item = name.text.toList := by
  obtain ⟨a, b, ha, hb, rfl⟩ := h
  rw [trim_append_right hb.blank, trim_append_left ha.blank, identifier_trim]

theorem ItemText.not_mem {item : List Char} {name : Identifier} (h : ItemText item name) : ',' ∉ item := by
  obtain ⟨a, b, ha, hb, rfl⟩ := h
  have hname : ',' ∉ name.text.toList := fun hc => (identifierChar_plain ((identifier_plain name).2 _ hc)).2.2.1 rfl
  have hcomma : isWhitespace ',' = false := by decide
  simp [ha.not_mem hcomma, hb.not_mem hcomma, hname]

/-- A list that is written is read. -/
theorem ListText.lists {ids : Std.ExtTreeSet Identifier} (h : ListText ids value) : Lists value ids := by
  cases h with
  | @nil a ha =>
    refine ⟨a, [], unbracket_eq_some.mpr rfl, rfl, ?_⟩
    rw [List.splitOn_eq_singleton (ha.not_mem (by decide)), List.map_singleton, trim_eq_nil_iff.mpr ha.blank]
    rfl
  | @items names items hne hitems =>
    have hcomma : ∀ item ∈ items, ',' ∉ item := by
      clear hne
      induction hitems with
      | nil => exact fun _ h => (nomatch h)
      | cons hname _ ih => exact List.forall_mem_cons.mpr ⟨hname.not_mem, ih⟩
    have hnonempty : items ≠ [] := by
      rintro rfl
      cases hitems
      exact hne rfl
    have htrim : items.map (trim isWhitespace) = names.map fun name => name.text.toList := by
      clear hcomma hnonempty hne
      induction hitems with
      | nil => rfl
      | cons hname _ ih => rw [List.map_cons, List.map_cons, hname.trim, ih]
    refine ⟨[','].intercalate items, names, unbracket_eq_some.mpr rfl, rfl, ?_⟩
    rw [List.splitOn_intercalate ',' hcomma hnonempty, htrim]
    refine List.filter_eq_self.mpr fun text htext => ?_
    obtain ⟨name, -, rfl⟩ := List.mem_map.mp htext
    simpa using (identifier_plain name).1

/-- What is written says what it is written for. -/
theorem Entry.Text.means (h : e.Text value) : e.Says value := by
  cases e with
  | version n => exact h.parseNumber
  | id i => exact h
  | tools ids | capabilities ids | namespaces ids => exact h.lists
  | authority => trivial
  | budget => trivial
  | maxCalls n | maxUnits n | maxDurationMs n | maxSteps n | maxCostMicros n => exact h.parseNumber

/-- There are no spaces at the ends of a value. -/
theorem Entry.Text.trim_eq (h : e.Text value) : trim isWhitespace value = value := by
  have hbrackets : ∀ inner, trim isWhitespace ('[' :: inner ++ [']']) = '[' :: inner ++ [']'] := by
    refine fun inner => trim_eq_self (fun c hc => ?_) fun c hc => ?_
    · cases hc
      decide
    · rw [List.getLast?_concat] at hc
      cases hc
      decide
  have hlist : ∀ ids, ListText ids value → trim isWhitespace value = value := by
    intro ids h
    cases h with
    | nil _ => exact hbrackets _
    | items _ _ => exact hbrackets _
  have hnumber : ∀ bound n, NumberText bound n value → trim isWhitespace value = value := fun bound n h =>
    trim_eq_self_of_forall fun c hc => (identifierChar_plain (identifierChar_of_isDigit (h.digits c hc))).1
  cases e with
  | version n => exact hnumber _ _ h
  | id i =>
    obtain rfl : value = i.text.toList := h
    exact identifier_trim i
  | tools ids | capabilities ids | namespaces ids => exact hlist ids h
  | authority | budget =>
    obtain rfl : value = [] := h
    rfl
  | maxCalls n | maxUnits n | maxDurationMs n | maxSteps n | maxCostMicros n => exact hnumber _ _ h

/-- No key has a colon or white space in it. -/
theorem Entry.key_plain (e : Entry) : e.key.toList ≠ [] ∧ ∀ c ∈ e.key.toList, isWhitespace c = false ∧ c ≠ ':' := by
  have hkeys : ∀ key ∈ ["version", "id", "tools", "authority", "capabilities", "namespaces", "budget", "max_calls",
      "max_units", "max_duration_ms", "max_steps", "max_cost_micros"],
      key.toList ≠ [] ∧ key.toList.all (fun c => !isWhitespace c && c ≠ ':') = true := by
    decide
  obtain ⟨hne, hall⟩ := hkeys e.key (by cases e <;> simp [Entry.key])
  refine ⟨hne, fun c hc => ?_⟩
  simpa using List.all_eq_true.mp hall c hc

/-- **The line of an entry is read as the entry.** -/
theorem Entry.Line.entryAt (h : e.Line line) (hplaced : ∀ h, e.home = some h → h = heading) : EntryAt heading line e := by
  obtain ⟨a, b, c, value, ha, hb, hc, htext, rfl⟩ := h
  have hmargin : ∀ c ∈ e.margin, isWhitespace c = true := by
    unfold Entry.margin
    split
    · exact fun _ h => (nomatch h)
    · exact (show Spaces [' ', ' '] by decide).blank
  obtain ⟨hne, hkey⟩ := e.key_plain
  have htrim : trim isWhitespace (e.margin ++ e.key.toList ++ a) = e.key.toList := by
    rw [trim_append_right ha.blank, trim_append_left hmargin, trim_eq_self_of_forall fun c hc => (hkey c hc).1]
  have hindent : (e.margin ++ e.key.toList ++ a).takeWhile isWhitespace = e.margin := by
    rw [List.append_assoc, List.takeWhile_append_of_pos hmargin]
    cases hk : e.key.toList with
    | nil => exact absurd hk hne
    | cons c cs =>
      have hc : isWhitespace c = false := (hkey c (hk ▸ List.mem_cons_self ..)).1
      rw [List.cons_append, List.takeWhile_cons, hc]
      simp
  refine ⟨⟨_, _, rfl, ?_, htrim, ?_⟩, ?_, hplaced⟩
  · intro hcolon
    rcases List.mem_append.mp hcolon with hcolon | hcolon
    · rcases List.mem_append.mp hcolon with hcolon | hcolon
      · exact absurd (hmargin _ hcolon) (by decide)
      · exact (hkey _ hcolon).2 rfl
    · exact ha.not_mem (by decide) hcolon
  · rw [trim_append_right hc.blank, trim_append_left hb.blank, htext.trim_eq]
    exact htext.means
  · rw [NativeReading.indentation_append_cons, hindent, Entry.margin]
    split <;> rfl

theorem Written.reads (h : Written heading ls es) : Reads heading ls es := by
  induction h with
  | nil => exact .nil
  | blank hblank _ ih => exact .blank hblank.blank ih
  | entry hline hplaced _ ih => exact .entry (hline.entryAt hplaced) ih

/-! ### Lines and their texts -/

/-- A carriage return at the end of a line is not looked at. -/
theorem readLine_dropReturn (s : NativeReading) (line : List Char) :
    s.readLine display (dropReturn line) = s.readLine display line := by
  rcases dropReturn_append line with h | h
  · rw [← h]
  · have hline : (dropReturn line ++ ['\r']).rdropWhile isWhitespace = (dropReturn line).rdropWhile isWhitespace :=
      rdropWhile_append_of_all (List.all_eq_true.mp rfl)
    conv_rhs => rw [h]
    unfold NativeReading.readLine
    rw [hline]

/-- A text is accepted if its lines say what is declared. -/
theorem loadNativePack_eq_ok {utf8Error : ByteArray → String} {text : String} (h : IsLines ls text.toList) :
    loadNativePack display utf8Error text.toUTF8 = .ok d ↔
      ∃ es, Reads "" ls es ∧ (es.map Entry.path).Nodup ∧ Declares es d := by
  have hfold : ∀ {ls' : List (List Char)}, List.Forall₂ (fun l l' => l' = l ∨ l' = dropReturn l) ls ls' →
      ∀ s : NativeReading, ls'.foldlM (fun s raw => s.readLine display raw) s =
        ls.foldlM (fun s raw => s.readLine display raw) s := by
    intro ls' hlines
    clear h
    induction hlines with
    | nil => exact fun _ => rfl
    | cons hl _ ih =>
      intro s
      rw [List.foldlM_cons, List.foldlM_cons]
      rcases hl with rfl | rfl
      · exact congrArg _ (funext ih)
      · rw [readLine_dropReturn]
        exact congrArg _ (funext ih)
  rw [loadNativePack_toUTF8, parseNativeDeclaration, hfold h.lines, bind_eq_ok]
  exact read_eq_ok

/-! ### The round trip -/

/-- Capabilities that are bound to their names are known by their names. -/
theorem Expressible.bindings (hd : Expressible d) :
    d.capabilityBindings = .ofList ((capabilitiesOf d).toList.map fun c => (c, c.text)) := by
  refine Std.ExtTreeMap.ext_getElem? fun c => ?_
  have hmem : c ∈ (capabilitiesOf d).toList ↔ c ∈ d.capabilityBindings := by
    rw [Std.ExtTreeSet.mem_toList, capabilitiesOf, Std.ExtTreeSet.mem_ofList, List.contains_iff_mem,
      Std.ExtTreeMap.mem_keys]
  by_cases hc : c ∈ d.capabilityBindings
  · have hdistinct : ((capabilitiesOf d).toList.map fun c => (c, c.text)).Pairwise
        fun a b => ¬compare a.1 b.1 = .eq := by
      rw [List.pairwise_map]
      show (capabilitiesOf d).toList.Pairwise fun a b => ¬compare a b = .eq
      exact Std.ExtTreeSet.distinct_toList
    rw [Std.ExtTreeMap.getElem?_ofList_of_mem Std.ReflCmp.compare_self hdistinct
      (List.mem_map_of_mem (hmem.mpr hc))]
    obtain ⟨b, hb⟩ := Std.ExtTreeMap.isSome_getElem?_iff_mem.mpr hc |> Option.isSome_iff_exists.mp
    rw [hb, hd.identity c b hb]
  · rw [Std.ExtTreeMap.getElem?_eq_none hc, Std.ExtTreeMap.getElem?_ofList_of_contains_eq_false]
    simpa [List.map_map, Function.comp_def] using fun h => hc (hmem.mp h)

theorem Covers.declares (hd : Expressible d) (h : Covers es d) : Declares es d where
  version := ⟨hd.version ▸ h.version, hd.version⟩
  id := h.id
  tools := h.tools
  capabilities := ⟨capabilitiesOf d, h.capabilities, hd.bindings⟩
  namespaces := h.namespaces
  argumentConstraints := hd.unconstrained
  maxCalls := ⟨h.maxCalls, hd.calls.ne'⟩
  maxUnits := h.maxUnits
  maxDurationMs := h.maxDurationMs

/-- Each entry with a value that can be written has a line. -/
theorem Entry.Text.exists_line (h : e.Text value) : ∃ line, e.Line line :=
  ⟨_, [], [' '], [], value, fun _ h => (nomatch h), by decide, fun _ h => (nomatch h), h, rfl⟩

theorem exists_numberText {bound n : ℕ} (h : n < bound) : ∃ value, NumberText bound n value :=
  ⟨Nat.toDigits 10 n, Nat.toDigits_ne_nil, fun _ hc => Nat.isDigit_of_mem_toDigits (by decide) (by decide) hc,
    Nat.ofDigitChars_ten_toDigits, h⟩

theorem exists_listText (ids : Std.ExtTreeSet Identifier) : ∃ value, ListText ids value := by
  have hids : .ofList ids.toList = ids := by
    refine Std.ExtTreeSet.ext_mem fun i => ?_
    rw [Std.ExtTreeSet.mem_ofList, List.contains_iff_mem, Std.ExtTreeSet.mem_toList]
  by_cases hnil : ids.toList = []
  · rw [hnil] at hids
    rw [← hids]
    exact ⟨_, .nil (a := []) fun _ h => (nomatch h)⟩
  · have hitems : List.Forall₂ ItemText (ids.toList.map fun i => i.text.toList) ids.toList := by
      rw [List.forall₂_map_left_iff, List.forall₂_same]
      exact fun i _ => ⟨[], [], fun _ h => (nomatch h), fun _ h => (nomatch h), by simp⟩
    rw [← hids]
    exact ⟨_, .items hnil hitems⟩

/-- **Each declaration that the format has words for has a rendering.** -/
theorem Expressible.exists_rendering (hd : Expressible d) : ∃ ls es, Rendering d ls es := by
  obtain ⟨hcalls, hunits, hduration⟩ := hd.numbers
  have hversion : d.version < 2 ^ 16 := by
    rw [hd.version]
    decide
  obtain ⟨version, hversion⟩ := (exists_numberText hversion).elim fun _ h => Entry.Text.exists_line (e := .version d.version) h
  obtain ⟨tools, htools⟩ := (exists_listText d.tools).elim fun _ h => Entry.Text.exists_line (e := .tools d.tools) h
  obtain ⟨caps, hcaps⟩ :=
    (exists_listText (capabilitiesOf d)).elim fun _ h => Entry.Text.exists_line (e := .capabilities (capabilitiesOf d)) h
  obtain ⟨namespaces, hnamespaces⟩ :=
    (exists_listText d.namespaces).elim fun _ h => Entry.Text.exists_line (e := .namespaces d.namespaces) h
  obtain ⟨calls, hcalls⟩ :=
    (exists_numberText hcalls).elim fun _ h => Entry.Text.exists_line (e := .maxCalls d.budget.maxCalls) h
  obtain ⟨units, hunits⟩ :=
    (exists_numberText hunits).elim fun _ h => Entry.Text.exists_line (e := .maxUnits d.budget.maxUnits) h
  obtain ⟨duration, hduration⟩ :=
    (exists_numberText hduration).elim fun _ h => Entry.Text.exists_line (e := .maxDurationMs d.budget.maxDurationMs) h
  obtain ⟨id, hid⟩ := Entry.Text.exists_line (e := .id d.id) rfl
  obtain ⟨authority, hauthority⟩ := Entry.Text.exists_line (e := .authority) rfl
  obtain ⟨budget, hbudget⟩ := Entry.Text.exists_line (e := .budget) rfl
  refine ⟨[version, id, tools, authority, caps, namespaces, budget, calls, units, duration],
    [.version d.version, .id d.id, .tools d.tools, .authority, .capabilities (capabilitiesOf d),
      .namespaces d.namespaces, .budget, .maxCalls d.budget.maxCalls, .maxUnits d.budget.maxUnits,
      .maxDurationMs d.budget.maxDurationMs], ?_, ?_, ?_⟩
  · refine .entry hversion (fun _ h => (nomatch h)) (.entry hid (fun _ h => (nomatch h)) (.entry htools
      (fun _ h => (nomatch h)) (.entry hauthority (fun _ h => (nomatch h)) (.entry hcaps (fun _ h => ?_)
      (.entry hnamespaces (fun _ h => ?_) (.entry hbudget (fun _ h => (nomatch h)) (.entry hcalls (fun _ h => ?_)
      (.entry hunits (fun _ h => ?_) (.entry hduration (fun _ h => ?_) .nil)))))))))
    all_goals cases h; rfl
  · show ["version", "id", "tools", "authority", "authority.capabilities", "authority.namespaces", "budget",
      "budget.max_calls", "budget.max_units", "budget.max_duration_ms"].Nodup
    decide
  · constructor <;> first | exact .inl (by simp) | simp

/-- The key of a line that is not blank. -/
def keyOf (line : List Char) : Option (List Char) := (splitOnce ':' line).map fun parts => trim isWhitespace parts.1

theorem keyOf_append_cons {k v : List Char} (hk : ':' ∉ k) : keyOf (k ++ ':' :: v) = some (trim isWhitespace k) := by
  rw [keyOf, splitOnce_append_cons hk]
  rfl

theorem keyOf_blank (h : ∀ c ∈ line, isWhitespace c = true) : keyOf line = none := by
  have hcolon : ':' ∉ line := fun hc => absurd (h _ hc) (by decide)
  rw [keyOf, splitOnce_eq_none hcolon]
  rfl

theorem EntryAt.keyOf (h : EntryAt heading line e) : keyOf line = some e.key.toList := by
  obtain ⟨⟨k, v, rfl, hk, hkey, -⟩, -, -⟩ := h
  rw [keyOf_append_cons hk, hkey]

/-- The keys of lines are those of what they say. -/
theorem Reads.keys (h : Reads heading ls es) : ls.filterMap keyOf = es.map fun e => e.key.toList := by
  induction h with
  | nil => rfl
  | blank hblank _ ih => rw [List.filterMap_cons, keyOf_blank hblank, ih]
  | entry hat _ ih => rw [List.filterMap_cons, hat.keyOf, List.map_cons, ih]

/-- **No key is written twice in a text that is accepted.** -/
theorem keys_once {utf8Error : ByteArray → String} {text : String} (hlines : IsLines ls text.toList)
    (h : loadNativePack display utf8Error text.toUTF8 = .ok d) : (ls.filterMap keyOf).Nodup := by
  obtain ⟨es, hreads, hnodup, -⟩ := (loadNativePack_eq_ok hlines).mp h
  have hkeys := nodup_keys hnodup
  rw [hreads.keys, List.Nodup, List.pairwise_map]
  rw [List.Nodup, List.pairwise_map] at hkeys
  exact hkeys.imp fun hne h => hne (String.toList_injective h)

/-- The line has the key. -/
def HasKey (key : String) (line : List Char) : Prop :=
  ∃ k v, line = k ++ ':' :: v ∧ ':' ∉ k ∧ trim isWhitespace k = key.toList

/-- **What is rendered is what is loaded**, and a line more with a key that is there makes it fail. -/
theorem native_round_trip (display : CoreError → String) (utf8Error : ByteArray → String) (d : PackDeclarationV1)
    (hd : Expressible d) (ls : List (List Char)) (es : List Entry) (hr : Rendering d ls es) (text : String)
    (htext : IsLines ls text.toList) :
    loadNativePack display utf8Error text.toUTF8 = .ok d ∧
      ∀ (pre post : List (List Char)) (e : Entry) (line : List Char) (text' : String), ls = pre ++ post → e ∈ es →
        HasKey e.key line → IsLines (pre ++ line :: post) text'.toList →
        ∃ err, loadNativePack display utf8Error text'.toUTF8 = .error err := by
  have hreads : Reads "" ls es := hr.written.reads
  refine ⟨(loadNativePack_eq_ok htext).mpr ⟨es, hreads, hr.once, hr.covers.declares hd⟩, ?_⟩
  intro pre post e line text' hsplit he hline htext'
  cases hload : loadNativePack display utf8Error text'.toUTF8 with
  | error err => exact ⟨err, rfl⟩
  | ok d' =>
    exfalso
    have honce : ((pre ++ line :: post).filterMap keyOf).Nodup := keys_once htext' hload
    have hthere : e.key.toList ∈ (pre ++ post).filterMap keyOf := by
      rw [← hsplit, hreads.keys]
      exact List.mem_map_of_mem he
    obtain ⟨k, v, rfl, hk, hkey⟩ := hline
    rw [List.filterMap_append, List.filterMap_cons, keyOf_append_cons hk, hkey] at honce
    rw [List.filterMap_append] at hthere
    exact (List.nodup_cons.mp (List.nodup_middle.mp honce)).1 hthere

/-- The capability of `notesPack`. -/
def notesRead : CapabilityId := ⟨"notes.read", Eq.refl true⟩

/-- A pack with one capability. -/
def notesPack : PackDeclarationV1 where
  version := 1
  id := ⟨"notes", Eq.refl true⟩
  tools := ∅
  namespaces := ∅
  argumentConstraints := ∅
  budget := { maxCalls := 3, maxUnits := 0, maxDurationMs := 0 }
  capabilityBindings := .ofList [(notesRead, "notes.read")]

/-- The lines of `notesPack`, with its budget first. -/
def notesLines : List (List Char) :=
  ["budget:".toList, "  max_steps: 4".toList, "  max_calls: 3".toList, "".toList, "id: notes  ".toList,
    "authority:".toList, "  capabilities: [ notes.read ]".toList, "version: 1".toList]

/-- What the lines of `notesPack` say. -/
def notesEntries : List Entry :=
  [.budget, .maxSteps 4, .maxCalls 3, .id notesPack.id, .authority, .capabilities (.ofList [notesRead]), .version 1]

theorem notes_expressible : Expressible notesPack where
  version := rfl
  calls := by decide
  numbers := by decide
  identity c b h := by
    rw [notesPack, Std.ExtTreeMap.ofList_singleton, Std.ExtTreeMap.getElem?_insert] at h
    split at h
    · rename_i hc
      obtain rfl := Std.LawfulEqCmp.eq_of_compare hc
      cases h
      rfl
    · simp at h
  unconstrained := rfl

theorem notes_capabilities : capabilitiesOf notesPack = .ofList [notesRead] := by
  refine Std.ExtTreeSet.ext_mem fun c => ?_
  rw [capabilitiesOf, Std.ExtTreeSet.mem_ofList, Std.ExtTreeSet.mem_ofList, List.contains_iff_mem,
    List.contains_iff_mem, Std.ExtTreeMap.mem_keys, notesPack, Std.ExtTreeMap.mem_ofList]
  simp

theorem notes_rendering : Rendering notesPack notesLines notesEntries where
  written := by
    have hnumber : ∀ (n : ℕ) (c : Char), c.isDigit = true → Nat.ofDigitChars 10 [c] 0 = n → n < 10 →
        ∀ bound, 10 ≤ bound → NumberText bound n [c] := fun n c hc hn hlt bound hbound =>
      ⟨by simp, by simpa using hc, hn, by omega⟩
    refine .entry ⟨[], [], [], [], by decide, by decide, by decide, rfl, rfl⟩ (fun _ h => (nomatch h)) ?_
    refine .entry ⟨[], [' '], [], ['4'], by decide, by decide, by decide, ?_, rfl⟩ (fun _ h => by cases h; rfl) ?_
    · exact hnumber 4 '4' rfl rfl (by decide) _ (by decide)
    refine .entry ⟨[], [' '], [], ['3'], by decide, by decide, by decide, ?_, rfl⟩ (fun _ h => by cases h; rfl) ?_
    · exact hnumber 3 '3' rfl rfl (by decide) _ (by decide)
    refine .blank (by decide) ?_
    refine .entry ⟨[], [' '], [' ', ' '], "notes".toList, by decide, by decide, by decide, rfl, rfl⟩
      (fun _ h => (nomatch h)) ?_
    refine .entry ⟨[], [], [], [], by decide, by decide, by decide, rfl, rfl⟩ (fun _ h => (nomatch h)) ?_
    refine .entry ⟨[], [' '], [], "[ notes.read ]".toList, by decide, by decide, by decide, ?_, rfl⟩
      (fun _ h => by cases h; rfl) ?_
    · have hitem : ItemText " notes.read ".toList notesRead := ⟨[' '], [' '], by decide, by decide, rfl⟩
      exact .items (by simp) (.cons hitem .nil)
    refine .entry ⟨[], [' '], [], ['1'], by decide, by decide, by decide, ?_, rfl⟩ (fun _ h => (nomatch h)) .nil
    exact hnumber 1 '1' rfl rfl (by decide) _ (by decide)
  once := by
    show ["budget", "budget.max_steps", "budget.max_calls", "id", "authority", "authority.capabilities", "version"].Nodup
    decide
  covers :=
    { version := by simp [notesEntries, notesPack]
      id := by simp [notesEntries]
      tools := .inr ⟨by simp [notesEntries], rfl⟩
      capabilities := .inl (by simp [notesEntries, notes_capabilities])
      namespaces := .inr ⟨by simp [notesEntries], rfl⟩
      maxCalls := by simp [notesEntries, notesPack]
      maxUnits := .inr ⟨by simp [notesEntries], rfl⟩
      maxDurationMs := .inr ⟨by simp [notesEntries], rfl⟩ }

/-- A text of lines that are all ended. -/
def ended (ls : List (List Char)) : String := String.ofList (ls.flatMap fun l => l ++ ['\n'])

theorem isLines_ended (h : ∀ l ∈ ls, '\n' ∉ l) : IsLines ls (ended ls).toList := by
  rw [ended, String.toList_ofList]
  exact isLines_flatMap h

/-- The text of `notesPack` is loaded, and not with another name. -/
theorem notes_round_trip :
    loadNativePack (fun _ => "") (fun _ => "") (ended notesLines).toUTF8 = .ok notesPack ∧
      ∃ err, loadNativePack (fun _ => "") (fun _ => "") (ended (notesLines ++ ["id: other".toList])).toUTF8 =
        .error err := by
  have hplain : ∀ l ∈ notesLines ++ ["id: other".toList], '\n' ∉ l := by decide +kernel
  obtain ⟨hload, htwice⟩ := native_round_trip (fun _ => "") (fun _ => "") notesPack notes_expressible notesLines
    notesEntries notes_rendering (ended notesLines) (isLines_ended fun l hl => hplain l (List.mem_append_left _ hl))
  refine ⟨hload, htwice notesLines [] (.id notesPack.id) "id: other".toList (ended _) (List.append_nil _).symm
    (by simp [notesEntries]) ⟨"id".toList, " other".toList, rfl, by decide, by decide⟩ (isLines_ended hplain)⟩

end Knolo.Host
