import Knolo.Icp.Definition
import Knolo.Library.LineText
import Mathlib.Algebra.GroupWithZero.Nat

/-!
# Native packs

`knolo-agent/src/pack/mod.rs`: the authority of a pack, read of a text by lines. At the left margin stand
the keys of the declaration; under `authority` and `budget`, by an indentation of two bytes, their own.

* `loadNativePack` — what is read of the bytes of a pack.
* `Entry`, `EntryAt` — what a line says, and where; `Reads` — the entries of lines, one after the other.
* `parseNativeDeclaration_eq_ok` — the texts that are accepted are those whose lines have entries, none of them
  twice, that declare what is returned.
-/

namespace Knolo.Host

open Core Library Library.Fallible
open Icp (isWhitespace)

/-! ### Texts -/

/-- `str::len`, in bytes. -/
def byteLength (cs : List Char) : ℕ := (cs.map Char.utf8Size).sum

/-- A number of decimal digits below `bound`. -/
def parseDigits (bound : ℕ) (cs : List Char) : Except String ℕ :=
  cs.foldlM (fun n c =>
    if c.isDigit then
      if 10 * n + (c.toNat - '0'.toNat) < bound then .ok (10 * n + (c.toNat - '0'.toNat))
      else .error "number too large to fit in target type"
    else .error "invalid digit found in string") 0

/-- `from_str` of unsigned numbers below `bound`. -/
def parseNumber (bound : ℕ) : List Char → Except String ℕ
  | [] => .error "cannot parse integer from empty string"
  | ['+'] | ['-'] => .error "invalid digit found in string"
  | '+' :: cs => parseDigits bound cs
  | cs => parseDigits bound cs

/-! ### The parser -/

/-- `invalid_value`. -/
def invalidValue (field error : String) : CoreError := .packLoad s!"invalid native {field}: {error}"

/-- `invalid_native`. -/
def invalidNative (line : List Char) : CoreError := .packLoad s!"invalid native pack line: {String.ofList line}"

/-- `parse_u64`. -/
def parseU64 (value : List Char) (field : String) : Except CoreError ℕ :=
  (parseNumber (2 ^ 64) value).mapError (invalidValue field)

/-- `parse_u16`. -/
def parseU16 (value : List Char) (field : String) : Except CoreError ℕ :=
  (parseNumber (2 ^ 16) value).mapError (invalidValue field)

/-- What is between the brackets of a list. -/
def unbracket : List Char → Option (List Char)
  | '[' :: value => if value.getLast? = some ']' then some value.dropLast else none
  | _ => none

/-- The local variables of `parse_native_declaration`. -/
structure NativeReading where
  version : Option ℕ := none
  id : Option PackId := none
  tools : Std.ExtTreeSet ToolId := ∅
  capabilities : Std.ExtTreeSet CapabilityId := ∅
  namespaces : Std.ExtTreeSet NamespaceId := ∅
  budget : ResourceBudgetV1 := { maxCalls := 0, maxUnits := 0, maxDurationMs := 0 }
  seen : Std.ExtTreeSet String := ∅
  /-- `section`. -/
  heading : String := ""

section Parser

variable (display : CoreError → String)

/-- `str::parse` of an identifier. -/
def parseId (value : List Char) (field : String) : Except CoreError Identifier :=
  (Identifier.new (String.ofList value)).mapError fun e => invalidValue field (display e)

/-- `parse_ids`. -/
def parseIds (value : List Char) (field : String) : Except CoreError (Std.ExtTreeSet Identifier) :=
  match unbracket value with
  | none => .error (.packLoad s!"native {field} must be a bracketed list")
  | some inner => do
    let items := ((inner.splitOn ',').map (trim isWhitespace)).filter fun v => !v.isEmpty
    let ids ← items.mapM fun v => parseId display v field
    return .ofList ids

namespace NativeReading

/-- A line at the left margin. -/
def readMargin (s : NativeReading) (line : List Char) (key : String) (value : List Char) :
    Except CoreError NativeReading := do
  ensure (!s.seen.contains key) (invalidNative line)
  let s := { s with seen := s.seen.insert key, heading := key }
  match key with
  | "version" => do
    let version ← parseU16 value key
    return { s with version := some version }
  | "id" => do
    let id ← parseId display value key
    return { s with id := some id }
  | "tools" => do
    let tools ← parseIds display value key
    return { s with tools }
  | "authority" | "budget" => return s
  | _ => .error (invalidNative line)

/-- A line of a section. -/
def readSection (s : NativeReading) (line : List Char) (key : String) (value : List Char) :
    Except CoreError NativeReading := do
  let path := s!"{s.heading}.{key}"
  ensure (!s.seen.contains path) (invalidNative line)
  let s := { s with seen := s.seen.insert path }
  match s.heading, key with
  | "authority", "capabilities" => do
    let capabilities ← parseIds display value key
    return { s with capabilities }
  | "authority", "namespaces" => do
    let namespaces ← parseIds display value key
    return { s with namespaces }
  | "budget", "max_calls" => do
    let maxCalls ← parseU64 value key
    return { s with budget := { s.budget with maxCalls } }
  | "budget", "max_units" => do
    let maxUnits ← parseU64 value key
    return { s with budget := { s.budget with maxUnits } }
  | "budget", "max_duration_ms" => do
    let maxDurationMs ← parseU64 value key
    return { s with budget := { s.budget with maxDurationMs } }
  | "budget", "max_steps" | "budget", "max_cost_micros" => do
    let _ ← parseU64 value key
    return s
  | _, _ => .error (invalidNative line)

/-- A line. -/
def readLine (s : NativeReading) (raw : List Char) : Except CoreError NativeReading :=
  let line := raw.rdropWhile isWhitespace
  if (trim isWhitespace line).isEmpty then .ok s
  else
    let trimmed := trim isWhitespace line
    let indent := byteLength line - byteLength (line.dropWhile isWhitespace)
    match splitOnce ':' trimmed with
    | none => .error (invalidNative line)
    | some (key, value) =>
      let key := String.ofList (trim isWhitespace key)
      let value := trim isWhitespace value
      if indent = 0 then s.readMargin display line key value
      else if indent = 2 ∧ (s.heading = "authority" ∨ s.heading = "budget") then s.readSection display line key value
      else .error (invalidNative line)

/-- The declaration, if there is enough. -/
def finish (s : NativeReading) : Except CoreError PackDeclarationV1 :=
  match s.id with
  | some id =>
    if s.version ≠ some 1 ∨ s.budget.maxCalls = 0 then .error (.packLoad "native pack is incomplete or unsupported")
    else
      .ok
        { version := 1, id, tools := s.tools, namespaces := s.namespaces, argumentConstraints := ∅
          budget := s.budget
          capabilityBindings := .ofList (s.capabilities.toList.map fun c => (c, c.text)) }
  | none => .error (.packLoad "native pack is incomplete or unsupported")

end NativeReading

/-- `parse_native_declaration`. -/
def parseNativeDeclaration (source : List Char) : Except CoreError PackDeclarationV1 := do
  let s ← (lines source).foldlM (fun s raw => s.readLine display raw) ({} : NativeReading)
  s.finish

/-- `load_native_pack`; `utf8Error` is the text of the error of bytes that are not UTF-8. -/
def loadNativePack (utf8Error : ByteArray → String) (source : ByteArray) : Except CoreError PackDeclarationV1 :=
  match String.fromUTF8? source with
  | none => .error (.packLoad s!"native pack is not UTF-8: {utf8Error source}")
  | some text => parseNativeDeclaration display text.toList

end Parser

/-! ### What a line says -/

/-- What a line says that is not blank. -/
inductive Entry where
  | version (n : ℕ)
  | id (id : PackId)
  | tools (ids : Std.ExtTreeSet ToolId)
  | authority
  | capabilities (ids : Std.ExtTreeSet CapabilityId)
  | namespaces (ids : Std.ExtTreeSet NamespaceId)
  | budget
  | maxCalls (n : ℕ)
  | maxUnits (n : ℕ)
  | maxDurationMs (n : ℕ)
  | maxSteps (n : ℕ)
  | maxCostMicros (n : ℕ)

/-- The section of a key that does not stand at the left margin. -/
def sectionOf : String → Option String
  | "capabilities" | "namespaces" => some "authority"
  | "max_calls" | "max_units" | "max_duration_ms" | "max_steps" | "max_cost_micros" => some "budget"
  | _ => none

/-- The value is a list of the identifiers; items may be left empty. -/
def Lists (value : List Char) (ids : Std.ExtTreeSet Identifier) : Prop :=
  ∃ inner, ∃ names : List Identifier, unbracket value = some inner ∧ ids = .ofList names ∧
    ((inner.splitOn ',').map (trim isWhitespace)).filter (fun v => !v.isEmpty) = names.map fun name => name.text.toList

namespace Entry

/-- The key of an entry. -/
def key : Entry → String
  | version _ => "version"
  | id _ => "id"
  | tools _ => "tools"
  | authority => "authority"
  | capabilities _ => "capabilities"
  | namespaces _ => "namespaces"
  | budget => "budget"
  | maxCalls _ => "max_calls"
  | maxUnits _ => "max_units"
  | maxDurationMs _ => "max_duration_ms"
  | maxSteps _ => "max_steps"
  | maxCostMicros _ => "max_cost_micros"

/-- The section of an entry that does not stand at the left margin. -/
def home (e : Entry) : Option String := sectionOf e.key

/-- The key of an entry with its section. -/
def path (e : Entry) : String :=
  match e.home with
  | none => e.key
  | some heading => s!"{heading}.{e.key}"

/-- The section that an entry leaves. -/
def heading (e : Entry) (before : String) : String :=
  match e.home with
  | none => e.key
  | some _ => before

/-- The value that is written says what the entry does. -/
def Says (value : List Char) : Entry → Prop
  | version n => parseNumber (2 ^ 16) value = .ok n
  | id i => value = i.text.toList
  | tools ids | capabilities ids | namespaces ids => Lists value ids
  | authority | budget => True
  | maxCalls n | maxUnits n | maxDurationMs n | maxSteps n | maxCostMicros n => parseNumber (2 ^ 64) value = .ok n

/-- A key alone tells the section. -/
theorem path_eq {e e' : Entry} (h : e.key = e'.key) : e.path = e'.path := by
  unfold path home
  rw [h]

theorem home_eq_some {e : Entry} {heading : String} (h : e.home = some heading) :
    heading = "authority" ∨ heading = "budget" := by
  cases e <;> cases h <;> simp

end Entry

/-- Put what an entry says in its place. -/
def NativeReading.put (s : NativeReading) (e : Entry) : NativeReading :=
  let s := { s with seen := s.seen.insert e.path, heading := e.heading s.heading }
  match e with
  | .version n => { s with version := some n }
  | .id i => { s with id := some i }
  | .tools ids => { s with tools := ids }
  | .capabilities ids => { s with capabilities := ids }
  | .namespaces ids => { s with namespaces := ids }
  | .maxCalls n => { s with budget := { s.budget with maxCalls := n } }
  | .maxUnits n => { s with budget := { s.budget with maxUnits := n } }
  | .maxDurationMs n => { s with budget := { s.budget with maxDurationMs := n } }
  | .authority | .budget | .maxSteps _ | .maxCostMicros _ => s

/-- The white space a line begins with. -/
def indentation (line : List Char) : List Char := line.takeWhile isWhitespace

/-- The line says what the entry does, in the section with the given heading. -/
structure EntryAt (heading : String) (line : List Char) (e : Entry) : Prop where
  written : ∃ k v, line = k ++ ':' :: v ∧ ':' ∉ k ∧ trim isWhitespace k = e.key.toList ∧ e.Says (trim isWhitespace v)
  indented : byteLength (indentation line) = if e.home = none then 0 else 2
  placed : ∀ h, e.home = some h → h = heading

/-! ### What is read -/

/-- Characters of identifiers are between the digits and the letters, or are marks. -/
theorem identifierChar_toNat {c : Char} (h : identifierChar c = true) :
    (48 ≤ c.toNat ∧ c.toNat ≤ 57 ∨ 65 ≤ c.toNat ∧ c.toNat ≤ 90 ∨ 97 ≤ c.toNat ∧ c.toNat ≤ 122) ∨
      c = '-' ∨ c = '_' ∨ c = '.' ∨ c = '/' := by
  have hnat : ∀ n : UInt32, (n ≤ c.val ↔ n.toNat ≤ c.toNat) ∧ (c.val ≤ n ↔ c.toNat ≤ n.toNat) := fun n =>
    ⟨UInt32.le_iff_toNat_le, UInt32.le_iff_toNat_le⟩
  have hupper : c.isUpper = decide (c.val ≥ 'A'.val ∧ c.val ≤ 'Z'.val) := rfl
  have hlower : c.isLower = (decide (c.val ≥ 'a'.val) && decide (c.val ≤ 'z'.val)) := rfl
  have halpha : c.isAlpha = (c.isUpper || c.isLower) := rfl
  simp only [identifierChar, Char.isAlphanum, halpha, hupper, hlower, Char.isDigit, ge_iff_le,
    Bool.or_eq_true, Bool.and_eq_true, decide_eq_true_eq, hnat, Char.reduceVal, UInt32.reduceToNat, or_assoc] at h
  rcases h with hupper | hlower | hdigit | hmark
  · exact .inl (.inr (.inl hupper))
  · exact .inl (.inr (.inr hlower))
  · exact .inl (.inl hdigit)
  · exact .inr hmark

/-- They are not white space, nor separators. -/
theorem identifierChar_plain {c : Char} (h : identifierChar c = true) :
    isWhitespace c = false ∧ c ≠ ':' ∧ c ≠ ',' ∧ c ≠ '[' := by
  rcases identifierChar_toNat h with hrange | rfl | rfl | rfl | rfl
  · refine ⟨?_, ?_, ?_, ?_⟩
    · simp only [isWhitespace, Bool.or_eq_false_iff, Bool.and_eq_false_iff, decide_eq_false_iff_not]
      omega
    all_goals
      rintro rfl
      revert hrange
      decide
  all_goals decide

theorem identifier_plain (i : Identifier) : i.text.toList ≠ [] ∧ ∀ c ∈ i.text.toList, identifierChar c = true := by
  have hvalid := i.valid
  simp only [validIdentifier, Bool.and_eq_true, Bool.not_eq_true', List.isEmpty_eq_false_iff, List.all_eq_true] at hvalid
  exact ⟨hvalid.1.1, hvalid.2⟩

theorem identifier_trim (i : Identifier) : trim isWhitespace i.text.toList = i.text.toList :=
  trim_eq_self_of_forall fun c hc => (identifierChar_plain ((identifier_plain i).2 c hc)).1

variable {display : CoreError → String} {s s' : NativeReading} {line k v : List Char} {key field : String}
  {value : List Char}

theorem unbracket_eq_some {inner : List Char} : unbracket value = some inner ↔ value = '[' :: inner ++ [']'] := by
  unfold unbracket
  split
  · rename_i rest
    split
    · rename_i hlast
      obtain ⟨inner', rfl⟩ := List.getLast?_eq_some_iff.mp hlast
      simp
    · rename_i hlast
      refine iff_of_false (fun h => by cases h) ?_
      rintro ⟨⟩
      exact hlast (by simp)
  · rename_i hhead
    exact iff_of_false (fun h => by cases h) fun h => hhead _ h

theorem parseId_eq_ok {i : Identifier} : parseId display value field = .ok i ↔ value = i.text.toList := by
  unfold parseId Identifier.new
  constructor
  · intro h
    split at h
    · cases h
      exact String.toList_ofList.symm
    · cases h
  · rintro rfl
    rw [String.ofList_toList, dif_pos i.valid]
    rfl

theorem parseU64_eq_ok {n : ℕ} : parseU64 value field = .ok n ↔ parseNumber (2 ^ 64) value = .ok n := by
  unfold parseU64
  cases parseNumber (2 ^ 64) value <;> simp [Except.mapError]

theorem parseU16_eq_ok {n : ℕ} : parseU16 value field = .ok n ↔ parseNumber (2 ^ 16) value = .ok n := by
  unfold parseU16
  cases parseNumber (2 ^ 16) value <;> simp [Except.mapError]

theorem mapM_parseId_eq_ok {items : List (List Char)} {names : List Identifier} :
    items.mapM (fun v => parseId display v field) = .ok names ↔ items = names.map fun name => name.text.toList := by
  induction items generalizing names with
  | nil =>
    cases names with
    | nil => exact iff_of_true rfl rfl
    | cons name names => exact iff_of_false (fun h => by cases h) (by simp)
  | cons item items ih =>
    rw [List.mapM_cons, bind_eq_ok]
    constructor
    · rintro ⟨name, hname, h⟩
      obtain ⟨names, hnames, h⟩ := bind_eq_ok.mp h
      cases h
      rw [parseId_eq_ok.mp hname, ih.mp hnames, List.map_cons]
    · intro h
      cases names with
      | nil => cases h
      | cons name names =>
        obtain ⟨hname, hnames⟩ := List.cons.inj h
        exact ⟨name, parseId_eq_ok.mpr hname, bind_eq_ok.mpr ⟨names, ih.mpr hnames, rfl⟩⟩

theorem parseIds_eq_ok {ids : Std.ExtTreeSet Identifier} : parseIds display value field = .ok ids ↔ Lists value ids := by
  unfold parseIds Lists
  cases unbracket value with
  | none => simp
  | some inner =>
    simp only [Option.some.injEq]
    rw [bind_eq_ok]
    constructor
    · rintro ⟨names, hnames, h⟩
      cases h
      exact ⟨inner, names, rfl, rfl, mapM_parseId_eq_ok.mp hnames⟩
    · rintro ⟨_, names, rfl, rfl, hnames⟩
      exact ⟨names, mapM_parseId_eq_ok.mpr hnames, rfl⟩

namespace NativeReading

/-- A line at the left margin is read if its key is new, and its value says something. -/
theorem readMargin_eq_ok : s.readMargin display line key value = .ok s' ↔
    ∃ e : Entry, e.home = none ∧ e.key = key ∧ e.Says value ∧ s.seen.contains e.path = false ∧ s' = s.put e := by
  unfold readMargin
  rw [check_bind_eq_ok, ensure_eq_ok]
  constructor
  · rintro ⟨hnew, h⟩
    have hseen : s.seen.contains key = false := by simpa using hnew
    split at h
    · obtain ⟨n, hn, h⟩ := bind_eq_ok.mp h
      cases h
      exact ⟨.version n, rfl, rfl, parseU16_eq_ok.mp hn, hseen, rfl⟩
    · obtain ⟨i, hi, h⟩ := bind_eq_ok.mp h
      cases h
      exact ⟨.id i, rfl, rfl, parseId_eq_ok.mp hi, hseen, rfl⟩
    · obtain ⟨ids, hids, h⟩ := bind_eq_ok.mp h
      cases h
      exact ⟨.tools ids, rfl, rfl, parseIds_eq_ok.mp hids, hseen, rfl⟩
    · cases h
      exact ⟨.authority, rfl, rfl, trivial, hseen, rfl⟩
    · cases h
      exact ⟨.budget, rfl, rfl, trivial, hseen, rfl⟩
    · cases h
  · rintro ⟨e, hhome, rfl, hmeans, hseen, rfl⟩
    have hpath : e.path = e.key := by rw [Entry.path, hhome]
    rw [hpath] at hseen
    refine ⟨by simpa using hseen, ?_⟩
    cases e with
    | version n => exact bind_eq_ok.mpr ⟨n, parseU16_eq_ok.mpr hmeans, rfl⟩
    | id i => exact bind_eq_ok.mpr ⟨i, parseId_eq_ok.mpr hmeans, rfl⟩
    | tools ids => exact bind_eq_ok.mpr ⟨ids, parseIds_eq_ok.mpr hmeans, rfl⟩
    | authority => rfl
    | budget => rfl
    | _ => cases hhome

/-- A line of a section is read if its key is one of the section and new, and its value says something. -/
theorem readSection_eq_ok : s.readSection display line key value = .ok s' ↔
    ∃ e : Entry, e.home = some s.heading ∧ e.key = key ∧ e.Says value ∧ s.seen.contains e.path = false ∧
      s' = s.put e := by
  obtain ⟨version, id, tools, capabilities, namespaces, budget, seen, heading⟩ := s
  unfold readSection
  rw [check_bind_eq_ok, ensure_eq_ok]
  constructor
  · rintro ⟨hnew, h⟩
    have hseen : seen.contains s!"{heading}.{key}" = false := by simpa using hnew
    dsimp only at h
    split at h
    · obtain ⟨ids, hids, h⟩ := bind_eq_ok.mp h
      cases h
      exact ⟨.capabilities ids, rfl, rfl, parseIds_eq_ok.mp hids, hseen, rfl⟩
    · obtain ⟨ids, hids, h⟩ := bind_eq_ok.mp h
      cases h
      exact ⟨.namespaces ids, rfl, rfl, parseIds_eq_ok.mp hids, hseen, rfl⟩
    · obtain ⟨n, hn, h⟩ := bind_eq_ok.mp h
      cases h
      exact ⟨.maxCalls n, rfl, rfl, parseU64_eq_ok.mp hn, hseen, rfl⟩
    · obtain ⟨n, hn, h⟩ := bind_eq_ok.mp h
      cases h
      exact ⟨.maxUnits n, rfl, rfl, parseU64_eq_ok.mp hn, hseen, rfl⟩
    · obtain ⟨n, hn, h⟩ := bind_eq_ok.mp h
      cases h
      exact ⟨.maxDurationMs n, rfl, rfl, parseU64_eq_ok.mp hn, hseen, rfl⟩
    · obtain ⟨n, hn, h⟩ := bind_eq_ok.mp h
      cases h
      exact ⟨.maxSteps n, rfl, rfl, parseU64_eq_ok.mp hn, hseen, rfl⟩
    · obtain ⟨n, hn, h⟩ := bind_eq_ok.mp h
      cases h
      exact ⟨.maxCostMicros n, rfl, rfl, parseU64_eq_ok.mp hn, hseen, rfl⟩
    · cases h
  · rintro ⟨e, hhome, rfl, hmeans, hseen, rfl⟩
    dsimp only at hhome hseen
    have hpath : e.path = s!"{heading}.{e.key}" := by rw [Entry.path, hhome]
    rw [hpath] at hseen
    refine ⟨by simpa using hseen, ?_⟩
    cases e with
    | capabilities ids =>
      cases hhome
      exact bind_eq_ok.mpr ⟨ids, parseIds_eq_ok.mpr hmeans, rfl⟩
    | namespaces ids =>
      cases hhome
      exact bind_eq_ok.mpr ⟨ids, parseIds_eq_ok.mpr hmeans, rfl⟩
    | maxCalls n | maxUnits n | maxDurationMs n | maxSteps n | maxCostMicros n =>
      cases hhome
      exact bind_eq_ok.mpr ⟨n, parseU64_eq_ok.mpr hmeans, rfl⟩
    | _ => cases hhome

theorem isWhitespace_colon : isWhitespace ':' = false := by decide

theorem byteLength_append (a b : List Char) : byteLength (a ++ b) = byteLength a + byteLength b := by
  simp [byteLength]

/-- Characters take space. -/
theorem byteLength_eq_zero {cs : List Char} : byteLength cs = 0 ↔ cs = [] := by
  cases cs with
  | nil => exact iff_of_true rfl rfl
  | cons c cs =>
    have hpos : 0 < c.utf8Size := c.utf8Size_pos
    refine iff_of_false (fun h => ?_) (by simp)
    simp only [byteLength, List.map_cons, List.sum_cons] at h
    omega

theorem indentation_append_cons (k v : List Char) :
    indentation (k ++ ':' :: v) = k.takeWhile isWhitespace := by
  unfold indentation
  rw [List.takeWhile_append, List.takeWhile_cons, isWhitespace_colon]
  split
  · rename_i hlength
    simpa using ((List.takeWhile_prefix _).eq_of_length hlength).symm
  · rfl

/-- What is read of a line is its key, its value, and how far it is indented. -/
theorem readLine_append_cons (hk : ':' ∉ k) : s.readLine display (k ++ ':' :: v) =
    if byteLength (indentation (k ++ ':' :: v)) = 0 then
      s.readMargin display ((k ++ ':' :: v).rdropWhile isWhitespace) (String.ofList (trim isWhitespace k))
        (trim isWhitespace v)
    else if byteLength (indentation (k ++ ':' :: v)) = 2 ∧ (s.heading = "authority" ∨ s.heading = "budget") then
      s.readSection display ((k ++ ':' :: v).rdropWhile isWhitespace) (String.ofList (trim isWhitespace k))
        (trim isWhitespace v)
    else .error (invalidNative ((k ++ ':' :: v).rdropWhile isWhitespace)) := by
  have htrim : trim isWhitespace ((k ++ ':' :: v).rdropWhile isWhitespace) =
      k.dropWhile isWhitespace ++ ':' :: v.rdropWhile isWhitespace := by
    rw [trim_rdropWhile, trim_append_cons isWhitespace_colon]
  have hkey : ':' ∉ k.dropWhile isWhitespace := fun h => hk ((List.dropWhile_suffix _).mem h)
  have hindent : byteLength ((k ++ ':' :: v).rdropWhile isWhitespace) -
      byteLength (((k ++ ':' :: v).rdropWhile isWhitespace).dropWhile isWhitespace) =
        byteLength (indentation (k ++ ':' :: v)) := by
    rw [rdropWhile_cons_of_not isWhitespace_colon, indentation_append_cons,
      ← indentation_append_cons k (v.rdropWhile isWhitespace)]
    have hparts := List.takeWhile_append_dropWhile (p := isWhitespace) (l := k ++ ':' :: v.rdropWhile isWhitespace)
    have hlength := congrArg byteLength hparts
    rw [byteLength_append] at hlength
    unfold indentation
    omega
  have hblank : (k.dropWhile isWhitespace ++ ':' :: v.rdropWhile isWhitespace).isEmpty = false := by simp
  unfold readLine
  simp only [htrim, hindent, hblank, Bool.false_eq_true, if_false, splitOnce_append_cons hkey, trim_dropWhile,
    trim_rdropWhile]

/-- **A line is read if it is blank, or says something new where it stands.** -/
theorem readLine_eq_ok : s.readLine display line = .ok s' ↔
    (∀ c ∈ line, isWhitespace c = true) ∧ s' = s ∨
      ∃ e, EntryAt s.heading line e ∧ s.seen.contains e.path = false ∧ s' = s.put e := by
  constructor
  · intro h
    by_cases hblank : ∀ c ∈ line, isWhitespace c = true
    · have hempty : trim isWhitespace line = [] := trim_eq_nil_iff.mpr hblank
      simp only [readLine, trim_rdropWhile, hempty, List.isEmpty_nil, if_true] at h
      cases h
      exact .inl ⟨hblank, rfl⟩
    · right
      by_cases hcolon : ':' ∈ line
      · obtain ⟨k, v, rfl, hk⟩ := List.eq_append_cons_of_mem hcolon
        rw [readLine_append_cons hk] at h
        split at h
        · rename_i hmargin
          obtain ⟨e, hhome, hkey, hmeans, hseen, rfl⟩ := readMargin_eq_ok.mp h
          refine ⟨e, ⟨⟨k, v, rfl, hk, ?_, hmeans⟩, ?_, ?_⟩, hseen, rfl⟩
          · rw [hkey, String.toList_ofList]
          · rw [if_pos hhome, hmargin]
          · intro heading hheading
            rw [hhome] at hheading
            cases hheading
        · split at h
          · rename_i hsection
            obtain ⟨e, hhome, hkey, hmeans, hseen, rfl⟩ := readSection_eq_ok.mp h
            refine ⟨e, ⟨⟨k, v, rfl, hk, ?_, hmeans⟩, ?_, ?_⟩, hseen, rfl⟩
            · rw [hkey, String.toList_ofList]
            · rw [if_neg (by rw [hhome]; simp), hsection.1]
            · intro heading hheading
              exact Option.some.inj (hheading.symm.trans hhome)
          · cases h
      · have hne : (trim isWhitespace line).isEmpty = false := by
          rw [← Bool.not_eq_true, List.isEmpty_iff, trim_eq_nil_iff]
          exact hblank
        have hnone : splitOnce ':' (trim isWhitespace line) = none :=
          splitOnce_eq_none fun h => hcolon ((List.dropWhile_suffix _).mem ((List.rdropWhile_prefix _ _).mem h))
        simp only [readLine, trim_rdropWhile, hne, hnone, Bool.false_eq_true, if_false] at h
        cases h
  · rintro (⟨hblank, rfl⟩ | ⟨e, hat, hseen, rfl⟩)
    · have hempty : trim isWhitespace line = [] := trim_eq_nil_iff.mpr hblank
      simp only [readLine, trim_rdropWhile, hempty, List.isEmpty_nil, if_true]
    · obtain ⟨⟨k, v, rfl, hk, hkey, hmeans⟩, hindented, hplaced⟩ := hat
      have hkey : e.key = String.ofList (trim isWhitespace k) := by rw [hkey, String.ofList_toList]
      rw [readLine_append_cons hk]
      cases hhome : e.home with
      | none =>
        rw [hhome, if_pos rfl] at hindented
        rw [if_pos hindented]
        exact readMargin_eq_ok.mpr ⟨e, hhome, hkey, hmeans, hseen, rfl⟩
      | some heading =>
        rw [hhome, if_neg (by simp)] at hindented
        obtain rfl := hplaced heading hhome
        rw [if_neg (by omega), if_pos ⟨hindented, e.home_eq_some hhome⟩]
        exact readSection_eq_ok.mpr ⟨e, hhome, hkey, hmeans, hseen, rfl⟩

@[simp] theorem put_heading (s : NativeReading) (e : Entry) : (s.put e).heading = e.heading s.heading := by
  cases e <;> rfl

@[simp] theorem put_seen (s : NativeReading) (e : Entry) : (s.put e).seen = s.seen.insert e.path := by
  cases e <;> rfl

end NativeReading

/-! ### The accepted texts -/

/-- What lines say that stand in the section with the given heading. -/
inductive Reads : String → List (List Char) → List Entry → Prop
  /-- There are no lines. -/
  | nil {heading : String} : Reads heading [] []
  /-- A blank line says nothing. -/
  | blank {heading : String} {line : List Char} {ls : List (List Char)} {es : List Entry} :
      (∀ c ∈ line, isWhitespace c = true) → Reads heading ls es → Reads heading (line :: ls) es
  /-- A line says something, and may leave another section. -/
  | entry {heading : String} {line : List Char} {ls : List (List Char)} {e : Entry} {es : List Entry} :
      EntryAt heading line e → Reads (e.heading heading) ls es → Reads heading (line :: ls) (e :: es)

/-- **Lines are read if they say what is new, each time.** -/
theorem foldlM_readLine_eq_ok {ls : List (List Char)} :
    ls.foldlM (fun s raw => s.readLine display raw) s = .ok s' ↔
      ∃ es, Reads s.heading ls es ∧ (es.map Entry.path).Nodup ∧ (∀ e ∈ es, s.seen.contains e.path = false) ∧
        s' = es.foldl NativeReading.put s := by
  induction ls generalizing s with
  | nil =>
    constructor
    · intro h
      cases h
      exact ⟨[], .nil, List.nodup_nil, fun _ h => (nomatch h), rfl⟩
    · rintro ⟨es, hreads, -, -, rfl⟩
      cases hreads
      rfl
  | cons line ls ih =>
    rw [List.foldlM_cons, bind_eq_ok]
    constructor
    · rintro ⟨s₁, hline, h⟩
      obtain ⟨es, hreads, hnodup, hnew, rfl⟩ := ih.mp h
      rcases NativeReading.readLine_eq_ok.mp hline with ⟨hblank, rfl⟩ | ⟨e, hat, hseen, rfl⟩
      · exact ⟨es, .blank hblank hreads, hnodup, hnew, rfl⟩
      · rw [NativeReading.put_heading] at hreads
        simp only [NativeReading.put_seen, Std.ExtTreeSet.contains_insert, Bool.or_eq_false_iff] at hnew
        refine ⟨e :: es, .entry hat hreads, ?_, ?_, rfl⟩
        · refine List.nodup_cons.mpr ⟨fun hmem => ?_, hnodup⟩
          obtain ⟨e', he', hpath⟩ := List.mem_map.mp hmem
          simpa [hpath] using (hnew e' he').1
        · rintro e' he'
          rcases List.mem_cons.mp he' with rfl | he'
          · exact hseen
          · exact (hnew e' he').2
    · rintro ⟨es, hreads, hnodup, hnew, rfl⟩
      cases hreads with
      | blank hblank hreads =>
        exact ⟨s, NativeReading.readLine_eq_ok.mpr (.inl ⟨hblank, rfl⟩), ih.mpr ⟨es, hreads, hnodup, hnew, rfl⟩⟩
      | @entry _ _ _ e es hat hreads =>
        obtain ⟨hfirst, hnodup⟩ := List.nodup_cons.mp hnodup
        refine ⟨s.put e, NativeReading.readLine_eq_ok.mpr (.inr ⟨e, hat, hnew e (List.mem_cons_self ..), rfl⟩), ?_⟩
        refine ih.mpr ⟨es, by rwa [NativeReading.put_heading], hnodup, fun e' he' => ?_, rfl⟩
        rw [NativeReading.put_seen, Std.ExtTreeSet.contains_insert, hnew e' (List.mem_cons_of_mem _ he'), Bool.or_false]
        have hne : e.path ≠ e'.path := fun h => hfirst (h ▸ List.mem_map_of_mem he')
        simpa using hne

/-- The entry for a field says `b`, or there is none and `b` is what the field has without. -/
def Sets {β : Type} (mk : β → Entry) (initial : β) (es : List Entry) (b : β) : Prop :=
  mk b ∈ es ∨ (∀ b', mk b' ∉ es) ∧ b = initial

/-- What a declaration has that is read of the entries. -/
structure Declares (es : List Entry) (d : PackDeclarationV1) : Prop where
  version : Entry.version 1 ∈ es ∧ d.version = 1
  id : Entry.id d.id ∈ es
  tools : Sets .tools ∅ es d.tools
  capabilities : ∃ ids : Std.ExtTreeSet CapabilityId, Sets .capabilities ∅ es ids ∧
    d.capabilityBindings = .ofList (ids.toList.map fun c => (c, c.text))
  namespaces : Sets .namespaces ∅ es d.namespaces
  argumentConstraints : d.argumentConstraints = ∅
  maxCalls : Entry.maxCalls d.budget.maxCalls ∈ es ∧ d.budget.maxCalls ≠ 0
  maxUnits : Sets .maxUnits 0 es d.budget.maxUnits
  maxDurationMs : Sets .maxDurationMs 0 es d.budget.maxDurationMs

/-- Entries with paths of their own have keys of their own. -/
theorem nodup_keys {es : List Entry} (h : (es.map Entry.path).Nodup) : (es.map Entry.key).Nodup := by
  rw [List.Nodup, List.pairwise_map] at *
  exact h.imp fun hne hkey => hne (Entry.path_eq hkey)

section Fields

variable {es : List Entry} {α β : Type}

/-- A field after entries is what the entry for it says, or as before. -/
theorem foldl_put_iff (get : NativeReading → β) (mk : α → Entry) (f : α → β) (key : String)
    (hkey : ∀ e : Entry, e.key = key ↔ ∃ a, e = mk a)
    (hframe : ∀ (s : NativeReading) (e : Entry), e.key ≠ key → get (s.put e) = get s)
    (hput : ∀ (s : NativeReading) (a : α), get (s.put (mk a)) = f a) (hnodup : (es.map Entry.key).Nodup)
    (s : NativeReading) (b : β) :
    get (es.foldl NativeReading.put s) = b ↔ (∃ a, mk a ∈ es ∧ f a = b) ∨ (∀ a, mk a ∉ es) ∧ get s = b := by
  by_cases h : ∃ a, mk a ∈ es
  · obtain ⟨a, ha⟩ := h
    have hfield : ∀ a', mk a' ∈ es → get (es.foldl NativeReading.put s) = f a' := fun a' ha' =>
      foldl_field_of_mem hframe hnodup ha' ((hkey _).mpr ⟨a', rfl⟩) (fun s => hput s a') s
    constructor
    · intro hb
      exact .inl ⟨a, ha, (hfield a ha).symm.trans hb⟩
    · rintro (⟨a', ha', rfl⟩ | ⟨hnone, -⟩)
      · exact hfield a' ha'
      · exact absurd ha (hnone a)
  · have hnone : ∀ a, mk a ∉ es := not_exists.mp h
    have hfield : get (es.foldl NativeReading.put s) = get s := by
      refine foldl_field_of_forall hframe (fun e he hkeye => ?_) s
      obtain ⟨a, rfl⟩ := (hkey e).mp hkeye
      exact hnone a he
    rw [hfield]
    constructor
    · exact fun hb => .inr ⟨hnone, hb⟩
    · rintro (⟨a, ha, -⟩ | ⟨-, hb⟩)
      · exact absurd ha (hnone a)
      · exact hb

theorem foldl_put_sets (get : NativeReading → β) (mk : β → Entry) (key : String)
    (hkey : ∀ e : Entry, e.key = key ↔ ∃ b, e = mk b)
    (hframe : ∀ (s : NativeReading) (e : Entry), e.key ≠ key → get (s.put e) = get s)
    (hput : ∀ (s : NativeReading) (b : β), get (s.put (mk b)) = b) (hnodup : (es.map Entry.key).Nodup)
    (s : NativeReading) (b : β) : get (es.foldl NativeReading.put s) = b ↔ Sets mk (get s) es b := by
  rw [foldl_put_iff get mk (fun b => b) key hkey hframe hput hnodup, Sets, @eq_comm _ (get s)]
  refine or_congr_left ⟨?_, fun h => ⟨b, h, rfl⟩⟩
  rintro ⟨_, h, rfl⟩
  exact h

variable (hnodup : (es.map Entry.key).Nodup)

include hnodup

theorem foldl_put_version (n : ℕ) : (es.foldl NativeReading.put {}).version = some n ↔ Entry.version n ∈ es := by
  have h := foldl_put_iff NativeReading.version .version some "version"
    (fun e => by cases e <;> simp [Entry.key]) (fun s e he => by cases e <;> first | rfl | exact absurd rfl he)
    (fun _ _ => rfl) hnodup {} (some n)
  simpa using h

theorem foldl_put_id (i : PackId) : (es.foldl NativeReading.put {}).id = some i ↔ Entry.id i ∈ es := by
  have h := foldl_put_iff NativeReading.id .id some "id"
    (fun e => by cases e <;> simp [Entry.key]) (fun s e he => by cases e <;> first | rfl | exact absurd rfl he)
    (fun _ _ => rfl) hnodup {} (some i)
  simpa using h

theorem foldl_put_tools (ids : Std.ExtTreeSet ToolId) :
    (es.foldl NativeReading.put {}).tools = ids ↔ Sets .tools ∅ es ids :=
  foldl_put_sets NativeReading.tools .tools "tools" (fun e => by cases e <;> simp [Entry.key])
    (fun s e he => by cases e <;> first | rfl | exact absurd rfl he) (fun _ _ => rfl) hnodup {} ids

theorem foldl_put_capabilities (ids : Std.ExtTreeSet CapabilityId) :
    (es.foldl NativeReading.put {}).capabilities = ids ↔ Sets .capabilities ∅ es ids :=
  foldl_put_sets NativeReading.capabilities .capabilities "capabilities" (fun e => by cases e <;> simp [Entry.key])
    (fun s e he => by cases e <;> first | rfl | exact absurd rfl he) (fun _ _ => rfl) hnodup {} ids

theorem foldl_put_namespaces (ids : Std.ExtTreeSet NamespaceId) :
    (es.foldl NativeReading.put {}).namespaces = ids ↔ Sets .namespaces ∅ es ids :=
  foldl_put_sets NativeReading.namespaces .namespaces "namespaces" (fun e => by cases e <;> simp [Entry.key])
    (fun s e he => by cases e <;> first | rfl | exact absurd rfl he) (fun _ _ => rfl) hnodup {} ids

theorem foldl_put_maxCalls (n : ℕ) :
    (es.foldl NativeReading.put {}).budget.maxCalls = n ↔ Sets .maxCalls 0 es n :=
  foldl_put_sets (fun s => s.budget.maxCalls) .maxCalls "max_calls" (fun e => by cases e <;> simp [Entry.key])
    (fun s e he => by cases e <;> first | rfl | exact absurd rfl he) (fun _ _ => rfl) hnodup {} n

theorem foldl_put_maxUnits (n : ℕ) :
    (es.foldl NativeReading.put {}).budget.maxUnits = n ↔ Sets .maxUnits 0 es n :=
  foldl_put_sets (fun s => s.budget.maxUnits) .maxUnits "max_units" (fun e => by cases e <;> simp [Entry.key])
    (fun s e he => by cases e <;> first | rfl | exact absurd rfl he) (fun _ _ => rfl) hnodup {} n

theorem foldl_put_maxDurationMs (n : ℕ) :
    (es.foldl NativeReading.put {}).budget.maxDurationMs = n ↔ Sets .maxDurationMs 0 es n :=
  foldl_put_sets (fun s => s.budget.maxDurationMs) .maxDurationMs "max_duration_ms"
    (fun e => by cases e <;> simp [Entry.key]) (fun s e he => by cases e <;> first | rfl | exact absurd rfl he)
    (fun _ _ => rfl) hnodup {} n

/-- What is finished is what the entries declare. -/
theorem finish_eq_ok (d : PackDeclarationV1) :
    (es.foldl NativeReading.put {}).finish = .ok d ↔ Declares es d := by
  have hversion := foldl_put_version hnodup 1
  have hid := foldl_put_id hnodup
  have htools := foldl_put_tools hnodup
  have hcapabilities := foldl_put_capabilities hnodup
  have hnamespaces := foldl_put_namespaces hnodup
  have hcalls := foldl_put_maxCalls hnodup
  have hunits := foldl_put_maxUnits hnodup
  have hduration := foldl_put_maxDurationMs hnodup
  generalize es.foldl NativeReading.put {} = s at *
  unfold NativeReading.finish
  constructor
  · intro h
    cases hsome : s.id with
    | none => simp [hsome] at h
    | some i =>
      simp only [hsome] at h
      split at h
      · cases h
      · rename_i hok
        obtain ⟨hone, hpos⟩ := not_or.mp hok
        cases h
        exact
          { version := ⟨hversion.mp (not_not.mp hone), rfl⟩
            id := (hid i).mp hsome
            tools := (htools _).mp rfl
            capabilities := ⟨s.capabilities, (hcapabilities _).mp rfl, rfl⟩
            namespaces := (hnamespaces _).mp rfl
            argumentConstraints := rfl
            maxCalls := ⟨((hcalls _).mp rfl).resolve_right fun h => hpos h.2, hpos⟩
            maxUnits := (hunits _).mp rfl
            maxDurationMs := (hduration _).mp rfl }
  · intro h
    obtain ⟨ids, hids, hbindings⟩ := h.capabilities
    have hsome : s.id = some d.id := (hid _).mpr h.id
    have hbudget : s.budget = d.budget := by
      have hcalls : s.budget.maxCalls = d.budget.maxCalls := (hcalls _).mpr (.inl h.maxCalls.1)
      have hunits : s.budget.maxUnits = d.budget.maxUnits := (hunits _).mpr h.maxUnits
      have hduration : s.budget.maxDurationMs = d.budget.maxDurationMs := (hduration _).mpr h.maxDurationMs
      cases hs : s.budget
      cases hd : d.budget
      simp_all
    simp only [hsome]
    rw [if_neg (not_or.mpr ⟨not_not.mpr (hversion.mpr h.version.1), by rw [hbudget]; exact h.maxCalls.2⟩)]
    rw [(htools _).mpr h.tools, (hnamespaces _).mpr h.namespaces, (hcapabilities _).mpr hids, hbudget, ← hbindings,
      ← h.argumentConstraints, ← h.version.2]

end Fields

/-- Lines are read and finished if they declare what is returned. -/
theorem read_eq_ok {ls : List (List Char)} {d : PackDeclarationV1} :
    (∃ s : NativeReading, ls.foldlM (fun s raw => s.readLine display raw) ({} : NativeReading) = .ok s ∧
        s.finish = .ok d) ↔
      ∃ es, Reads "" ls es ∧ (es.map Entry.path).Nodup ∧ Declares es d := by
  constructor
  · rintro ⟨s, hread, hfinish⟩
    obtain ⟨es, hreads, hnodup, -, rfl⟩ := foldlM_readLine_eq_ok.mp hread
    exact ⟨es, hreads, hnodup, (finish_eq_ok (nodup_keys hnodup) d).mp hfinish⟩
  · rintro ⟨es, hreads, hnodup, hdeclares⟩
    refine ⟨es.foldl NativeReading.put {}, foldlM_readLine_eq_ok.mpr ⟨es, hreads, hnodup, fun e _ => ?_, rfl⟩,
      (finish_eq_ok (nodup_keys hnodup) d).mpr hdeclares⟩
    simp

/-- **The texts that are accepted** are those whose lines say something, none of them what another has said,
that declares what is returned. -/
theorem parseNativeDeclaration_eq_ok {source : List Char} {d : PackDeclarationV1} :
    parseNativeDeclaration display source = .ok d ↔
      ∃ es, Reads "" (lines source) es ∧ (es.map Entry.path).Nodup ∧ Declares es d := by
  unfold parseNativeDeclaration
  rw [bind_eq_ok]
  exact read_eq_ok

theorem loadNativePack_toUTF8 (utf8Error : ByteArray → String) (text : String) :
    loadNativePack display utf8Error text.toUTF8 = parseNativeDeclaration display text.toList := by
  have htext : String.fromUTF8? text.toUTF8 = some text := dif_pos text.isValidUTF8
  simp only [loadNativePack, htext]

end Knolo.Host
