import Knolo.Builder.DefinitionHash
import Knolo.Harness.RootBinding
import Knolo.Library.Unordered
import Knolo.Skills.Publish

/-!
# What a receipt stands for

The receipt of a run names its agent, its task, its input, its authority, its skills and its context by roots:
`digestRoot` of `packages/agents/src/harness/hash.ts` is a label and the hash of a canonical text. Canonical texts
are the same if and only if the values are the same up to the order of properties (`canonicalJson_eq_iff`).

* `digestRoot_eq_iff` — so roots with a label are the same for similar values, or for texts that collide.
* `receipt_binds` — two receipts have the same roots exactly if the runs are similar in all that a receipt names,
  unless two of the messages hashed for them collide.
-/

namespace Knolo.Harness

open Core Script Skills Library Library.StableSort Library.JsonText

/-! ### Code units -/

/-- The code units of a character. -/
def units (c : Char) : List ℕ :=
  if c.toNat < 0x10000 then [c.toNat]
  else [0xd800 + (c.toNat - 0x10000) / 0x400, 0xdc00 + (c.toNat - 0x10000) % 0x400]

/-- From the code units of a character with more behind them both can be told: surrogates are no characters. -/
theorem units_cancel {c d : Char} {r r' : List ℕ} (h : units c ++ r = units d ++ r') : c = d ∧ r = r' := by
  have hc := c.valid
  have hd := d.valid
  simp only [UInt32.isValidChar, Nat.isValidChar] at hc hd
  change c.toNat < 0xd800 ∨ 0xdfff < c.toNat ∧ c.toNat < 0x110000 at hc
  change d.toNat < 0xd800 ∨ 0xdfff < d.toNat ∧ d.toNat < 0x110000 at hd
  have hcode : c.toNat = d.toNat ∧ r = r' := by
    unfold units at h
    split_ifs at h with h₁ h₂ h₂ <;>
      simp only [List.cons_append, List.nil_append, List.cons.injEq] at h
    · exact h
    · omega
    · omega
    · exact ⟨by omega, h.2.2⟩
  exact ⟨Char.toNat_inj.mp hcode.1, hcode.2⟩

theorem codeUnits_injective : Function.Injective codeUnits := by
  have hchars : ∀ cs ds : List Char, cs.flatMap units = ds.flatMap units → cs = ds := by
    have hne : ∀ c, units c ≠ [] := fun c => by
      unfold units
      split_ifs <;> simp
    intro cs
    induction cs with
    | nil =>
      rintro (_ | ⟨d, ds⟩) h
      · rfl
      · exact absurd (List.append_eq_nil_iff.mp (h.symm.trans rfl)).1 (hne d)
    | cons c cs ih =>
      rintro (_ | ⟨d, ds⟩) h
      · exact absurd (List.append_eq_nil_iff.mp h).1 (hne c)
      · obtain ⟨rfl, hrest⟩ := units_cancel h
        rw [ih ds hrest]
  exact fun s t h => String.toList_injective (hchars _ _ h)

/-! ### Canonical texts -/

/-- The order of properties in a canonical text. -/
def canonicalOrder (ms : List (String × Written)) : List (String × Written) :=
  Script.ownProperties (sortBy (fun a b => compare (codeUnits a.1) (codeUnits b.1)) ms)

mutual

/-- The value as it is written, with its properties as they stand. -/
def unsorted (language : Language) : JsValue → Written
  | .null => .token ['n', 'u', 'l', 'l']
  | .bool b => .token (if b then ['t', 'r', 'u', 'e'] else ['f', 'a', 'l', 's', 'e'])
  | .number (.infinite _) => .token ['n', 'u', 'l', 'l']
  | .number x => .token (language.numberText x).toList
  | .string s => .string s
  | .array items => .array (unsortedItems language items)
  | .object ps => .object (unsortedProperties language ps)

/-- The same of items. -/
def unsortedItems (language : Language) : List JsValue → List Written
  | [] => []
  | v :: vs => unsorted language v :: unsortedItems language vs

/-- The same of properties. -/
def unsortedProperties (language : Language) : List (String × JsValue) → List (String × Written)
  | [] => []
  | (k, v) :: ps => (k, unsorted language v) :: unsortedProperties language ps

end

variable {language : Language}

mutual

theorem canonicalize_eq : ∀ v : JsValue, canonicalize language v = arranged canonicalOrder (unsorted language v)
  | .null => rfl
  | .bool _ => rfl
  | .number (.infinite _) => rfl
  | .number (.finite _) => rfl
  | .number .negZero => rfl
  | .string _ => rfl
  | .array items => by rw [canonicalize, unsorted, arranged, canonicalizeItems_eq items]
  | .object ps => by rw [canonicalize, unsorted, arranged, canonicalizeProperties_eq ps, canonicalOrder]

theorem canonicalizeItems_eq : ∀ items : List JsValue,
    canonicalizeItems language items = arrangedItems canonicalOrder (unsortedItems language items)
  | [] => rfl
  | v :: vs => by
    rw [canonicalizeItems, unsortedItems, arrangedItems, canonicalize_eq v, canonicalizeItems_eq vs]

theorem canonicalizeProperties_eq : ∀ ps : List (String × JsValue),
    canonicalizeProperties language ps = arrangedMembers canonicalOrder (unsortedProperties language ps)
  | [] => rfl
  | (_, v) :: ps => by
    rw [canonicalizeProperties, unsortedProperties, arrangedMembers, canonicalize_eq v, canonicalizeProperties_eq ps]

end

/-- Properties with distinct keys are written in an order that depends on nothing but the properties. -/
theorem arranges_canonicalOrder : Arranges canonicalOrder where
  perm _ := (ownProperties_perm _).trans sortBy_perm
  eq_of_perm {ms ns} hnodup hperm := by
    have hcmp : Std.TransCmp fun a b : String × Written => compare (codeUnits a.1) (codeUnits b.1) :=
      transCmp_on (inferInstance : Std.TransCmp fun a b : List ℕ => compare a b) fun m => codeUnits (Prod.fst m)
    rw [canonicalOrder, canonicalOrder, sortBy_eq_of_perm hperm fun a ha b hb hab => ?_]
    have hkey := codeUnits_injective (Std.LawfulEqOrd.eq_of_compare hab)
    exact List.inj_on_of_nodup_map hnodup ha hb hkey

/-- Numbers are written as tokens: digits, signs, a point and the letter of an exponent. -/
def NumberTokens (language : Language) : Prop :=
  ∀ x : JsNumber, (∀ s, x ≠ .infinite s) → (Written.token (language.numberText x).toList).WellFormed

mutual

/-- The keys of every object are distinct: so it is for all that the language makes. -/
def Keyed : JsValue → Prop
  | .array items => ItemsKeyed items
  | .object ps => (ps.map Prod.fst).Nodup ∧ PropertiesKeyed ps
  | _ => True
termination_by structural v => v

/-- The same of all items. -/
def ItemsKeyed : List JsValue → Prop
  | [] => True
  | v :: vs => Keyed v ∧ ItemsKeyed vs

/-- The same of all properties. -/
def PropertiesKeyed : List (String × JsValue) → Prop
  | [] => True
  | (_, v) :: ps => Keyed v ∧ PropertiesKeyed ps

end

theorem keys_unsortedProperties (ps : List (String × JsValue)) :
    (unsortedProperties language ps).map Prod.fst = ps.map Prod.fst := by
  induction ps with
  | nil => rfl
  | cons p ps ih => rw [unsortedProperties, List.map_cons, ih, List.map_cons]

mutual

theorem wellFormed_unsorted (h : NumberTokens language) : ∀ v : JsValue, (unsorted language v).WellFormed
  | .null => ⟨by simp, List.all_eq_true.mp (by decide)⟩
  | .bool b => by cases b <;> exact ⟨by simp, List.all_eq_true.mp (by decide)⟩
  | .number (.infinite _) => ⟨by simp, List.all_eq_true.mp (by decide)⟩
  | .number (.finite _) => h _ fun _ h => by cases h
  | .number .negZero => h _ fun _ h => by cases h
  | .string _ => trivial
  | .array items => wellFormed_unsortedItems h items
  | .object ps => wellFormed_unsortedProperties h ps

theorem wellFormed_unsortedItems (h : NumberTokens language) : ∀ items : List JsValue,
    ItemsWellFormed (unsortedItems language items)
  | [] => trivial
  | v :: vs => ⟨wellFormed_unsorted h v, wellFormed_unsortedItems h vs⟩

theorem wellFormed_unsortedProperties (h : NumberTokens language) : ∀ ps : List (String × JsValue),
    MembersWellFormed (unsortedProperties language ps)
  | [] => trivial
  | (_, v) :: ps => ⟨wellFormed_unsorted h v, wellFormed_unsortedProperties h ps⟩

end

mutual

theorem distinct_unsorted : ∀ {v : JsValue}, Keyed v → Distinct (unsorted language v)
  | .null, _ => trivial
  | .bool _, _ => trivial
  | .number (.infinite _), _ => trivial
  | .number (.finite _), _ => trivial
  | .number .negZero, _ => trivial
  | .string _, _ => trivial
  | .array _, h => distinct_unsortedItems h
  | .object ps, h => ⟨by rw [keys_unsortedProperties]; exact h.1, distinct_unsortedProperties h.2⟩

theorem distinct_unsortedItems : ∀ {items : List JsValue}, ItemsKeyed items →
    ItemsDistinct (unsortedItems language items)
  | [], _ => trivial
  | _ :: _, h => ⟨distinct_unsorted h.1, distinct_unsortedItems h.2⟩

theorem distinct_unsortedProperties : ∀ {ps : List (String × JsValue)}, PropertiesKeyed ps →
    MembersDistinct (unsortedProperties language ps)
  | [], _ => trivial
  | (_, _) :: _, h => ⟨distinct_unsorted h.1, distinct_unsortedProperties h.2⟩

end

/-- The values are written the same but for the order of properties. -/
def Alike (language : Language) (v w : JsValue) : Prop := Similar (unsorted language v) (unsorted language w)

/-- **Canonical texts are the same if and only if the values are alike.** -/
theorem canonicalJson_eq_iff (h : NumberTokens language) {v w : JsValue} (hv : Keyed v) :
    canonicalJson language v = canonicalJson language w ↔ Alike language v w := by
  rw [canonicalJson, canonicalJson, canonicalize_eq, canonicalize_eq]
  exact text_arranged_eq_iff Builder.escaping arranges_canonicalOrder (wellFormed_unsorted h v) (wellFormed_unsorted h w)
    (distinct_unsorted hv)

/-! ### Roots -/

variable {p : PublishPlatform}

/-- `digestRoot`. -/
def digestRoot (p : PublishPlatform) (label : String) (v : JsValue) : String := s!"{label}:{p.sha256Hex v}"

theorem hexadecimal_injective : Function.Injective hexadecimal := by
  have hdigit : ∀ m < 16, ∀ n < 16, Json.hexDigit m = Json.hexDigit n → m = n := by decide
  have hchars : ∀ as bs : List UInt8,
      (as.flatMap fun b => [Json.hexDigit (b.toNat / 16), Json.hexDigit (b.toNat % 16)]) =
        (bs.flatMap fun b => [Json.hexDigit (b.toNat / 16), Json.hexDigit (b.toNat % 16)]) → as = bs := by
    intro as
    induction as with
    | nil =>
      rintro (_ | ⟨b, bs⟩) h
      · rfl
      · simp at h
    | cons a as ih =>
      rintro (_ | ⟨b, bs⟩) h
      · simp at h
      · simp only [List.flatMap_cons, List.cons_append, List.nil_append, List.cons.injEq] at h
        have ha := a.toNat_lt
        have hb := b.toNat_lt
        have hhigh := hdigit _ (by omega) _ (by omega) h.1
        have hlow := hdigit _ (by omega) _ (by omega) h.2.1
        rw [ih bs h.2.2, UInt8.toNat_inj.mp (show a.toNat = b.toNat by omega)]
  exact fun as bs h => hchars as bs (String.ofList_injective h)

/-- Two of the messages differ and have the same digest. -/
def Collision (digest : List UInt8 → List UInt8) (as bs : List (List UInt8)) : Prop :=
  ∃ a ∈ as, ∃ b ∈ bs, a ≠ b ∧ digest a = digest b

theorem Collision.mono {digest : List UInt8 → List UInt8} {as bs as' bs' : List (List UInt8)}
    (h : Collision digest as bs) (ha : as ⊆ as') (hb : bs ⊆ bs') : Collision digest as' bs' := by
  obtain ⟨a, has, b, hbs, h⟩ := h
  exact ⟨a, ha has, b, hb hbs, h⟩

/-- The same canonical bytes are those of values that are alike. -/
theorem canonicalBytes_eq_iff (h : NumberTokens language) {v w : JsValue} (hv : Keyed v) :
    canonicalBytes language v = canonicalBytes language w ↔ Alike language v w := by
  rw [← canonicalJson_eq_iff h hv]
  exact ⟨fun heq => String.ofList_injective (utf8_inj heq), fun heq => by rw [canonicalBytes, heq, canonicalBytes]⟩

/-- **Roots with a label are the same for values that are alike**, or for bytes that collide. -/
theorem digestRoot_eq_iff (h : NumberTokens p.toLanguage) {label : String} {v w : JsValue} (hv : Keyed v) :
    digestRoot p label v = digestRoot p label w ↔ Alike p.toLanguage v w ∨
      Collision p.digest [canonicalBytes p.toLanguage v] [canonicalBytes p.toLanguage w] := by
  have hroot : digestRoot p label v = digestRoot p label w ↔
      p.digest (canonicalBytes p.toLanguage v) = p.digest (canonicalBytes p.toLanguage w) := by
    rw [digestRoot, digestRoot, p.sha256Hex_eq, p.sha256Hex_eq]
    exact ⟨fun heq => hexadecimal_injective ((String.append_right_inj _).mp heq), fun heq => by rw [heq]⟩
  rw [hroot, ← canonicalBytes_eq_iff h hv]
  simp only [Collision, List.mem_singleton, exists_eq_left]
  by_cases heq : canonicalBytes p.toLanguage v = canonicalBytes p.toLanguage w <;> simp [heq]

/-! ### Receipts -/

/-- The text that names an item of the evidence, where it is one. -/
def sourceId (item : JsValue) : Option String :=
  nonEmpty (((asRecord item).bind fun ps => ps.lookup "sourceId").bind asText)

/-- `knowledgeStateRoots`. -/
def knowledgeStateRoots (declared : List String) (evidence : List JsValue) : List String :=
  uniqueSorted (declared ++ evidence.filterMap sourceId)

/-- `??`. -/
def orElse (v w : Option JsValue) : Option JsValue :=
  match v with
  | none | some .null => w
  | some v => some v

/-- What a run of the harness makes its receipt of. Objects have distinct keys, and the root is that of the
dependencies it was frozen with. -/
structure RunRecord (p : PublishPlatform) where
  descriptor : JsValue
  task : List (String × JsValue)
  /-- The argument of `run`; `none` is `undefined`. -/
  input : Option JsValue := none
  authority : Option JsValue := none
  /-- The roots that are declared. -/
  knowledge : List String := []
  /-- The evidence of the compiled envelope. -/
  evidence : List JsValue := []
  /-- The skills of the compiled envelope. -/
  skills : List JsValue := []
  /-- The receipt of the resolved skills. -/
  skillSelection : Option JsValue := none
  /-- The receipt of the compiled context. -/
  selection : JsValue
  frozen : HarnessDependencyRootV1
  rootOf : RootOf p.sha256Bytes frozen
  keyed_descriptor : Keyed descriptor
  keyed_task : Keyed (.object task)
  keyed_input : ∀ v ∈ input, Keyed v
  keyed_authority : ∀ v ∈ authority, Keyed v
  keyed_skills : ItemsKeyed skills
  keyed_skillSelection : ∀ v ∈ skillSelection, Keyed v
  keyed_selection : Keyed selection

/-- The roots of a receipt. -/
structure ReceiptRoots where
  agentDescriptorHash : String
  taskRoot : String
  inputRoot : String
  knowledgeStateRoots : List String
  harnessDependencyRoot : String
  authorityRoot : String
  skillSelectionReceipt : Option String
  evidenceReceipts : List String

namespace RunRecord

/-- `input ?? task.inputs ?? null`. -/
def boundInput (r : RunRecord p) : JsValue :=
  (orElse (orElse r.input (r.task.lookup "inputs")) (some .null)).getD .null

/-- `authority ?? null`. -/
def boundAuthority (r : RunRecord p) : JsValue := (orElse r.authority (some .null)).getD .null

/-- What stands for the skills, with its label. -/
def boundSkills (r : RunRecord p) : Option (String × JsValue) :=
  match r.skillSelection with
  | some v => some ("skill-selection", v)
  | none => if r.skills.isEmpty then none else some ("skills", .array r.skills)

/-- The roots of the receipt of a run. -/
def roots (r : RunRecord p) : ReceiptRoots where
  agentDescriptorHash := digestRoot p "agent" r.descriptor
  taskRoot := digestRoot p "task" (.object r.task)
  inputRoot := digestRoot p "input" r.boundInput
  knowledgeStateRoots := Harness.knowledgeStateRoots r.knowledge r.evidence
  harnessDependencyRoot := r.frozen.root
  authorityRoot := digestRoot p "authority" r.boundAuthority
  skillSelectionReceipt := r.boundSkills.map fun s => digestRoot p s.1 s.2
  evidenceReceipts := [digestRoot p "context-selection" r.selection]

/-- The messages that are hashed for a receipt. -/
def messages (r : RunRecord p) : List (List UInt8) :=
  ([r.descriptor, .object r.task, r.boundInput, r.boundAuthority, r.selection] ++
    (r.boundSkills.map Prod.snd).toList).map (canonicalBytes p.toLanguage) ++
    (rootMessage r.frozen.dependencies).toList

/-- The runs are alike in all that a receipt names. -/
structure Agree (r r' : RunRecord p) : Prop where
  descriptor : Alike p.toLanguage r.descriptor r'.descriptor
  task : Alike p.toLanguage (.object r.task) (.object r'.task)
  input : Alike p.toLanguage r.boundInput r'.boundInput
  knowledge : ∀ root, root ∈ r.knowledge ++ r.evidence.filterMap sourceId ↔
    root ∈ r'.knowledge ++ r'.evidence.filterMap sourceId
  dependencies : r.frozen.dependencies = r'.frozen.dependencies
  authority : Alike p.toLanguage r.boundAuthority r'.boundAuthority
  skills : Option.Rel (fun s s' => s.1 = s'.1 ∧ Alike p.toLanguage s.2 s'.2) r.boundSkills r'.boundSkills
  selection : Alike p.toLanguage r.selection r'.selection

end RunRecord

theorem nodup_eraseDups : ∀ {n : ℕ} {xs : List String}, xs.length ≤ n → xs.eraseDups.Nodup
  | 0, xs, h => by simp [List.length_eq_zero_iff.mp (Nat.le_zero.mp h)]
  | _ + 1, [], _ => by simp
  | n + 1, x :: xs, h => by
    have hlen : (xs.filter fun y => !y == x).length ≤ n :=
      (List.length_filter_le _ _).trans (Nat.le_of_succ_le_succ h)
    rw [List.eraseDups_cons, List.nodup_cons]
    exact ⟨by simp [List.mem_eraseDups], nodup_eraseDups hlen⟩

/-- Roots are listed the same exactly if they are the same roots. -/
theorem uniqueSorted_eq_iff {xs ys : List String} : uniqueSorted xs = uniqueSorted ys ↔ ∀ x, x ∈ xs ↔ x ∈ ys := by
  have hmem : ∀ {xs : List String} {x : String}, x ∈ uniqueSorted xs ↔ x ∈ xs := by
    simp [uniqueSorted, List.mem_eraseDups]
  refine ⟨fun h x => by rw [← hmem, h, hmem], fun h => ?_⟩
  have hcmp : Std.TransCmp fun a b : String => compare (codeUnits a) (codeUnits b) :=
    transCmp_on (inferInstance : Std.TransCmp fun a b : List ℕ => compare a b) codeUnits
  refine sortBy_eq_of_perm ?_ fun a _ b _ hab => codeUnits_injective (Std.LawfulEqOrd.eq_of_compare hab)
  rw [List.perm_ext_iff_of_nodup (nodup_eraseDups le_rfl) (nodup_eraseDups le_rfl)]
  simpa [List.mem_eraseDups] using h

namespace RunRecord

variable {r r' : RunRecord p}

theorem keyed_boundInput (r : RunRecord p) : Keyed r.boundInput := by
  have hinputs : ∀ {ps : List (String × JsValue)} {v : JsValue}, PropertiesKeyed ps →
      ps.lookup "inputs" = some v → Keyed v := by
    intro ps v h hv
    induction ps with
    | nil => cases hv
    | cons e ps ih =>
      obtain ⟨k, w⟩ := e
      rw [List.lookup_cons] at hv
      split at hv
      · cases hv
        exact h.1
      · exact ih h.2 hv
  have hrest : ∀ {v : Option JsValue}, (∀ w ∈ v, Keyed w) → Keyed ((orElse v (some .null)).getD .null) := by
    rintro (_ | v) h
    · trivial
    · cases v <;> first | trivial | exact h _ rfl
  refine hrest fun w hw => ?_
  unfold orElse at hw
  split at hw
  · exact hinputs r.keyed_task.2 hw
  · exact hinputs r.keyed_task.2 hw
  · cases hw
    exact r.keyed_input _ ‹_›

theorem keyed_boundAuthority (r : RunRecord p) : Keyed r.boundAuthority := by
  unfold boundAuthority orElse
  split
  · trivial
  · trivial
  · exact r.keyed_authority _ ‹_›

/-- What stands for the skills is their selection, or themselves. -/
theorem boundSkills_cases {s : String × JsValue} (h : s ∈ r.boundSkills) :
    (s.1 = "skill-selection" ∧ s.2 ∈ r.skillSelection) ∨ (s.1 = "skills" ∧ s.2 = .array r.skills) := by
  unfold boundSkills at h
  split at h
  · rename_i v hv
    obtain rfl := Option.some.inj h
    exact .inl ⟨rfl, hv⟩
  · split at h
    · cases h
    · obtain rfl := Option.some.inj h
      exact .inr ⟨rfl, rfl⟩

theorem keyed_boundSkills (r : RunRecord p) : ∀ s ∈ r.boundSkills, Keyed s.2 := by
  intro s hs
  rcases boundSkills_cases hs with ⟨-, hv⟩ | ⟨-, hv⟩
  · exact r.keyed_skillSelection _ hv
  · rw [hv]
    exact r.keyed_skills

/-- The texts of what is named are hashed. -/
theorem mem_messages {v : JsValue}
    (h : v ∈ [r.descriptor, .object r.task, r.boundInput, r.boundAuthority, r.selection] ++
      (r.boundSkills.map Prod.snd).toList) : canonicalBytes p.toLanguage v ∈ r.messages :=
  List.mem_append_left _ (List.mem_map_of_mem h)

/-- Roots that are the same are of values that are alike, or of messages that collide. -/
theorem alike_of_digestRoot (hn : NumberTokens p.toLanguage) {label : String} {v w : JsValue} (hv : Keyed v)
    (hr : canonicalBytes p.toLanguage v ∈ r.messages) (hr' : canonicalBytes p.toLanguage w ∈ r'.messages)
    (hc : ¬ Collision p.digest r.messages r'.messages) (h : digestRoot p label v = digestRoot p label w) :
    Alike p.toLanguage v w := by
  refine ((digestRoot_eq_iff hn hv).mp h).resolve_right fun hcol => hc (hcol.mono ?_ ?_)
  · simpa using hr
  · simpa using hr'

theorem digestRoot_of_alike (hn : NumberTokens p.toLanguage) {label : String} {v w : JsValue} (hv : Keyed v)
    (h : Alike p.toLanguage v w) : digestRoot p label v = digestRoot p label w :=
  (digestRoot_eq_iff hn hv).mpr (.inl h)

/-- The two labels of skills are told apart by their sixth characters. -/
theorem digestRoot_label_ne (v w : JsValue) : digestRoot p "skill-selection" v ≠ digestRoot p "skills" w := by
  intro h
  have hchar := congrArg (fun t : String => t.toList[5]?) h
  simp only [digestRoot, toString, String.toList_append, List.append_assoc] at hchar
  rw [List.getElem?_append_left (by decide), List.getElem?_append_left (by decide)] at hchar
  exact absurd hchar (by decide)

theorem label_eq {s s' : String × JsValue} (hs : s ∈ r.boundSkills) (hs' : s' ∈ r'.boundSkills)
    (h : digestRoot p s.1 s.2 = digestRoot p s'.1 s'.2) : s.1 = s'.1 := by
  rcases boundSkills_cases hs with ⟨hl, -⟩ | ⟨hl, -⟩ <;>
    rcases boundSkills_cases hs' with ⟨hl', -⟩ | ⟨hl', -⟩ <;> rw [hl, hl'] at h ⊢
  · exact absurd h (digestRoot_label_ne _ _)
  · exact absurd h.symm (digestRoot_label_ne _ _)

theorem skills_agree (hn : NumberTokens p.toLanguage) (hc : ¬ Collision p.digest r.messages r'.messages)
    (h : (r.boundSkills.map fun s => digestRoot p s.1 s.2) = r'.boundSkills.map fun s => digestRoot p s.1 s.2) :
    Option.Rel (fun s s' => s.1 = s'.1 ∧ Alike p.toLanguage s.2 s'.2) r.boundSkills r'.boundSkills := by
  rcases hs : r.boundSkills with _ | s <;> rcases hs' : r'.boundSkills with _ | s' <;> rw [hs, hs'] at h
  · exact .none
  · cases h
  · cases h
  · have hroot : digestRoot p s.1 s.2 = digestRoot p s'.1 s'.2 := Option.some.inj h
    have hlabel : s.1 = s'.1 := label_eq hs hs' hroot
    rw [← hlabel] at hroot
    refine .some ⟨hlabel, alike_of_digestRoot hn (r.keyed_boundSkills s hs) ?_ ?_ hc hroot⟩
    · exact mem_messages (by simp [hs])
    · exact mem_messages (by simp [hs'])

theorem skills_roots (hn : NumberTokens p.toLanguage)
    (h : Option.Rel (fun s s' => s.1 = s'.1 ∧ Alike p.toLanguage s.2 s'.2) r.boundSkills r'.boundSkills) :
    (r.boundSkills.map fun s => digestRoot p s.1 s.2) = r'.boundSkills.map fun s => digestRoot p s.1 s.2 := by
  have hkeyed := r.keyed_boundSkills
  generalize r.boundSkills = a at h hkeyed
  generalize r'.boundSkills = b at h
  cases h with
  | none => rfl
  | @some s s' h =>
    rw [Option.map_some, Option.map_some, h.1, digestRoot_of_alike hn (hkeyed s rfl) h.2]

/-- **A receipt stands for what it names.** The receipts of two runs have the same roots if the runs are alike in
all that a receipt names; and only then, unless two of the messages hashed for them differ and collide. -/
theorem receipt_binds (hn : NumberTokens p.toLanguage) (r r' : RunRecord p) :
    (r.Agree r' → r.roots = r'.roots) ∧
      (r.roots = r'.roots → r.Agree r' ∨ Collision p.digest r.messages r'.messages) := by
  constructor
  · intro h
    simp only [roots, ReceiptRoots.mk.injEq, List.cons.injEq, and_true]
    exact ⟨digestRoot_of_alike hn r.keyed_descriptor h.descriptor, digestRoot_of_alike hn r.keyed_task h.task,
      digestRoot_of_alike hn r.keyed_boundInput h.input, uniqueSorted_eq_iff.mpr h.knowledge,
      r.rootOf.root_eq r'.rootOf h.dependencies, digestRoot_of_alike hn r.keyed_boundAuthority h.authority,
      skills_roots hn h.skills, digestRoot_of_alike hn r.keyed_selection h.selection⟩
  · intro h
    simp only [roots, ReceiptRoots.mk.injEq, List.cons.injEq, and_true] at h
    obtain ⟨hdescriptor, htask, hinput, hknowledge, hdependencies, hauthority, hskills, hselection⟩ := h
    rw [or_iff_not_imp_right]
    intro hc
    have hmem : ∀ (r : RunRecord p) (v : JsValue),
        v ∈ [r.descriptor, .object r.task, r.boundInput, r.boundAuthority, r.selection] →
          canonicalBytes p.toLanguage v ∈ r.messages := fun r v hv => mem_messages (List.mem_append_left _ hv)
    refine ⟨?_, ?_, ?_, uniqueSorted_eq_iff.mp hknowledge, ?_, ?_, skills_agree hn hc hskills, ?_⟩
    · exact alike_of_digestRoot hn r.keyed_descriptor (hmem r _ (by simp)) (hmem r' _ (by simp)) hc hdescriptor
    · exact alike_of_digestRoot hn r.keyed_task (hmem r _ (by simp)) (hmem r' _ (by simp)) hc htask
    · exact alike_of_digestRoot hn r.keyed_boundInput (hmem r _ (by simp)) (hmem r' _ (by simp)) hc hinput
    · refine (r.rootOf.binds r'.rootOf hdependencies).resolve_right fun hcol => hc ?_
      obtain ⟨a, b, ha, hb, hne, hhash⟩ := hcol
      exact ⟨a, List.mem_append_right _ (by simp [ha]), b, List.mem_append_right _ (by simp [hb]), hne,
        hexadecimal_injective hhash⟩
    · exact alike_of_digestRoot hn r.keyed_boundAuthority (hmem r _ (by simp)) (hmem r' _ (by simp)) hc hauthority
    · exact alike_of_digestRoot hn r.keyed_selection (hmem r _ (by simp)) (hmem r' _ (by simp)) hc hselection

end RunRecord

/-! ### A run -/

/-- A platform that hashes. -/
def hashingPublisher : PublishPlatform :=
  let digest (bytes : List UInt8) : List UInt8 :=
    (Sha256.digest bytes).flatMap fun w => (List.range 4).map fun i => UInt8.ofNat (w.toNat / 256 ^ (3 - i))
  { samplePublisher with
    digest := digest
    sha256Hex := fun v => hexadecimal (digest (canonicalBytes samplePublisher.toLanguage v))
    sha256Hex_eq := fun _ => rfl }

/-- A run without dependencies, whose task has these properties. -/
def recordOf (task : List (String × JsValue)) (h : Keyed (.object task)) : RunRecord hashingPublisher where
  descriptor := .object [("id", .string "support")]
  task := task
  selection := .object [("version", .number (.finite 1))]
  frozen := dependencyRoot hashingPublisher.sha256Bytes [] [0x80]
  rootOf := rootOf_dependencyRoot (by decide +kernel)
  keyed_descriptor := by simp [Keyed, PropertiesKeyed]
  keyed_task := h
  keyed_input := by simp
  keyed_authority := by simp
  keyed_skills := by simp [ItemsKeyed]
  keyed_skillSelection := by simp
  keyed_selection := by simp [Keyed, PropertiesKeyed]

/-- A task, with its objective first. -/
def refundRecord : RunRecord hashingPublisher :=
  recordOf [("objective", .string "Refund"), ("id", .string "t1")] (by simp [Keyed, PropertiesKeyed])

/-- The same task, with its id first. -/
def reorderedRecord : RunRecord hashingPublisher :=
  recordOf [("id", .string "t1"), ("objective", .string "Refund")] (by simp [Keyed, PropertiesKeyed])

/-- The two have receipts with the same roots. -/
theorem receipt_binds_reordered : refundRecord.roots = reorderedRecord.roots := by
  have hone : (Written.token "1".toList).WellFormed := ⟨by decide, List.all_eq_true.mp (by decide)⟩
  have hn : NumberTokens hashingPublisher.toLanguage := fun _ _ => hone
  refine (RunRecord.receipt_binds hn refundRecord reorderedRecord).1 ⟨?_, ?_, ?_, ?_, rfl, ?_, .none, ?_⟩
  · exact ⟨_, .refl _, rfl, rfl, trivial⟩
  · exact ⟨_, .swap _ _ _, rfl, rfl, rfl, rfl, trivial⟩
  · rfl
  · exact fun _ => Iff.rfl
  · rfl
  · exact ⟨_, .refl _, rfl, rfl, trivial⟩

end Knolo.Harness
