import Knolo.Icp.Upkeep
import Knolo.Icp.Documents
import Knolo.Icp.EventLog

/-!
# Keeping a snapshot and reading it back

Whatever the stable memory held before, a snapshot replaces it (`written`). What is read back is the
snapshot, but for the events: they come back by sequence number, and of those with the same number
only one is left.

* `loadSnapshot_written` — a snapshot is read back if and only if the events of each record increase.
* `stable_round_trip` — so it is for every engine a canister can have, after any earlier snapshots.
* `stable_disorders` — an execution that was approved by a human loses events.
-/

namespace Knolo.Icp

open Core Library Library.Fallible

/-! ### What is written -/

variable (f : Formats)

/-- The stable memory after a snapshot was kept. -/
def written (s : StableEngineSnapshot) : StableMemory where
  schema := stableSchemaVersion
  definition := s.definitionJson.getD ""
  packMeta := (s.packMeta.bind f.packMeta.text).getD ""
  executions := scatter (·.executionId) f.record.text (valuesOf s.executions) ∅
  checkpoints := scatter (·.executionId) (fun r => r.lastCheckpoint.bind f.checkpoint.text) (valuesOf s.executions) ∅
  events := (valuesOf s.executions).foldl (rewriteEvents f) ∅
  budget := (f.budget.text s.budget).getD ""
  limits := (f.limits.text s.limits).getD ""
  handoffs := scatter (·.handoffId) f.handoff.text (valuesOf s.handoffs) ∅

/-- The stable memory after a record was kept. -/
def StableMemory.addRecord (m : StableMemory) (r : ExecutionRecord) : StableMemory :=
  { m with
    executions := place (·.executionId) f.record.text m.executions r
    checkpoints := place (·.executionId) (fun r => r.lastCheckpoint.bind f.checkpoint.text) m.checkpoints r
    events := rewriteEvents f m.events r }

/-- The stable memory after a handoff was kept. -/
def StableMemory.addHandoff (m : StableMemory) (h : HandoffRecordV1) : StableMemory :=
  { m with handoffs := place (·.handoffId) f.handoff.text m.handoffs h }

variable {f} {s : StableEngineSnapshot} {m : StableMemory}

theorem persistPackMeta_eq {packMeta : Option PackMetaV1} (hp : ∀ p, packMeta = some p → f.packMeta.Keeps p) :
    persistPackMeta f packMeta m = .ok {
      result := .ok (), state := { m with packMeta := (packMeta.bind f.packMeta.text).getD "" }, log := [] } := by
  unfold persistPackMeta
  cases packMeta with
  | none => exact Method.bind_of_quiet rfl
  | some p =>
    obtain ⟨t, hw, ht, -, -⟩ := (hp p rfl).text
    simp only [hw, Option.bind_some, ht]
    exact Method.bind_of_quiet rfl

theorem persistCheckpoint_eq {r : ExecutionRecord} (hcp : ∀ cp, r.lastCheckpoint = some cp → f.checkpoint.Keeps cp) :
    persistCheckpoint f r m = .ok {
      result := .ok ()
      state := { m with
        checkpoints := place (·.executionId) (fun r => r.lastCheckpoint.bind f.checkpoint.text) m.checkpoints r }
      log := [] } := by
  unfold persistCheckpoint place
  cases hlast : r.lastCheckpoint with
  | none =>
    simp only [hlast, Option.bind_none]
    rfl
  | some cp =>
    obtain ⟨t, hw, ht, -, -⟩ := (hcp cp hlast).text
    simp only [hlast, Option.bind_some, ht, hw]
    exact Method.bind_of_quiet rfl

theorem persistExecution_eq {r : ExecutionRecord} (hr : f.record.Keeps r)
    (hcp : ∀ cp, r.lastCheckpoint = some cp → f.checkpoint.Keeps cp) :
    persistExecution f r m = .ok { result := .ok (), state := m.addRecord f r, log := [] } := by
  obtain ⟨t, hw, ht, -, -⟩ := hr.text
  simp only [persistExecution, hw]
  refine (Method.bind_of_quiet rfl).trans ((Method.bind_of_quiet rfl).trans ?_)
  refine (Method.bind_of_quiet (persistCheckpoint_eq hcp)).trans ?_
  simp [Method.modify, StableMemory.addRecord, place, ht]

theorem persistHandoff_eq {h : HandoffRecordV1} (hh : f.handoff.Keeps h) :
    persistHandoff f h m = .ok { result := .ok (), state := m.addHandoff f h, log := [] } := by
  obtain ⟨t, hw, ht, -, -⟩ := hh.text
  simp only [persistHandoff, hw]
  refine (Method.bind_of_quiet rfl).trans ?_
  simp [Method.modify, StableMemory.addHandoff, place, ht]

theorem addRecord_foldl (rs : List ExecutionRecord) (m : StableMemory) :
    rs.foldl (·.addRecord f) m =
      { m with
        executions := scatter (·.executionId) f.record.text rs m.executions
        checkpoints := scatter (·.executionId) (fun r => r.lastCheckpoint.bind f.checkpoint.text) rs m.checkpoints
        events := rs.foldl (rewriteEvents f) m.events } := by
  induction rs generalizing m with
  | nil => rfl
  | cons r rs ih => exact ih _

theorem addHandoff_foldl (hs : List HandoffRecordV1) (m : StableMemory) :
    hs.foldl (·.addHandoff f) m = { m with handoffs := scatter (·.handoffId) f.handoff.text hs m.handoffs } := by
  induction hs generalizing m with
  | nil => rfl
  | cons h hs ih => exact ih _

/-- The schema is stamped. -/
theorem ensureSchema_eq (hm : m.schema ≤ stableSchemaVersion) :
    ensureSchema m = .ok { result := .ok (), state := { m with schema := stableSchemaVersion }, log := [] } := by
  refine (Method.bind_of_quiet rfl).trans ?_
  rcases Nat.le_one_iff_eq_zero_or_eq_one.mp hm with h | h
  · rw [if_pos h]
    rfl
  · have hstamped : m.schema = stableSchemaVersion := h
    rw [if_neg (by omega), if_pos hstamped, ← hstamped]
    rfl

/-- **What a snapshot leaves in the stable memory**, whatever was there before. -/
theorem persistSnapshot_eq (hf : Readable f s) (hm : m.schema ≤ stableSchemaVersion) :
    persistSnapshot f s m = .ok { result := .ok (), state := written f s, log := [] } := by
  obtain ⟨budget, hbw, hbt, -, -⟩ := hf.budget.text
  obtain ⟨limits, hlw, hlt, -, -⟩ := hf.limits.text
  have hrecords := fun m => Method.forM_of_quiet (valuesOf s.executions) (fun r hr m => by
    obtain ⟨k, hk⟩ := mem_valuesOf.mp hr
    exact persistExecution_eq (m := m) (hf.record k r hk) (fun cp hcp => hf.checkpoint k r cp hk hcp)) m
  have hhandoffs := fun m => Method.forM_of_quiet (valuesOf s.handoffs) (fun h hh m => by
    obtain ⟨k, hk⟩ := mem_valuesOf.mp hh
    exact persistHandoff_eq (m := m) (hf.handoff k h hk)) m
  simp only [persistSnapshot, persistBudget, persistLimits, hbw, hlw]
  refine (Method.bind_of_quiet (ensureSchema_eq hm)).trans ?_
  refine (Method.bind_of_quiet rfl).trans ((Method.bind_of_quiet rfl).trans ?_)
  refine (Method.bind_of_quiet (persistPackMeta_eq hf.packMeta)).trans ?_
  refine (Method.bind_of_quiet rfl).trans ((Method.bind_of_quiet rfl).trans ?_)
  refine (Method.bind_of_quiet rfl).trans ((Method.bind_of_quiet (hrecords _)).trans ?_)
  refine (Method.bind_of_quiet rfl).trans ((hhandoffs _).trans ?_)
  simp [addRecord_foldl, addHandoff_foldl, removeWhere_true, written, hbt, hlt]

/-! ### Keys -/

variable {id id' : ExecutionId} {key : String} {r : ExecutionRecord}

theorem separator_not_mem (id : ExecutionId) : '\x1f' ∉ id.text.toList := by
  intro hmem
  have hvalid := id.valid
  simp only [validIdentifier, Bool.and_eq_true, List.all_eq_true] at hvalid
  exact absurd (hvalid.2 _ hmem) (by decide)

theorem hasStem_iff : hasStem id.text key = true ↔ id.text.toList ++ ['\x1f'] <+: key.toList := by
  rw [hasStem, List.isPrefixOf_iff_prefix, stem, String.toList_append]
  rfl

/-- A key is of one execution only. -/
theorem hasStem_unique (h : hasStem id.text key = true) (h' : hasStem id'.text key = true) : id = id' :=
  Identifier.ext (String.toList_inj.mp
    (stem_unique (separator_not_mem id) (separator_not_mem id') (hasStem_iff.mp h) (hasStem_iff.mp h')))

theorem hasStem_eventKey (id : ExecutionId) (n : ℕ) : hasStem id.text (eventKey id.text n) = true := by
  rw [hasStem, List.isPrefixOf_iff_prefix, eventKey, String.toList_append]
  exact List.prefix_append _ _

/-- Two events of an execution have the same key if they have the same number. -/
theorem eventKey_inj {k : String} {n n' : ℕ} : eventKey k n = eventKey k n' ↔ n = n' := by
  refine ⟨fun h => ?_, fun h => by rw [h]⟩
  rw [eventKey, eventKey, ← String.toList_inj, String.toList_append, String.toList_append] at h
  have hdigits : Nat.toDigits 10 n = Nat.toDigits 10 n' := by
    rw [← Nat.toList_repr, ← Nat.toList_repr]
    exact List.append_cancel_left h
  rw [← Nat.ofDigitChars_ten_toDigits (n := n), hdigits, Nat.ofDigitChars_ten_toDigits]

/-! ### Events -/

/-- The keys of an execution's events lead to what its record wrote. -/
theorem rewriteEvents_own {events : Std.ExtTreeMap String String} (hid : r.executionId = id.text)
    (hkey : hasStem id.text key = true) :
    (rewriteEvents f events r)[key]? =
      (scatter (fun ev : ExecutionEventV1 => eventKey id.text ev.sequence) f.event.text r.events ∅)[key]? := by
  rw [rewriteEvents, hid]
  refine scatter_congr ?_
  simp [getElem?_removeWhere, hkey]

/-- The records of other executions leave them. -/
theorem rewriteEvents_other {events : Std.ExtTreeMap String String} (hid : r.executionId = id'.text) (hne : id ≠ id')
    (hkey : hasStem id.text key = true) : (rewriteEvents f events r)[key]? = events[key]? := by
  have hnot : ∀ {key'}, hasStem id'.text key' = true → key' ≠ key := by
    intro key' hkey' heq
    exact hne (hasStem_unique hkey (heq ▸ hkey'))
  rw [rewriteEvents, hid, scatter_other fun ev _ => hnot (hasStem_eventKey id' _), getElem?_removeWhere, if_neg]
  intro hkey'
  exact hnot hkey' rfl

/-- The names of the records are in order. -/
def StableEngineSnapshot.Filed (s : StableEngineSnapshot) : Prop :=
  ∀ (k : String) (r : ExecutionRecord), s.executions[k]? = some r → Named k r

theorem foldl_rewriteEvents_other {rs : List ExecutionRecord} {events : Std.ExtTreeMap String String}
    (hrs : ∀ r ∈ rs, ∃ id' : ExecutionId, r.executionId = id'.text ∧ id ≠ id') (hkey : hasStem id.text key = true) :
    (rs.foldl (rewriteEvents f) events)[key]? = events[key]? := by
  induction rs generalizing events with
  | nil => rfl
  | cons r rs ih =>
    obtain ⟨id', hid, hne⟩ := hrs r (List.mem_cons_self ..)
    rw [List.foldl_cons, ih fun r hr => hrs r (List.mem_cons_of_mem _ hr), rewriteEvents_other hid hne hkey]

/-- The keys of an execution's events lead to what its own record wrote, whichever records were kept before it
and after it. -/
theorem written_events (hs : s.Filed) (hr : s.executions[id.text]? = some r) (hkey : hasStem id.text key = true) :
    (written f s).events[key]? =
      (scatter (fun ev : ExecutionEventV1 => eventKey id.text ev.sequence) f.event.text r.events ∅)[key]? := by
  have hdistinct : (valuesOf s.executions).Pairwise fun r r' => r.executionId ≠ r'.executionId := by
    refine List.pairwise_map.mpr (Std.ExtTreeMap.distinct_keys_toList.imp_of_mem fun {x y} hx hy hne heq => hne ?_)
    rw [← (hs _ _ (Std.ExtTreeMap.mem_toList_iff_getElem?_eq_some.mp hx)).1,
      ← (hs _ _ (Std.ExtTreeMap.mem_toList_iff_getElem?_eq_some.mp hy)).1, heq]
    exact Std.ReflOrd.compare_self
  obtain ⟨before, after, hsplit⟩ := List.append_of_mem (mem_valuesOf.mpr ⟨_, hr⟩)
  have hafter : ∀ r' ∈ after, ∃ id' : ExecutionId, r'.executionId = id'.text ∧ id ≠ id' := by
    intro r' hr'
    rw [hsplit] at hdistinct
    have hne := (List.pairwise_cons.mp (List.pairwise_append.mp hdistinct).2.1).1 r' hr'
    obtain ⟨k', hk'⟩ := mem_valuesOf.mp (hsplit ▸ List.mem_append_right _ (List.mem_cons_of_mem _ hr'))
    obtain ⟨hid', id', rfl⟩ := hs k' r' hk'
    refine ⟨id', hid', fun heq => hne ?_⟩
    rw [(hs _ r hr).1, hid', heq]
  rw [written, hsplit, List.foldl_append, List.foldl_cons, foldl_rewriteEvents_other hafter hkey,
    rewriteEvents_own (hs _ r hr).1 hkey]

theorem scattered_events (hf : Readable f s) (hr : s.executions[id.text]? = some r) :
    Scattered (hasStem id.text) (fun ev : ExecutionEventV1 => eventKey id.text ev.sequence) f.event.text
      (fun text => (f.event.read text).toOption) (·.sequence) r.events where
  reads ev hev := by
    obtain ⟨t, -, ht, hread, -⟩ := (hf.event _ r hr ev hev).text
    exact ⟨t, ht, hread⟩
  region ev _ := hasStem_eventKey id ev.sequence
  keys _ _ _ _ := eventKey_inj

/-- The events that are read back are in order of their numbers, and they are those of the record if the
record's are. -/
theorem loadEvents_written (hf : Readable f s) (hs : s.Filed) (hr : s.executions[id.text]? = some r) :
    (loadEvents f (written f s) id.text = r.events ↔ r.events.Pairwise fun a b => a.sequence < b.sequence) ∧
      (loadEvents f (written f s) id.text = [] → r.events = []) := by
  have hscattered := scattered_events hf hr
  have hload : loadEvents f (written f s) id.text = gather (hasStem id.text) (fun text => (f.event.read text).toOption)
      (·.sequence) (scatter (fun ev : ExecutionEventV1 => eventKey id.text ev.sequence) f.event.text r.events ∅) := by
    rw [loadEvents, gather, items_congr fun key hkey => written_events hs hr hkey, gather]
  refine ⟨by rw [hload, gather_scatter hscattered], fun hnil => ?_⟩
  by_contra hne
  rw [hload, gather] at hnil
  exact hscattered.items_ne_nil hne (List.Perm.eq_nil (hnil ▸ (List.mergeSort_perm _ _).symm))

/-! ### Reading -/

/-- A snapshot as it is read back. -/
def reread (f : Formats) (s : StableEngineSnapshot) : StableEngineSnapshot :=
  { s with executions := s.executions.map fun k r => { r with events := loadEvents f (written f s) k } }

theorem reread_eq_iff (hf : Readable f s) (hs : s.Filed) :
    reread f s = s ↔ ∀ (k : String) (r : ExecutionRecord), s.executions[k]? = some r →
      r.events.Pairwise fun a b => a.sequence < b.sequence := by
  constructor
  · intro h k r hr
    obtain ⟨-, id, rfl⟩ := hs k r hr
    refine (loadEvents_written hf hs hr).1.mp ?_
    have hget := congrArg (fun s : StableEngineSnapshot => s.executions[id.text]?) h
    simp only [reread, Std.ExtTreeMap.getElem?_map, hr, Option.map_some, Option.some.injEq] at hget
    exact congrArg ExecutionRecord.events hget
  · intro h
    have hsame : s.executions.map (fun k r => { r with events := loadEvents f (written f s) k }) = s.executions := by
      refine Std.ExtTreeMap.ext_getElem? fun k => ?_
      rw [Std.ExtTreeMap.getElem?_map]
      cases hr : s.executions[k]? with
      | none => rfl
      | some r =>
        obtain ⟨-, id, rfl⟩ := hs k r hr
        rw [Option.map_some, (loadEvents_written hf hs hr).1.mpr (h _ r hr)]
    rw [reread, hsame]

theorem getElem?_scatter_own {α : Type} {values : Std.ExtTreeMap String α} {name : α → String} {write : α → Option String}
    (h : ∀ (k : String) (a : α), values[k]? = some a → name a = k) (k : String) :
    (scatter name write (valuesOf values) ∅)[k]? = values[k]?.bind write := by
  have hscatter : (scatter name write ((values.toList.map (·.2)).filterMap some) ∅)[k]? =
      (values[k]?.bind some).bind write :=
    getElem?_scatter_values Function.injective_id (fun k a b hk hb => by cases hb; exact h k a hk) k
  rwa [List.filterMap_some, Option.bind_fun_some] at hscatter

/-- A record is read back with its events in order. -/
theorem loadRecord_written (hf : Readable f s) (hs : s.Filed) (hr : s.executions[id.text]? = some r) {t : String}
    (ht : f.record.text r = some t) :
    loadRecord f (written f s) id.text t = some { r with events := loadEvents f (written f s) id.text } := by
  obtain ⟨t', -, ht', hread, -⟩ := (hf.record _ r hr).text
  obtain rfl : t' = t := Option.some.inj (ht'.symm.trans ht)
  have hevents : (if (loadEvents f (written f s) id.text).isEmpty then r
      else { r with events := loadEvents f (written f s) id.text }) =
        { r with events := loadEvents f (written f s) id.text } := by
    split
    · have hnil := List.isEmpty_iff.mp ‹_›
      rw [hnil, ← (loadEvents_written hf hs hr).2 hnil]
    · rfl
  have hcheckpoint : ((written f s).checkpoints[id.text]?.bind fun text => (f.checkpoint.read text).toOption) =
      r.lastCheckpoint := by
    have hget : (written f s).checkpoints[id.text]? = r.lastCheckpoint.bind f.checkpoint.text := by
      refine (getElem?_scatter_own (fun k a hk => (hs k a hk).1) id.text).trans ?_
      rw [hr, Option.bind_some]
    rw [hget]
    cases hlast : r.lastCheckpoint with
    | none => rfl
    | some cp =>
      obtain ⟨t, -, ht, hread, -⟩ := (hf.checkpoint _ r cp hr hlast).text
      rw [Option.bind_some, ht, Option.bind_some, hread]
  simp only [loadRecord, hread, Option.map_some, hevents, hcheckpoint]
  cases r.lastCheckpoint with
  | none => rfl
  | some cp => rfl

theorem readCell_text {α : Type} {format : Format α} {x default : α} (h : format.Keeps x) :
    readCell format ((format.text x).getD "") default = x := by
  obtain ⟨t, -, ht, hread, hne⟩ := h.text
  simp [readCell, ht, hread, hne]

/-- **What is read of a snapshot that was kept.** -/
theorem loadSnapshot_written (hf : Readable f s) (hs : s.Filed)
    (hhandoffs : ∀ (k : String) (h : HandoffRecordV1), s.handoffs[k]? = some h → h.handoffId = k)
    (hschema : s.schemaVersion = stableSchemaVersion) (hdefinition : s.definitionJson ≠ some "") :
    loadSnapshot f (written f s) = .ok { result := .ok (reread f s), state := written f s, log := [] } := by
  have hexecutions : (written f s).executions.filterMap (loadRecord f (written f s)) = (reread f s).executions := by
    refine Std.ExtTreeMap.ext_getElem? fun k => ?_
    rw [Std.ExtTreeMap.getElem?_filterMap', reread, Std.ExtTreeMap.getElem?_map, written,
      getElem?_scatter_own fun k a hk => (hs k a hk).1]
    cases hr : s.executions[k]? with
    | none => rfl
    | some r =>
      obtain ⟨-, id, rfl⟩ := hs k r hr
      obtain ⟨t, -, ht, -, -⟩ := (hf.record _ r hr).text
      rw [Option.bind_some, ht, Option.bind_some]
      exact loadRecord_written hf hs hr ht
  have hkept : (written f s).handoffs.filterMap (fun _ json => (f.handoff.read json).toOption) = s.handoffs := by
    refine Std.ExtTreeMap.ext_getElem? fun k => ?_
    rw [Std.ExtTreeMap.getElem?_filterMap', written, getElem?_scatter_own hhandoffs]
    cases hh : s.handoffs[k]? with
    | none => rfl
    | some h =>
      obtain ⟨t, -, ht, hread, -⟩ := (hf.handoff k h hh).text
      simp [ht, hread]
  have htext : (if (s.definitionJson.getD "").isEmpty then none else some (s.definitionJson.getD "")) =
      s.definitionJson := by
    cases hd : s.definitionJson with
    | none => rfl
    | some json =>
      have hne : json ≠ "" := fun heq => hdefinition (by rw [hd, heq])
      rw [Option.getD_some, if_neg (by rwa [String.isEmpty_iff])]
  have hmeta : (if ((s.packMeta.bind f.packMeta.text).getD "").isEmpty then none
      else (f.packMeta.read ((s.packMeta.bind f.packMeta.text).getD "")).toOption) = s.packMeta := by
    cases hp : s.packMeta with
    | none => rfl
    | some p =>
      obtain ⟨t, -, ht, hread, hne⟩ := (hf.packMeta p hp).text
      simp [ht, hread, hne]
  refine (Method.bind_of_quiet (ensureSchema_eq (Nat.le_refl _))).trans ((Method.bind_of_quiet rfl).trans ?_)
  have hpure : ∀ snap, snap = reread f s →
      (pure snap : StableM StableEngineSnapshot) (written f s) =
        .ok { result := .ok (reread f s), state := written f s, log := [] } := fun snap h => h ▸ rfl
  refine hpure _ ((StableEngineSnapshot.mk.injEq ..).mpr ⟨hschema.symm, htext, hmeta, hexecutions, ?_, ?_, hkept⟩)
  · exact readCell_text hf.budget
  · exact readCell_text hf.limits

/-! ### Round trips -/

/-- The stable memory after snapshots were kept and read. -/
inductive StableMemory.Used (f : Formats) : StableMemory → Prop
  /-- That of a new canister. -/
  | blank : Used f .blank
  | persisted {m : StableMemory} {r : Returned StableMemory Empty String Unit} (s : StableEngineSnapshot) :
      Used f m → persistSnapshot f s m = .ok r → Used f r.state
  | loaded {m : StableMemory} {r : Returned StableMemory Empty String StableEngineSnapshot} :
      Used f m → loadSnapshot f m = .ok r → Used f r.state

/-- The schema is not newer than the code. -/
def Supported (m : StableMemory) : Prop := m.schema ≤ stableSchemaVersion

theorem ensureSchema_supported : Method.Keeps Supported ensureSchema := by
  intro m hm r hr
  rw [ensureSchema_eq hm] at hr
  cases hr
  exact Nat.le_refl _

theorem persistExecution_supported (r : ExecutionRecord) : Method.Keeps Supported (persistExecution f r) := by
  have hcheckpoint : Method.Keeps Supported (persistCheckpoint f r) := by
    unfold persistCheckpoint
    split
    · exact (Method.keeps_ofExcept _).bind fun _ => Method.keeps_modify fun _ h => h
    · exact Method.keeps_pure _
  refine (Method.keeps_ofExcept _).bind fun _ => ?_
  refine Method.Keeps.bind (Method.keeps_modify fun _ h => h) fun _ => ?_
  exact hcheckpoint.bind fun _ => Method.keeps_modify fun _ h => h

theorem persistSnapshot_supported (s : StableEngineSnapshot) : Method.Keeps Supported (persistSnapshot f s) := by
  have hcell : ∀ (x : Except String String) (g : String → StableMemory → StableMemory),
      (∀ t m, (g t m).schema = m.schema) →
      Method.Keeps Supported (do let json ← Method.ofExcept x; Method.modify (g json) : StableM Unit) := by
    intro x g hg
    refine (Method.keeps_ofExcept _).bind fun t => Method.keeps_modify fun m hm => ?_
    rwa [Supported, hg]
  refine ensureSchema_supported.bind fun _ => ?_
  refine Method.Keeps.bind (Method.keeps_modify fun _ _ => Nat.le_refl _) fun _ => ?_
  refine Method.Keeps.bind (Method.keeps_modify fun _ h => h) fun _ => ?_
  refine (hcell _ (fun t m => { m with packMeta := t }) fun _ _ => rfl).bind fun _ => ?_
  refine (hcell _ (fun t m => { m with budget := t }) fun _ _ => rfl).bind fun _ => ?_
  refine (hcell _ (fun t m => { m with limits := t }) fun _ _ => rfl).bind fun _ => ?_
  refine Method.Keeps.bind (Method.keeps_modify fun _ h => h) fun _ => ?_
  refine (Method.Keeps.forM _ persistExecution_supported).bind fun _ => ?_
  refine Method.Keeps.bind (Method.keeps_modify fun _ h => h) fun _ => Method.Keeps.forM _ fun h => ?_
  exact hcell _ (fun t m => { m with handoffs := m.handoffs.insert h.handoffId t }) fun _ _ => rfl

/-- Every document can be written. -/
structure Formats.Writes (f : Formats) : Prop where
  packMeta : ∀ x, ∃ t, f.packMeta.write x = .ok t
  budget : ∀ x, ∃ t, f.budget.write x = .ok t
  limits : ∀ x, ∃ t, f.limits.write x = .ok t
  record : ∀ x, ∃ t, f.record.write x = .ok t
  checkpoint : ∀ x, ∃ t, f.checkpoint.write x = .ok t
  handoff : ∀ x, ∃ t, f.handoff.write x = .ok t

/-- Where every document can be written, every snapshot is kept. -/
theorem persistSnapshot_succeeds (hf : f.Writes) (s : StableEngineSnapshot) :
    Method.Succeeds Supported (persistSnapshot f s) := by
  have hsame : ∀ g : StableMemory → StableMemory, (∀ m, (g m).schema = m.schema) →
      Method.Succeeds Supported (Method.modify g : StableM Unit) := by
    intro g hg
    refine Method.succeeds_modify fun m hm => ?_
    rwa [Supported, hg]
  have hcheckpoint : ∀ r, Method.Succeeds Supported (persistCheckpoint f r) := by
    intro r
    unfold persistCheckpoint
    split
    · exact (Method.succeeds_ofExcept (hf.checkpoint _)).bind fun _ => hsame _ (by intro _; rfl)
    · exact Method.succeeds_pure _
  have hrecord : ∀ r, Method.Succeeds Supported (persistExecution f r) := by
    intro r
    refine (Method.succeeds_ofExcept (hf.record r)).bind fun _ => (hsame _ (by intro _; rfl)).bind fun _ => ?_
    exact (hcheckpoint r).bind fun _ => hsame _ (by intro _; rfl)
  have hhandoff : ∀ h, Method.Succeeds Supported (persistHandoff f h) := by
    intro h
    exact (Method.succeeds_ofExcept (hf.handoff h)).bind fun _ => hsame _ (by intro _; rfl)
  have hmeta : Method.Succeeds Supported (persistPackMeta f s.packMeta) := by
    refine (Method.succeeds_ofExcept ?_).bind fun _ => hsame _ (by intro _; rfl)
    cases s.packMeta with
    | none => exact ⟨"", rfl⟩
    | some p => exact hf.packMeta p
  have hschema : Method.Succeeds Supported ensureSchema := fun m hm => ⟨_, _, ensureSchema_eq hm, Nat.le_refl _⟩
  refine hschema.bind fun _ => Method.Succeeds.bind (Method.succeeds_modify (by intro _ _; exact Nat.le_refl _)) fun _ => ?_
  refine (hsame _ (by intro _; rfl)).bind fun _ => hmeta.bind fun _ => ?_
  refine ((Method.succeeds_ofExcept (hf.budget _)).bind fun _ => hsame _ (by intro _; rfl)).bind fun _ => ?_
  refine ((Method.succeeds_ofExcept (hf.limits _)).bind fun _ => hsame _ (by intro _; rfl)).bind fun _ => ?_
  refine (hsame _ (by intro _; rfl)).bind fun _ => (Method.Succeeds.forM _ hrecord).bind fun _ => ?_
  exact (hsame _ (by intro _; rfl)).bind fun _ => Method.Succeeds.forM _ hhandoff

theorem StableMemory.Used.supported (h : m.Used f) : Supported m := by
  induction h with
  | blank => exact Nat.zero_le _
  | persisted s _ hr ih => exact persistSnapshot_supported s _ ih _ hr
  | loaded _ hr ih =>
    refine (ensureSchema_supported.bind (f := fun _ => _) fun _ => ?_) _ ih _ hr
    exact Method.Keeps.read_bind fun _ _ => Method.keeps_pure _

variable {codec : Codec} {principal : String → Except String String} {e : AgentEngine}

theorem definitionJson_ne_empty {json : String} {d : LoadedDefinition} (h : AgentDefinitionBundleV1.load codec json = .ok d) :
    d.definitionJson ≠ "" := by
  rw [load_definitionJson h]
  rintro rfl
  obtain ⟨bundle, hparse, -⟩ := bind_eq_ok.mp h
  obtain ⟨_, hempty, -⟩ := bind_eq_ok.mp hparse
  cases hempty

/-- The snapshot of an engine is kept as it should be, and read back as `reread` says. -/
theorem Kempt.round_trip (hk : Kempt codec e) (hf : Readable f e.snapshot) (hm : Supported m) :
    persistSnapshot f e.snapshot m = .ok { result := .ok (), state := written f e.snapshot, log := [] } ∧
      loadSnapshot f (written f e.snapshot) =
        .ok { result := .ok (reread f e.snapshot), state := written f e.snapshot, log := [] } := by
  refine ⟨persistSnapshot_eq hf hm, loadSnapshot_written hf hk.named hk.handoff rfl fun h => ?_⟩
  obtain ⟨d, hd, hempty⟩ := Option.map_eq_some_iff.mp h
  exact definitionJson_ne_empty (hk.loaded d hd) hempty

/-- **A snapshot comes back as it was kept if and only if the events of each record have increasing
numbers**, whatever was kept before it. -/
theorem stable_round_trip (codec : Codec) (principal : String → Except String String) (f : Formats) (e : AgentEngine)
    (he : Arising codec principal e) (hf : Readable f e.snapshot) (m : StableMemory) (hm : m.Used f) :
    ∃ m' snap, persistSnapshot f e.snapshot m = .ok { result := .ok (), state := m', log := [] } ∧
      loadSnapshot f m' = .ok { result := .ok snap, state := m', log := [] } ∧
      (snap = e.snapshot ↔ ∀ (k : String) (r : ExecutionRecord), e.executions[k]? = some r →
        r.events.Pairwise fun a b => a.sequence < b.sequence) := by
  have hk := he.kempt
  obtain ⟨hpersist, hload⟩ := hk.round_trip hf hm.supported
  exact ⟨_, _, hpersist, hload, reread_eq_iff hf hk.named⟩

/-! ### A review loop -/

/-- The review loop after calls. -/
def reviewAfter (cs : List Call) : AgentEngine :=
  ((sessionFrom .default).run (Call.perform reviewCodec) (.loadDefinition reviewSample.text :: cs)).state

/-- The text layer of its snapshot; it has no doubles. -/
def AgentEngine.formats (e : AgentEngine) : Formats := e.snapshot.documents fun _ => "null"

theorem reviewAfter_reachable (cs : List Call) : Reachable reviewCodec (reviewAfter cs) := ⟨_, rfl⟩

/-- **Events of an execution that a human has approved do not come back.** -/
theorem stable_disorders :
    Reachable reviewCodec (reviewAfter [reviewStart, .resume "e"]) ∧
      Readable (reviewAfter [reviewStart, .resume "e"]).formats (reviewAfter [reviewStart, .resume "e"]).snapshot ∧
      ∃ m snap, persistSnapshot (reviewAfter [reviewStart, .resume "e"]).formats
          (reviewAfter [reviewStart, .resume "e"]).snapshot .blank = .ok { result := .ok (), state := m, log := [] } ∧
        loadSnapshot (reviewAfter [reviewStart, .resume "e"]).formats m =
          .ok { result := .ok snap, state := m, log := [] } ∧
        snap ≠ (reviewAfter [reviewStart, .resume "e"]).snapshot := by
  have hreach := reviewAfter_reachable [reviewStart, .resume "e"]
  have htexts : ∀ ts ∈ (reviewAfter [reviewStart, .resume "e"]).snapshot.allTexts fun _ => "null",
      ts.Nodup ∧ "" ∉ ts := by
    decide +kernel
  have hevents : (reviewAfter [reviewStart, .resume "e"]).executions["e"]?.map (fun r =>
      decide (r.events.Pairwise fun a b => a.sequence < b.sequence)) = some false := by
    decide +kernel
  generalize reviewAfter [reviewStart, .resume "e"] = e at *
  have hf : Readable e.formats e.snapshot := documents_readable htexts
  have hk : Kempt reviewCodec e := (hreach.arising .ok).kempt
  obtain ⟨hpersist, hload⟩ := hk.round_trip hf (m := .blank) (Nat.zero_le _)
  refine ⟨hreach, hf, _, _, hpersist, hload, fun heq => ?_⟩
  obtain ⟨r, hr, hdisorder⟩ := Option.map_eq_some_iff.mp hevents
  exact of_decide_eq_false hdisorder ((reread_eq_iff hf hk.named).mp heq "e" r hr)

/-- Before it is approved, everything comes back. -/
theorem reviewStart_kept :
    ∃ m snap, persistSnapshot (reviewAfter [reviewStart]).formats (reviewAfter [reviewStart]).snapshot .blank =
        .ok { result := .ok (), state := m, log := [] } ∧
      loadSnapshot (reviewAfter [reviewStart]).formats m = .ok { result := .ok snap, state := m, log := [] } ∧
      snap = (reviewAfter [reviewStart]).snapshot := by
  have hreach := reviewAfter_reachable [reviewStart]
  have htexts : ∀ ts ∈ (reviewAfter [reviewStart]).snapshot.allTexts fun _ => "null", ts.Nodup ∧ "" ∉ ts := by
    decide +kernel
  have hevents : (valuesOf (reviewAfter [reviewStart]).executions).all (fun r =>
      decide (r.events.Pairwise fun a b => a.sequence < b.sequence)) = true := by
    decide +kernel
  generalize reviewAfter [reviewStart] = e at *
  obtain ⟨m, snap, hpersist, hload, hiff⟩ := stable_round_trip reviewCodec .ok e.formats e (hreach.arising .ok)
    (documents_readable htexts) .blank .blank
  refine ⟨m, snap, hpersist, hload, hiff.mpr fun k r hr => ?_⟩
  exact of_decide_eq_true (List.all_eq_true.mp hevents r (mem_valuesOf.mpr ⟨k, hr⟩))

end Knolo.Icp
