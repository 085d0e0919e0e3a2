import Knolo.Icp.StableStore

/-!
# The documents of a snapshot

What the stable memory keeps as text, in JSON with the members in the order of the source's fields, and
what the texts have to do for a snapshot to be read back.

* `Readable` — each document of a snapshot can be written, and what is written is read as the document.
* `documents_readable` — so it is where the documents are told apart by their texts.
-/

namespace Knolo.Icp

open Core Library Library.Fallible

/-! ### JSON -/

/-- A value that may be missing. -/
def jsonOption {α : Type} (json : α → Json) (x : Option α) : Json := x.elim .null json

/-- A number. -/
def jsonNat (n : ℕ) : Json := .number (.posInt n)

/-- A kind of event: its name, with its fields if it has any. -/
def eventKindJson : EventKindV1 → Json
  | .executionStarted => .string "ExecutionStarted"
  | .nodeStarted attempt => .object [("NodeStarted", .object [("attempt", jsonNat attempt)])]
  | .statePatched revision => .object [("StatePatched", .object [("revision", jsonNat revision)])]
  | .routed route target => .object [("Routed", .object [("route", .string route), ("to", .string target.text)])]
  | .retrying attempt => .object [("Retrying", .object [("attempt", jsonNat attempt)])]
  | .suspended reason => .object [("Suspended", .object [("reason", .string reason)])]
  | .terminated => .string "Terminated"
  | .failed error => .object [("Failed", .object [("error", .string error)])]
  | .cancelled => .string "Cancelled"
  | .checkpointed => .string "Checkpointed"

/-- An event. -/
def eventJson (e : ExecutionEventV1) : Json :=
  .object
    [("version", jsonNat e.version), ("sequence", jsonNat e.sequence), ("execution_id", .string e.executionId.text),
      ("node_id", jsonOption (fun id => .string id.text) e.nodeId), ("timestamp_ms", jsonNat e.timestampMs),
      ("kind", eventKindJson e.kind)]

/-- Where a value came from. -/
def provenanceJson (p : ProvenanceV1) : Json :=
  .object
    [("execution_id", .string p.executionId.text), ("node_id", .string p.nodeId.text),
      ("event_sequence", jsonNat p.eventSequence)]

/-- A state. -/
def stateJson (s : StateSnapshot) : Json :=
  .object
    [("schema_id", .string s.schemaId.text), ("revision", jsonNat s.revision), ("value", s.value),
      ("provenance", jsonOption provenanceJson s.provenance)]

/-- A checkpoint. -/
def checkpointJson (cp : CheckpointV1) : Json :=
  .object
    [("version", jsonNat cp.version), ("execution_id", .string cp.executionId.text),
      ("graph_hash", .string cp.graphHash), ("pack_hash", .string cp.packHash), ("policy_hash", .string cp.policyHash),
      ("node_implementation_hash", .string cp.nodeImplementationHash), ("contract_hash", .string cp.contractHash),
      ("state", stateJson cp.state), ("pending_node", .string cp.pendingNode.text),
      ("event_cursor", jsonNat cp.eventCursor), ("steps", jsonNat cp.steps), ("tokens", jsonNat cp.tokens),
      ("cost_micros", jsonNat cp.costMicros)]

/-- A record. -/
def recordJson (r : ExecutionRecord) : Json :=
  .object
    [("execution_id", .string r.executionId), ("status_kind", .string r.statusKind),
      ("status_detail", .string r.statusDetail), ("steps", jsonNat r.steps), ("tokens", jsonNat r.tokens),
      ("cost_micros", jsonNat r.costMicros), ("state", stateJson r.state), ("events", .array (r.events.map eventJson)),
      ("last_checkpoint", jsonOption checkpointJson r.lastCheckpoint),
      ("pending_resume", jsonOption checkpointJson r.pendingResume), ("effect_cache", .object r.effectCache.toList),
      ("timer_scheduled", .bool r.timerScheduled), ("handoff_id", jsonOption .string r.handoffId)]

/-- The identity of a definition. -/
def packMetaJson (p : PackMetaV1) : Json :=
  .object
    [("pack_hash", .string p.packHash), ("policy_hash", .string p.policyHash), ("contract_hash", .string p.contractHash),
      ("graph_id", .string p.graphId), ("graph_hash", .string p.graphHash),
      ("implementation_id", .string p.implementationId), ("pack_id", jsonOption .string p.packId)]

/-- The counters of the budget. -/
def budgetJson (b : HostBudgetSnapshotV1) : Json :=
  .object
    [("tool_calls", jsonNat b.toolCalls), ("tool_units", jsonNat b.toolUnits),
      ("tool_duration_ms", jsonNat b.toolDurationMs), ("llm_calls", jsonNat b.llmCalls),
      ("retrieval_calls", jsonNat b.retrievalCalls), ("effect_rounds", jsonNat b.effectRounds),
      ("last_cycles_balance", jsonOption jsonNat b.lastCyclesBalance),
      ("cycles_spent_observed", jsonNat b.cyclesSpentObserved), ("knolo_cost_micros", jsonNat b.knoloCostMicros),
      ("knolo_tokens", jsonNat b.knoloTokens), ("knolo_steps", jsonNat b.knoloSteps)]

/-- The limits. -/
def limitsJson (l : RuntimeLimitsV1) : Json :=
  .object
    [("max_concurrent_executions", jsonNat l.maxConcurrentExecutions),
      ("max_events_per_execution", jsonNat l.maxEventsPerExecution),
      ("max_execution_id_len", jsonNat l.maxExecutionIdLen), ("max_state_bytes", jsonNat l.maxStateBytes),
      ("max_handoff_bytes", jsonNat l.maxHandoffBytes),
      ("max_execution_record_bytes", jsonNat l.maxExecutionRecordBytes),
      ("require_controller_for_runs", .bool l.requireControllerForRuns),
      ("allowed_callers", .array (l.allowedCallers.map .string)), ("min_cycles_reserve", jsonNat l.minCyclesReserve),
      ("version", jsonNat l.version)]

/-- An authority. -/
def authorityV1Json (a : AuthorityV1) : Json :=
  .object
    [("capabilities", .array (a.capabilities.toList.map .string)),
      ("namespaces", .array (a.namespaces.toList.map .string)), ("max_steps", jsonNat a.maxSteps),
      ("max_cost_micros", jsonNat a.maxCostMicros)]

/-- The record of a handoff. -/
def handoffJson (h : HandoffRecordV1) : Json :=
  .object
    [("version", jsonNat h.version), ("handoff_id", .string h.handoffId), ("execution_id", .string h.executionId),
      ("destination", .string h.destination), ("return_contract", .string h.returnContract),
      ("parent_authority", authorityV1Json h.parentAuthority), ("child_authority", authorityV1Json h.childAuthority),
      ("status", .string h.status), ("peer_canister", jsonOption .string h.peerCanister),
      ("message", .string h.message)]

/-! ### Documents that are read -/

/-- The text of a value, if it can be written. -/
def Format.text {α : Type} (f : Format α) (x : α) : Option String := (f.write x).toOption

/-- A value is written as a text, not empty, that is read as the value. -/
def Format.Keeps {α : Type} (f : Format α) (x : α) : Prop := ∃ t, f.write x = .ok t ∧ f.read t = .ok x ∧ t ≠ ""

/-- Each document of a snapshot can be written and read. -/
structure Readable (f : Formats) (s : StableEngineSnapshot) : Prop where
  packMeta : ∀ p, s.packMeta = some p → f.packMeta.Keeps p
  budget : f.budget.Keeps s.budget
  limits : f.limits.Keeps s.limits
  record : ∀ (k : String) (r : ExecutionRecord), s.executions[k]? = some r → f.record.Keeps r
  checkpoint : ∀ (k : String) (r : ExecutionRecord) (cp : CheckpointV1), s.executions[k]? = some r →
    r.lastCheckpoint = some cp → f.checkpoint.Keeps cp
  event : ∀ (k : String) (r : ExecutionRecord), s.executions[k]? = some r → ∀ ev ∈ r.events, f.event.Keeps ev
  handoff : ∀ (k : String) (h : HandoffRecordV1), s.handoffs[k]? = some h → f.handoff.Keeps h

theorem Format.Keeps.text {α : Type} {f : Format α} {x : α} (h : f.Keeps x) :
    ∃ t, f.write x = .ok t ∧ f.text x = some t ∧ (f.read t).toOption = some x ∧ t.isEmpty = false := by
  obtain ⟨t, hw, hr, hne⟩ := h
  refine ⟨t, hw, by simp [Format.text, hw, Except.toOption], by simp [hr, Except.toOption], ?_⟩
  rwa [Bool.eq_false_iff, ne_eq, String.isEmpty_iff]

theorem mem_valuesOf {α : Type} {m : Std.ExtTreeMap String α} {a : α} : a ∈ valuesOf m ↔ ∃ k : String, m[k]? = some a := by
  simp [valuesOf, Std.ExtTreeMap.mem_toList_iff_getElem?_eq_some]

/-! ### The documents of one snapshot -/

/-- The texts of documents; `float` writes a double. -/
def texts {α : Type} (float : UInt64 → String) (json : α → Json) (docs : List α) : List String :=
  docs.map fun x => (json x).text float

/-- Documents in JSON, read by their texts. -/
def Format.of {α : Type} (float : UInt64 → String) (json : α → Json) (docs : List α) : Format α where
  write x := .ok ((json x).text float)
  read t :=
    match docs.find? fun x => (json x).text float = t with
    | some x => .ok x
    | none => .error "expected value at line 1 column 1"

/-- A document is read by its text where the texts are different. -/
theorem Format.of_keeps {α : Type} {float : UInt64 → String} {json : α → Json} {docs : List α}
    (hdocs : (texts float json docs).Nodup ∧ "" ∉ texts float json docs) {x : α} (hx : x ∈ docs) :
    (Format.of float json docs).Keeps x := by
  obtain ⟨hnodup, hempty⟩ := hdocs
  refine ⟨(json x).text float, rfl, ?_, fun h => hempty (h ▸ List.mem_map_of_mem hx)⟩
  have hfind : docs.find? (fun y => (json y).text float = (json x).text float) = some x := by
    cases hy : docs.find? fun y => (json y).text float = (json x).text float with
    | none => exact absurd (decide_eq_true rfl) (List.find?_eq_none.mp hy x hx)
    | some y =>
      have hsame : (json y).text float = (json x).text float := by simpa using List.find?_some hy
      rw [List.inj_on_of_nodup_map hnodup (List.mem_of_find?_eq_some hy) hx hsame]
  simp [Format.of, hfind]

/-- The text layer of the documents of a snapshot. -/
def StableEngineSnapshot.documents (s : StableEngineSnapshot) (float : UInt64 → String) : Formats where
  packMeta := .of float packMetaJson s.packMeta.toList
  budget := .of float budgetJson [s.budget]
  limits := .of float limitsJson [s.limits]
  record := .of float recordJson (valuesOf s.executions)
  checkpoint := .of float checkpointJson ((valuesOf s.executions).filterMap (·.lastCheckpoint))
  event := .of float eventJson ((valuesOf s.executions).flatMap (·.events))
  handoff := .of float handoffJson (valuesOf s.handoffs)

/-- The texts of the documents, kind by kind. -/
def StableEngineSnapshot.allTexts (s : StableEngineSnapshot) (float : UInt64 → String) : List (List String) :=
  [texts float packMetaJson s.packMeta.toList, texts float budgetJson [s.budget], texts float limitsJson [s.limits],
    texts float recordJson (valuesOf s.executions),
    texts float checkpointJson ((valuesOf s.executions).filterMap (·.lastCheckpoint)),
    texts float eventJson ((valuesOf s.executions).flatMap (·.events)), texts float handoffJson (valuesOf s.handoffs)]

/-- **A snapshot is read back from its documents** where those of a kind have different texts. -/
theorem documents_readable {s : StableEngineSnapshot} {float : UInt64 → String}
    (h : ∀ ts ∈ s.allTexts float, ts.Nodup ∧ "" ∉ ts) : Readable (s.documents float) s := by
  simp only [StableEngineSnapshot.allTexts, List.forall_mem_cons] at h
  obtain ⟨hmeta, hbudget, hlimits, hrecord, hcheckpoint, hevent, hhandoff, -⟩ := h
  exact {
    packMeta := fun p hp => Format.of_keeps hmeta (Option.mem_toList.mpr hp)
    budget := Format.of_keeps hbudget (List.mem_singleton_self _)
    limits := Format.of_keeps hlimits (List.mem_singleton_self _)
    record := fun k r hr => Format.of_keeps hrecord (mem_valuesOf.mpr ⟨k, hr⟩)
    checkpoint := fun k r cp hr hcp =>
      Format.of_keeps hcheckpoint (List.mem_filterMap.mpr ⟨r, mem_valuesOf.mpr ⟨k, hr⟩, hcp⟩)
    event := fun k r hr ev hev => Format.of_keeps hevent (List.mem_flatMap.mpr ⟨r, mem_valuesOf.mpr ⟨k, hr⟩, hev⟩)
    handoff := fun k h hh => Format.of_keeps hhandoff (mem_valuesOf.mpr ⟨k, hh⟩) }

end Knolo.Icp
