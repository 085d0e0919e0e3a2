import Knolo.Icp.Engine
import Knolo.Library.Scatter

/-!
# Stable memory

`stable_store.rs` of `knolo-agent-icp`: the cells and maps of texts that outlive an upgrade of the
canister, and how a snapshot of the engine is written to them and read back. The events of an
execution are spread over a map of their own, under its id and their sequence numbers.

The text layer is a parameter, `Formats`. Cells and maps of the stable memory are values and
ordered maps.

* `persistSnapshot`, `loadSnapshot` — writing a snapshot, and reading one.
* `AgentEngine.snapshot` — what is kept of an engine.
-/

namespace Knolo.Icp

open Core Library Library.Fallible

/-! ### Formats -/

/-- How values of a type are written as text and read back. -/
structure Format (α : Type) where
  /-- `serde_json::to_string`. -/
  write : α → Except String String
  /-- `serde_json::from_str`. -/
  read : String → Except String α

/-- The text of each kind of document that is kept. -/
structure Formats where
  packMeta : Format PackMetaV1
  budget : Format HostBudgetSnapshotV1
  limits : Format RuntimeLimitsV1
  record : Format ExecutionRecord
  checkpoint : Format CheckpointV1
  event : Format ExecutionEventV1
  handoff : Format HandoffRecordV1

/-! ### Snapshots -/

/-- What is kept of an engine. -/
structure StableEngineSnapshot where
  schemaVersion : ℕ
  definitionJson : Option String
  packMeta : Option PackMetaV1
  executions : Std.ExtTreeMap String ExecutionRecord
  budget : HostBudgetSnapshotV1
  limits : RuntimeLimitsV1
  handoffs : Std.ExtTreeMap String HandoffRecordV1

/-- The schema of the stable memory. -/
def stableSchemaVersion : ℕ := 1

/-- The snapshot of an engine. -/
def AgentEngine.snapshot (e : AgentEngine) : StableEngineSnapshot where
  schemaVersion := stableSchemaVersion
  definitionJson := e.definition.map (·.definitionJson)
  packMeta := e.packMeta
  executions := e.executions
  budget := e.budget.snapshot
  limits := e.limits
  handoffs := e.handoffs

/-- The stable memory. -/
structure StableMemory where
  schema : ℕ
  definition : String
  packMeta : String
  executions : Std.ExtTreeMap String String
  checkpoints : Std.ExtTreeMap String String
  events : Std.ExtTreeMap String String
  budget : String
  limits : String
  handoffs : Std.ExtTreeMap String String

/-- The stable memory of a new canister. -/
def StableMemory.blank : StableMemory where
  schema := 0
  definition := ""
  packMeta := ""
  executions := ∅
  checkpoints := ∅
  events := ∅
  budget := ""
  limits := ""
  handoffs := ∅

/-- An operation on the stable memory. -/
abbrev StableM := Method StableMemory Empty String Empty

/-! ### Keys of events -/

/-- What the keys of an execution's events begin with. -/
def stem (executionId : String) : String := executionId ++ "\x1f"

/-- `event_key`. -/
def eventKey (executionId : String) (sequence : ℕ) : String := stem executionId ++ toString sequence

/-- `key.starts_with(&format!("{id}\u{1f}"))`. -/
def hasStem (executionId key : String) : Bool := (stem executionId).toList.isPrefixOf key.toList

/-! ### Writing -/

variable (f : Formats)

/-- Stamp the schema version, unless it is newer. -/
def ensureSchema : StableM Unit := do
  let m ← Method.read
  if m.schema = 0 then Method.modify fun m => { m with schema := stableSchemaVersion }
  else if m.schema = stableSchemaVersion then pure ()
  else if stableSchemaVersion < m.schema then
    Method.ofExcept (.error
      s!"stable schema version {m.schema} is newer than supported {stableSchemaVersion}")
  else Method.modify fun m => { m with schema := stableSchemaVersion }

/-- Keep the text of the definition. -/
def persistDefinition (definitionJson : Option String) : StableM Unit :=
  Method.modify fun m => { m with definition := definitionJson.getD "" }

/-- Keep the identity of the definition. -/
def persistPackMeta (packMeta : Option PackMetaV1) : StableM Unit := do
  let json ← Method.ofExcept (match packMeta with
    | some p => f.packMeta.write p
    | none => .ok "")
  Method.modify fun m => { m with packMeta := json }

/-- Keep the counters of the budget. -/
def persistBudget (budget : HostBudgetSnapshotV1) : StableM Unit := do
  let json ← Method.ofExcept (f.budget.write budget)
  Method.modify fun m => { m with budget := json }

/-- Keep the limits. -/
def persistLimits (limits : RuntimeLimitsV1) : StableM Unit := do
  let json ← Method.ofExcept (f.limits.write limits)
  Method.modify fun m => { m with limits := json }

/-- Drop the events of an execution and write those of its record. -/
def rewriteEvents (events : Std.ExtTreeMap String String) (record : ExecutionRecord) :
    Std.ExtTreeMap String String :=
  scatter (fun ev : ExecutionEventV1 => eventKey record.executionId ev.sequence)
    (fun ev => (f.event.write ev).toOption) record.events (removeWhere (hasStem record.executionId) events)

/-- Keep the checkpoint of a record. -/
def persistCheckpoint (record : ExecutionRecord) : StableM Unit :=
  match record.lastCheckpoint with
  | some cp => do
    let json ← Method.ofExcept (f.checkpoint.write cp)
    Method.modify fun m => { m with checkpoints := m.checkpoints.insert record.executionId json }
  | none => pure ()

/-- Keep a record, its checkpoint and its events. -/
def persistExecution (record : ExecutionRecord) : StableM Unit := do
  let json ← Method.ofExcept (f.record.write record)
  Method.modify fun m => { m with executions := m.executions.insert record.executionId json }
  persistCheckpoint f record
  Method.modify fun m => { m with events := rewriteEvents f m.events record }

/-- Drop all executions. -/
def clearAllExecutions : StableM Unit :=
  Method.modify fun m =>
    { m with
      executions := removeWhere (fun _ => true) m.executions
      checkpoints := removeWhere (fun _ => true) m.checkpoints
      events := removeWhere (fun _ => true) m.events }

/-- Keep the record of a handoff. -/
def persistHandoff (record : HandoffRecordV1) : StableM Unit := do
  let json ← Method.ofExcept (f.handoff.write record)
  Method.modify fun m => { m with handoffs := m.handoffs.insert record.handoffId json }

/-- Drop all handoffs. -/
def clearHandoffs : StableM Unit :=
  Method.modify fun m => { m with handoffs := removeWhere (fun _ => true) m.handoffs }

/-- The values of a map, in the order of their keys. -/
def valuesOf {α : Type} (m : Std.ExtTreeMap String α) : List α := m.toList.map (·.2)

/-- Keep a snapshot. -/
def persistSnapshot (snap : StableEngineSnapshot) : StableM Unit := do
  ensureSchema
  Method.modify fun m => { m with schema := stableSchemaVersion }
  persistDefinition snap.definitionJson
  persistPackMeta f snap.packMeta
  persistBudget f snap.budget
  persistLimits f snap.limits
  clearAllExecutions
  (valuesOf snap.executions).forM (persistExecution f)
  clearHandoffs
  (valuesOf snap.handoffs).forM (persistHandoff f)

/-! ### Reading -/

/-- The value of a cell, or a default if it is empty or cannot be read. -/
def readCell {α : Type} (format : Format α) (text : String) (default : α) : α :=
  if text.isEmpty then default else (format.read text).toOption.getD default

/-- The events of an execution, by sequence number. -/
def loadEvents (m : StableMemory) (executionId : String) : List ExecutionEventV1 :=
  gather (hasStem executionId) (fun text => (f.event.read text).toOption) (·.sequence) m.events

/-- A record with the events and the checkpoint that are kept apart from it. -/
def loadRecord (m : StableMemory) (executionId json : String) : Option ExecutionRecord :=
  (f.record.read json).toOption.map fun record =>
    let events := loadEvents f m executionId
    let record := if events.isEmpty then record else { record with events }
    match (m.checkpoints[executionId]?).bind fun text => (f.checkpoint.read text).toOption with
    | some cp => { record with lastCheckpoint := some cp }
    | none => record

/-- Read a snapshot. -/
def loadSnapshot : StableM StableEngineSnapshot := do
  ensureSchema
  let m ← Method.read
  return {
    schemaVersion := m.schema
    definitionJson := if m.definition.isEmpty then none else some m.definition
    packMeta := if m.packMeta.isEmpty then none else (f.packMeta.read m.packMeta).toOption
    executions := m.executions.filterMap (loadRecord f m)
    budget := readCell f.budget m.budget HostBudgetTracker.empty.snapshot
    limits := readCell f.limits m.limits {}
    handoffs := m.handoffs.filterMap fun _ json => (f.handoff.read json).toOption }

/-! ### Restoring an engine -/

/-- `restore_from_stable`, from the snapshot that was loaded. -/
def restoreFromStable (codec : Codec) (snap : StableEngineSnapshot) : EngineM Unit := do
  Method.modify fun _ =>
    { AgentEngine.default with
      limits := snap.limits, budget := { AgentEngine.default.budget with snapshot := snap.budget }
      handoffs := snap.handoffs, packMeta := snap.packMeta }
  match snap.definitionJson with
  | some json => do
    let _ ← (loadDefinition codec json).mapError fun err => .host s!"reload definition: {codec.display err}"
  | none => pure ()
  Method.modify fun e => { e with executions := snap.executions }
  Method.modify fun e =>
    { e with store := e.store.saveAll ((valuesOf e.executions).filterMap (·.lastCheckpoint)) }

end Knolo.Icp
