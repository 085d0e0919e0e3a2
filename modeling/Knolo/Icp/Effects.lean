import Knolo.Icp.Engine

/-!
# Effects of the host

`effects.rs` and `knowledge.rs` of `knolo-agent-icp`: how the host resolves what a suspended execution
waits for. A prompt of the language model and a search of the knowledge canister are calls of another
canister, and the message that makes one ends there; the reply is a message of its own.

* `resolveOneEffect` — up to the reply, or to the end where there is none to wait for.
* `finishEffect` — from the reply on.
-/

namespace Knolo.Icp

open Core Library Library.Fallible

/-! ### Retrieval -/

/-- A query of the knowledge. -/
structure RetrievalQueryV1 where
  version : ℕ
  text : String
  limit : ℕ

/-- Where evidence comes from. -/
structure EvidenceProvenanceV1 where
  sourceId : String
  locator : String
  contentHash : String

/-- A piece of evidence. -/
structure RetrievalEvidenceV1 where
  content : Json
  scoreMicros : ℕ
  provenance : EvidenceProvenanceV1

/-- What a query has found. -/
structure RetrievalResultV1 where
  version : ℕ
  evidence : List RetrievalEvidenceV1

/-- A hit of a knowledge canister. -/
structure KnowledgeHitDto where
  blockId : ℕ
  score : Float
  text : String
  source : Option String
  ns : Option String

/-- The result in JSON. -/
def RetrievalResultV1.json (r : RetrievalResultV1) : Json :=
  .object
    [("evidence", .array (r.evidence.map fun e =>
        .object
          [("content", e.content),
            ("provenance", .object
              [("content_hash", .string e.provenance.contentHash), ("locator", .string e.provenance.locator),
                ("source_id", .string e.provenance.sourceId)]),
            ("score_micros", jsonU64 e.scoreMicros)])),
      ("version", jsonU64 r.version)]

/-- A score in millionths, from 0 to 1. -/
def scoreMicros (score : Float) : ℕ :=
  ((if score < 0 then 0 else if 1 < score then 1 else score) * 1000000).toUInt32.toNat

/-- A number of 64 bits in hexadecimal. -/
def hex16 (n : ℕ) : String := String.ofList ((List.range 16).map fun i => Json.hexDigit (n / 16 ^ (15 - i) % 16))

/-- The hits of a knowledge canister as a result. -/
def hitsToRetrieval (hits : List KnowledgeHitDto) : RetrievalResultV1 where
  version := 1
  evidence := hits.map fun h =>
    { content := .object
        [("block_id", jsonU64 h.blockId), ("namespace", h.ns.elim .null .string), ("text", .string h.text)]
      scoreMicros := scoreMicros h.score
      provenance :=
        { sourceId := h.source.getD "knowledge", locator := s!"block:{h.blockId}", contentHash := hex16 h.blockId } }

/-- What is found without a knowledge canister. -/
def mockRetrieve (query : RetrievalQueryV1) : RetrievalResultV1 where
  version := 1
  evidence :=
    [{ content := .object [("text", .string s!"mock hit for: {query.text}")], scoreMicros := 900000
       provenance := { sourceId := "mock", locator := "mock:0", contentHash := "mock" } }]

/-- `str::trim`. -/
def trim (text : String) : String :=
  String.ofList ((text.toList.dropWhile isWhitespace).reverse.dropWhile isWhitespace).reverse

/-- `parse_principal`; `principal` is `Principal::from_text`. -/
def parsePrincipal (principal : String → Except String String) (text : String) : Except CoreError String :=
  (principal (trim text)).mapError fun e => .host s!"invalid knowledge principal: {e}"

/-! ### Resolving an effect -/

/-- What another canister is asked. -/
inductive HostRequest where
  | prompt (text : String)
  | search (canister : String) (text : String) (topK : ℕ)
  deriving DecidableEq

/-- What it replies. -/
inductive HostReply where
  | prompted (text : String)
  | found (hits : List KnowledgeHitDto)
  | rejected (message : String)

/-- How far an effect is resolved. -/
inductive Resolution where
  /-- It is, and there is the record that came of it; or there was none to resolve. -/
  | settled (record : Option ExecutionRecord)
  /-- Another canister is asked. -/
  | awaiting (request : HostRequest)

/-- The balance of cycles around an effect, where the host has it. -/
structure CycleReading where
  before : Option ℕ
  after : Option ℕ

variable (codec : Codec) (principal : String → Except String String)

/-- Observe the cycles spent. -/
def noteCycles (reading : CycleReading) : EngineM Unit :=
  match reading.before, reading.after with
  | some b, some a => Method.modify fun e => { e with budget := e.budget.noteCyclesDelta b a }
  | _, _ => pure ()

/-- Resume with what a retrieval has found. -/
def finishRetrieval (executionId : String) (result : RetrievalResultV1) : EngineM ExecutionRecord := do
  Method.modify fun e => { e with budget := e.budget.noteRetrieval 5 }
  injectEffectAndResume codec executionId "retrieve" result.json

/-- The query of a suspended execution. -/
def ExecutionRecord.query (r : ExecutionRecord) : RetrievalQueryV1 where
  version := 1
  text := ((r.state.value.pointer "/query").bind Json.asStr).getD "alpha"
  limit := ((r.state.value.pointer "/limit").bind Json.asU64).getD 5 % 2 ^ 32

/-- The part of `resolve_one_effect` before the cycles are observed. -/
def resolveEffect (executionId : String) : EngineM Resolution := do
  let r ← existing executionId
  if r.statusKind ≠ "suspended" then return .settled none
  Method.modify fun e => { e with budget := e.budget.noteEffectRound }
  match r.statusDetail with
  | "await_llm" =>
    return .awaiting (.prompt
      (((r.state.value.pointer "/prompt").bind Json.asStr).getD "Say hello from Knolo ICP agent."))
  | "await_tool" =>
    let value ← runToolForPending codec executionId
    let record ← injectEffectAndResume codec executionId "tool" value
    return .settled (some record)
  | "await_retrieve" =>
    let e ← Method.read
    match e.definition.bind (·.bundle.host.knowledgeCanister) with
    | some p =>
      if p.isEmpty then
        let record ← finishRetrieval codec executionId (mockRetrieve r.query)
        return .settled (some record)
      else
        let canister ← Method.ofExcept (parsePrincipal principal p)
        return .awaiting (.search canister r.query.text (min (max r.query.limit 1) 50))
    | none =>
      let record ← finishRetrieval codec executionId (mockRetrieve r.query)
      return .settled (some record)
  | "step_slice" =>
    let record ← step codec executionId 1
    return .settled (some record)
  | _ => return .settled none

/-- Resolve an effect, up to the reply of another canister if it needs one. -/
def resolveOneEffect (executionId : String) (reading : CycleReading) : EngineM Resolution := do
  match ← resolveEffect codec principal executionId with
  | .settled (some record) =>
    noteCycles reading
    return .settled (some record)
  | resolution => return resolution

/-- The part after the reply, before the cycles are observed. -/
def finishReply (executionId : String) : HostReply → EngineM ExecutionRecord
  | .prompted text => do
    let tokens := max (text.utf8ByteSize / 4) 1
    let cost := min (tokens * 10) u64Max
    Method.modify fun e => { e with budget := e.budget.noteLlm tokens cost }
    injectEffectAndResume codec executionId "llm"
      (.object
        [("cost_micros", jsonU64 cost), ("provider", .string "ic-llm"), ("text", .string text),
          ("tokens", jsonU64 tokens)])
  | .found hits => finishRetrieval codec executionId (hitsToRetrieval hits)
  | .rejected message => Method.ofExcept (.error (.host s!"knowledge search failed {message}"))

/-- The rest of `resolve_one_effect`, from the reply on. -/
def finishEffect (executionId : String) (reply : HostReply) (reading : CycleReading) : EngineM ExecutionRecord := do
  let record ← finishReply codec executionId reply
  noteCycles reading
  return record

end Knolo.Icp
