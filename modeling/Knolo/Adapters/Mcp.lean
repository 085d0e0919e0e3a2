import Knolo.Adapters.Tools
import Knolo.Skills.Definition

/-!
# The tool server

`packages/agents/src/adapters/mcp.ts`: tools and resources of a harness, served by JSON-RPC. Requests may overlap;
a request calls at most one handler, or reads one resource.

The handlers and the readers that a bridge is given are the host. Those of the bridge itself are part of the code.

* `mcp_served` — what the requests of a server call, whatever order they take their steps in, and what is answered.
-/

namespace Knolo.Adapters

open Script Harness Skills Library Library.Fallible Library.StableSort Library.Prog

/-! ### Tools and resources -/

/-- `KNOLO_MCP_TOOLS`. -/
def retrieveName : String := "knolo.retrieve"
def resolveSkillsName : String := "knolo.resolve_skills"
def evaluateName : String := "knolo.evaluate"

/-- A tool that is listed. -/
structure McpToolDefinitionV1 where
  name : String
  description : String
  inputSchema : JsValue

/-- A handler: one of the bridge, or one that it is given. -/
inductive McpToolHandler where
  | retrieve
  | resolveSkills
  | evaluate
  | given

/-- What the bridge knows of a run. -/
structure HarnessContextV1 where
  task : TaskV1
  objective : String
  /-- The task, as a value. -/
  taskValue : JsValue
  evidence : List JsValue
  skills : List JsValue
  /-- The envelope, as a value. -/
  envelopeValue : JsValue

/-- What a resource is read from: a value, or a function that the bridge is given. -/
inductive ResourceReader where
  | value (v : JsValue)
  | given

/-- What a bridge is made of. -/
structure KnoloMcpBridgeOptions where
  ctx : Option HarnessContextV1 := none
  /-- Is there a handler for the tool? -/
  retrieve : Bool := false
  resolveSkills : Bool := false
  evaluate : Bool := false
  resources : List (String × ResourceReader) := []
  extraTools : List McpToolDefinitionV1 := []
  /-- The names of further handlers, in the order of their enumeration. -/
  extraHandlers : Option (List String) := none
  serverName : Option String := none
  serverVersion : Option String := none

/-- A server. -/
structure McpToolServer where
  ctx : Option HarnessContextV1
  tools : List (McpToolDefinitionV1 × McpToolHandler)
  readers : List (String × ResourceReader)
  name : String
  version : String

/-- What every object has without having been given it. -/
def objectPrototype : List String :=
  ["__defineGetter__", "__defineSetter__", "__lookupGetter__", "__lookupSetter__", "__proto__", "constructor",
    "hasOwnProperty", "isPrototypeOf", "propertyIsEnumerable", "toLocaleString", "toString", "valueOf"]

/-- Is there a handler under the name? -/
def KnoloMcpBridgeOptions.handles (options : KnoloMcpBridgeOptions) (name : String) : Bool :=
  options.extraHandlers.any fun names => name ∈ names || name ∈ objectPrototype

/-- The schema of an object with a query. -/
def querySchema (description : String) : JsValue :=
  .object [("type", .string "object"), ("properties", .object [("query", .object [
    ("type", .string "string"), ("description", .string description)])])]

/-- `EVALUATE_SCHEMA`. -/
def evaluateSchema : JsValue := .object [
  ("type", .string "object"),
  ("required", .array [.string "output"]),
  ("properties", .object [
    ("output", .object [("description", .string "Proposed agent output to score against the frozen task")]),
    ("status", .object [
      ("type", .string "string"),
      ("enum", .array [.string "succeeded", .string "partial", .string "failed", .string "suspended"])]),
    ("toolCalls", .object [("type", .string "array"), ("items", .object [("type", .string "string")])])])]

/-- The tools of every bridge. -/
def knoloTools (options : KnoloMcpBridgeOptions) : List (McpToolDefinitionV1 × McpToolHandler) := [
  (⟨retrieveName, "Retrieve compiled Knolo evidence for the current task.",
      querySchema "Lexical query over compiled evidence"⟩, if options.retrieve then .given else .retrieve),
  (⟨resolveSkillsName, "Return selected Knolo skills for the current task.",
      querySchema "Optional filter over selected skills"⟩, if options.resolveSkills then .given else .resolveSkills),
  (⟨evaluateName, "Run deterministic Knolo evaluation against a proposed output.", evaluateSchema⟩,
    if options.evaluate then .given else .evaluate)]

/-- The names of tools. -/
def toolNames (tools : List (McpToolDefinitionV1 × McpToolHandler)) : List String := tools.map fun t => t.1.name

/-- A further tool is registered. -/
def addExtra (options : KnoloMcpBridgeOptions) (tools : List (McpToolDefinitionV1 × McpToolHandler))
    (extra : McpToolDefinitionV1) : Except String (List (McpToolDefinitionV1 × McpToolHandler)) := do
  ensure (options.handles extra.name = true) s!"mcp extra tool is missing a handler: {extra.name}"
  ensure (extra.name ∉ toolNames tools) s!"mcp tool is already registered: {extra.name}"
  return tools ++ [(extra, .given)]

/-- The resources of every bridge. -/
def knoloReaders (ctx : Option HarnessContextV1) : List (String × ResourceReader) := [
  ("knolo://task", .value (ctx.elim .null (·.taskValue))),
  ("knolo://context", .value (ctx.elim .null (·.envelopeValue))),
  ("knolo://skills", .value (.array (ctx.elim [] (·.skills))))]

/-- `knoloMcpBridge`. -/
def knoloMcpBridge (options : KnoloMcpBridgeOptions) : Except String McpToolServer := do
  let tools ← options.extraTools.foldlM (addExtra options) (knoloTools options)
  (options.extraHandlers.getD []).forM fun name =>
    ensure (name ∈ toolNames tools) s!"mcp extra handler has no tool definition: {name}"
  return {
    ctx := options.ctx
    tools := tools
    readers := options.resources.foldl (fun readers r => setProperty r.1 r.2 readers) (knoloReaders options.ctx)
    name := options.serverName.getD "knolo-mcp-bridge"
    version := options.serverVersion.getD "1" }

/-! ### Handlers of the bridge -/

mutual

/-- A value after `JSON.stringify` and `JSON.parse`. -/
def jsonCopy : JsValue → JsValue
  | .number (.infinite _) => .null
  | .number .negZero => .number (.finite 0)
  | .array items => .array (jsonItems items)
  | .object ps => .object (Script.ownProperties (jsonProperties ps))
  | v => v

/-- The same of items. -/
def jsonItems : List JsValue → List JsValue
  | [] => []
  | v :: vs => jsonCopy v :: jsonItems vs

/-- The same of properties. -/
def jsonProperties : List (String × JsValue) → List (String × JsValue)
  | [] => []
  | (k, v) :: ps => (k, jsonCopy v) :: jsonProperties ps

end

/-- `record`. -/
def record (v : Option JsValue) : List (String × JsValue) := (v.bind asRecord).getD []

/-- A property that is a text. -/
def textProperty (v : Option JsValue) (key : String) : Option String := ((record v).lookup key).bind asText

variable (p : Platform)

/-- A value as a text. -/
def outputText (v : JsValue) : String := (stringifyOutput p.toLanguage (some v)).getD ""

/-- Does the text of a value have this in it, whatever the case? -/
def textIncludes (needle : String) (v : JsValue) : Bool := includes (p.toLowerCase (outputText p v)) needle

/-- `defaultRetrieve`. -/
def defaultRetrieve (args : JsValue) (ctx : Option HarnessContextV1) : Except String JsValue :=
  match ctx with
  | none => .error "knolo.retrieve requires a harness context"
  | some ctx =>
    let query := (textProperty (some args) "query").getD ctx.objective
    let evidence := ctx.evidence.filter (textIncludes p (p.toLowerCase query))
    .ok (.object [("query", .string query), ("evidence", .array (if evidence.isEmpty then ctx.evidence else evidence))])

/-- `defaultResolveSkills`. -/
def defaultResolveSkills (args : JsValue) (ctx : Option HarnessContextV1) : Except String JsValue :=
  match ctx with
  | none => .error "knolo.resolve_skills requires a harness context"
  | some ctx =>
    let query := p.toLowerCase ((textProperty (some args) "query").getD "")
    .ok (.object [("skills", .array (if query.isEmpty then ctx.skills else ctx.skills.filter (textIncludes p query)))])

/-- `parseStatus`. -/
def parseStatus (v : Option JsValue) : InvocationStatusV1 :=
  match v.bind asText with
  | some "partial" => .partialResult
  | some "failed" => .failed
  | some "suspended" => .suspended
  | _ => .succeeded

/-- The text of a phase. -/
def phaseText : EvaluationPhaseV1 → String
  | .contract => "contract"
  | .artifact => "artifact"
  | .task => "task"
  | .judge => "judge"

/-- A receipt without a judge, as a value. -/
def receiptValue (r : EvaluationReceiptV1) : JsValue := .object [
  ("status", .string r.status.text),
  ("successCriteriaMatched", texts r.successCriteriaMatched),
  ("prohibitedViolations", texts r.prohibitedViolations),
  ("passed", .bool r.passed),
  ("checks", .array (r.checks.map fun c => .object [
    ("phase", .string (phaseText c.phase)), ("id", .string c.id), ("passed", .bool c.passed),
    ("detail", .string c.detail)])),
  ("judge", .null)]

/-- `defaultEvaluate`. -/
def defaultEvaluate (args : JsValue) (ctx : Option HarnessContextV1) : Except String JsValue :=
  match ctx with
  | none => .error "knolo.evaluate requires a harness context"
  | some ctx =>
    let body := record (some args)
    match body.lookup "output" with
    | none => .error "invalid params: knolo.evaluate requires output"
    | some output => do
      let toolCalls := (((body.lookup "toolCalls").bind asArray).getD []).map (textOf p.toLanguage)
      let receipt ← evaluateInvocation p.toLanguage ctx.task (parseStatus (body.lookup "status")) (some output) toolCalls
      return receiptValue receipt

/-! ### Calls -/

/-- What a request asks of others. -/
inductive McpCall where
  /-- A handler that the bridge was given, for a tool. -/
  | handler (name : String) (args : JsValue)
  /-- A function that the bridge was given, for a resource. -/
  | read (uri : String)

/-- What is answered: a copy of the value, or what is thrown. -/
abbrev McpCall.Answer : McpCall → Type := fun _ => Except String JsValue

instance (c : McpCall) : Nonempty c.Answer := ⟨.ok .null⟩

/-- A part of a request. It does not throw: what is thrown is a value of it. -/
abbrev McpM := Prog McpCall McpCall.Answer Empty

/-- A handler is run. -/
def McpToolHandler.run (handler : McpToolHandler) (name : String) (args : JsValue) (bound : Option HarnessContextV1) :
    McpM (Except String JsValue) :=
  match handler with
  | .retrieve => pure ((defaultRetrieve p args bound).map jsonCopy)
  | .resolveSkills => pure ((defaultResolveSkills p args bound).map jsonCopy)
  | .evaluate => pure ((defaultEvaluate p args bound).map jsonCopy)
  | .given => Prog.ask (McpCall.handler name args)

/-- What a call of a tool comes to. -/
structure McpToolCallResultV1 where
  text : String
  isError : Bool := false
  structured : JsValue

/-- The same as a value. -/
def McpToolCallResultV1.value (r : McpToolCallResultV1) : JsValue := .object (
  ("content", .array [.object [("type", .string "text"), ("text", .string r.text)]]) ::
    ((if r.isError then [("isError", .bool true)] else []) ++ [("structured", r.structured)]))

/-- `errorResult`. -/
def errorResult (message : String) : McpToolCallResultV1 where
  text := message
  isError := true
  structured := .object [("error", .string message)]

/-- What the answer of a handler comes to: what it throws is told. -/
def resultOf : Except String JsValue → McpToolCallResultV1
  | .ok structured => { text := outputText p structured, structured := structured }
  | .error message => errorResult message

/-! ### Requests -/

/-- A request, as it comes in: a text, or a value that may be `undefined`. -/
inductive McpRequest where
  | text (s : String)
  | value (v : Option JsValue)

/-- A request that is one. -/
structure McpJsonRpcRequest where
  id : Option JsValue
  method : String
  params : Option JsValue

/-- A response. -/
inductive McpJsonRpcResponse where
  | success (id result : JsValue)
  | error (id : JsValue) (code : ℤ) (message : String)

/-- The id of a response. -/
def McpJsonRpcResponse.id : McpJsonRpcResponse → JsValue
  | .success id _ | .error id _ _ => id

/-- `parseRequest`. -/
def parseRequest (request : McpRequest) : Option McpJsonRpcRequest := do
  let value ← match request with
    | .text s => (p.parse s).toOption
    | .value v => v
  let ps ← asRecord value
  let method ← (ps.lookup "method").bind asText
  return { id := ps.lookup "id", method := method, params := ps.lookup "params" }

/-- The version of the protocol. -/
def protocolVersion : String := "2024-11-05"

/-- The code of a message. -/
def errorCode (message : String) : ℤ :=
  if "method not found".toList <+: message.toList then -32601
  else if "invalid params".toList <+: message.toList then -32602
  else -32603

/-- The response to a request with an id. -/
def respond (id : JsValue) : Except String JsValue → McpJsonRpcResponse
  | .ok result => .success id result
  | .error message => .error id (errorCode message) message

/-- The methods of the protocol. -/
def methods : List String :=
  ["initialize", "notifications/initialized", "ping", "tools/list", "tools/call", "resources/list", "resources/read"]

/-- The tool that a request calls, with its arguments. -/
def McpJsonRpcRequest.toolCall (r : McpJsonRpcRequest) : Option (String × JsValue) :=
  if r.method = "tools/call" then
    (nonEmpty (textProperty r.params "name")).map fun name => (name, ((record r.params).lookup "arguments").getD .null)
  else none

/-- The resource that a request reads. -/
def McpJsonRpcRequest.resourceRead (r : McpJsonRpcRequest) : Option String :=
  if r.method = "resources/read" then nonEmpty (textProperty r.params "uri") else none

/-! ### The server -/

namespace McpToolServer

variable (server : McpToolServer)

/-- The handler of a tool. -/
def handlerOf (name : String) : Option McpToolHandler := (server.tools.find? fun t => t.1.name = name).map Prod.snd

/-- The tools that the task prohibits. -/
def prohibitedTools : List String := server.ctx.elim [] fun ctx => prohibited ctx.task

/-- `callTool`, with the context of the bridge. -/
def callTool (name : String) (args : JsValue) : McpM McpToolCallResultV1 :=
  if name ∈ server.prohibitedTools then pure (errorResult s!"tool is prohibited by task policy: {name}")
  else
    match server.handlerOf name with
    | none => pure (errorResult s!"unknown mcp tool: {name}")
    | some handler => do return resultOf p (← handler.run p name args server.ctx)

/-- `listTools`, as a value. -/
def listTools : JsValue := .array (server.tools.map fun t => .object [
  ("name", .string t.1.name), ("description", .string t.1.description), ("inputSchema", t.1.inputSchema)])

/-- The name of a resource: its address without the scheme. -/
def resourceName (uri : String) : String :=
  if "knolo://".toList <+: uri.toList then String.ofList (uri.toList.drop 8) else uri

/-- `listResources`, as a value. -/
def listResources : JsValue :=
  .array ((sortBy (fun a b => compare (codeUnits a) (codeUnits b)) (server.readers.map Prod.fst)).map fun uri => .object [
    ("uri", .string uri), ("name", .string (resourceName uri)), ("mimeType", .string "application/json")])

/-- `readResource`. -/
def readResource (uri : String) : McpM (Except String JsValue) :=
  match server.readers.lookup uri with
  | none => pure (.error s!"unknown mcp resource: {uri}")
  | some (.value v) => pure (.ok (jsonCopy v))
  | some .given => Prog.ask (McpCall.read uri)

/-- What is answered to `initialize`. -/
def initialization : JsValue :=
  let unchanged : JsValue := .object [("listChanged", .bool false)]
  .object [
    ("protocolVersion", .string protocolVersion),
    ("capabilities", .object [("tools", unchanged), ("resources", unchanged)]),
    ("serverInfo", .object [("name", .string server.name), ("version", .string server.version)])]

/-- A resource that was read. -/
def contentsValue (uri : String) (contents : JsValue) : JsValue :=
  .object [("contents", .array [.object [
    ("uri", .string uri), ("mimeType", .string "application/json"), ("text", .string (outputText p contents))]])]

/-- `dispatch`. -/
def dispatch (method : String) (params : Option JsValue) : McpM (Except String JsValue) :=
  match method with
  | "initialize" => pure (.ok server.initialization)
  | "notifications/initialized" | "ping" => pure (.ok (.object []))
  | "tools/list" => pure (.ok (.object [("tools", server.listTools)]))
  | "tools/call" =>
    match nonEmpty (textProperty params "name") with
    | none => pure (.error "invalid params: tools/call requires name")
    | some name => do
      let result ← server.callTool p name (((record params).lookup "arguments").getD .null)
      return .ok result.value
  | "resources/list" => pure (.ok (.object [("resources", server.listResources)]))
  | "resources/read" =>
    match nonEmpty (textProperty params "uri") with
    | none => pure (.error "invalid params: resources/read requires uri")
    | some uri => do
      let contents ← server.readResource uri
      return contents.map (contentsValue p uri)
  | method => pure (.error s!"method not found: {method}")

/-- `handleMcpRequest`: a request without an id is a notification, and is not answered. -/
def handle (request : McpRequest) : McpM (Option McpJsonRpcResponse) :=
  match parseRequest p request with
  | none => pure (some (.error .null (-32600) "invalid request"))
  | some r => do
    let result ← server.dispatch p r.method r.params
    return r.id.map fun id => respond id result

/-! ### What a request does -/

/-- A tool may be called. -/
def MayCall (name : String) : Prop := name ∈ toolNames server.tools ∧ name ∉ server.prohibitedTools

variable {p server} {r : McpJsonRpcRequest}

/-- What a request comes to that calls nothing. -/
inductive Settled (p : Platform) (server : McpToolServer) (r : McpJsonRpcRequest) : Except String JsValue → Prop
  /-- What needs no handler is answered. -/
  | told {v : JsValue} : r.toolCall = none → Settled p server r (.ok v)
  /-- A tool that may not be called. -/
  | refused {name : String} {args : JsValue} {message : String} : r.toolCall = some (name, args) →
      ¬ MayCall server name → Settled p server r (.ok (errorResult message).value)
  /-- A tool of the bridge. -/
  | own {name : String} {args : JsValue} {answer : Except String JsValue} : r.toolCall = some (name, args) →
      MayCall server name → (∀ h, server.handlerOf name = some h → h ≠ .given) →
      Settled p server r (.ok (resultOf p answer).value)
  /-- A call that does not name its tool, or its resource. -/
  | unnamed {message : String} : r.method ∈ ["tools/call", "resources/read"] → r.toolCall = none →
      r.resourceRead = none → errorCode message = -32602 → Settled p server r (.error message)
  /-- A resource that there is not. -/
  | missing {uri : String} {message : String} : r.resourceRead = some uri → uri ∉ server.readers.map Prod.fst →
      errorCode message = -32603 → Settled p server r (.error message)
  /-- A method that there is not. -/
  | unknown {message : String} : r.method ∉ methods → errorCode message = -32601 → Settled p server r (.error message)

theorem handlerOf_isSome {name : String} : (server.handlerOf name).isSome = true ↔ name ∈ toolNames server.tools := by
  simp [handlerOf, toolNames, List.find?_isSome]

/-- The code of a message is told from its first characters. -/
theorem errorCode_append {start rest : String} (h : 16 ≤ start.toList.length) :
    errorCode (start ++ rest) = errorCode start := by
  have hstart : ∀ {cs : List Char}, cs.length ≤ 16 → (cs <+: start.toList ++ rest.toList ↔ cs <+: start.toList) :=
    fun hcs => ⟨fun hp => List.prefix_of_prefix_length_le hp (List.prefix_append _ _) (hcs.trans h),
      fun hp => hp.trans (List.prefix_append _ _)⟩
  have hmethod := @hstart "method not found".toList (by decide)
  have hparams := @hstart "invalid params".toList (by decide)
  simp only [errorCode, String.toList_append, hmethod, hparams]

/-- A request that calls a tool has the method for it. -/
theorem method_of_toolCall {call : String × JsValue} (h : r.toolCall = some call) : r.method = "tools/call" := by
  unfold McpJsonRpcRequest.toolCall at h
  split at h
  · assumption
  · cases h

/-- A resource is not read where a tool is called. -/
theorem toolCall_of_resourceRead {uri : String} (h : r.resourceRead = some uri) : r.toolCall = none := by
  unfold McpJsonRpcRequest.resourceRead at h
  split at h
  · rename_i hmethod
    rw [McpJsonRpcRequest.toolCall, hmethod, if_neg (by decide)]
  · cases h

/-- What a request does: it settles by itself, or calls the handler of its tool, or reads its resource. -/
inductive Does (p : Platform) (server : McpToolServer) (r : McpJsonRpcRequest) : McpM (Except String JsValue) → Prop
  | settles {x : Except String JsValue} : Settled p server r x → Does p server r (.ret x)
  | calls {name : String} {args : JsValue} : r.toolCall = some (name, args) → MayCall server name →
      server.handlerOf name = some .given →
      Does p server r (.call (.handler name args) fun answer => .ret (.ok (resultOf p answer).value))
  | reads {uri : String} : r.resourceRead = some uri → server.readers.lookup uri = some .given →
      Does p server r (.call (.read uri) fun answer => .ret (answer.map (contentsValue p uri)))

theorem callTool_does {name : String} {args : JsValue} (hcall : r.toolCall = some (name, args)) :
    Does p server r (server.callTool p name args >>= fun result => return .ok result.value) := by
  unfold callTool
  by_cases hpro : name ∈ server.prohibitedTools
  · rw [if_pos hpro]
    exact .settles (.refused hcall fun hmay => hmay.2 hpro)
  · rw [if_neg hpro]
    cases hh : server.handlerOf name with
    | none =>
      refine .settles (.refused hcall fun hmay => ?_)
      have hsome := handlerOf_isSome.mpr hmay.1
      rw [hh] at hsome
      cases hsome
    | some handler =>
      have hmay : MayCall server name := ⟨handlerOf_isSome.mp (by rw [hh]; rfl), hpro⟩
      have hown : ∀ answer : Except String JsValue, handler ≠ .given →
          Settled p server r (.ok (resultOf p answer).value) :=
        fun answer hne => .own hcall hmay fun h heq => Option.some.inj (hh.symm.trans heq) ▸ hne
      cases handler with
      | given => exact .calls hcall hmay hh
      | retrieve => exact .settles (hown _ (by simp))
      | resolveSkills => exact .settles (hown _ (by simp))
      | evaluate => exact .settles (hown _ (by simp))

theorem readResource_does {uri : String} (hread : r.resourceRead = some uri) :
    Does p server r (server.readResource uri >>= fun contents => return contents.map (contentsValue p uri)) := by
  unfold readResource
  cases hr : server.readers.lookup uri with
  | none =>
    refine .settles (.missing hread ?_ ?_)
    · intro hmem
      obtain ⟨e, he, rfl⟩ := List.mem_map.mp hmem
      simpa using List.lookup_eq_none_iff.mp hr e he
    · exact (errorCode_append (by decide)).trans (by decide)
  | some reader =>
    cases reader with
    | value v => exact .settles (.told (toolCall_of_resourceRead hread))
    | given => exact .reads hread hr

/-- **What a request does**, by its method. -/
theorem dispatch_does (p : Platform) (server : McpToolServer) (r : McpJsonRpcRequest) :
    Does p server r (server.dispatch p r.method r.params) := by
  obtain ⟨id, method, params⟩ := r
  simp only
  unfold dispatch
  split
  · exact .settles (.told rfl)
  · exact .settles (.told rfl)
  · exact .settles (.told rfl)
  · exact .settles (.told rfl)
  · split
    · rename_i hname
      exact .settles (.unnamed (by simp) (by simp [McpJsonRpcRequest.toolCall, hname])
        (by simp [McpJsonRpcRequest.resourceRead]) (by decide))
    · rename_i name hname
      exact callTool_does (by simp [McpJsonRpcRequest.toolCall, hname])
  · exact .settles (.told rfl)
  · split
    · rename_i huri
      exact .settles (.unnamed (by simp) (by simp [McpJsonRpcRequest.toolCall])
        (by simp [McpJsonRpcRequest.resourceRead, huri]) (by decide))
    · rename_i uri huri
      exact readResource_does (by simp [McpJsonRpcRequest.resourceRead, huri])
  · rename_i method h₁ h₂ h₃ h₄ h₅ h₆ h₇
    refine .settles (.unknown ?_ ?_)
    · simp only [methods, List.mem_cons, List.not_mem_nil, or_false, not_or]
      exact ⟨h₁, h₂, h₃, h₄, h₅, h₆, h₇⟩
    · exact (errorCode_append (by decide)).trans (by decide)

/-! ### What is answered -/

/-- What a response says of a request, after the calls `tr`. -/
structure Fair (p : Platform) (server : McpToolServer) (r : McpJsonRpcRequest)
    (tr : List (Answered McpCall McpCall.Answer)) (x : McpJsonRpcResponse) : Prop where
  /-- A call of a tool has a result. It is an error where the tool may not be called, and no handler was run; it is
  what the handler has answered where the bridge was given one. -/
  tool : ∀ name args, r.toolCall = some (name, args) → ∃ result : McpToolCallResultV1, x = .success x.id result.value ∧
    (¬ MayCall server name → result.isError = true ∧ tr = []) ∧
    (MayCall server name → server.handlerOf name = some .given →
      ∃ answer, tr = [⟨.handler name args, answer⟩] ∧ result = resultOf p answer)
  /-- An error has its reason: there is no such method, a name is missing, there is no such resource, or the function
  for it has thrown. -/
  error : ∀ id code message, x = .error id code message →
    (r.method ∉ methods ∧ code = -32601) ∨
    (r.method ∈ ["tools/call", "resources/read"] ∧ r.toolCall = none ∧ r.resourceRead = none ∧ code = -32602) ∨
    ∃ uri, r.resourceRead = some uri ∧
      ((uri ∉ server.readers.map Prod.fst ∧ code = -32603) ∨
        (⟨.read uri, .error message⟩ ∈ tr ∧ code = errorCode message))

theorem Settled.fair {x : Except String JsValue} (h : Settled p server r x) (id : JsValue) :
    Fair p server r [] (respond id x) := by
  cases h with
  | told hcall =>
    refine ⟨fun name args h => ?_, fun _ _ _ h => by cases h⟩
    rw [hcall] at h
    cases h
  | @refused name args message hcall hmay =>
    refine ⟨fun name' args' h => ?_, fun _ _ _ h => by cases h⟩
    obtain ⟨rfl, rfl⟩ := Prod.mk.inj (Option.some.inj (hcall.symm.trans h))
    exact ⟨_, rfl, fun _ => ⟨rfl, rfl⟩, fun h => absurd h hmay⟩
  | @own name args answer hcall hmay hown =>
    refine ⟨fun name' args' h => ?_, fun _ _ _ h => by cases h⟩
    obtain ⟨rfl, rfl⟩ := Prod.mk.inj (Option.some.inj (hcall.symm.trans h))
    exact ⟨_, rfl, fun h => absurd hmay h, fun _ h => absurd rfl (hown _ h)⟩
  | unnamed hmethod hcall hread hcode =>
    refine ⟨fun name args h => ?_, ?_⟩
    · rw [hcall] at h
      cases h
    · rintro _ _ _ ⟨⟩
      exact .inr (.inl ⟨hmethod, hcall, hread, hcode⟩)
  | @missing uri message hread hnone hcode =>
    refine ⟨fun name args h => ?_, ?_⟩
    · rw [toolCall_of_resourceRead hread] at h
      cases h
    · rintro _ _ _ ⟨⟩
      exact .inr (.inr ⟨uri, hread, .inl ⟨hnone, hcode⟩⟩)
  | unknown hmethod hcode =>
    refine ⟨fun name args h => ?_, ?_⟩
    · rw [method_of_toolCall h] at hmethod
      exact absurd hmethod (by decide)
    · rintro _ _ _ ⟨⟩
      exact .inl ⟨hmethod, hcode⟩

/-- What a request has done, as far as it has come, and what it has come to, if it has. -/
structure Served (p : Platform) (server : McpToolServer) (request : McpRequest)
    (tr : List (Answered McpCall McpCall.Answer)) (outcome : Option (Except Empty (Option McpJsonRpcResponse))) :
    Prop where
  /-- It makes at most one call. -/
  once : tr.length ≤ 1
  /-- A handler is run for a request that calls its tool, with these arguments, where the tool is listed and not
  prohibited. -/
  handled : ∀ name args answer, ⟨.handler name args, answer⟩ ∈ tr → ∃ r, parseRequest p request = some r ∧
    r.toolCall = some (name, args) ∧ MayCall server name
  /-- A resource is read for a request that reads it. -/
  read : ∀ uri answer, ⟨.read uri, answer⟩ ∈ tr → ∃ r, parseRequest p request = some r ∧ r.resourceRead = some uri ∧
    uri ∈ server.readers.map Prod.fst
  /-- It waits for nothing but such a call. -/
  waits : outcome = none → tr = [] ∧ ∃ r, parseRequest p request = some r ∧
    ((∃ call, r.toolCall = some call ∧ server.handlerOf call.1 = some .given) ∨
      ∃ uri, r.resourceRead = some uri ∧ server.readers.lookup uri = some .given)
  /-- What is no request is told so. -/
  invalid : parseRequest p request = none → outcome = some (.ok (some (.error .null (-32600) "invalid request")))
  /-- A request is answered under its id, once; a notification is not. -/
  answered : ∀ r response, parseRequest p request = some r → outcome = some (.ok response) →
    (r.id = none → response = none) ∧
      ∀ id, r.id = some id → ∃ x, response = some x ∧ x.id = id ∧ Fair p server r tr x

/-- The response to what a resource is read as. -/
theorem fair_read {uri : String} {answer : Except String JsValue} (h : r.resourceRead = some uri) (id : JsValue) :
    Fair p server r [⟨.read uri, answer⟩] (respond id (answer.map (contentsValue p uri))) := by
  refine ⟨fun name args hcall => ?_, fun id' code message heq => .inr (.inr ⟨uri, h, .inr ?_⟩)⟩
  · rw [toolCall_of_resourceRead h] at hcall
    cases hcall
  · cases answer with
    | error e =>
      cases heq
      exact ⟨.head _, rfl⟩
    | ok v => cases heq

/-- The response to what a tool is called for. -/
theorem fair_call {name : String} {args : JsValue} {answer : Except String JsValue} (h : r.toolCall = some (name, args))
    (hmay : MayCall server name) (id : JsValue) :
    Fair p server r [⟨.handler name args, answer⟩] (respond id (.ok (resultOf p answer).value)) := by
  refine ⟨fun name' args' hcall => ?_, fun _ _ _ heq => by cases heq⟩
  obtain ⟨rfl, rfl⟩ := Prod.mk.inj (Option.some.inj (h.symm.trans hcall))
  exact ⟨_, rfl, fun hnot => absurd hmay hnot, fun _ _ => ⟨answer, rfl, rfl⟩⟩

/-- A request that has settled by itself, or after its call. -/
theorem served_settled {request : McpRequest} {tr : List (Answered McpCall McpCall.Answer)}
    {result : Except String JsValue} (hr : parseRequest p request = some r) (once : tr.length ≤ 1)
    (handled : ∀ name args answer, ⟨.handler name args, answer⟩ ∈ tr → r.toolCall = some (name, args) ∧ MayCall server name)
    (read : ∀ uri answer, ⟨.read uri, answer⟩ ∈ tr → r.resourceRead = some uri ∧ uri ∈ server.readers.map Prod.fst)
    (fair : ∀ id, Fair p server r tr (respond id result)) :
    Served p server request tr (some (.ok (r.id.map fun id => respond id result))) where
  once := once
  handled name args answer h := ⟨r, hr, handled name args answer h⟩
  read uri answer h := ⟨r, hr, read uri answer h⟩
  waits h := by cases h
  invalid h := by
    rw [hr] at h
    cases h
  answered r' response hr' h := by
    obtain rfl := Option.some.inj (hr.symm.trans hr')
    cases h
    refine ⟨fun hid => by rw [hid]; rfl, fun id hid => ⟨respond id result, by rw [hid]; rfl, ?_, fair id⟩⟩
    cases result <;> rfl

/-- A request that waits for its call. -/
theorem served_waiting {request : McpRequest} (hr : parseRequest p request = some r)
    (h : (∃ call, r.toolCall = some call ∧ server.handlerOf call.1 = some .given) ∨
      ∃ uri, r.resourceRead = some uri ∧ server.readers.lookup uri = some .given) :
    Served p server request [] none where
  once := by simp
  handled := by simp
  read := by simp
  waits _ := ⟨rfl, r, hr, h⟩
  invalid h := by
    rw [hr] at h
    cases h
  answered _ _ _ h := by cases h

/-- What is no request is told so. -/
theorem served_invalid {request : McpRequest} (hr : parseRequest p request = none) :
    Served p server request [] (some (.ok (some (.error .null (-32600) "invalid request")))) where
  once := by simp
  handled := by simp
  read := by simp
  waits h := by cases h
  invalid _ := rfl
  answered r _ h := by
    rw [hr] at h
    cases h

/-- **A request is served**, as far as it has come. -/
theorem served_of_reaches {request : McpRequest} {tr : List (Answered McpCall McpCall.Answer)}
    {q : McpM (Option McpJsonRpcResponse)} (h : (server.handle p request).Reaches tr q) :
    Served p server request tr q.ended := by
  unfold handle at h
  cases hr : parseRequest p request with
  | none =>
    rw [hr] at h
    cases h
    exact served_invalid hr
  | some r =>
    rw [hr] at h
    have hdoes := dispatch_does p server r
    dsimp only at h
    generalize server.dispatch p r.method r.params = d at h hdoes
    cases hdoes with
    | settles hx =>
      cases h
      exact served_settled hr (by simp) (by simp) (by simp) hx.fair
    | calls hcall hmay hgiven =>
      rcases h with _ | h
      · exact served_waiting hr (.inl ⟨_, hcall, hgiven⟩)
      · cases h
        refine served_settled hr (by simp) (fun name args answer hmem => ?_) (by simp) (fair_call hcall hmay)
        cases List.mem_singleton.mp hmem
        exact ⟨hcall, hmay⟩
    | @reads uri hread hgiven =>
      rcases h with _ | h
      · exact served_waiting hr (.inr ⟨uri, hread, hgiven⟩)
      · cases h
        refine served_settled hr (by simp) (by simp) (fun uri' answer' hmem => ?_) (fair_read hread)
        cases List.mem_singleton.mp hmem
        obtain ⟨before, after, hreaders, -⟩ := List.lookup_eq_some_iff.mp hgiven
        exact ⟨hread, by rw [hreaders]; simp⟩

end McpToolServer

/-! ### A bridge -/

variable {options : KnoloMcpBridgeOptions} {server : McpToolServer}

theorem addExtra_eq_ok {tools tools' : List (McpToolDefinitionV1 × McpToolHandler)} {extra : McpToolDefinitionV1} :
    addExtra options tools extra = .ok tools' ↔
      options.handles extra.name = true ∧ extra.name ∉ toolNames tools ∧ tools' = tools ++ [(extra, .given)] := by
  constructor
  · intro h
    obtain ⟨_, hhandles, h⟩ := bind_eq_ok.mp h
    obtain ⟨_, hfresh, h⟩ := bind_eq_ok.mp h
    cases h
    exact ⟨ensure_eq_ok.mp hhandles, ensure_eq_ok.mp hfresh, rfl⟩
  · rintro ⟨hhandles, hfresh, rfl⟩
    rw [addExtra, ensure, if_pos hhandles, ensure, if_pos hfresh]
    rfl

theorem foldlM_addExtra {extras : List McpToolDefinitionV1} : ∀ {tools tools' : List (McpToolDefinitionV1 × McpToolHandler)},
    extras.foldlM (addExtra options) tools = .ok tools' → (toolNames tools).Nodup →
      (toolNames tools').Nodup ∧ tools' = tools ++ extras.map fun extra => (extra, .given) := by
  induction extras with
  | nil =>
    intro tools tools' h hnodup
    cases h
    exact ⟨hnodup, by simp⟩
  | cons extra extras ih =>
    intro tools tools' h hnodup
    obtain ⟨next, hnext, h⟩ := bind_eq_ok.mp h
    obtain ⟨-, hfresh, rfl⟩ := addExtra_eq_ok.mp hnext
    have hnext : (toolNames (tools ++ [(extra, .given)])).Nodup := by
      rw [toolNames, List.map_append, List.nodup_append_comm]
      exact List.nodup_cons.mpr ⟨hfresh, hnodup⟩
    obtain ⟨hdistinct, rfl⟩ := ih h hnext
    exact ⟨hdistinct, by simp⟩

/-- A bridge lists the tools of every bridge and those it is given, each under a name of its own, and each handler
that it is given is of one of them. -/
theorem bridge_tools (h : knoloMcpBridge options = .ok server) :
    (toolNames server.tools).Nodup ∧
      toolNames server.tools =
        [retrieveName, resolveSkillsName, evaluateName] ++ options.extraTools.map (·.name) ∧
      ∀ name ∈ options.extraHandlers.getD [], name ∈ toolNames server.tools := by
  obtain ⟨tools, htools, h⟩ := bind_eq_ok.mp h
  obtain ⟨_, hhandlers, h⟩ := bind_eq_ok.mp h
  cases h
  have hknolo : toolNames (knoloTools options) = [retrieveName, resolveSkillsName, evaluateName] := rfl
  obtain ⟨hnodup, heq⟩ := foldlM_addExtra htools (hknolo ▸ by decide)
  refine ⟨hnodup, ?_, fun name hname => ensure_eq_ok.mp (Traverse.forM_eq_ok.mp hhandlers name hname)⟩
  rw [heq, toolNames, List.map_append, ← toolNames, hknolo, List.map_map]
  rfl

/-- **The requests of a server are served.** Whatever handlers and readers a bridge is given and however they answer,
and in whatever order the requests take their steps: each is answered as if it were alone, once and under its id, or
not at all if it is a notification; what is run for it is a tool that the server lists and the task does not prohibit;
and what may not be run, or has thrown, comes back as a result, not as an error of the protocol. -/
theorem mcp_served (p : Platform) (hserver : knoloMcpBridge options = .ok server) {requests : ℕ → McpRequest} {S : Type}
    {answers : (c : McpCall) → S → c.Answer → S → Prop} {s₀ s : S} {log : List (ℕ × Answered McpCall McpCall.Answer)}
    (h : Shared (fun i => server.handle p (requests i)) answers s₀ log s) :
    ((toolNames server.tools).Nodup ∧
      toolNames server.tools = [retrieveName, resolveSkillsName, evaluateName] ++ options.extraTools.map (·.name) ∧
      ∀ name ∈ options.extraHandlers.getD [], name ∈ toolNames server.tools) ∧
    ∀ i, ∃ q, (server.handle p (requests i)).Reaches (own i log) q ∧
      McpToolServer.Served p server (requests i) (own i log) q.ended := by
  refine ⟨bridge_tools hserver, fun i => ?_⟩
  obtain ⟨q, hq⟩ := h.reaches i
  exact ⟨q, hq, McpToolServer.served_of_reaches hq⟩

/-- A bridge with a tool to pay and one to search, for a task that prohibits to pay. -/
def payingBridge : KnoloMcpBridgeOptions where
  ctx := some { task := unpaid, objective := "find", taskValue := .null, evidence := [], skills := [], envelopeValue := .null }
  extraTools := [⟨"pay", "Pay.", .null⟩, ⟨"search", "Search.", .null⟩]
  extraHandlers := some ["pay", "search"]

/-- Its server. -/
def payingServer : McpToolServer where
  ctx := payingBridge.ctx
  tools := knoloTools payingBridge ++ [(⟨"pay", "Pay.", .null⟩, .given), (⟨"search", "Search.", .null⟩, .given)]
  readers := knoloReaders payingBridge.ctx
  name := "knolo-mcp-bridge"
  version := "1"

/-- A call of a tool, under an id. -/
def callOf (id : ℕ) (name : String) : McpRequest :=
  .value (some (.object [("id", .number (.finite id)), ("method", .string "tools/call"),
    ("params", .object [("name", .string name)])]))

/-- The first request searches, the others pay. -/
def searchRequests (i : ℕ) : McpRequest := callOf i (searchThenPay i).1

/-- A platform. -/
def plainPlatform : Platform where
  toLowerCase s := s
  stringify _ := ""
  numberText _ := ""
  collate := compare
  parse _ := .error ""
  decode _ := ""
  sha256Hex _ := ""
  verifyImage _ := .error ""
  mountImage _ := .error ""

/-- Handlers that return nothing. -/
def silentHost : Host McpCall McpCall.Answer Unit := fun _ _ => (.ok .null, ())

/-- What they answer. -/
def SilentAnswers (c : McpCall) (s : Unit) (r : c.Answer) (s' : Unit) : Prop := silentHost c s = (r, s')

theorem silentHost_answers (c : McpCall) (s : Unit) : SilentAnswers c s (silentHost c s).1 (silentHost c s).2 := rfl

/-- What the first request and the second call. -/
def servedLog : List (ℕ × Answered McpCall McpCall.Answer) :=
  (payingServer.handle plainPlatform (searchRequests 0)).trace silentHost () |>.map fun a => (0, a)

/-- A search is run for the first request. -/
theorem mcp_served_search : own 0 servedLog = [⟨.handler "search" .null, .ok .null⟩] ∧
    ∀ i, ∃ q, (payingServer.handle plainPlatform (searchRequests i)).Reaches (own i servedLog) q ∧
      McpToolServer.Served plainPlatform payingServer (searchRequests i) (own i servedLog) q.ended := by
  have hserver : knoloMcpBridge payingBridge = .ok payingServer := rfl
  have hstart : Shared (fun i => payingServer.handle plainPlatform (searchRequests i)) SilentAnswers () [] () := .nil
  have hrun := hstart.run silentHost_answers (i := 0) .refl
  exact ⟨rfl, (mcp_served plainPlatform hserver hrun).2⟩

end Knolo.Adapters
