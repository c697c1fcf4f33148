import StandardTools.Audit.Chain
import StandardTools.Lib.Effect

/-!
# The tool-call handlers (`api/helpers.hpp`, `api/rest.cpp`, `api/a2a.cpp`, `api/mcp.cpp`)

Three transports accept the same request body, dispatch the tool call in it and
record it in the audit log. What a request meets from outside (what the
dispatcher does, the clock, the UUID generator, a storage that fails) is an
`Invocation`; what a handler does is the response it sets, or the exception that
leaves it, and the `Trace` it leaves behind.
-/

namespace StandardTools.Api
open StandardTools.Core StandardTools.Audit StandardTools.Lib

/-- A `std::exception`: of the domain, of the audit code, or any other. -/
inductive Thrown where
  | domain (e : Error)
  | audit (e : AuditError)
  | other (msg : String)
  deriving DecidableEq, Repr

def Thrown.what : Thrown → String
  | .domain e => e.what
  | .audit e => e.what
  | .other msg => msg

structure ToolCall where
  name : String
  arguments : Json

structure ToolCallRequest where
  tool : String
  name : String
  arguments : Json

instance : Inhabited ToolCallRequest := ⟨⟨"", "", .null⟩⟩

def toolCallFromRequest (req : ToolCallRequest) : ToolCall :=
  ⟨if req.tool = "" then req.name else req.tool, req.arguments⟩

/-! ### Decoding -/

def stringField (body : Json) (key : String) : Except Thrown String :=
  match body.field? key with
  | none => .ok ""
  | some value => value.getString.mapError .other

def argumentsField (body : Json) : Json :=
  match body.field? "arguments" with
  | none => .object []
  | some .null => .object []
  | some arguments => arguments

/-! ### What the process is made of -/

/-- The part of a storage in which the backends differ: what `Append` throws when
the database has that against the record, the table that content and the record
that request id. -/
structure Storage where
  appendFault : Option Fault → List DecisionRecord → String → Option Fault

def Storage.memory : Storage := ⟨fun _ _ _ => none⟩

def Storage.postgres : Storage where
  appendFault refusal content requestId :=
    insertFault (content.map (·.requestId)) refusal requestId

/-- `parse` is `json::parse` without exceptions, `hashBody` is
`std::hash<std::string>`, and `text` reads the output of `dump` as a string. -/
structure Server (Text : Type) extends Env Text where
  parse : String → Option Json
  text : Text → String
  hashBody : String → UInt64
  gitCommit : String
  packageVersion : String
  randomSeed : Int64
  storage : Storage

def isAscii (s : String) : Bool := s.toList.all fun c => c.toNat < 128

/-- What one call of `RecordAudit` meets: `refusal` is what a database has against
the record besides its id. A UUID is hexadecimal digits and dashes. -/
structure Moment where
  now : Date
  uuid : String
  latestFault : Option Fault
  refusal : Option Fault
  uuid_ascii : isAscii uuid

/-- A request and what it meets: `tried` in the `try` block, `caught` in the
`catch` block of the handler. -/
structure Invocation where
  body : String
  dispatch : ToolCall → Except Thrown Json
  tried : Moment
  caught : Moment

inductive Event where
  | dispatched (call : ToolCall) (result : Except Thrown Json)
  | handed (record : DecisionRecord)

/-- The audit log, if there is a writer, and what the handler did so far. -/
structure Trace where
  log : Option (List DecisionRecord)
  events : List Event

structure Response (Text : Type) where
  code : Int
  contentType : String
  body : Text

inductive Transport where
  | rest
  | a2a
  | mcp
  deriving DecidableEq, Repr

abbrev Handler (α : Type) := Effect Trace Thrown α

def Invocation.run (inv : Invocation) (call : ToolCall) : Handler Json := fun s =>
  (inv.dispatch call, { s with events := s.events ++ [.dispatched call (inv.dispatch call)] })

def domainErrorStatus : Thrown → Int
  | .domain (.invalidCommand _) => 400
  | .domain .invalidTicker => 400
  | .domain .invalidDateRange => 400
  | .domain .notFound => 404
  | .domain (.providerNotAvailable _) => 503
  | .domain (.dataQuality _) => 502
  | .domain (.internal _) => 500
  | _ => 500

namespace Server
variable {Text : Type} (server : Server Text)

def decodeToolCall (body : String) : Except Thrown ToolCallRequest :=
  match server.parse body with
  | none => .error (.other "invalid JSON body")
  | some json => do
    let tool ← stringField json "tool"
    let name ← stringField json "name"
    return ⟨tool, name, argumentsField json⟩

/-! ### Recording and answering -/

def auditRecord (moment : Moment) (requestId toolName : String) (input output : Json)
    (error : Option String) : DecisionRecord :=
  { requestId := if requestId = "" then moment.uuid else requestId
    recordedAt := 0
    toolName := toolName
    input := input
    inputHash := ""
    output := output
    outputHash := ""
    status := if error.isSome then "error" else "ok"
    error := error.getD ""
    gitCommitSha := server.gitCommit
    packageVersion := server.packageVersion
    randomSeed := server.randomSeed
    prevRecordHash := ""
    recordHash := "" }

def auditCall (content : List DecisionRecord) (moment : Moment) (record : DecisionRecord) :
    Call where
  record := record
  now := moment.now
  latestFault := moment.latestFault
  appendFault := server.storage.appendFault moment.refusal content record.requestId

/-- `Writer::Write` on the log behind the handlers, if there is one. -/
def write (moment : Moment) (record : DecisionRecord) : Handler Unit := fun s =>
  match s.log with
  | none => (.ok (), s)
  | some content =>
    let (content', outcome) := server.toEnv.write content (server.auditCall content moment record)
    (outcome.mapError .audit, ⟨some content', s.events ++ [.handed record]⟩)

def recordAudit (moment : Moment) (requestId toolName : String) (input output : Json)
    (error : Option String) : Handler Unit :=
  server.write moment (server.auditRecord moment requestId toolName input output error)

def jsonResponse (status : Int) (body : Json) : Except Thrown (Response Text) :=
  match server.dump body with
  | .ok text => .ok ⟨status, "application/json", text⟩
  | .error e => .error (.audit e)

def errorResponse (status : Int) (message : String) : Except Thrown (Response Text) :=
  server.jsonResponse status (.object [("code", .integer status), ("error", .string message)])

/-! ### The handlers -/

/-- `/api/v1/agent/dispatch`. -/
def restDispatch (inv : Invocation) : Handler (Response Text) :=
  Effect.attempt
    (do
      let tcr ← Effect.ofExcept (server.decodeToolCall inv.body)
      if tcr.tool = "" ∧ tcr.name = "" then
        Effect.ofExcept (server.errorResponse 400 "tool or name is required")
      else do
        let output ← inv.run (toolCallFromRequest tcr)
        server.recordAudit inv.tried "" (if tcr.tool = "" then tcr.name else tcr.tool) tcr.arguments
          output none
        Effect.ofExcept (server.jsonResponse 200 (.object [("output", output)])))
    fun e => Effect.ofExcept (server.errorResponse (domainErrorStatus e) e.what)

def taskId (body : String) : String := "task-" ++ toString (server.hashBody body).toNat

def taskJson (id status : String) (output error : Json) : Json :=
  .object
    [("id", .string id), ("result", .object [("error", error), ("output", output)]),
      ("status", .string status)]

/-- The `catch` block of `/a2a/tasks`; `tcr` is still the empty request when
`DecodeToolCall` threw. -/
def taskFailed (inv : Invocation) (tcr : ToolCallRequest) (e : Thrown) :
    Handler (Response Text) := do
  let id := server.taskId inv.body
  server.recordAudit inv.caught id (if tcr.tool = "" then tcr.name else tcr.tool) tcr.arguments .null
    (some e.what)
  Effect.ofExcept (server.jsonResponse 200 (taskJson id "failed" .null (.string e.what)))

/-- The `try` block of `/a2a/tasks` behind `DecodeToolCall`. -/
def runTask (inv : Invocation) (tcr : ToolCallRequest) : Handler (Response Text) :=
  if tcr.tool = "" ∧ tcr.name = "" then
    Effect.ofExcept (server.errorResponse 400 "tool or name is required")
  else do
    let id := server.taskId inv.body
    let output ← inv.run (toolCallFromRequest tcr)
    server.recordAudit inv.tried id (if tcr.tool = "" then tcr.name else tcr.tool) tcr.arguments
      output none
    Effect.ofExcept (server.jsonResponse 200 (taskJson id "completed" output .null))

/-- `/a2a/tasks`. -/
def a2aTasks (inv : Invocation) : Handler (Response Text) :=
  match server.decodeToolCall inv.body with
  | .error e => server.taskFailed inv default e
  | .ok tcr => Effect.attempt (server.runTask inv tcr) (server.taskFailed inv tcr)

def textContent (text : String) : Json :=
  .object [("content", .array [.object [("text", .string text), ("type", .string "text")]])]

/-- `/mcp/tools/call`. -/
def mcpToolsCall (inv : Invocation) : Handler (Response Text) :=
  Effect.attempt
    (do
      let tcr ← Effect.ofExcept (server.decodeToolCall inv.body)
      let name := if tcr.name = "" then tcr.tool else tcr.name
      if name = "" then
        Effect.ofExcept (server.errorResponse 400 "name is required")
      else do
        let output ← inv.run (toolCallFromRequest tcr)
        server.recordAudit inv.tried "" name tcr.arguments output none
        let text ← Effect.ofExcept ((server.dump output).mapError .audit)
        Effect.ofExcept (server.jsonResponse 200 (textContent (server.text text))))
    fun e => Effect.ofExcept (server.jsonResponse 200 (textContent ("error: " ++ e.what)))

def handle : Transport → Invocation → Handler (Response Text)
  | .rest => server.restDispatch
  | .a2a => server.a2aTasks
  | .mcp => server.mcpToolsCall

end Server

end StandardTools.Api
