import StandardTools.Api.Handlers

/-!
# What the handlers share

A request which names a tool is treated alike by all three: dispatch, record,
answer, and a handler of its own for whatever is thrown on the way. They differ
in the id and the name that are recorded and in that last part.
-/

namespace StandardTools.Api
open StandardTools.Core StandardTools.Audit StandardTools.Lib

namespace Server
variable {Text : Type} (server : Server Text)

def auditedName : Transport → ToolCallRequest → String
  | .mcp, req => if req.name = "" then req.tool else req.name
  | _, req => if req.tool = "" then req.name else req.tool

def auditedId : Transport → Invocation → String
  | .a2a, inv => server.taskId inv.body
  | _, _ => ""

def answered : Transport → Invocation → Json → Except Thrown (Response Text)
  | .rest, _, output => server.jsonResponse 200 (.object [("output", output)])
  | .a2a, inv, output =>
    server.jsonResponse 200 (taskJson (server.taskId inv.body) "completed" output .null)
  | .mcp, _, output => do
    let text ← (server.dump output).mapError .audit
    server.jsonResponse 200 (textContent (server.text text))

def failed : Transport → Invocation → ToolCallRequest → Thrown → Handler (Response Text)
  | .rest, _, _, e => Effect.ofExcept (server.errorResponse (domainErrorStatus e) e.what)
  | .a2a, inv, req, e => server.taskFailed inv req e
  | .mcp, _, _, e => Effect.ofExcept (server.jsonResponse 200 (textContent ("error: " ++ e.what)))

/-- The record of a call that returned. -/
def okRecord (transport : Transport) (inv : Invocation) (req : ToolCallRequest) (output : Json) :
    DecisionRecord :=
  server.auditRecord inv.tried (server.auditedId transport inv) (auditedName transport req)
    req.arguments output none

/-- The record of a task that threw. -/
def errorRecord (inv : Invocation) (req : ToolCallRequest) (e : Thrown) : DecisionRecord :=
  server.auditRecord inv.caught (server.taskId inv.body) (auditedName .a2a req) req.arguments .null
    (some e.what)

variable {server} {inv : Invocation} {req : ToolCallRequest}

theorem handle_accepted (transport : Transport) (hdecode : server.decodeToolCall inv.body = .ok req)
    (hname : req.tool ≠ "" ∨ req.name ≠ "") (s : Trace) :
    server.handle transport inv s =
      Effect.attempt
        (do
          let output ← inv.run (toolCallFromRequest req)
          server.write inv.tried (server.okRecord transport inv req output)
          Effect.ofExcept (server.answered transport inv output))
        (server.failed transport inv req) s := by
  have hnone : ¬(req.tool = "" ∧ req.name = "") := by
    rintro ⟨htool, hempty⟩
    rcases hname with h | h
    · exact h htool
    · exact h hempty
  cases transport with
  | rest =>
    simp only [handle, restDispatch, hdecode, Effect.ofExcept_ok_bind, if_neg hnone]
    rfl
  | a2a =>
    simp only [handle, a2aTasks, hdecode, runTask, if_neg hnone]
    rfl
  | mcp =>
    have hmcp : (if req.name = "" then req.tool else req.name) ≠ "" := by
      by_cases hempty : req.name = ""
      · rw [if_pos hempty]
        exact hname.resolve_right (not_not_intro hempty)
      · rw [if_neg hempty]
        exact hempty
    simp only [handle, mcpToolsCall, hdecode, Effect.ofExcept_ok_bind, if_neg hmcp,
      Effect.ofExcept_bind]
    rfl

/-! ### Returned or thrown -/

/-- The trace when a call of that outcome is back. -/
def dispatchedTrace (inv : Invocation) (req : ToolCallRequest) (s : Trace) : Trace :=
  ⟨s.log, s.events ++
    [.dispatched (toolCallFromRequest req) (inv.dispatch (toolCallFromRequest req))]⟩

section Accepted
variable (transport : Transport) (hdecode : server.decodeToolCall inv.body = .ok req)
  (hname : req.tool ≠ "" ∨ req.name ≠ "") {output : Json} {e : Thrown} {s s' : Trace}

include hdecode hname

theorem handle_threw (hdispatch : inv.dispatch (toolCallFromRequest req) = .error e) :
    server.handle transport inv s =
      server.failed transport inv req e (dispatchedTrace inv req s) := by
  have hrun : inv.run (toolCallFromRequest req) s = (.error e, dispatchedTrace inv req s) := by
    rw [dispatchedTrace, Invocation.run, hdispatch]
  rw [handle_accepted transport hdecode hname]
  exact Effect.attempt_error (Effect.bind_error hrun)

theorem handle_returned (hdispatch : inv.dispatch (toolCallFromRequest req) = .ok output) :
    server.handle transport inv s =
      Effect.attempt
        (do
          server.write inv.tried (server.okRecord transport inv req output)
          Effect.ofExcept (server.answered transport inv output))
        (server.failed transport inv req) (dispatchedTrace inv req s) := by
  have hrun : inv.run (toolCallFromRequest req) s = (.ok output, dispatchedTrace inv req s) := by
    rw [dispatchedTrace, Invocation.run, hdispatch]
  rw [handle_accepted transport hdecode hname, Effect.attempt, Effect.attempt, Effect.bind_ok hrun]

theorem handle_unrecorded (hdispatch : inv.dispatch (toolCallFromRequest req) = .ok output)
    (hwrite : server.write inv.tried (server.okRecord transport inv req output)
      (dispatchedTrace inv req s) = (.error e, s')) :
    server.handle transport inv s = server.failed transport inv req e s' := by
  rw [handle_returned transport hdecode hname hdispatch]
  exact Effect.attempt_error (Effect.bind_error hwrite)

theorem handle_unanswered (hdispatch : inv.dispatch (toolCallFromRequest req) = .ok output)
    (hwrite : server.write inv.tried (server.okRecord transport inv req output)
      (dispatchedTrace inv req s) = (.ok (), s'))
    (hanswer : server.answered transport inv output = .error e) :
    server.handle transport inv s = server.failed transport inv req e s' := by
  rw [handle_returned transport hdecode hname hdispatch]
  refine Effect.attempt_error ((Effect.bind_ok hwrite).trans ?_)
  rw [hanswer]
  rfl

theorem handle_answered (hdispatch : inv.dispatch (toolCallFromRequest req) = .ok output)
    (hwrite : server.write inv.tried (server.okRecord transport inv req output)
      (dispatchedTrace inv req s) = (.ok (), s')) {response : Response Text}
    (hanswer : server.answered transport inv output = .ok response) :
    server.handle transport inv s = (.ok response, s') := by
  rw [handle_returned transport hdecode hname hdispatch]
  refine Effect.attempt_ok ((Effect.bind_ok hwrite).trans ?_)
  rw [hanswer]
  rfl

end Accepted

theorem failed_a2a (e : Thrown) :
    server.failed .a2a inv req e =
      (do
        server.write inv.caught (server.errorRecord inv req e)
        Effect.ofExcept (server.jsonResponse 200
          (taskJson (server.taskId inv.body) "failed" .null (.string e.what)))) := rfl

/-! ### Writing -/

theorem write_none {s : Trace} (h : s.log = none) (moment : Moment) (record : DecisionRecord) :
    server.write moment record s = (.ok (), s) := by
  rw [write, h]

theorem write_some {s : Trace} {content : List DecisionRecord} (h : s.log = some content)
    (moment : Moment) (record : DecisionRecord) :
    server.write moment record s =
      ((server.toEnv.write content (server.auditCall content moment record)).2.mapError .audit,
        ⟨some (server.toEnv.write content (server.auditCall content moment record)).1,
          s.events ++ [.handed record]⟩) := by
  rw [write, h]

/-! ### What a handler leaves behind -/

/-- Behind `events` the handler has handed over records and nothing else. -/
def OnlyRecords (events : List Event) (s : Trace) : Prop :=
  ∃ records : List DecisionRecord, s.events = events ++ records.map Event.handed

theorem OnlyRecords.self (s : Trace) : OnlyRecords s.events s := ⟨[], (List.append_nil _).symm⟩

theorem preserves_onlyRecords_write (events : List Event) (moment : Moment)
    (record : DecisionRecord) :
    Effect.Preserves (OnlyRecords events) (server.write moment record) := by
  rintro s ⟨records, hevents⟩
  cases hlog : s.log with
  | none =>
    rw [write_none hlog]
    exact ⟨records, hevents⟩
  | some content =>
    rw [write_some hlog]
    refine ⟨records ++ [record], ?_⟩
    rw [hevents, List.map_append, List.append_assoc]
    rfl

theorem preserves_onlyRecords_failed (events : List Event) (transport : Transport) (e : Thrown) :
    Effect.Preserves (OnlyRecords events) (server.failed transport inv req e) := by
  cases transport with
  | rest | mcp => exact Effect.preserves_ofExcept _
  | a2a => exact (preserves_onlyRecords_write events _ _).bind fun _ => Effect.preserves_ofExcept _

theorem handle_events (transport : Transport) (hdecode : server.decodeToolCall inv.body = .ok req)
    (hname : req.tool ≠ "" ∨ req.name ≠ "") (s : Trace) :
    OnlyRecords (dispatchedTrace inv req s).events (server.handle transport inv s).2 := by
  cases hdispatch : inv.dispatch (toolCallFromRequest req) with
  | error e =>
    rw [handle_threw transport hdecode hname hdispatch]
    exact preserves_onlyRecords_failed _ transport e _ (OnlyRecords.self _)
  | ok output =>
    rw [handle_returned transport hdecode hname hdispatch]
    refine Effect.Preserves.attempt ?_ (preserves_onlyRecords_failed _ transport) _
      (OnlyRecords.self _)
    exact (preserves_onlyRecords_write _ _ _).bind fun _ => Effect.preserves_ofExcept _

/-- The one call which a handler dispatches is the one the request names. -/
theorem dispatched_mem_iff (transport : Transport)
    (hdecode : server.decodeToolCall inv.body = .ok req) (hname : req.tool ≠ "" ∨ req.name ≠ "")
    (log : Option (List DecisionRecord)) (call : ToolCall) (result : Except Thrown Json) :
    Event.dispatched call result ∈ (server.handle transport inv ⟨log, []⟩).2.events ↔
      call = toolCallFromRequest req ∧ result = inv.dispatch (toolCallFromRequest req) := by
  obtain ⟨records, hevents⟩ := handle_events transport hdecode hname ⟨log, []⟩
  rw [hevents, dispatchedTrace]
  simp

end Server

/-! ### A concrete server -/

def healthBody : String := "\x7b\"tool\":\"health\"\x7d"

def unknownBody : String := "\x7b\"tool\":\"nope\"\x7d"

def twoNamesBody : String := "\x7b\"tool\":\"health\",\"name\":\"list_tools\"\x7d"

/-- SHA-256 of the texts which the sample requests below hash, by the value
whose text it is: a payload, or a record. -/
def callDigest : Json → String
  | .null => "74234e98afe7498fb5daf1f36ac2d78acc339464f950703b8c019892f982b90b"
  | .object [] => "44136fa355b3678a1146ad16f7e8649e94fb4fc21fe77e8310c060f61caaff8a"
  | .object [("status", .string "ok")] =>
    "a29ee2b15c494311c52521766e44af56a3ad2248e7a8ab465e5206463c13d288"
  | .object entries =>
    match entries.lookup "tool_name", entries.lookup "status",
        entries.lookup "prev_record_hash" with
    | some (.string "list_tools"), _, _ =>
      "53f1eee80e813467e07833d6b53f34ed7faece213ce21ea41be778df74f72f1d"
    | some (.string "nope"), _, some (.string "") =>
      "72586a5ab873107306f38638fdf550aeb4bbe096445fb4960056a94a3fdf4d6c"
    | some (.string "nope"), _, _ =>
      "48d0c0023c3ffc695a98daf0af7179587db91efe118e6a077de10cc69698048e"
    | _, some (.string "ok"), some (.string "") =>
      "93e5a028e9481fcc3b64efdfb90bc1a33aba2dc2ce75a540f0d30b321885bb74"
    | _, some (.string "ok"), _ =>
      "932208e37ff47bf0f1bdbd72a9abe60889da584b45afb2eb5d88af6ff0a7e8cd"
    | _, _, _ => "606a282e6dc55bb38bb52be551fbad3f60cac6b9854f0c8ea36a8d64fc7536c3"
  | _ => "unknown"

def sampleServer (storage : Storage) : Server Json where
  dump := .ok
  hashBytes := callDigest
  isoDay := sampleEnv.isoDay
  parse body :=
    if body = healthBody then some (.object [("tool", .string "health")])
    else if body = unknownBody then some (.object [("tool", .string "nope")])
    else if body = twoNamesBody then
      some (.object [("name", .string "list_tools"), ("tool", .string "health")])
    else none
  text _ := "\x7b\"status\":\"ok\"\x7d"
  hashBody body :=
    if body = healthBody then 8786393897630515877
    else if body = unknownBody then 11068336495785870336
    else 13972133598328806352
  gitCommit := "unknown"
  packageVersion := "0.1.0"
  randomSeed := 7
  storage := storage

def sampleMoment : Moment where
  now := 1704067200000000000
  uuid := "0b0f3f5e-3c64-4d0c-9f52-6d1f5a3c8e21"
  latestFault := none
  refusal := none
  uuid_ascii := by decide

/-- A request for a tool on 2024-01-01; there is no tool `nope`. -/
def sampleInvocation (body : String) : Invocation where
  body := body
  dispatch call :=
    if call.name = "health" then .ok (.object [("status", .string "ok")])
    else .error (.domain (.invalidCommand ("unknown tool " ++ call.name)))
  tried := sampleMoment
  caught := sampleMoment

end StandardTools.Api
