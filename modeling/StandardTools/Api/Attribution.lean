import StandardTools.Api.Calls

/-!
# Who is recorded (`api/mcp.cpp:41-48`)

REST and A2A record a call under the name they dispatched it by. The MCP handler
prefers `name` for the record while `ToolCallFromRequest` prefers `tool`.
-/

namespace StandardTools.Api
open StandardTools.Core StandardTools.Audit StandardTools.Lib

def Event.record? : Event → Option DecisionRecord
  | .dispatched _ _ => none
  | .handed record => some record

/-- The records which the handler hands to `Writer::Write`, in their order. -/
def Trace.records (s : Trace) : List DecisionRecord := s.events.filterMap Event.record?

namespace Server
variable {Text : Type} {server : Server Text} {inv : Invocation} {req : ToolCallRequest}

theorem auditedName_eq_iff (transport : Transport) (req : ToolCallRequest) :
    auditedName transport req = (toolCallFromRequest req).name ↔
      ¬(transport = .mcp ∧ req.tool ≠ "" ∧ req.name ≠ "" ∧ req.tool ≠ req.name) := by
  cases transport with
  | rest | a2a => simp [auditedName, toolCallFromRequest]
  | mcp =>
    by_cases htool : req.tool = ""
    · by_cases hname : req.name = ""
      · simp [auditedName, toolCallFromRequest, htool, hname]
      · simp [auditedName, toolCallFromRequest, htool, hname]
    · by_cases hname : req.name = ""
      · simp [auditedName, toolCallFromRequest, htool, hname]
      · simp [auditedName, toolCallFromRequest, htool, hname, eq_comm]

/-- The first record is that of the call, whatever happens to it then. -/
theorem handle_returned_events (transport : Transport)
    (hdecode : server.decodeToolCall inv.body = .ok req) (hname : req.tool ≠ "" ∨ req.name ≠ "")
    {output : Json} (hdispatch : inv.dispatch (toolCallFromRequest req) = .ok output)
    {s : Trace} {content : List DecisionRecord} (hlog : s.log = some content) :
    OnlyRecords ((dispatchedTrace inv req s).events ++
      [.handed (server.okRecord transport inv req output)]) (server.handle transport inv s).2 := by
  rw [handle_returned transport hdecode hname hdispatch]
  refine Effect.attempt_state ?_ (preserves_onlyRecords_failed _ transport)
  have hwrite := @write_some _ server (dispatchedTrace inv req s) content hlog inv.tried
    (server.okRecord transport inv req output)
  rw [Effect.bind_ofExcept_state, hwrite]
  exact OnlyRecords.self _

theorem records_head (transport : Transport)
    (hdecode : server.decodeToolCall inv.body = .ok req) (hname : req.tool ≠ "" ∨ req.name ≠ "")
    {output : Json} (hdispatch : inv.dispatch (toolCallFromRequest req) = .ok output)
    (content : List DecisionRecord) :
    (server.handle transport inv ⟨some content, []⟩).2.records.head? =
      some (server.okRecord transport inv req output) := by
  obtain ⟨records, hevents⟩ :=
    handle_returned_events transport hdecode hname hdispatch (s := ⟨some content, []⟩) rfl
  rw [Trace.records, hevents, dispatchedTrace]
  rfl

end Server

/-- A returned call is recorded as what was dispatched, unless MCP was given two
different names for it. -/
theorem audit_attribution_iff {Text : Type} (server : Server Text) (transport : Transport)
    (inv : Invocation) (req : ToolCallRequest) (content : List DecisionRecord) (call : ToolCall)
    (output : Json) (hdecode : server.decodeToolCall inv.body = .ok req)
    (hname : req.tool ≠ "" ∨ req.name ≠ "")
    (hcall : Event.dispatched call (.ok output) ∈
      (server.handle transport inv ⟨some content, []⟩).2.events) :
    (∃ record, (server.handle transport inv ⟨some content, []⟩).2.records.head? = some record ∧
        record.toolName = call.name ∧ record.input = call.arguments ∧ record.output = output ∧
        record.status = "ok") ↔
      ¬(transport = .mcp ∧ req.tool ≠ "" ∧ req.name ≠ "" ∧ req.tool ≠ req.name) := by
  obtain ⟨rfl, hdispatch⟩ := (Server.dispatched_mem_iff transport hdecode hname _ _ _).mp hcall
  replace hdispatch := hdispatch.symm
  rw [Server.records_head transport hdecode hname hdispatch, ← Server.auditedName_eq_iff]
  constructor
  · rintro ⟨record, hrecord, htool, -⟩
    rw [← Option.some.inj hrecord] at htool
    exact htool
  · intro htool
    exact ⟨_, rfl, htool, rfl, rfl, rfl⟩

theorem audit_attribution_health :
    ∃ record, ((sampleServer .memory).handle .a2a (sampleInvocation healthBody)
        ⟨some [], []⟩).2.records.head? = some record ∧
      record.toolName = "health" ∧ record.input = .object [] ∧
      record.output = .object [("status", .string "ok")] ∧ record.status = "ok" := by
  have hdecode : (sampleServer .memory).decodeToolCall (sampleInvocation healthBody).body =
      .ok ⟨"health", "", .object []⟩ := rfl
  have hcall := (Server.dispatched_mem_iff .a2a hdecode (.inl (by decide)) (some []) _ _).mpr
    ⟨rfl, rfl⟩
  exact (audit_attribution_iff (sampleServer .memory) .a2a (sampleInvocation healthBody) _ [] _ _
    hdecode (.inl (by decide)) hcall).mpr (by decide)

theorem mcp_records_other_name :
    (sampleServer .memory).decodeToolCall twoNamesBody =
        .ok ⟨"health", "list_tools", .object []⟩ ∧
      Event.dispatched ⟨"health", .object []⟩ (.ok (.object [("status", .string "ok")])) ∈
        ((sampleServer .memory).handle .mcp (sampleInvocation twoNamesBody)
          ⟨some [], []⟩).2.events ∧
      ∀ record, ((sampleServer .memory).handle .mcp (sampleInvocation twoNamesBody)
          ⟨some [], []⟩).2.records.head? = some record → record.toolName = "list_tools" := by
  have hdecode : (sampleServer .memory).decodeToolCall (sampleInvocation twoNamesBody).body =
      .ok ⟨"health", "list_tools", .object []⟩ := rfl
  refine ⟨hdecode,
    (Server.dispatched_mem_iff .mcp hdecode (.inl (by decide)) _ _ _).mpr ⟨rfl, rfl⟩, ?_⟩
  intro record hrecord
  rw [Server.records_head .mcp hdecode (.inl (by decide)) rfl] at hrecord
  rw [← Option.some.inj hrecord]
  rfl

end StandardTools.Api
