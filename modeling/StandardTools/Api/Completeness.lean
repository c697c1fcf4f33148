import StandardTools.Api.Encoding

/-!
# Which calls are recorded (`api/rest.cpp:257-273`, `api/a2a.cpp:38-67`, `api/mcp.cpp:37-60`)

`/a2a/tasks` records a call in its `try` block when it returned and in its
`catch` block when it threw. The other two handlers have no record in theirs, so
a call that throws there leaves nothing in the log.
-/

namespace StandardTools.Api
open StandardTools.Core StandardTools.Audit StandardTools.Lib

namespace Server
variable {Text : Type} {server : Server Text} {Utf8 : String → Prop} {inv : Invocation}
  {req : ToolCallRequest} {content : List DecisionRecord}

theorem okRecord_storable (henc : server.Encoding Utf8)
    (hstorage : ∀ refusal content id, server.storage.appendFault refusal content id = none)
    (transport : Transport) (output : Json) :
    server.Storable Utf8 inv.tried content (server.okRecord transport inv req output) ↔
      inv.tried.latestFault = none ∧ output.AllStrings Utf8 := by
  constructor
  · intro h
    exact ⟨h.latest, h.output⟩
  · intro h
    exact ⟨h.1, hstorage _ _ _, h.2, henc.ascii "" rfl⟩

theorem errorRecord_storable
    (hstorage : ∀ refusal content id, server.storage.appendFault refusal content id = none)
    (e : Thrown) :
    server.Storable Utf8 inv.caught content (server.errorRecord inv req e) ↔
      inv.caught.latestFault = none ∧ Utf8 e.what := by
  constructor
  · intro h
    exact ⟨h.latest, h.error⟩
  · intro h
    exact ⟨h.1, hstorage _ _ _, .null, h.2⟩

/-- The `catch` block of REST and MCP leaves the log alone. -/
theorem failed_log (transport : Transport) (ha2a : transport ≠ .a2a) (e : Thrown) (s : Trace) :
    (server.failed transport inv req e s).2 = s := by
  cases transport with
  | rest | mcp => rfl
  | a2a => exact absurd rfl ha2a

theorem failed_a2a_log (henc : server.Encoding Utf8) (hlog : ∀ r ∈ content, Utf8 r.recordHash)
    (hdecode : server.decodeToolCall inv.body = .ok req) (e : Thrown) {s : Trace}
    (hs : s.log = some content) :
    (server.Storable Utf8 inv.caught content (server.errorRecord inv req e) ∧
      ∃ r, Completes Utf8 (server.errorRecord inv req e) r ∧
        (server.failed .a2a inv req e s).2.log = some (content ++ [r])) ∨
    (¬server.Storable Utf8 inv.caught content (server.errorRecord inv req e) ∧
      (server.failed .a2a inv req e s).2.log = some content) := by
  obtain ⟨htool, hname, harguments⟩ := henc.decode hdecode
  have hrecord : Prepared Utf8 (server.errorRecord inv req e) :=
    henc.errorRecord htool hname harguments e
  rw [failed_a2a, Effect.bind_ofExcept_state]
  by_cases hstorable : server.Storable Utf8 inv.caught content (server.errorRecord inv req e)
  · obtain ⟨r, hr, hwrite⟩ := write_stored henc hlog hrecord hstorable hs
    exact Or.inl ⟨hstorable, r, hr, by rw [hwrite]⟩
  · obtain ⟨e', hwrite⟩ := write_refused henc hlog hrecord hstorable hs
    exact Or.inr ⟨hstorable, by rw [hwrite]⟩

theorem appended_ne (r : DecisionRecord) : some content ≠ some (content ++ [r]) := by
  intro hsame
  have hlength := congrArg List.length (Option.some.inj hsame)
  rw [List.length_append, List.length_singleton] at hlength
  omega

theorem answered_a2a (henc : server.Encoding Utf8) {output : Json}
    (houtput : output.AllStrings Utf8) :
    ∃ response, server.answered .a2a inv output = .ok response :=
  (jsonResponse_eq_ok henc _ _).mpr ((henc.taskJson inv.body "completed" output .null
    (henc.ascii _ (by decide))).mpr ⟨houtput, .null⟩)

theorem returned_recorded_iff (henc : server.Encoding Utf8)
    (hlog : ∀ r ∈ content, Utf8 r.recordHash)
    (hstorage : ∀ refusal content id, server.storage.appendFault refusal content id = none)
    (transport : Transport) (hdecode : server.decodeToolCall inv.body = .ok req)
    (hname : req.tool ≠ "" ∨ req.name ≠ "") {output : Json}
    (hdispatch : inv.dispatch (toolCallFromRequest req) = .ok output) :
    (∃ r, (server.handle transport inv ⟨some content, []⟩).2.log = some (content ++ [r]) ∧
      r.status = "ok") ↔ inv.tried.latestFault = none ∧ output.AllStrings Utf8 := by
  have hrecord := henc.okRecord transport hdecode output
  rw [← @okRecord_storable _ server Utf8 inv req content henc hstorage transport output]
  by_cases hstorable : server.Storable Utf8 inv.tried content
      (server.okRecord transport inv req output)
  · refine iff_of_true ?_ hstorable
    obtain ⟨r, hr, hwrite⟩ := write_stored henc hlog hrecord hstorable
      (rfl : (dispatchedTrace inv req ⟨some content, []⟩).log = some content)
    refine ⟨r, ?_, hr.status⟩
    cases hanswer : server.answered transport inv output with
    | ok response => rw [handle_answered transport hdecode hname hdispatch hwrite hanswer]
    | error e =>
      -- Only A2A would record again, and it can answer with what it could record.
      have ha2a : transport ≠ .a2a := by
        rintro rfl
        obtain ⟨response, hresponse⟩ := @answered_a2a _ server _ inv henc _ hstorable.output
        cases hresponse.symm.trans hanswer
      rw [handle_unanswered transport hdecode hname hdispatch hwrite hanswer,
        failed_log transport ha2a]
  · refine iff_of_false ?_ hstorable
    rintro ⟨r, hstored, hstatus⟩
    obtain ⟨e, hwrite⟩ := write_refused henc hlog hrecord hstorable
      (rfl : (dispatchedTrace inv req ⟨some content, []⟩).log = some content)
    rw [handle_unrecorded transport hdecode hname hdispatch hwrite] at hstored
    by_cases ha2a : transport = .a2a
    · subst ha2a
      rcases failed_a2a_log (s := ⟨some content, _⟩) henc hlog hdecode e rfl with
        ⟨-, r', hr', hstored'⟩ | ⟨-, hrefused⟩
      · have hsame : content ++ [r'] = content ++ [r] :=
          Option.some.inj (hstored'.symm.trans hstored)
        have herror : (server.errorRecord inv req e).status = "error" := rfl
        rw [← List.singleton_inj.mp (List.append_cancel_left hsame), hr'.status, herror] at hstatus
        exact absurd hstatus (by decide)
      · exact appended_ne r (hrefused.symm.trans hstored)
    · rw [failed_log transport ha2a] at hstored
      exact appended_ne r hstored

theorem threw_recorded_iff (henc : server.Encoding Utf8)
    (hlog : ∀ r ∈ content, Utf8 r.recordHash)
    (hstorage : ∀ refusal content id, server.storage.appendFault refusal content id = none)
    (transport : Transport) (hdecode : server.decodeToolCall inv.body = .ok req)
    (hname : req.tool ≠ "" ∨ req.name ≠ "") {e : Thrown}
    (hdispatch : inv.dispatch (toolCallFromRequest req) = .error e) :
    (∃ r, (server.handle transport inv ⟨some content, []⟩).2.log = some (content ++ [r]) ∧
      r.status = "error" ∧ r.error = e.what) ↔
        transport = .a2a ∧ inv.caught.latestFault = none ∧ Utf8 e.what := by
  rw [handle_threw transport hdecode hname hdispatch]
  by_cases ha2a : transport = .a2a
  · subst ha2a
    rw [and_iff_right rfl,
      ← @errorRecord_storable _ server Utf8 inv req content hstorage e]
    rcases failed_a2a_log (s := dispatchedTrace inv req ⟨some content, []⟩) henc hlog hdecode e
      rfl with ⟨hstorable, r, hr, hstored⟩ | ⟨hstorable, hrefused⟩
    · exact iff_of_true ⟨r, hstored, hr.status, hr.error⟩ hstorable
    · refine iff_of_false ?_ hstorable
      rintro ⟨r, hstored, -⟩
      exact appended_ne r (hrefused.symm.trans hstored)
  · refine iff_of_false ?_ (fun h => ha2a h.1)
    rintro ⟨r, hstored, -⟩
    rw [failed_log transport ha2a] at hstored
    exact appended_ne r hstored

end Server

/-- What the log has to say about a call with that outcome. -/
def TellsOutcome (outcome : Except Thrown Json) (r : DecisionRecord) : Prop :=
  match outcome with
  | .ok _ => r.status = "ok"
  | .error e => r.status = "error" ∧ r.error = e.what

/-- A storage that takes every record gets one for a call that returned something
UTF-8, and for a call that threw only from A2A. -/
theorem audit_completeness_iff {Text : Type} (server : Server Text) (Utf8 : String → Prop)
    (transport : Transport) (inv : Invocation) (req : ToolCallRequest)
    (content : List DecisionRecord) (henc : server.Encoding Utf8)
    (hlog : ∀ r ∈ content, Utf8 r.recordHash)
    (hstorage : ∀ refusal content id, server.storage.appendFault refusal content id = none)
    (hdecode : server.decodeToolCall inv.body = .ok req) (hname : req.tool ≠ "" ∨ req.name ≠ "") :
    (∃ r, (server.handle transport inv ⟨some content, []⟩).2.log = some (content ++ [r]) ∧
        TellsOutcome (inv.dispatch (toolCallFromRequest req)) r) ↔
      match inv.dispatch (toolCallFromRequest req) with
      | .ok output => inv.tried.latestFault = none ∧ output.AllStrings Utf8
      | .error e => transport = .a2a ∧ inv.caught.latestFault = none ∧ Utf8 e.what := by
  cases hdispatch : inv.dispatch (toolCallFromRequest req) with
  | ok output =>
    exact Server.returned_recorded_iff henc hlog hstorage transport hdecode hname hdispatch
  | error e => exact Server.threw_recorded_iff henc hlog hstorage transport hdecode hname hdispatch

theorem audit_completeness_unknown_tool :
    ∃ r, ((sampleServer .memory).handle .a2a (sampleInvocation unknownBody) ⟨some [], []⟩).2.log =
        some ([] ++ [r]) ∧ r.status = "error" ∧ r.error = "invalid command: unknown tool nope" :=
  (audit_completeness_iff (sampleServer .memory) (fun _ => True) .a2a
    (sampleInvocation unknownBody) ⟨"nope", "", .object []⟩ [] (sampleServer_encoding .memory)
    nofun (fun _ _ _ => rfl) rfl (.inl (by decide))).mpr ⟨rfl, rfl, trivial⟩

/-- A call of an unknown tool leaves no record when it came by REST or MCP. -/
theorem rest_failure_unrecorded :
    (sampleServer .memory).decodeToolCall unknownBody = .ok ⟨"nope", "", .object []⟩ ∧
      (sampleInvocation unknownBody).dispatch ⟨"nope", .object []⟩ =
        .error (.domain (.invalidCommand "unknown tool nope")) ∧
      ∀ transport, transport ≠ .a2a →
        ((sampleServer .memory).handle transport (sampleInvocation unknownBody)
          ⟨some [], []⟩).2.log = some [] := by
  refine ⟨rfl, rfl, fun transport ha2a => ?_⟩
  have hdecode : (sampleServer .memory).decodeToolCall (sampleInvocation unknownBody).body =
      .ok ⟨"nope", "", .object []⟩ := rfl
  rw [Server.handle_threw transport hdecode (.inl (by decide)) rfl, Server.failed_log transport ha2a]
  rfl

end StandardTools.Api
