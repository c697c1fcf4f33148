import StandardTools.Api.Completeness

/-!
# Repeated tasks (`api/a2a.cpp:38-67`, `storage/migrate.cpp:14-31`)

A task has the hash of its body for an id, so a body sent again comes under the
id of its first record. A table in which the id is unique refuses the second one,
the `catch` block tries to record that under the same id, and the exception
leaves the handler. So does the exception of a database that refuses both
records for another reason.
-/

namespace StandardTools.Api
open StandardTools.Core StandardTools.Audit StandardTools.Lib

namespace Server
variable {Text : Type} {server : Server Text} {Utf8 : String → Prop} {inv : Invocation}
  {req : ToolCallRequest} {log : Option (List DecisionRecord)}

/-- The hashes of the log are UTF-8. -/
def Hashed (Utf8 : String → Prop) (s : Trace) : Prop :=
  ∀ content, s.log = some content → ∀ r ∈ content, Utf8 r.recordHash

/-! ### The log stays readable -/

theorem preserves_write (henc : server.Encoding Utf8) (moment : Moment) (record : DecisionRecord) :
    Effect.Preserves (Hashed Utf8) (server.write moment record) := by
  intro s hs
  cases hlog : s.log with
  | none =>
    rw [write_none hlog]
    exact hs
  | some content =>
    rw [write_some hlog]
    rcases server.toEnv.write_cases content (server.auditCall content moment record) with
      ⟨e, hwrite⟩ | ⟨r, hr, hwrite⟩
    · rw [hwrite]
      intro content' hcontent'
      cases hcontent'
      exact hs content hlog
    · rw [hwrite]
      intro content' hcontent'
      cases hcontent'
      intro r' hr'
      rcases List.mem_append.mp hr' with hr' | hr'
      · exact hs content hlog r' hr'
      · rw [List.mem_singleton.mp hr']
        exact henc.hashJson_utf8 (Env.complete_eq_ok hr).1.record

theorem preserves_run (inv : Invocation) (call : ToolCall) :
    Effect.Preserves (Hashed Utf8) (inv.run call) := fun _ hs => hs

theorem preserves_taskFailed (henc : server.Encoding Utf8) (e : Thrown) :
    Effect.Preserves (Hashed Utf8) (server.taskFailed inv req e) :=
  (preserves_write henc _ _).bind fun _ => Effect.preserves_ofExcept _

theorem preserves_a2aTasks (henc : server.Encoding Utf8) (inv : Invocation) :
    Effect.Preserves (Hashed Utf8) (server.a2aTasks inv) := by
  unfold a2aTasks
  cases server.decodeToolCall inv.body with
  | error e => exact preserves_taskFailed henc e
  | ok req =>
    refine Effect.Preserves.attempt ?_ (preserves_taskFailed henc)
    unfold runTask
    split
    · exact Effect.preserves_ofExcept _
    · exact (preserves_run inv _).bind fun _ =>
        (preserves_write henc _ _).bind fun _ => Effect.preserves_ofExcept _

/-! ### One task -/

/-- A response is set, and it says `completed` when the call has returned. -/
def Answered (server : Server Text) (inv : Invocation)
    (served : Except Thrown (Response Text) × Trace) : Prop :=
  ∃ response, served.1 = .ok response ∧
    ∀ call output, Event.dispatched call (.ok output) ∈ served.2.events →
      server.jsonResponse 200 (taskJson (server.taskId inv.body) "completed" output .null) =
        .ok response

/-- The log takes a record of that id now. -/
def Accepts (server : Server Text) (log : Option (List DecisionRecord)) (moment : Moment)
    (id : String) : Prop :=
  ∀ content, log = some content →
    moment.latestFault = none ∧
      (server.storage = .postgres → moment.refusal = none ∧ id ∉ content.map (·.requestId))

/-- Where a task is answered: its record is new to a table with unique ids and is not
refused there otherwise, and what was returned or thrown is UTF-8. -/
def Answerable (server : Server Text) (Utf8 : String → Prop)
    (log : Option (List DecisionRecord)) (inv : Invocation) : Prop :=
  match server.decodeToolCall inv.body with
  | .error _ => server.Accepts log inv.caught (server.taskId inv.body)
  | .ok req =>
    (req.tool = "" ∧ req.name = "") ∨
      match inv.dispatch (toolCallFromRequest req) with
      | .ok output =>
        server.Accepts log inv.tried (server.taskId inv.body) ∧ output.AllStrings Utf8
      | .error e => server.Accepts log inv.caught (server.taskId inv.body) ∧ Utf8 e.what

theorem appendFault_eq_none_iff (hstorage : server.storage = .memory ∨ server.storage = .postgres)
    {refusal : Option Fault} {content : List DecisionRecord} {id : String} :
    server.storage.appendFault refusal content id = none ↔
      (server.storage = .postgres → refusal = none ∧ id ∉ content.map (·.requestId)) := by
  have hpostgres : Storage.postgres.appendFault refusal content id = none ↔
      refusal = none ∧ id ∉ content.map (·.requestId) := insertFault_eq_none
  constructor
  · intro h heq
    rw [heq] at h
    exact hpostgres.mp h
  · intro h
    rcases hstorage with heq | heq
    · rw [heq]
      rfl
    · rw [heq]
      exact hpostgres.mpr (h heq)

theorem write_ok_iff (henc : server.Encoding Utf8)
    (hstorage : server.storage = .memory ∨ server.storage = .postgres) {record : DecisionRecord}
    (hrecord : Prepared Utf8 record) (moment : Moment) {s : Trace} (hs : Hashed Utf8 s)
    (houtput : record.output.AllStrings Utf8) (herror : Utf8 record.error) :
    (∃ u, (server.write moment record s).1 = .ok u) ↔
      server.Accepts s.log moment record.requestId := by
  cases hlog : s.log with
  | none =>
    rw [write_none hlog]
    exact iff_of_true ⟨(), rfl⟩ nofun
  | some content =>
    have haccepts : server.Storable Utf8 moment content record ↔
        server.Accepts (some content) moment record.requestId := by
      constructor
      · intro h content' hcontent'
        cases hcontent'
        exact ⟨h.latest, (appendFault_eq_none_iff hstorage).mp h.append⟩
      · intro h
        obtain ⟨hlatest, hfresh⟩ := h content rfl
        exact ⟨hlatest, (appendFault_eq_none_iff hstorage).mpr hfresh, houtput, herror⟩
    rw [← haccepts]
    by_cases hstorable : server.Storable Utf8 moment content record
    · obtain ⟨r, -, hwrite⟩ := write_stored henc (hs content hlog) hrecord hstorable hlog
      rw [hwrite]
      exact iff_of_true ⟨(), rfl⟩ hstorable
    · obtain ⟨e, hwrite⟩ := write_refused henc (hs content hlog) hrecord hstorable hlog
      rw [hwrite]
      exact iff_of_false nofun hstorable

theorem requestId_taskId (moment : Moment) (body toolName : String) (input output : Json)
    (error : Option String) :
    (server.auditRecord moment (server.taskId body) toolName input output error).requestId =
      server.taskId body := by
  have hne : server.taskId body ≠ "" := by
    intro hempty
    have hlist := congrArg String.toList hempty
    rw [taskId, String.toList_append] at hlist
    cases hlist
  simp only [auditRecord, if_neg hne]

theorem failed_ok_iff (henc : server.Encoding Utf8)
    (hstorage : server.storage = .memory ∨ server.storage = .postgres) {e : Thrown}
    (hrecord : Prepared Utf8 (server.errorRecord inv req e)) {s : Trace} (hs : Hashed Utf8 s) :
    (∃ response, (server.failed .a2a inv req e s).1 = .ok response) ↔
      server.Accepts s.log inv.caught (server.taskId inv.body) ∧ Utf8 e.what := by
  rw [failed_a2a]
  simp only [Effect.bind_ofExcept_eq_ok, exists_and_left, jsonResponse_eq_ok henc]
  rw [henc.taskJson _ _ _ _ (henc.ascii _ (by decide)), Json.allStrings_string,
    and_iff_right Json.AllStrings.null]
  refine and_congr_left fun herror => ?_
  rw [write_ok_iff henc hstorage hrecord inv.caught hs .null herror, errorRecord, requestId_taskId]

theorem answered_iff_rejected (henc : server.Encoding Utf8)
    (hstorage : server.storage = .memory ∨ server.storage = .postgres)
    (hlog : Hashed Utf8 ⟨log, []⟩) {e : Thrown}
    (hdecode : server.decodeToolCall inv.body = .error e) :
    Answered server inv (server.a2aTasks inv ⟨log, []⟩) ↔
      server.Accepts log inv.caught (server.taskId inv.body) := by
  have hrecord : Prepared Utf8 (server.errorRecord inv default e) :=
    henc.errorRecord (henc.ascii "" rfl) (henc.ascii "" rfl) .null e
  have hiff := failed_ok_iff henc hstorage hrecord hlog
  rw [and_iff_left (henc.decode_error hdecode)] at hiff
  have hevents := @preserves_onlyRecords_failed _ server inv default [] .a2a e ⟨log, []⟩
    (OnlyRecords.self _)
  have htasks : server.a2aTasks inv = server.failed .a2a inv default e := by
    unfold a2aTasks
    rw [hdecode]
    rfl
  rw [htasks, ← hiff]
  obtain ⟨records, hevents⟩ := hevents
  constructor
  · rintro ⟨response, hresponse, -⟩
    exact ⟨response, hresponse⟩
  · rintro ⟨response, hresponse⟩
    refine ⟨response, hresponse, fun call output hcall => ?_⟩
    rw [hevents] at hcall
    simp at hcall

theorem answered_iff_threw (henc : server.Encoding Utf8)
    (hstorage : server.storage = .memory ∨ server.storage = .postgres)
    (hlog : Hashed Utf8 ⟨log, []⟩) (hdecode : server.decodeToolCall inv.body = .ok req)
    (hname : req.tool ≠ "" ∨ req.name ≠ "") {e : Thrown}
    (hdispatch : inv.dispatch (toolCallFromRequest req) = .error e) :
    Answered server inv (server.handle .a2a inv ⟨log, []⟩) ↔
      server.Accepts log inv.caught (server.taskId inv.body) ∧ Utf8 e.what := by
  obtain ⟨htool, hname', harguments⟩ := henc.decode hdecode
  have hrecord : Prepared Utf8 (server.errorRecord inv req e) :=
    henc.errorRecord htool hname' harguments e
  have hiff := failed_ok_iff (s := dispatchedTrace inv req ⟨log, []⟩) henc hstorage hrecord hlog
  rw [← handle_threw .a2a hdecode hname hdispatch] at hiff
  refine Iff.trans ?_ hiff
  constructor
  · rintro ⟨response, hresponse, -⟩
    exact ⟨response, hresponse⟩
  · rintro ⟨response, hresponse⟩
    refine ⟨response, hresponse, fun call output hcall => ?_⟩
    have hresult := ((dispatched_mem_iff .a2a hdecode hname log call _).mp hcall).2
    rw [hdispatch] at hresult
    cases hresult

theorem answered_iff_returned (henc : server.Encoding Utf8)
    (hstorage : server.storage = .memory ∨ server.storage = .postgres)
    (hlog : Hashed Utf8 ⟨log, []⟩) (hdecode : server.decodeToolCall inv.body = .ok req)
    (hname : req.tool ≠ "" ∨ req.name ≠ "") {output : Json}
    (hdispatch : inv.dispatch (toolCallFromRequest req) = .ok output) :
    Answered server inv (server.handle .a2a inv ⟨log, []⟩) ↔
      server.Accepts log inv.tried (server.taskId inv.body) ∧ output.AllStrings Utf8 := by
  have hcompleted : Utf8 "completed" := henc.ascii _ (by decide)
  have hwrite : output.AllStrings Utf8 →
      ((∃ u, (server.write inv.tried (server.okRecord .a2a inv req output)
        (dispatchedTrace inv req ⟨log, []⟩)).1 = .ok u) ↔
          server.Accepts log inv.tried (server.taskId inv.body)) := by
    intro houtput
    rw [write_ok_iff (s := dispatchedTrace inv req ⟨log, []⟩) henc hstorage
      (henc.okRecord .a2a hdecode output) inv.tried hlog houtput (henc.ascii "" rfl), okRecord,
      auditedId, requestId_taskId]
    rfl
  constructor
  · rintro ⟨response, hresponse, hstatus⟩
    have hcall := (dispatched_mem_iff .a2a hdecode hname log _ _).mpr ⟨rfl, hdispatch.symm⟩
    replace hstatus := hstatus _ _ hcall
    have houtput := ((henc.taskJson _ _ _ _ hcompleted).mp
      ((jsonResponse_eq_ok henc _ _).mp ⟨response, hstatus⟩)).1
    refine ⟨?_, houtput⟩
    by_contra haccepts
    rw [← hwrite houtput] at haccepts
    cases hw : server.write inv.tried (server.okRecord .a2a inv req output)
        (dispatchedTrace inv req ⟨log, []⟩) with
    | mk result s' =>
      cases result with
      | ok u => exact haccepts ⟨u, congrArg Prod.fst hw⟩
      | error e =>
        -- The response of the `catch` block does not say `completed`.
        rw [handle_unrecorded .a2a hdecode hname hdispatch hw, failed_a2a,
          Effect.bind_ofExcept_eq_ok] at hresponse
        have hfailed := henc.dump_field _ _ _ "status" "failed" "completed"
          (dump_of_jsonResponse hresponse.2) (dump_of_jsonResponse hstatus) rfl rfl
        exact absurd hfailed (by decide)
  · rintro ⟨haccepts, houtput⟩
    obtain ⟨u, hu⟩ := (hwrite houtput).mpr haccepts
    obtain ⟨response, hanswer⟩ := @answered_a2a _ server _ inv henc _ houtput
    have hhandle := handle_answered .a2a hdecode hname hdispatch
      (Prod.ext hu rfl : server.write inv.tried (server.okRecord .a2a inv req output)
        (dispatchedTrace inv req ⟨log, []⟩) = (.ok (), _)) hanswer
    refine ⟨response, congrArg Prod.fst hhandle, fun call output' hcall => ?_⟩
    have hresult := ((dispatched_mem_iff .a2a hdecode hname log call _).mp hcall).2
    rw [hdispatch] at hresult
    cases hresult
    exact hanswer

theorem answered_nameless (henc : server.Encoding Utf8)
    (hdecode : server.decodeToolCall inv.body = .ok req)
    (hnone : req.tool = "" ∧ req.name = "") :
    Answered server inv (server.a2aTasks inv ⟨log, []⟩) := by
  have hkeys : ∀ s ∈ ["code", "error", "tool or name is required"], Utf8 s := by
    have hascii : ∀ s ∈ ["code", "error", "tool or name is required"], isAscii s := by decide
    exact fun s hs => henc.ascii s (hascii s hs)
  simp only [List.forall_mem_cons] at hkeys
  obtain ⟨response, hresponse⟩ : ∃ response,
      server.errorResponse 400 "tool or name is required" = .ok response := by
    rw [errorResponse, jsonResponse_eq_ok henc]
    simp [hkeys]
  have htasks : server.a2aTasks inv ⟨log, []⟩ = (.ok response, ⟨log, []⟩) := by
    unfold a2aTasks
    rw [hdecode]
    refine Effect.attempt_ok ?_
    rw [runTask, if_pos hnone, hresponse]
    rfl
  rw [htasks]
  refine ⟨response, rfl, fun call output hcall => ?_⟩
  cases hcall

/-- One task of a server, whatever its log. -/
theorem answered_iff (henc : server.Encoding Utf8)
    (hstorage : server.storage = .memory ∨ server.storage = .postgres)
    (hlog : Hashed Utf8 ⟨log, []⟩) (inv : Invocation) :
    Answered server inv (server.a2aTasks inv ⟨log, []⟩) ↔ server.Answerable Utf8 log inv := by
  unfold Answerable
  cases hdecode : server.decodeToolCall inv.body with
  | error e => exact answered_iff_rejected henc hstorage hlog hdecode
  | ok req =>
    by_cases hnone : req.tool = "" ∧ req.name = ""
    · exact iff_of_true (answered_nameless henc hdecode hnone) (Or.inl hnone)
    · have hname : req.tool ≠ "" ∨ req.name ≠ "" := not_and_or.mp hnone
      simp only [hnone, false_or]
      cases hdispatch : inv.dispatch (toolCallFromRequest req) with
      | ok output => exact answered_iff_returned henc hstorage hlog hdecode hname hdispatch
      | error e => exact answered_iff_threw henc hstorage hlog hdecode hname hdispatch

/-! ### A sequence of tasks -/

/-- The tasks of a server in their order, each with what it set or threw. -/
def serveTasks (server : Server Text) :
    Option (List DecisionRecord) → List Invocation →
      List (Except Thrown (Response Text) × Trace)
  | _, [] => []
  | log, inv :: rest =>
    let served := server.a2aTasks inv ⟨log, []⟩
    served :: serveTasks server served.2.log rest

/-- Every task is answerable when its turn comes. -/
def AllAnswerable (server : Server Text) (Utf8 : String → Prop) :
    Option (List DecisionRecord) → List Invocation → Prop
  | _, [] => True
  | log, inv :: rest =>
    server.Answerable Utf8 log inv ∧
      AllAnswerable server Utf8 (server.a2aTasks inv ⟨log, []⟩).2.log rest

end Server

/-- Exactly the sequences in which no task that is recorded meets its own id in a
table with unique ids, no record is refused by the database otherwise, and no
output or exception is other than UTF-8, are answered throughout. -/
theorem a2a_retries_iff {Text : Type} (server : Server Text) (Utf8 : String → Prop)
    (henc : server.Encoding Utf8)
    (hstorage : server.storage = .memory ∨ server.storage = .postgres) (invs : List Invocation)
    (log : Option (List DecisionRecord))
    (hlog : ∀ content, log = some content → ∀ r ∈ content, Utf8 r.recordHash) :
    List.Forall₂ (Server.Answered server) invs (server.serveTasks log invs) ↔
      server.AllAnswerable Utf8 log invs := by
  induction invs generalizing log with
  | nil => exact iff_of_true List.Forall₂.nil trivial
  | cons inv rest ih =>
    have hnext := Server.preserves_a2aTasks henc inv ⟨log, []⟩ hlog
    rw [Server.serveTasks, Server.AllAnswerable, List.forall₂_cons,
      Server.answered_iff henc hstorage hlog, ih _ hnext]

theorem a2a_retries_two_bodies :
    List.Forall₂ (Server.Answered (sampleServer .postgres))
      [sampleInvocation healthBody, sampleInvocation unknownBody]
      ((sampleServer .postgres).serveTasks (some [])
        [sampleInvocation healthBody, sampleInvocation unknownBody]) := by
  have hnil : ∀ content : List DecisionRecord, some [] = some content → ∀ r ∈ content, True :=
    fun _ _ _ _ => trivial
  have hlog : (((sampleServer .postgres).a2aTasks (sampleInvocation healthBody)
      ⟨some [], []⟩).2.log.map fun content => content.map (·.requestId)) =
        some ["task-8786393897630515877"] := by decide +kernel
  refine (a2a_retries_iff (sampleServer .postgres) (fun _ => True) (sampleServer_encoding .postgres)
    (.inr rfl) [sampleInvocation healthBody, sampleInvocation unknownBody] (some []) hnil).mpr
      ⟨?_, ?_, trivial⟩
  · refine Or.inr ⟨?_, Json.allStrings_true _⟩
    intro content hcontent
    cases hcontent
    exact ⟨rfl, fun _ => ⟨rfl, List.not_mem_nil⟩⟩
  · refine Or.inr ⟨?_, trivial⟩
    intro content hcontent
    rw [hcontent] at hlog
    have hids : content.map (·.requestId) = ["task-8786393897630515877"] := Option.some.inj hlog
    refine ⟨rfl, fun _ => ⟨rfl, ?_⟩⟩
    rw [hids]
    decide +kernel

/-- The same body twice: the second time the exception of the table leaves the
handler, although the call has returned. -/
theorem second_task_unanswered :
    (sampleInvocation healthBody).dispatch ⟨"health", .object []⟩ =
        .ok (.object [("status", .string "ok")]) ∧
      ((sampleServer .postgres).serveTasks (some [])
        [sampleInvocation healthBody, sampleInvocation healthBody]).map (·.1.isOk) =
          [true, false] := ⟨rfl, by decide +kernel⟩

end StandardTools.Api
