import StandardTools.Api.Retries
import StandardTools.Lib.Threads

/-!
# Requests served by several threads (`server/main.cpp:113`, `api/helpers.hpp:61-81`)

`multithreaded()` runs the handlers side by side. What they share is the audit
log, and they touch it in `Writer::Write` only, under the mutex of the one writer.
A handler is cut at these places into steps that nothing can interrupt.
-/

namespace StandardTools.Api
open StandardTools.Core StandardTools.Audit StandardTools.Lib

/-- How far the handler of a request is. -/
inductive Phase (Text : Type) where
  | received
  | returned (req : ToolCallRequest) (output : Json)
  | caught (req : ToolCallRequest) (e : Thrown)
  | finished (result : Except Thrown (Response Text))

/-- The steps that a handler has before it, at most. -/
def Phase.rank {Text : Type} : Phase Text → ℕ
  | .received => 3
  | .returned _ _ => 2
  | .caught _ _ => 1
  | .finished _ => 0

/-- The trace behind a step which ended with `result`, and where to go from there:
into the `catch` block with whatever was thrown. -/
def orCatch {Text α : Type} (req : ToolCallRequest) (next : α → Phase Text) :
    Except Thrown α × Trace → Phase Text × Trace
  | (.ok a, s) => (next a, s)
  | (.error e, s) => (.caught req e, s)

namespace Server
variable {Text : Type} (server : Server Text)

def nameMissing : Transport → String
  | .mcp => "name is required"
  | _ => "tool or name is required"

/-- From one access to the log to the next. -/
def advance (transport : Transport) (inv : Invocation) :
    Phase Text → Trace → Phase Text × Trace
  | .received, s =>
    match server.decodeToolCall inv.body with
    | .error e => (.caught default e, s)
    | .ok req =>
      if req.tool = "" ∧ req.name = "" then
        orCatch req (fun response => .finished (.ok response))
          (server.errorResponse 400 (nameMissing transport), s)
      else orCatch req (.returned req) (inv.run (toolCallFromRequest req) s)
  | .returned req output, s =>
    orCatch req (fun response => .finished (.ok response))
      ((do
        server.write inv.tried (server.okRecord transport inv req output)
        Effect.ofExcept (server.answered transport inv output) : Handler (Response Text)) s)
  | .caught req e, s =>
    (.finished (server.failed transport inv req e s).1, (server.failed transport inv req e s).2)
  | .finished result, s => (.finished result, s)

variable {server} {inv : Invocation} {req : ToolCallRequest}

/-! ### One request alone -/

theorem handle_rejected (transport : Transport) {e : Thrown}
    (hdecode : server.decodeToolCall inv.body = .error e) (s : Trace) :
    server.handle transport inv s = server.failed transport inv default e s := by
  cases transport with
  | rest =>
    simp only [handle, restDispatch, hdecode]
    rfl
  | a2a =>
    simp only [handle, a2aTasks, hdecode]
    rfl
  | mcp =>
    simp only [handle, mcpToolsCall, hdecode]
    rfl

theorem handle_nameless (transport : Transport) (hdecode : server.decodeToolCall inv.body = .ok req)
    (hnone : req.tool = "" ∧ req.name = "") (s : Trace) :
    server.handle transport inv s =
      Effect.attempt (Effect.ofExcept (server.errorResponse 400 (nameMissing transport)))
        (server.failed transport inv req) s := by
  obtain ⟨htool, hname⟩ := hnone
  cases transport with
  | rest =>
    simp only [handle, restDispatch, hdecode, Effect.ofExcept_ok_bind, htool, hname, and_self,
      if_true]
    rfl
  | a2a =>
    simp only [handle, a2aTasks, hdecode, runTask, htool, hname, and_self, if_true]
    rfl
  | mcp =>
    simp only [handle, mcpToolsCall, hdecode, Effect.ofExcept_ok_bind, htool, hname, if_true]
    rfl

/-- The step behind `orCatch`, and the `catch` block if it comes to that. -/
theorem advance_orCatch (transport : Transport) (inv : Invocation) (req : ToolCallRequest)
    (x : Handler (Response Text)) (s : Trace) :
    server.advance transport inv (orCatch req (fun response => .finished (.ok response)) (x s)).1
        (orCatch req (fun response => .finished (.ok response)) (x s)).2 =
      (.finished (Effect.attempt x (server.failed transport inv req) s).1,
        (Effect.attempt x (server.failed transport inv req) s).2) := by
  cases h : x s with
  | mk result s' =>
    cases result with
    | ok response =>
      rw [Effect.attempt_ok h]
      rfl
    | error e =>
      rw [Effect.attempt_error h]
      rfl

/-- Three steps with nobody in between are the handler. -/
theorem advance_alone (transport : Transport) (inv : Invocation) (s : Trace) :
    (fun x : Phase Text × Trace => server.advance transport inv x.1 x.2)^[3] (.received, s) =
      (.finished (server.handle transport inv s).1, (server.handle transport inv s).2) := by
  show server.advance transport inv
      (server.advance transport inv (server.advance transport inv .received s).1
        (server.advance transport inv .received s).2).1
      (server.advance transport inv (server.advance transport inv .received s).1
        (server.advance transport inv .received s).2).2 = _
  cases hdecode : server.decodeToolCall inv.body with
  | error e =>
    have hfirst : server.advance transport inv .received s = (.caught default e, s) := by
      simp only [advance, hdecode]
    rw [hfirst, handle_rejected transport hdecode]
    rfl
  | ok req =>
    by_cases hnone : req.tool = "" ∧ req.name = ""
    · have hfirst : server.advance transport inv .received s =
          orCatch req (fun response => .finished (.ok response))
            ((Effect.ofExcept (server.errorResponse 400 (nameMissing transport)) :
              Handler (Response Text)) s) := by
        simp only [advance, hdecode, if_pos hnone, Effect.ofExcept_apply]
      rw [hfirst, advance_orCatch, handle_nameless transport hdecode hnone]
      rfl
    · have hname : req.tool ≠ "" ∨ req.name ≠ "" := not_and_or.mp hnone
      have hfirst : server.advance transport inv .received s =
          orCatch req (.returned req) (inv.run (toolCallFromRequest req) s) := by
        simp only [advance, hdecode, if_neg hnone]
      cases hdispatch : inv.dispatch (toolCallFromRequest req) with
      | error e =>
        rw [hfirst, handle_threw transport hdecode hname hdispatch, dispatchedTrace,
          Invocation.run, hdispatch]
        rfl
      | ok output =>
        rw [hfirst, handle_returned transport hdecode hname hdispatch, dispatchedTrace,
          Invocation.run, hdispatch]
        exact advance_orCatch transport inv req _ _

/-! ### A write among others -/

variable {Utf8 : String → Prop} {content : List DecisionRecord}

/-- What `Write` makes of a record, whatever the log is by then. -/
structure Kept (record r : DecisionRecord) : Prop where
  requestId : r.requestId = record.requestId
  toolName : r.toolName = record.toolName
  input : r.input = record.input
  output : r.output = record.output
  status : r.status = record.status
  error : r.error = record.error
  build : r.gitCommitSha = record.gitCommitSha ∧ r.packageVersion = record.packageVersion ∧
    r.randomSeed = record.randomSeed

theorem write_outcome (henc : server.Encoding Utf8) (hhash : ∀ text, server.hashBytes text ≠ "")
    (hok : server.toEnv.verifyChain content = .ok ()) {record : DecisionRecord}
    (hrecord : Prepared Utf8 record) (moment : Moment) {s : Trace} (hs : s.log = some content) :
    (server.Storable Utf8 moment content record ∧ ∃ r, Kept record r ∧
      server.toEnv.verifyChain (content ++ [r]) = .ok () ∧
      server.write moment record s = (.ok (), ⟨some (content ++ [r]),
        s.events ++ [.handed record]⟩)) ∨
    (¬server.Storable Utf8 moment content record ∧ ∃ e,
      server.write moment record s = (.error e, ⟨some content, s.events ++ [.handed record]⟩)) := by
  have hlog : ∀ r ∈ content, Utf8 r.recordHash := fun r hr =>
    henc.hashJson_utf8 ((Env.verifyChain_eq_ok.mp hok).1 r hr).record
  by_cases hstorable : server.Storable Utf8 moment content record
  · refine Or.inl ⟨hstorable, ?_⟩
    obtain ⟨r, hr⟩ := (henc.complete hlog hrecord moment.now).mpr
      ⟨hstorable.output, hstorable.error⟩
    have hwrite := (@Env.write_eq_ok _ server.toEnv content
      (server.auditCall content moment record) r).mpr ⟨hstorable.latest, hstorable.append, hr⟩
    obtain ⟨recordedAt, prev, inputHash, outputHash, recordHash, hfields⟩ := Env.complete_fields hr
    refine ⟨r, ?_, Env.verifyChain_complete hhash hok hr, ?_⟩
    · subst hfields
      exact ⟨rfl, rfl, rfl, rfl, rfl, rfl, rfl, rfl, rfl⟩
    · rw [write_some hs, hwrite]
      rfl
  · exact Or.inr ⟨hstorable, write_refused henc hlog hrecord hstorable hs⟩

/-! ### How far one request is -/

/-- The record is one of that request: it carries what the body says, or nothing
if the body was refused, what the call returned, and what the process is. -/
structure Belongs (server : Server Text) (transport : Transport) (inv : Invocation)
    (r : DecisionRecord) : Prop where
  call : match server.decodeToolCall inv.body with
    | .ok req => r.toolName = auditedName transport req ∧ r.input = req.arguments
    | .error _ => transport = .a2a ∧ r.toolName = "" ∧ r.input = .null
  requestId : transport = .a2a → r.requestId = server.taskId inv.body
  output : r.status = "ok" → ∃ req, server.decodeToolCall inv.body = .ok req ∧
    (req.tool ≠ "" ∨ req.name ≠ "") ∧ inv.dispatch (toolCallFromRequest req) = .ok r.output
  build : r.gitCommitSha = server.gitCommit ∧ r.packageVersion = server.packageVersion ∧
    r.randomSeed = server.randomSeed

/-- What the log has of a request by the time it is answered, in a storage that
takes every record. -/
def Accounted (server : Server Text) (Utf8 : String → Prop) (transport : Transport)
    (inv : Invocation) (mine : List DecisionRecord) : Prop :=
  ∀ req, server.decodeToolCall inv.body = .ok req → req.tool ≠ "" ∨ req.name ≠ "" →
    (∀ refusal content id, server.storage.appendFault refusal content id = none) →
    ((∃ r ∈ mine, TellsOutcome (inv.dispatch (toolCallFromRequest req)) r) ↔
      match inv.dispatch (toolCallFromRequest req) with
      | .ok output => inv.tried.latestFault = none ∧ output.AllStrings Utf8
      | .error e => transport = .a2a ∧ inv.caught.latestFault = none ∧ Utf8 e.what)

/-- Where a thrown exception comes from: a body that is refused, one that names
no tool, the call itself, or the recording and answering of a call that returned. -/
inductive Source (server : Server Text) (Utf8 : String → Prop) (transport : Transport)
    (inv : Invocation) (mine : List DecisionRecord) : ToolCallRequest → Thrown → Prop
  | rejected {e : Thrown} (hdecode : server.decodeToolCall inv.body = .error e) :
      Source server Utf8 transport inv mine default e
  | nameless {req : ToolCallRequest} {e : Thrown}
      (hdecode : server.decodeToolCall inv.body = .ok req)
      (hnone : ¬(req.tool ≠ "" ∨ req.name ≠ "")) : Source server Utf8 transport inv mine req e
  | threw {req : ToolCallRequest} {e : Thrown}
      (hdecode : server.decodeToolCall inv.body = .ok req)
      (hdispatch : inv.dispatch (toolCallFromRequest req) = .error e) (hmine : mine = []) :
      Source server Utf8 transport inv mine req e
  | returned {req : ToolCallRequest} {e : Thrown} {output : Json}
      (hdecode : server.decodeToolCall inv.body = .ok req)
      (hdispatch : inv.dispatch (toolCallFromRequest req) = .ok output)
      (hmine : server.Accounted Utf8 transport inv mine) :
      Source server Utf8 transport inv mine req e

/-- `mine` are the records of the request in the log. -/
def Progress (server : Server Text) (Utf8 : String → Prop) (transport : Transport)
    (inv : Invocation) (mine : List DecisionRecord) : Phase Text → Prop
  | .received => mine = []
  | .returned req output => mine = [] ∧ server.decodeToolCall inv.body = .ok req ∧
      (req.tool ≠ "" ∨ req.name ≠ "") ∧ inv.dispatch (toolCallFromRequest req) = .ok output
  | .caught req e => (transport = .a2a → mine = []) ∧ mine.length ≤ 1 ∧
      (∀ r ∈ mine, server.Belongs transport inv r) ∧ server.Source Utf8 transport inv mine req e
  | .finished _ => mine.length ≤ 1 ∧ (∀ r ∈ mine, server.Belongs transport inv r) ∧
      server.Accounted Utf8 transport inv mine

section Steps
variable {transport : Transport} {mine : List DecisionRecord} {e : Thrown} {output : Json}
  {r : DecisionRecord}

theorem belongs_okRecord (hdecode : server.decodeToolCall inv.body = .ok req)
    (hname : req.tool ≠ "" ∨ req.name ≠ "")
    (hdispatch : inv.dispatch (toolCallFromRequest req) = .ok output)
    (hr : Kept (server.okRecord transport inv req output) r) :
    server.Belongs transport inv r := by
  refine ⟨?_, ?_, ?_, hr.build⟩
  · rw [hdecode]
    exact ⟨hr.toolName, hr.input⟩
  · rintro rfl
    rw [hr.requestId]
    exact requestId_taskId _ _ _ _ _ _
  · intro _
    refine ⟨req, hdecode, hname, ?_⟩
    rw [hr.output]
    exact hdispatch

theorem belongs_errorRecord (hsource : server.Source Utf8 .a2a inv mine req e)
    (hr : Kept (server.errorRecord inv req e) r) : server.Belongs .a2a inv r := by
  have hid : r.requestId = server.taskId inv.body := by
    rw [hr.requestId]
    exact requestId_taskId _ _ _ _ _ _
  have herror : r.status = "error" := hr.status
  refine ⟨?_, fun _ => hid, fun hok => absurd (herror.symm.trans hok) (by decide), hr.build⟩
  cases hsource with
  | rejected hdecode =>
    rw [hdecode]
    exact ⟨rfl, hr.toolName, hr.input⟩
  | nameless hdecode | threw hdecode | returned hdecode =>
    rw [hdecode]
    exact ⟨hr.toolName, hr.input⟩

theorem prepared_errorRecord (henc : server.Encoding Utf8)
    (hsource : server.Source Utf8 transport inv mine req e) :
    Prepared Utf8 (server.errorRecord inv req e) := by
  cases hsource with
  | rejected hdecode =>
    exact henc.errorRecord (henc.ascii "" rfl) (henc.ascii "" rfl) .null e
  | nameless hdecode | threw hdecode | returned hdecode =>
    obtain ⟨htool, hname, harguments⟩ := henc.decode hdecode
    exact henc.errorRecord htool hname harguments e

/-- The records which the `catch` block adds to, if any. -/
theorem accounted_of_source {mine' : List DecisionRecord}
    (hsource : server.Source Utf8 transport inv mine req e)
    (hok : (∃ r ∈ mine', r.status = "ok") ↔ ∃ r ∈ mine, r.status = "ok")
    (herror : mine = [] → (∀ refusal content id, server.storage.appendFault refusal content id = none) →
      ((∃ r ∈ mine', r.status = "error" ∧ r.error = e.what) ↔
        transport = .a2a ∧ inv.caught.latestFault = none ∧ Utf8 e.what)) :
    server.Accounted Utf8 transport inv mine' := by
  intro req' hdecode' hname hstorage
  cases hsource with
  | rejected hdecode => cases hdecode.symm.trans hdecode'
  | nameless hdecode hnone =>
    cases hdecode.symm.trans hdecode'
    exact absurd hname hnone
  | threw hdecode hdispatch hmine =>
    cases hdecode.symm.trans hdecode'
    rw [hdispatch]
    exact herror hmine hstorage
  | returned hdecode hdispatch hmine =>
    cases hdecode.symm.trans hdecode'
    have haccounted := hmine req hdecode hname hstorage
    rw [hdispatch] at haccounted ⊢
    exact hok.trans haccounted

/-! ### One step -/

/-- Where a step leads from a log: it leaves the log alone, or it appends one record. -/
def Leads (server : Server Text) (Utf8 : String → Prop) (transport : Transport)
    (inv : Invocation) (content mine : List DecisionRecord) (next : Phase Text × Trace) : Prop :=
  (next.2.log = some content ∧ server.Progress Utf8 transport inv mine next.1) ∨
    ∃ r, next.2.log = some (content ++ [r]) ∧
      server.toEnv.verifyChain (content ++ [r]) = .ok () ∧
      server.Progress Utf8 transport inv (mine ++ [r]) next.1

theorem leads_received {s : Trace} (hs : s.log = some content) :
    server.Leads Utf8 transport inv content [] (server.advance transport inv .received s) := by
  refine Or.inl ?_
  have hshort : ([] : List DecisionRecord).length ≤ 1 := Nat.zero_le 1
  cases hdecode : server.decodeToolCall inv.body with
  | error e =>
    simp only [advance, hdecode]
    exact ⟨hs, fun _ => rfl, hshort, nofun, .rejected hdecode⟩
  | ok req =>
    by_cases hnone : req.tool = "" ∧ req.name = ""
    · have hname : ¬(req.tool ≠ "" ∨ req.name ≠ "") := by
        rw [← not_and_or]
        exact not_not_intro hnone
      simp only [advance, hdecode, if_pos hnone]
      cases server.errorResponse 400 (nameMissing transport) with
      | ok response =>
        refine ⟨hs, hshort, nofun, ?_⟩
        intro req' hdecode' hname'
        cases hdecode.symm.trans hdecode'
        exact absurd hname' hname
      | error e => exact ⟨hs, fun _ => rfl, hshort, nofun, .nameless hdecode hname⟩
    · simp only [advance, hdecode, if_neg hnone, Invocation.run]
      cases hdispatch : inv.dispatch (toolCallFromRequest req) with
      | ok output => exact ⟨hs, rfl, hdecode, not_and_or.mp hnone, hdispatch⟩
      | error e => exact ⟨hs, fun _ => rfl, hshort, nofun, .threw hdecode hdispatch rfl⟩

theorem leads_returned (henc : server.Encoding Utf8)
    (hhash : ∀ text, server.hashBytes text ≠ "")
    (hok : server.toEnv.verifyChain content = .ok ())
    (hdecode : server.decodeToolCall inv.body = .ok req) (hname : req.tool ≠ "" ∨ req.name ≠ "")
    (hdispatch : inv.dispatch (toolCallFromRequest req) = .ok output) {s : Trace}
    (hs : s.log = some content) :
    server.Leads Utf8 transport inv content []
      (server.advance transport inv (.returned req output) s) := by
  rcases write_outcome henc hhash hok (henc.okRecord transport hdecode output) inv.tried hs with
    ⟨hstorable, r, hr, hchain, hwrite⟩ | ⟨hstorable, e, hwrite⟩
  · have hbelongs : server.Belongs transport inv r := belongs_okRecord hdecode hname hdispatch hr
    have haccounted : server.Accounted Utf8 transport inv [r] := by
      intro req' hdecode' _ _
      cases hdecode.symm.trans hdecode'
      rw [hdispatch]
      exact iff_of_true ⟨r, List.mem_cons_self, hr.status⟩ ⟨hstorable.latest, hstorable.output⟩
    have hmine : ∀ r' ∈ [r], server.Belongs transport inv r' :=
      fun r' hr' => List.mem_singleton.mp hr' ▸ hbelongs
    refine Or.inr ⟨r, ?_⟩
    simp only [advance, Effect.bind_ok hwrite, Effect.ofExcept_apply]
    cases hanswer : server.answered transport inv output with
    | ok response => exact ⟨rfl, hchain, Nat.le_refl 1, hmine, haccounted⟩
    | error e =>
      refine ⟨rfl, hchain, ?_, Nat.le_refl 1, hmine, .returned hdecode hdispatch haccounted⟩
      -- A2A can answer with what it could record.
      rintro rfl
      obtain ⟨response, hresponse⟩ := @answered_a2a _ server _ inv henc _ hstorable.output
      cases hresponse.symm.trans hanswer
  · refine Or.inl ?_
    simp only [advance, Effect.bind_error hwrite]
    refine ⟨rfl, fun _ => rfl, Nat.zero_le 1, nofun, .returned hdecode hdispatch ?_⟩
    intro req' hdecode' _ hstorage
    cases hdecode.symm.trans hdecode'
    rw [hdispatch]
    refine iff_of_false (by simp) ?_
    intro h
    exact hstorable ((okRecord_storable henc hstorage transport output).mpr h)

theorem leads_caught (henc : server.Encoding Utf8) (hhash : ∀ text, server.hashBytes text ≠ "")
    (hok : server.toEnv.verifyChain content = .ok ()) (ha2a : transport = .a2a → mine = [])
    (hlength : mine.length ≤ 1) (hmine : ∀ r ∈ mine, server.Belongs transport inv r)
    (hsource : server.Source Utf8 transport inv mine req e) {s : Trace}
    (hs : s.log = some content) :
    server.Leads Utf8 transport inv content mine
      (server.advance transport inv (.caught req e) s) := by
  by_cases htransport : transport = .a2a
  · obtain rfl := ha2a htransport
    subst htransport
    simp only [advance, failed_a2a]
    rcases write_outcome henc hhash hok (prepared_errorRecord henc hsource) inv.caught hs with
      ⟨hstorable, r, hr, hchain, hwrite⟩ | ⟨hstorable, e', hwrite⟩
    · refine Or.inr ⟨r, ?_, hchain, Nat.le_refl 1, ?_, ?_⟩
      · rw [Effect.bind_ok hwrite]
        rfl
      · intro r' hr'
        rw [List.mem_singleton.mp hr']
        exact belongs_errorRecord hsource hr
      · have hstatus : r.status = "error" := hr.status
        refine accounted_of_source hsource ?_ ?_
        · simp [hstatus]
        · intro _ _
          exact iff_of_true ⟨r, List.mem_cons_self, hstatus, hr.error⟩
            ⟨rfl, hstorable.latest, hstorable.error⟩
    · refine Or.inl ⟨?_, hlength, hmine, accounted_of_source hsource Iff.rfl ?_⟩
      · rw [Effect.bind_error hwrite]
      · intro _ hstorage
        refine iff_of_false (by simp) ?_
        rintro ⟨-, h⟩
        exact hstorable ((errorRecord_storable hstorage e).mpr h)
  · refine Or.inl ⟨?_, hlength, hmine, accounted_of_source hsource Iff.rfl ?_⟩
    · show (server.failed transport inv req e s).2.log = some content
      rw [failed_log transport htransport, hs]
    · rintro rfl _
      exact iff_of_false (by simp) fun h => htransport h.1

theorem leads_advance (henc : server.Encoding Utf8) (hhash : ∀ text, server.hashBytes text ≠ "")
    (hok : server.toEnv.verifyChain content = .ok ()) {s : Trace} (hs : s.log = some content)
    {phase : Phase Text} (hprogress : server.Progress Utf8 transport inv mine phase) :
    server.Leads Utf8 transport inv content mine (server.advance transport inv phase s) := by
  cases phase with
  | received =>
    obtain rfl : mine = [] := hprogress
    exact leads_received hs
  | returned req output =>
    obtain ⟨rfl, hdecode, hname, hdispatch⟩ := hprogress
    exact leads_returned henc hhash hok hdecode hname hdispatch hs
  | caught req e =>
    obtain ⟨ha2a, hlength, hmine, hsource⟩ := hprogress
    exact leads_caught henc hhash hok ha2a hlength hmine hsource hs
  | finished result => exact Or.inl ⟨hs, hprogress⟩

end Steps

/-! ### All requests -/

theorem rank_advance (transport : Transport) (inv : Invocation) (phase : Phase Text) (s : Trace) :
    (server.advance transport inv phase s).1.rank ≤ phase.rank - 1 := by
  have hcatch {α : Type} (req : ToolCallRequest) (next : α → Phase Text) (n : ℕ)
      (hnext : ∀ a, (next a).rank ≤ n) (hn : 1 ≤ n) (x : Except Thrown α × Trace) :
      (orCatch req next x).1.rank ≤ n := by
    obtain ⟨result, s'⟩ := x
    cases result with
    | ok a => exact hnext a
    | error e => exact hn
  cases phase with
  | received =>
    show (server.advance transport inv .received s).1.rank ≤ 2
    cases hdecode : server.decodeToolCall inv.body with
    | error e =>
      simp only [advance, hdecode]
      exact Nat.le_succ 1
    | ok req =>
      by_cases hnone : req.tool = "" ∧ req.name = ""
      · simp only [advance, hdecode, if_pos hnone]
        refine hcatch req _ 2 ?_ (Nat.le_succ 1) _
        exact fun _ => Nat.zero_le 2
      · simp only [advance, hdecode, if_neg hnone]
        refine hcatch req _ 2 ?_ (Nat.le_succ 1) _
        exact fun _ => Nat.le_refl 2
  | returned req output =>
    show (orCatch req (fun response => Phase.finished (.ok response)) _).1.rank ≤ 1
    refine hcatch req _ 1 ?_ (Nat.le_refl 1) _
    exact fun _ => Nat.zero_le 1
  | caught req e => exact Nat.le_refl 0
  | finished result => exact Nat.le_refl 0

variable {W : Type}

/-- The handlers of the requests `requests`, one thread each. -/
def serveEach (server : Server Text) (requests : W → Transport × Invocation) (w : W) :
    Phase Text → Trace → Phase Text × Trace :=
  server.advance (requests w).1 (requests w).2

/-- The log is a chain behind `content`, and `journal` tells whose its new records are. -/
def Chained (server : Server Text) (content : List DecisionRecord) (s : Trace)
    (journal : List (W × DecisionRecord)) : Prop :=
  s.log = some (content ++ journal.map Prod.snd) ∧
    server.toEnv.verifyChain (content ++ journal.map Prod.snd) = .ok ()

/-- A request is as far as its records in the journal tell. -/
def ProgressEach [DecidableEq W] (server : Server Text) (Utf8 : String → Prop)
    (requests : W → Transport × Invocation) (w : W) (phase : Phase Text) (_ : Trace)
    (journal : List (W × DecisionRecord)) : Prop :=
  server.Progress Utf8 (requests w).1 (requests w).2 (entriesOf w journal) phase

theorem Progress.bounded {transport : Transport} {mine : List DecisionRecord}
    {phase : Phase Text} (h : server.Progress Utf8 transport inv mine phase) :
    mine.length ≤ 1 ∧ ∀ r ∈ mine, server.Belongs transport inv r := by
  cases phase with
  | received =>
    obtain rfl : mine = [] := h
    exact ⟨Nat.zero_le 1, nofun⟩
  | returned req output =>
    obtain ⟨rfl, -, -, -⟩ := h
    exact ⟨Nat.zero_le 1, nofun⟩
  | caught req e => exact ⟨h.2.1, h.2.2.1⟩
  | finished result => exact ⟨h.1, h.2.1⟩

/-- A step of one request: the others keep their records, and so what is known of them. -/
theorem chained_serveEach [DecidableEq W] (henc : server.Encoding Utf8)
    (hhash : ∀ text, server.hashBytes text ≠ "") (requests : W → Transport × Invocation) (w : W)
    (phase : Phase Text) (s : Trace) (journal : List (W × DecisionRecord))
    (hchained : server.Chained content s journal)
    (hprogress : server.ProgressEach Utf8 requests w phase s journal) :
    ∃ journal', server.Chained content (server.serveEach requests w phase s).2 journal' ∧
      server.ProgressEach Utf8 requests w (server.serveEach requests w phase s).1
        (server.serveEach requests w phase s).2 journal' ∧
      ∀ v u, v ≠ w → server.ProgressEach Utf8 requests v u s journal →
        server.ProgressEach Utf8 requests v u (server.serveEach requests w phase s).2 journal' := by
  obtain ⟨hlog, hchain⟩ := hchained
  rcases leads_advance henc hhash hchain hlog hprogress with ⟨hsame, hnext⟩ |
    ⟨r, hmore, hchain', hnext⟩
  · exact ⟨journal, ⟨hsame, hchain⟩, hnext, fun v u _ hv => hv⟩
  · refine ⟨journal ++ [(w, r)], ⟨?_, ?_⟩, ?_, ?_⟩
    · rw [List.map_append, ← List.append_assoc]
      exact hmore
    · rw [List.map_append, ← List.append_assoc]
      exact hchain'
    · show server.Progress Utf8 _ _ (entriesOf w (journal ++ [(w, r)])) _
      rw [entriesOf_append_self]
      exact hnext
    · intro v u hv hother
      show server.Progress Utf8 _ _ (entriesOf v (journal ++ [(w, r)])) u
      rw [entriesOf_append_of_ne hv]
      exact hother

theorem finished_of_count [DecidableEq W] (requests : W → Transport × Invocation)
    (c : Threads W Trace (Phase Text)) (schedule : List W) {w : W} (hw : 3 ≤ schedule.count w) :
    ∃ result, (Threads.run (server.serveEach requests) c schedule).own w = .finished result := by
  have hmove : ∀ phase s, True →
      (server.serveEach requests w phase s).1.rank ≤ phase.rank - 1 ∧ True :=
    fun phase s _ => ⟨rank_advance (requests w).1 (requests w).2 phase s, trivial⟩
  have hrank := (Threads.run_rank (c := c) w hmove trivial schedule).1
  have hstart : (c.own w).rank ≤ 3 := by
    cases c.own w <;> simp [Phase.rank]
  have hzero : ((Threads.run (server.serveEach requests) c schedule).own w).rank = 0 := by
    omega
  revert hzero
  cases (Threads.run (server.serveEach requests) c schedule).own w with
  | finished result => exact fun _ => ⟨result, rfl⟩
  | received | returned | caught => exact nofun

theorem chained_run [DecidableEq W] (henc : server.Encoding Utf8)
    (hhash : ∀ text, server.hashBytes text ≠ "") (requests : W → Transport × Invocation)
    (hok : server.toEnv.verifyChain content = .ok ()) (schedule : List W) :
    ∃ journal, Threads.Holds (server.Chained content) (server.ProgressEach Utf8 requests)
      (Threads.run (server.serveEach requests) ⟨⟨some content, []⟩, fun _ => .received⟩ schedule)
      journal := by
  have hstart : Threads.Holds (server.Chained content) (server.ProgressEach Utf8 requests)
      ⟨⟨some content, []⟩, fun _ => .received⟩ [] := by
    refine ⟨⟨?_, ?_⟩, fun w => rfl⟩
    · rw [List.map_nil, List.append_nil]
    · rw [List.map_nil, List.append_nil]
      exact hok
  exact Threads.run_holds (chained_serveEach henc hhash requests) hstart schedule

/-- A request that nobody interrupts is served as the handler serves it. -/
theorem served_alone [DecidableEq W] (requests : W → Transport × Invocation) (w : W)
    {c : Threads W Trace (Phase Text)} (hreceived : c.own w = .received) :
    Threads.run (server.serveEach requests) c (List.replicate 3 w) =
      ⟨(server.handle (requests w).1 (requests w).2 c.shared).2, Function.update c.own w
        (.finished (server.handle (requests w).1 (requests w).2 c.shared).1)⟩ := by
  rw [Threads.run_alone, hreceived]
  show (⟨((fun x : Phase Text × Trace => server.advance (requests w).1 (requests w).2 x.1 x.2)^[3]
    (.received, c.shared)).2, _⟩ : Threads W Trace (Phase Text)) = _
  rw [advance_alone]
  show (⟨_, Function.update c.own w ((fun x : Phase Text × Trace =>
    server.advance (requests w).1 (requests w).2 x.1 x.2)^[3] (.received, c.shared)).1⟩ :
      Threads W Trace (Phase Text)) = _
  rw [advance_alone]

end Server

/-- Whatever the threads do in between one another, the log stays a chain and only
grows; every request has at most one record in it, of its own call; and a
request that is answered has the record of what came of its call. -/
theorem concurrent_requests_audited {Text : Type} (server : Server Text) (Utf8 : String → Prop)
    (henc : server.Encoding Utf8) (hhash : ∀ text, server.hashBytes text ≠ "") {W : Type}
    [DecidableEq W] (requests : W → Transport × Invocation) (content : List DecisionRecord)
    (hok : server.toEnv.verifyChain content = .ok ()) (schedule : List W) :
    ∃ journal : List (W × DecisionRecord),
      (Threads.run (server.serveEach requests) ⟨⟨some content, []⟩, fun _ => .received⟩
        schedule).shared.log = some (content ++ journal.map Prod.snd) ∧
      server.toEnv.verifyChain (content ++ journal.map Prod.snd) = .ok () ∧
      (∀ w, (entriesOf w journal).length ≤ 1 ∧
        ∀ r ∈ entriesOf w journal, server.Belongs (requests w).1 (requests w).2 r) ∧
      (∀ w, 3 ≤ schedule.count w → ∃ result, (Threads.run (server.serveEach requests)
        ⟨⟨some content, []⟩, fun _ => .received⟩ schedule).own w = .finished result) ∧
      ∀ w result, (Threads.run (server.serveEach requests)
          ⟨⟨some content, []⟩, fun _ => .received⟩ schedule).own w = .finished result →
        server.Accounted Utf8 (requests w).1 (requests w).2 (entriesOf w journal) := by
  obtain ⟨journal, hchained, hown⟩ := Server.chained_run henc hhash requests hok schedule
  refine ⟨journal, hchained.1, hchained.2, fun w => (hown w).bounded,
    fun w hw => Server.finished_of_count requests _ schedule hw, ?_⟩
  intro w result hresult
  have hw := hown w
  rw [hresult] at hw
  exact hw.2.2

theorem callDigest_ne_empty (value : Json) : callDigest value ≠ "" := by
  unfold callDigest
  split
  · decide
  · decide
  · decide
  · split
    · decide
    · decide
    · decide
    · decide
    · decide
    · decide
  · decide

/-- Two tasks that are received, dispatched and recorded in turns. -/
theorem concurrent_requests_audited_two_tasks :
    ∃ journal : List (Bool × DecisionRecord),
      (Threads.run ((sampleServer .memory).serveEach fun second =>
          (.a2a, sampleInvocation (if second then unknownBody else healthBody)))
        ⟨⟨some [], []⟩, fun _ => .received⟩ [false, true, true, false, false]).shared.log =
          some ([] ++ journal.map Prod.snd) ∧
      (∃ r ∈ entriesOf false journal, r.status = "ok") ∧
      ∃ r ∈ entriesOf true journal,
        r.status = "error" ∧ r.error = "invalid command: unknown tool nope" := by
  obtain ⟨journal, hlog, -, -, -, haccounted⟩ := concurrent_requests_audited (sampleServer .memory)
    (fun _ => True) (sampleServer_encoding .memory) callDigest_ne_empty
    (fun second : Bool => (.a2a, sampleInvocation (if second then unknownBody else healthBody)))
    [] rfl [false, true, true, false, false]
  refine ⟨journal, hlog, ?_, ?_⟩
  · exact (haccounted false _ rfl ⟨"health", "", .object []⟩ rfl (.inl (by decide))
      fun _ _ _ => rfl).mpr ⟨rfl, Json.allStrings_true _⟩
  · exact (haccounted true _ rfl ⟨"nope", "", .object []⟩ rfl (.inl (by decide))
      fun _ _ _ => rfl).mpr ⟨rfl, rfl, trivial⟩

end StandardTools.Api
