import StandardTools.Agent.Stateless
import StandardTools.Agent.Texts
import StandardTools.Api.Attribution
import StandardTools.Api.Concurrency

/-!
# The audit log as a script (`server/main.cpp:85-113`, `api/helpers.hpp:61-81`)

The threads of a server share the market data service and the audit log. The record of
a call that returned names the tool and its arguments. To call that tool with them on a
server which has just been started gives what is recorded.
-/

namespace StandardTools.Agent
open StandardTools.Core StandardTools.Audit StandardTools.Lib Api MarketData

/-- A request, before anything is known of what its call comes to. -/
structure Received where
  transport : Transport
  body : String
  tried : Moment
  caught : Moment

def Received.invocation (received : Received) (result : Except Thrown Json) : Invocation :=
  ⟨received.body, fun _ => result, received.tried, received.caught⟩

/-- How far a request is: in the dispatcher, or behind it. -/
inductive Stage (Text : Type) where
  | dispatching (phase : CallPhase Binary64)
  | handling (result : Except Thrown Json) (phase : Phase Text)

/-- The steps that a request has before it, at most. -/
def Stage.rank {Text : Type} : Stage Text → ℕ
  | .dispatching phase => phase.rank + 4
  | .handling _ phase => phase.rank

/-- What leaves the dispatcher, if anything defined does. -/
def resultOf : Except Stopped Json → Option (Except Thrown Json)
  | .ok output => some (.ok output)
  | .error (.thrown e) => some (.error e)
  | .error .undefined => none

theorem resultOf_eq_ok {x : Except Stopped Json} {output : Json}
    (h : resultOf x = some (.ok output)) : x = .ok output := by
  cases x with
  | ok y =>
    cases h
    rfl
  | error e =>
    cases e with
    | thrown e => cases h
    | undefined => cases h

theorem resultOf_eq_none {x : Except Stopped Json} (h : resultOf x = none) :
    x = .error .undefined := by
  cases x with
  | ok y => cases h
  | error e =>
    cases e with
    | thrown e => cases h
    | undefined => rfl

/-- The call in a body, if it names a tool. -/
def callOf {Text : Type} (server : Server Text) (body : String) : Option ToolCall :=
  match server.decodeToolCall body with
  | .ok req => if req.tool = "" ∧ req.name = "" then none else some (toolCallFromRequest req)
  | .error _ => none

theorem callOf_eq_some {Text : Type} {server : Server Text} {body : String} {call : ToolCall} :
    callOf server body = some call ↔ ∃ req, server.decodeToolCall body = .ok req ∧
      (req.tool ≠ "" ∨ req.name ≠ "") ∧ toolCallFromRequest req = call := by
  unfold callOf
  cases server.decodeToolCall body with
  | error e =>
    refine iff_of_false nofun ?_
    rintro ⟨req, hreq, -⟩
    cases hreq
  | ok req =>
    simp only [Except.ok.injEq, exists_eq_left', ← not_and_or]
    split_ifs with hnone
    · simp [hnone]
    · simp [hnone]

/-- The body gives the call one name, as far as the transport looks. -/
def NamesOne {Text : Type} (server : Server Text) (r : Received) : Prop :=
  ∀ req, server.decodeToolCall r.body = .ok req →
    ¬(r.transport = .mcp ∧ req.tool ≠ "" ∧ req.name ≠ "" ∧ req.tool ≠ req.name)

namespace Host
variable {Text W : Type} (host : Host) (server : Server Text) (received : W → Received)

/-- One step of the dispatcher or of the handler behind it. What the dispatcher has
returned stays with the request. -/
def serve (w : W) :
    Stage Text → Service Binary64 × Trace → Stage Text × (Service Binary64 × Trace)
  | .dispatching phase, (s, trace) =>
    match callOf server (received w).body with
    | none => (.handling (.ok .null) .received, (s, trace))
    | some call =>
      match (host.plan call).outcome phase with
      | some x =>
        match resultOf x with
        | some result => (.handling result .received, (s, trace))
        -- Nothing can be said about what comes after an undefined operation.
        | none => (.dispatching phase, (s, trace))
      | none =>
        let next := (host.plan call).advance host.isoDay phase s
        (.dispatching next.1, (next.2, trace))
  | .handling result phase, (s, trace) =>
    let next := server.advance (received w).transport ((received w).invocation result) phase trace
    (.handling result next.1, (s, next.2))

variable {host server received}

section Equations
variable {w : W} {call : ToolCall} {phase : CallPhase Binary64} {s : Service Binary64}
  {trace : Trace}

theorem serve_nameless (hcall : callOf server (received w).body = none) :
    host.serve server received w (.dispatching phase) (s, trace) =
      (.handling (.ok .null) .received, (s, trace)) := by
  simp only [serve, hcall]

theorem serve_advance (hcall : callOf server (received w).body = some call)
    (hnone : (host.plan call).outcome phase = none) :
    host.serve server received w (.dispatching phase) (s, trace) =
      (.dispatching ((host.plan call).advance host.isoDay phase s).1,
        (((host.plan call).advance host.isoDay phase s).2, trace)) := by
  simp only [serve, hcall, hnone]

theorem serve_returned (hcall : callOf server (received w).body = some call)
    {x : Except Stopped Json} (hx : (host.plan call).outcome phase = some x)
    {result : Except Thrown Json} (hresult : resultOf x = some result) :
    host.serve server received w (.dispatching phase) (s, trace) =
      (.handling result .received, (s, trace)) := by
  simp only [serve, hcall, hx, hresult]

theorem serve_undefined (hcall : callOf server (received w).body = some call)
    {x : Except Stopped Json} (hx : (host.plan call).outcome phase = some x)
    (hresult : resultOf x = none) :
    host.serve server received w (.dispatching phase) (s, trace) =
      (.dispatching phase, (s, trace)) := by
  simp only [serve, hcall, hx, hresult]

end Equations

/-! ### How far a request is -/

/-- What the dispatcher returns for the request is what it returns first of all. -/
def Repeats (host : Host) (server : Server Text) (body : String)
    (result : Except Thrown Json) : Prop :=
  ∀ call, callOf server body = some call → resultOf (host.answer call) = some result

/-- `mine` are the records of the request in the log. -/
def Progress (host : Host) (server : Server Text) (Utf8 : String → Prop) (r : Received)
    (mine : List DecisionRecord) : Stage Text → Prop
  | .dispatching phase =>
    mine = [] ∧ ∀ call, callOf server r.body = some call → host.Known call phase
  | .handling result phase =>
    host.Repeats server r.body result ∧
      server.Progress Utf8 r.transport (r.invocation result) mine phase

/-- The dates of every call are within the range of the clock. -/
def Fits (host : Host) (server : Server Text) (r : Received) : Prop :=
  ∀ call, callOf server r.body = some call → DatesFit host.parseDay call.arguments

variable {Utf8 : String → Prop} {content mine : List DecisionRecord}

theorem progress_returned {r : Received} {result : Except Thrown Json}
    (hresult : host.Repeats server r.body result) :
    host.Progress server Utf8 r [] (.handling result .received) := ⟨hresult, rfl⟩

/-- A step in the dispatcher does not touch the log. -/
theorem progress_dispatching {w : W} (hfit : host.Fits server (received w))
    {phase : CallPhase Binary64} {s : Service Binary64} (hs : host.settled.Sound s)
    (hprogress : host.Progress server Utf8 (received w) mine (.dispatching phase))
    (trace : Trace) :
    ∃ stage s', host.serve server received w (.dispatching phase) (s, trace) =
        (stage, (s', trace)) ∧ host.settled.Sound s' ∧
      host.Progress server Utf8 (received w) mine stage := by
  obtain ⟨rfl, hknown⟩ := hprogress
  cases hcall : callOf server (received w).body with
  | none =>
    refine ⟨_, _, serve_nameless hcall, hs, progress_returned fun call h => ?_⟩
    cases hcall.symm.trans h
  | some call =>
    have hphase := hknown call hcall
    have hself {P : ToolCall → Prop} (h : P call) :
        ∀ other, callOf server (received w).body = some other → P other := by
      intro other hother
      cases hcall.symm.trans hother
      exact h
    cases houtcome : (host.plan call).outcome phase with
    | none =>
      obtain ⟨hsound, hnext⟩ := known_advance (hfit call hcall) hs hphase
      exact ⟨_, _, serve_advance hcall houtcome, hsound, rfl, hself hnext⟩
    | some x =>
      cases hresult : resultOf x with
      | none => exact ⟨_, _, serve_undefined hcall houtcome hresult, hs, rfl, hknown⟩
      | some result =>
        rw [outcome_eq_answer hphase houtcome] at hresult
        refine ⟨_, _, serve_returned hcall houtcome ?_, hs, progress_returned (hself hresult)⟩
        rw [outcome_eq_answer hphase houtcome]
        exact hresult

/-! ### All requests -/

variable (host server) in
/-- The service is one of the providers it has started with, and the log is a chain. -/
def Shared (content : List DecisionRecord) (x : Service Binary64 × Trace)
    (journal : List (W × DecisionRecord)) : Prop :=
  host.settled.Sound x.1 ∧ server.Chained content x.2 journal

variable (host server received) in
def ProgressEach [DecidableEq W] (Utf8 : String → Prop) (w : W) (stage : Stage Text)
    (_ : Service Binary64 × Trace) (journal : List (W × DecisionRecord)) : Prop :=
  host.Progress server Utf8 (received w) (entriesOf w journal) stage

theorem shared_serve [DecidableEq W] (henc : server.Encoding Utf8)
    (hhash : ∀ text, server.hashBytes text ≠ "") (hfit : ∀ w, host.Fits server (received w))
    (w : W) (stage : Stage Text) (x : Service Binary64 × Trace)
    (journal : List (W × DecisionRecord)) (hshared : host.Shared server content x journal)
    (hprogress : host.ProgressEach server received Utf8 w stage x journal) :
    ∃ journal', host.Shared server content (host.serve server received w stage x).2 journal' ∧
      host.ProgressEach server received Utf8 w (host.serve server received w stage x).1
        (host.serve server received w stage x).2 journal' ∧
      ∀ v u, v ≠ w → host.ProgressEach server received Utf8 v u x journal →
        host.ProgressEach server received Utf8 v u (host.serve server received w stage x).2
          journal' := by
  obtain ⟨s, trace⟩ := x
  obtain ⟨hs, hlog, hchain⟩ := hshared
  cases stage with
  | dispatching phase =>
    obtain ⟨stage, s', hserve, hs', hnext⟩ := progress_dispatching (hfit w) hs hprogress trace
    rw [hserve]
    exact ⟨journal, ⟨hs', hlog, hchain⟩, hnext, fun v u _ hv => hv⟩
  | handling result phase =>
    obtain ⟨hresult, hphase⟩ := hprogress
    rcases Server.leads_advance henc hhash hchain hlog hphase with ⟨hsame, hnext⟩ |
      ⟨r, hmore, hchain', hnext⟩
    · exact ⟨journal, ⟨hs, hsame, hchain⟩, ⟨hresult, hnext⟩, fun v u _ hv => hv⟩
    · refine ⟨journal ++ [(w, r)], ⟨hs, ?_, ?_⟩, ⟨hresult, ?_⟩, ?_⟩
      · rw [List.map_append, ← List.append_assoc]
        exact hmore
      · rw [List.map_append, ← List.append_assoc]
        exact hchain'
      · rw [entriesOf_append_self]
        exact hnext
      · intro v u hv hother
        show host.Progress server Utf8 (received v) (entriesOf v (journal ++ [(w, r)])) u
        rw [entriesOf_append_of_ne hv]
        exact hother

/-- Where the call is defined, every step brings a request nearer to its answer. -/
theorem rank_serve {w : W} (hdefined : ∀ call, callOf server (received w).body = some call →
      host.answer call ≠ .error .undefined) {stage : Stage Text}
    (hprogress : host.Progress server Utf8 (received w) mine stage)
    (x : Service Binary64 × Trace) :
    (host.serve server received w stage x).1.rank ≤ stage.rank - 1 := by
  obtain ⟨s, trace⟩ := x
  cases stage with
  | dispatching phase =>
    obtain ⟨-, hknown⟩ := hprogress
    cases hcall : callOf server (received w).body with
    | none =>
      rw [serve_nameless hcall]
      show 3 ≤ phase.rank + 4 - 1
      omega
    | some call =>
      have hphase := hknown call hcall
      cases houtcome : (host.plan call).outcome phase with
      | none =>
        have hless := rank_advance hphase houtcome s
        rw [serve_advance hcall houtcome]
        show ((host.plan call).advance host.isoDay phase s).1.rank + 4 ≤ phase.rank + 4 - 1
        omega
      | some x =>
        cases hresult : resultOf x with
        | none =>
          rw [outcome_eq_answer hphase houtcome] at hresult
          exact absurd (resultOf_eq_none hresult) (hdefined call hcall)
        | some result =>
          rw [serve_returned hcall houtcome hresult]
          show 3 ≤ phase.rank + 4 - 1
          omega
  | handling result phase => exact Server.rank_advance _ _ phase trace

variable (host received) in
/-- The server before any of the requests. -/
def begin (content : List DecisionRecord) :
    Threads W (Service Binary64 × Trace) (Stage Text) :=
  ⟨(host.settled.start, ⟨some content, []⟩), fun _ => .dispatching .called⟩

variable (host server received) in
/-- The server behind the steps of that order. -/
def runs [DecidableEq W] (content : List DecisionRecord) (schedule : List W) :
    Threads W (Service Binary64 × Trace) (Stage Text) :=
  Threads.run (host.serve server received) (host.begin content) schedule

theorem holds_begin [DecidableEq W] (hok : server.toEnv.verifyChain content = .ok ()) :
    Threads.Holds (host.Shared server content) (host.ProgressEach server received Utf8)
      (host.begin content) [] := by
  refine ⟨⟨Settled.sound_start, ?_, ?_⟩, fun w => ⟨rfl, fun call _ => known_called call⟩⟩
  · rw [List.map_nil, List.append_nil]
    rfl
  · rw [List.map_nil, List.append_nil]
    exact hok

theorem holds_runs [DecidableEq W] (henc : server.Encoding Utf8)
    (hhash : ∀ text, server.hashBytes text ≠ "") (hfit : ∀ w, host.Fits server (received w))
    (hok : server.toEnv.verifyChain content = .ok ()) (schedule : List W) :
    ∃ journal, Threads.Holds (host.Shared server content)
      (host.ProgressEach server received Utf8) (host.runs server received content schedule)
      journal :=
  Threads.run_holds (shared_serve henc hhash hfit) (holds_begin hok) schedule

theorem answered_of_count [DecidableEq W] (henc : server.Encoding Utf8)
    (hhash : ∀ text, server.hashBytes text ≠ "") (hfit : ∀ w, host.Fits server (received w))
    (hok : server.toEnv.verifyChain content = .ok ()) (schedule : List W) {w : W}
    (hdefined : ∀ call, callOf server (received w).body = some call →
      host.answer call ≠ .error .undefined) (hcount : 8 ≤ schedule.count w) :
    ∃ result answer, (host.runs server received content schedule).own w =
      .handling result (.finished answer) := by
  have hstart : ∃ journal, Threads.Holds (host.Shared server content)
      (host.ProgressEach server received Utf8) (host.begin content) journal := ⟨[], holds_begin hok⟩
  have hrank : ((host.runs server received content schedule).own w).rank ≤
      8 - schedule.count w :=
    Threads.run_rank_of_invariant w (Threads.holds_step (shared_serve henc hhash hfit))
      (fun c ⟨journal, hc⟩ => rank_serve hdefined (hc.each w) c.shared) hstart schedule
  have hzero : ((host.runs server received content schedule).own w).rank = 0 := by
    omega
  revert hzero
  cases (host.runs server received content schedule).own w with
  | dispatching phase =>
    intro hzero
    exact absurd hzero (Nat.succ_ne_zero _)
  | handling result phase =>
    cases phase with
    | finished answer => exact fun _ => ⟨result, answer, rfl⟩
    | received | returned | caught => exact nofun

/-! ### The records -/

/-- A record of a returned call replays. -/
theorem answer_of_record {r : Received} {stage : Stage Text} {record : DecisionRecord}
    (hprogress : host.Progress server Utf8 r mine stage) (hrecord : record ∈ mine)
    (hstatus : record.status = "ok") : ∃ req, server.decodeToolCall r.body = .ok req ∧
      record.toolName = Server.auditedName r.transport req ∧ record.input = req.arguments ∧
      host.answer (toolCallFromRequest req) = .ok record.output := by
  cases stage with
  | dispatching phase =>
    rw [hprogress.1] at hrecord
    exact absurd hrecord List.not_mem_nil
  | handling result phase =>
    obtain ⟨hrepeats, hphase⟩ := hprogress
    have hbelongs := hphase.bounded.2 record hrecord
    obtain ⟨req, hdecode, hname, houtput⟩ := hbelongs.output hstatus
    have hcall := hbelongs.call
    rw [show (r.invocation result).body = r.body from rfl] at hcall hdecode
    rw [hdecode] at hcall
    refine ⟨req, hdecode, hcall.1, hcall.2, ?_⟩
    have hresult : result = .ok record.output := houtput
    have hanswer := hrepeats _ (callOf_eq_some.mpr ⟨req, hdecode, hname, rfl⟩)
    rw [hresult] at hanswer
    exact resultOf_eq_ok hanswer

/-- A call that has returned is recorded, in a storage that takes every record. -/
theorem record_of_answer (henc : server.Encoding Utf8) (hwrites : host.Writes Utf8)
    {r : Received} {result : Except Thrown Json} {response : Except Thrown (Response Text)}
    (hprogress : host.Progress server Utf8 r mine (.handling result (.finished response)))
    {call : ToolCall} (hcall : callOf server r.body = some call) {output : Json}
    (hanswer : host.answer call = .ok output) (hlatest : r.tried.latestFault = none)
    (hstorage : ∀ refusal content id, server.storage.appendFault refusal content id = none) :
    ∃ record ∈ mine, record.status = "ok" ∧ record.input = call.arguments ∧
      record.output = output := by
  obtain ⟨hrepeats, hfinished⟩ := hprogress
  obtain ⟨req, hdecode, hname, rfl⟩ := callOf_eq_some.mp hcall
  have hresult : result = .ok output := by
    have h := hrepeats _ hcall
    rw [hanswer] at h
    exact (Option.some.inj h).symm
  subst hresult
  have htexts : output.AllStrings Utf8 := by
    rw [answer, Dispatcher.dispatch_eq_plan] at hanswer
    have harguments : req.arguments.AllStrings Utf8 :=
      (henc.decode (show server.decodeToolCall (r.invocation (.ok output)).body = .ok req from
        hdecode)).2.2
    exact (hwrites.plan harguments).output hanswer
  have haccounted := hfinished.2.2 req hdecode hname hstorage
  obtain ⟨record, hmem, hstatus⟩ := haccounted.mpr ⟨hlatest, htexts⟩
  have hbelongs := hfinished.2.1 record hmem
  have hcalled := hbelongs.call
  have houtput : (.ok output : Except Thrown Json) = .ok record.output := by
    obtain ⟨named, -, -, h⟩ := hbelongs.output hstatus
    exact h
  rw [show (r.invocation (.ok output)).body = r.body from rfl, hdecode] at hcalled
  exact ⟨record, hmem, hstatus, hcalled.2, (Except.ok.inj houtput).symm⟩

end Host

theorem repr_no_colon (day : ℤ) : ':' ∉ day.repr.toList := by
  have hdigits : ∀ n : ℕ, ':' ∉ n.repr.toList := by
    intro n h
    rw [Nat.toList_repr] at h
    have hdigit := Nat.isDigit_of_mem_toDigits (by decide) (by decide) h
    exact absurd hdigit (by decide)
  cases day with
  | ofNat n => exact hdigits n
  | negSucc n =>
    show ':' ∉ ("-" ++ (n + 1).repr).toList
    rw [String.toList_append, List.mem_append, not_or]
    exact ⟨by decide, hdigits (n + 1)⟩

def sampleHost : Host where
  toDispatcher := .sample
  defaultProvider := "synthetic"
  providers := StdMap.empty.insert "synthetic" Dispatcher.unitProvider
  rendering := by
    refine ⟨fun day day' h => ?_, fun day => ?_⟩
    · have hlist : ("2024-01-0" ++ (day - 19722).repr).toList =
          ("2024-01-0" ++ (day' - 19722).repr).toList := congrArg String.toList h
      rw [String.toList_append, String.toList_append] at hlist
      have hrepr := Int.repr_injective (String.toList_injective (List.append_cancel_left hlist))
      omega
    · show ':' ∉ ("2024-01-0" ++ (day - 19722).repr).toList
      rw [String.toList_append, List.mem_append, not_or]
      exact ⟨by decide, repr_no_colon _⟩
  no_colon := by
    intro name provider hname
    rw [StdMap.find?_insert, Function.update_apply] at hname
    split_ifs at hname with hsynthetic
    · rw [hsynthetic]
      decide
    · cases hname

def pricesBody : String :=
  "\x7b\"tool\":\"fetch_ohlcv\",\"arguments\":\x7b\"ticker\":\"AAPL\"," ++
    "\"start\":\"2024-01-01\",\"end\":\"2024-01-02\"\x7d\x7d"

/-- SHA-256 of what the record of the prices adds to the texts of the other samples. -/
def pricesDigest : Json → String
  | .array _ => "ce068e955ad497bf4d3a220ab18616b80c437c2373ccb01b58674c23e5618fc9"
  | .object entries =>
    match entries.lookup "tool_name", entries.lookup "prev_record_hash" with
    | some (.string "fetch_ohlcv"), some (.string "") =>
      "2f569183a677ca0825f41f7b44627bdba12434310b8bc4aa8693f81d1d74ca33"
    | some (.string "fetch_ohlcv"), _ =>
      "7987947abd6406fc6ae333f9a8983d6c91085798175b4f3c174d8673f0a3230e"
    | _, _ =>
      if (entries.lookup "ticker").isSome then
        "7d8128d3116a8b28032b979b52ed01f30be317e4762e9a98930649c084aa2f53"
      else callDigest (.object entries)
  | value => callDigest value

def pricesServer : Server Json :=
  { sampleServer .memory with
    hashBytes := pricesDigest
    parse := fun body =>
      if body = pricesBody then
        some (.object [("arguments", Dispatcher.fetchCall.arguments),
          ("tool", .string "fetch_ohlcv")])
      else (sampleServer .memory).parse body }

theorem pricesServer_encoding : pricesServer.Encoding fun _ => True where
  dump := (sampleServer_encoding .memory).dump
  dump_field := (sampleServer_encoding .memory).dump_field
  parse _ j _ := j.allStrings_true
  ascii _ _ := trivial
  hashBytes _ := trivial
  isoDay _ := trivial
  gitCommit := trivial
  packageVersion := trivial

theorem pricesDigest_ne_empty (value : Json) : pricesDigest value ≠ "" := by
  unfold pricesDigest
  split
  · decide
  · split
    · decide
    · decide
    · split_ifs
      · decide
      · exact callDigest_ne_empty _
  · exact callDigest_ne_empty _

def sampleReceived (second : Bool) : Received :=
  if second then ⟨.a2a, unknownBody, sampleMoment, sampleMoment⟩
  else ⟨.rest, pricesBody, sampleMoment, sampleMoment⟩

end StandardTools.Agent
