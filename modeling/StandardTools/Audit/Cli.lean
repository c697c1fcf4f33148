import StandardTools.Audit.Backends

/-!
# The audit commands (`cli/main.cpp`, `audit/replay.cpp`)

A command opens the database that the server writes to, in a process of its own.
It prints a line or a record, or it leaves the text of an exception on
`std::cerr` and exits with 1. No argument of a process has a NUL.
-/

namespace StandardTools.Audit
open StandardTools.Core StandardTools.Lib

inductive Command where
  | verify
  | report (requestId : String)
  | replay (requestId : String)
  | anchor

/-- A line, or the JSON text of a record. -/
inductive Printed where
  | line (text : String)
  | json (value : Json)

/-- `audit::Replay`, or the text of what it throws. -/
def replay (get : String → Except AuditError DecisionRecord) (requestId : String) :
    Except String DecisionRecord :=
  if requestId = "" then .error (Error.what (.invalidCommand "request_id is required"))
  else (get requestId).mapError AuditError.what

namespace Session
variable {Text : Type} (session : Session Text)

def runCommand (table : List (Stored Text)) : Command → Except String Printed
  | .verify =>
    match session.verifyTable table with
    | .ok () => .ok (.line "audit chain OK")
    | .error e => .error ("error: " ++ e.what)
  | .report requestId =>
    match session.getByRequestID table requestId with
    | .ok record => .ok (.json (session.recordJson record))
    | .error e => .error ("error: " ++ e.what)
  | .replay requestId =>
    match replay (session.getByRequestID table) requestId with
    | .ok record => .ok (.json (session.recordJson record))
    | .error msg => .error ("error: " ++ msg)
  | .anchor =>
    match session.latest table with
    | .ok latest => .ok (.line latest.recordHash)
    | .error .notFound => .ok (.line "no audit records")
    | .error e => .error ("error: " ++ e.what)

/-- What a record is printed as: its own fields, at the day of the time that comes
back; or that there is none. -/
def lookedUp (content : List DecisionRecord) (requestId : String) : Except String Printed :=
  match content.find? fun r => r.requestId = requestId with
  | some r => .ok (.json (session.recordJson (session.rereadRecord r)))
  | none => .error "error: audit: no records found"

variable {session} {content : List DecisionRecord} {table : List (Stored Text)}

/-! ### On the rows of known records -/

theorem getByRequestID_eq (h : session.Represents content table) (requestId : String) :
    session.getByRequestID table requestId =
      match content.find? fun r => r.requestId = requestId with
      | some r => .ok (session.rereadRecord r)
      | none => .error .notFound := by
  rw [h.getByRequestID, Audit.getByRequestID, Represents.find_reverse h.ids]
  cases content.find? fun r => r.requestId = requestId with
  | some r => rfl
  | none => rfl

theorem runCommand_report (h : session.Represents content table) (requestId : String) :
    session.runCommand table (.report requestId) = session.lookedUp content requestId := by
  simp only [runCommand, getByRequestID_eq h, lookedUp]
  cases content.find? fun r => r.requestId = requestId with
  | some r => rfl
  | none => rfl

theorem runCommand_replay (h : session.Represents content table) {requestId : String}
    (hid : requestId ≠ "") :
    session.runCommand table (.replay requestId) = session.lookedUp content requestId := by
  simp only [runCommand, replay, if_neg hid, getByRequestID_eq h, lookedUp]
  cases content.find? fun r => r.requestId = requestId with
  | some r => rfl
  | none => rfl

theorem runCommand_anchor (h : session.Represents content table) :
    session.runCommand table .anchor =
      .ok (.line ((content.getLast?.map (·.recordHash)).getD "no audit records")) := by
  simp only [runCommand, h.latest, Audit.latest]
  cases content.getLast? with
  | some r => rfl
  | none => rfl

theorem runCommand_verify (h : session.Represents content table)
    (hdist : ∀ r ∈ content, session.Distinguishes r) :
    session.runCommand table .verify = .ok (.line "audit chain OK") ↔
      ∀ r ∈ content, session.KeepsDay r.recordedAt := by
  rw [← h.records, List.forall_mem_map] at hdist ⊢
  rw [← verifyTable_iff h.kept hdist]
  unfold runCommand
  cases session.verifyTable table with
  | ok u => simp
  | error e => simp

/-- What the storages hold once the queries have been put to them. -/
theorem represents_final (hhash : ∀ text, session.hashBytes text ≠ "") (hraw : session.DumpsRaw)
    {queries : List Asked} (hlegal : ∀ asked ∈ queries, session.Legal asked)
    (htaken : Machine.Throughout session.memoryStep session.Taken [] queries) :
    session.Represents (Machine.final session.memoryStep [] queries)
      (Machine.final session.tableStep [] queries) :=
  Machine.final_related
    (fun _ _ asked h hq htaken => (agree_step hhash hraw h asked hq).2 htaken)
    represents_empty hlegal htaken

end Session

/-- On the database of a server that has written any records, each under an id of its
own and none refused: `anchor` prints the hash of the last one, `report` and `replay`
print the record of the id as it comes back, at a time that may be of another day, and
`verify` accepts the log exactly when every record comes back on its own day. -/
theorem cli_on_written_table {Text : Type} (session : Session Text)
    (hhash : ∀ text, session.hashBytes text ≠ "") (hraw : session.DumpsRaw) (queries : List Asked)
    (hlegal : ∀ asked ∈ queries, session.Legal asked)
    (htaken : Machine.Throughout session.memoryStep session.Taken [] queries) :
    session.runCommand (Machine.final session.tableStep [] queries) .anchor =
        .ok (.line (((Machine.final session.memoryStep [] queries).getLast?.map
          (·.recordHash)).getD "no audit records")) ∧
      (∀ requestId,
        session.runCommand (Machine.final session.tableStep [] queries) (.report requestId) =
          session.lookedUp (Machine.final session.memoryStep [] queries) requestId ∧
        (requestId ≠ "" →
          session.runCommand (Machine.final session.tableStep [] queries) (.replay requestId) =
            session.lookedUp (Machine.final session.memoryStep [] queries) requestId)) ∧
      ((∀ r ∈ Machine.final session.memoryStep [] queries, session.Distinguishes r) →
        (session.runCommand (Machine.final session.tableStep [] queries) .verify =
            .ok (.line "audit chain OK") ↔
          ∀ r ∈ Machine.final session.memoryStep [] queries, session.KeepsDay r.recordedAt)) := by
  have h := Session.represents_final hhash hraw hlegal htaken
  refine ⟨Session.runCommand_anchor h, fun requestId => ⟨?_, fun hid => ?_⟩, ?_⟩
  · exact Session.runCommand_report h requestId
  · exact Session.runCommand_replay h hid
  · exact Session.runCommand_verify h

theorem cli_on_two_records :
    utcSession.runCommand (Machine.final utcSession.tableStep [] sampleQueries) .anchor =
        .ok (.line "8603cc2dc29516d44c3a6e3de18323c159cf999308be657bd0391656bf32d0ab") ∧
      utcSession.runCommand (Machine.final utcSession.tableStep [] sampleQueries)
        (.report "req-3") = .error "error: audit: no records found" := by
  obtain ⟨hanchor, hlookup, -⟩ := cli_on_written_table utcSession sampleDigest_ne_empty
    (fun _ _ _ _ => ⟨_, rfl⟩) sampleQueries sampleQueries_legal sampleQueries_taken
  exact ⟨hanchor, (hlookup "req-3").1⟩

end StandardTools.Audit
