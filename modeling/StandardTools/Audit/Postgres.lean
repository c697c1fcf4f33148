import StandardTools.Audit.Chain
import StandardTools.Lib.UtcOffset

/-!
# The audit table (`audit/postgres.cpp`, `storage/migrate.cpp`)

`Append` stores a record as a row, with the empty optional texts as NULL and the
time as a `TIMESTAMPTZ`; `RowToRecord` reads it back from what the server shows
in the time zone of the session. `Write` goes through both: it takes its link
from the last row and appends one.
-/

namespace StandardTools.Audit
open StandardTools.Core StandardTools.Lib

/-- A row of `audit_records`; `recordedAt` counts microseconds since the epoch. -/
structure Row (Text : Type) where
  requestId : String
  recordedAt : Int
  toolName : String
  inputHash : String
  outputHash : String
  status : String
  error : Option String
  gitCommitSha : Option String
  packageVersion : Option String
  randomSeed : Option Int64
  prevRecordHash : Option String
  recordHash : String
  inputJson : Text
  outputJson : Text
  raw : Text

/-- A timestamp as the server shows it: the local date and time, in microseconds,
and the text of the offset from UTC. -/
structure Timestamp where
  dateTime : Int
  offset : List Char

/-- What a session is made of besides the repository: `json::parse`, the rounding
of a `TIMESTAMPTZ` to a nearest microsecond, the offset of the time zone at an
instant, in minutes, and the digits of a date and time. -/
structure Session (Text : Type) extends Env Text where
  parse : Text → Except AuditError Json
  micros : Int → Int
  micros_nearest : ∀ t, (1000 * micros t - t).natAbs ≤ 500
  offset : Int → Int
  offset_lt : ∀ instant, (offset instant).natAbs < 6000
  dateTimeText : Int → String

def nullif (text : String) : Option String := if text = "" then none else some text

namespace Session
variable {Text : Type} (session : Session Text)

/-- `FormatTimestamp` writes the instant in UTC to the nanosecond; the column
keeps it to the microsecond. -/
def timestamptz (tp : Date) : Int := session.micros tp.toInt

def shown (instant : Int) : Timestamp :=
  ⟨instant + 60000000 * session.offset instant, UtcOffset.print (session.offset instant)⟩

/-- `%z` of `date::parse` reads `[+|-]hh[mm]`. A time point outside the range of
the clock wraps. -/
def parseTimestamp (s : Timestamp) : Except AuditError Date :=
  match UtcOffset.read s.offset with
  | none => .error (.runtime ("invalid timestamp: " ++ session.dateTimeText s.dateTime ++
      String.ofList s.offset))
  | some minutes => .ok (Int64.ofInt (1000 * (s.dateTime - 60000000 * minutes)))

def rowToRecord (row : Row Text) : Except AuditError DecisionRecord := do
  let recordedAt ← session.parseTimestamp (session.shown row.recordedAt)
  let input ← session.parse row.inputJson
  let output ← session.parse row.outputJson
  return {
    requestId := row.requestId
    recordedAt := recordedAt
    toolName := row.toolName
    input := input
    inputHash := row.inputHash
    output := output
    outputHash := row.outputHash
    status := row.status
    error := row.error.getD ""
    gitCommitSha := row.gitCommitSha.getD ""
    packageVersion := row.packageVersion.getD ""
    randomSeed := row.randomSeed.getD 0
    prevRecordHash := row.prevRecordHash.getD ""
    recordHash := row.recordHash }

/-- `Append`: the row which a record becomes. -/
def toRow (record : DecisionRecord) : Except AuditError (Row Text) := do
  let inputJson ← session.dump record.input
  let outputJson ← session.dump record.output
  let raw ← session.dump (.object [("input", record.input), ("output", record.output)])
  return {
    requestId := record.requestId
    recordedAt := session.timestamptz record.recordedAt
    toolName := record.toolName
    inputHash := record.inputHash
    outputHash := record.outputHash
    status := record.status
    error := nullif record.error
    gitCommitSha := nullif record.gitCommitSha
    packageVersion := nullif record.packageVersion
    randomSeed := some record.randomSeed
    prevRecordHash := nullif record.prevRecordHash
    recordHash := record.recordHash
    inputJson := inputJson
    outputJson := outputJson
    raw := raw }

/-! ### The table -/

/-- A row beside the record which `Write` passed to `Append`. -/
structure Stored (Text : Type) where
  record : DecisionRecord
  row : Row Text

def latest (table : List (Stored Text)) : Except AuditError DecisionRecord :=
  match table.getLast? with
  | none => .error .notFound
  | some stored => session.rowToRecord stored.row

def all (table : List (Stored Text)) : Except AuditError (List DecisionRecord) :=
  table.mapM fun stored => session.rowToRecord stored.row

def append (table : List (Stored Text)) (appendFault : Option Fault) (record : DecisionRecord) :
    List (Stored Text) × Except AuditError Unit :=
  match appendFault with
  | some e => (table, .error e.val)
  | none =>
    match session.toRow record with
    | .error e => (table, .error e)
    | .ok row => (table ++ [⟨record, row⟩], .ok ())

/-- `Write` on a `PostgresStorage`. -/
def write (table : List (Stored Text)) (call : Call) :
    List (Stored Text) × Except AuditError Unit :=
  let tip : Except AuditError DecisionRecord := match call.latestFault with
    | some e => .error e.val
    | none => session.latest table
  match session.complete call.now tip call.record with
  | .error e => (table, .error e)
  | .ok record => session.append table call.appendFault record

def writeAll (table : List (Stored Text)) (calls : List Call) : List (Stored Text) :=
  calls.foldl (fun table call => (session.write table call).1) table

/-- `Verifier::VerifyChain` on a `PostgresStorage`. -/
def verifyTable (table : List (Stored Text)) : Except AuditError Unit := do
  let records ← session.all table
  session.verifyChain records

/-! ### What comes back -/

/-- The microseconds which come back for a stored instant: the minutes of the
offset, which the server shows behind a colon, are not taken off again. -/
def reread (tp : Date) : Date :=
  Int64.ofInt (1000 * (session.timestamptz tp +
    60000000 * (session.offset (session.timestamptz tp)).tmod 60))

def rereadRecord (r : DecisionRecord) : DecisionRecord :=
  { r with recordedAt := session.reread r.recordedAt }

/-- The text of the value is parsed as the value. -/
def ReadsBack (value : Json) : Prop :=
  ∀ text, session.dump value = .ok text → session.parse text = .ok value

variable {session}

@[simp] theorem nullif_getD (text : String) : (nullif text).getD "" = text := by
  unfold nullif
  split_ifs with h
  · exact h.symm
  · rfl

theorem parseTimestamp_shown (tp : Date) :
    session.parseTimestamp (session.shown (session.timestamptz tp)) =
      .ok (session.reread tp) := by
  unfold parseTimestamp shown
  simp only [UtcOffset.read_print (session.offset_lt _), reread]
  have hsplit := Int.mul_tdiv_add_tmod (session.offset (session.timestamptz tp)) 60
  congr 3
  omega

theorem rowToRecord_toRow {r : DecisionRecord} {row : Row Text} (hrow : session.toRow r = .ok row)
    (hinput : session.ReadsBack r.input) (houtput : session.ReadsBack r.output) :
    session.rowToRecord row = .ok (session.rereadRecord r) := by
  unfold toRow at hrow
  obtain ⟨inputJson, hinputJson, hrow⟩ := bind_eq_ok.mp hrow
  obtain ⟨outputJson, houtputJson, hrow⟩ := bind_eq_ok.mp hrow
  obtain ⟨raw, -, hrow⟩ := bind_eq_ok.mp hrow
  cases hrow
  refine bind_eq_ok.mpr ⟨_, parseTimestamp_shown r.recordedAt, ?_⟩
  refine bind_eq_ok.mpr ⟨_, hinput _ hinputJson, ?_⟩
  refine bind_eq_ok.mpr ⟨_, houtput _ houtputJson, ?_⟩
  simp only [nullif_getD, Option.getD_some]
  rfl

end Session

end StandardTools.Audit
