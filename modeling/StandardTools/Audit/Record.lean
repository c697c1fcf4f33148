import StandardTools.Core.Json
import StandardTools.Core.ValueObjects

/-!
# Audit records and their hashes (`audit/record.hpp`, `audit/record.cpp`)

`Env` lists what the repository takes from elsewhere: the text of a JSON value
(`json::dump`, which throws on invalid UTF-8), the digest of a text (SHA-256 in
hexadecimal) and the rendering of a calendar day (`date::format("%F")`). A text
is only ever handed from `dump` to `HashBytes`, so its type is left open.
-/

namespace StandardTools.Audit
open StandardTools.Core

/-- The exceptions of the audit code: `NotFoundError`, a `std::runtime_error`,
or whatever a library throws. -/
inductive AuditError where
  | notFound
  | runtime (msg : String)
  | foreign (msg : String)
  deriving DecidableEq, Repr

def AuditError.what : AuditError → String
  | .notFound => "audit: no records found"
  | .runtime msg => msg
  | .foreign msg => msg

structure DecisionRecord where
  requestId : String
  recordedAt : Date
  toolName : String
  input : Json
  inputHash : String
  output : Json
  outputHash : String
  status : String
  error : String
  gitCommitSha : String
  packageVersion : String
  randomSeed : Int64
  prevRecordHash : String
  recordHash : String

structure Env (Text : Type) where
  dump : Json → Except AuditError Text
  hashBytes : Text → String
  isoDay : Int → String

def dayLength : Int := 86400000000000

def dayOf (d : Date) : Int := d.toInt / dayLength

/-- `core::ParseDate`: the beginning of the day; `parseDay` is `date::parse("%F")`. -/
def parseDate (parseDay : String → Option Int) (s : String) : Except Error Date :=
  match parseDay s with
  | some day => .ok (Int64.ofInt (day * dayLength))
  | none => .error (.invalidCommand ("invalid date " ++ s))

namespace Env
variable {Text : Type} (env : Env Text)

/-- `core::FormatDate`: the day only. -/
def formatDate (d : Date) : String := env.isoDay (dayOf d)

def recordJson (r : DecisionRecord) : Json :=
  .object
    [("error", .string r.error),
      ("git_commit_sha", .string r.gitCommitSha),
      ("input", r.input),
      ("input_hash", .string r.inputHash),
      ("output", r.output),
      ("output_hash", .string r.outputHash),
      ("package_version", .string r.packageVersion),
      ("prev_record_hash", .string r.prevRecordHash),
      ("random_seed", .integer r.randomSeed.toInt),
      ("record_hash", .string r.recordHash),
      ("recorded_at", .string (env.formatDate r.recordedAt)),
      ("request_id", .string r.requestId),
      ("status", .string r.status),
      ("tool_name", .string r.toolName)]

def hashJson (value : Json) : Except AuditError String := do
  let text ← env.dump value
  return env.hashBytes text

/-- The record without its own hash, which is what `HashRecord` hashes. -/
def cleared (r : DecisionRecord) : Json := env.recordJson { r with recordHash := "" }

def hashRecord (r : DecisionRecord) : Except AuditError String := env.hashJson (env.cleared r)

end Env

end StandardTools.Audit
