import Mathlib.Logic.Encodable.Basic
import StandardTools.Audit.Soundness

/-!
# Records as JSON (`audit/record.hpp:36-70`, `core/json_serialization.hpp:12-18`)

`to_json` writes the day of a record and no time; `from_json` reads a record back
at the beginning of that day. Its hash covers the same text.
-/

namespace StandardTools.Audit
open StandardTools.Core StandardTools.Lib

/-- An exception of `from_json`: of the JSON library, or of `ParseDate`. -/
inductive ImportError where
  | json (msg : String)
  | date (e : Error)
  deriving DecidableEq, Repr

/-- `parseDay` reads the number of a day; `getInt64` is `get<std::int64_t>()`. -/
structure Reader where
  parseDay : String → Option ℤ
  getInt64 : Json → Except String Int64

/-- `j.at(key)`. -/
def at? (j : Json) (key : String) : Except ImportError Json :=
  match j with
  | .object entries =>
    match entries.lookup key with
    | some value => .ok value
    | none =>
      .error (.json ("[json.exception.out_of_range.403] key '" ++ key ++ "' not found"))
  | j => .error (.json ("[json.exception.type_error.304] cannot use at() with " ++ j.typeName))

def atString (j : Json) (key : String) : Except ImportError String := do
  let value ← at? j key
  value.getString.mapError .json

namespace Reader
variable (reader : Reader)

def readDate (s : String) : Except ImportError Date :=
  (parseDate reader.parseDay s).mapError .date

def fromJson (j : Json) : Except ImportError DecisionRecord := do
  let requestId ← atString j "request_id"
  let recordedAt ← reader.readDate (← atString j "recorded_at")
  let toolName ← atString j "tool_name"
  let input ← at? j "input"
  let inputHash ← atString j "input_hash"
  let output ← at? j "output"
  let outputHash ← atString j "output_hash"
  let status ← atString j "status"
  let error ← atString j "error"
  let gitCommitSha ← atString j "git_commit_sha"
  let packageVersion ← atString j "package_version"
  let randomSeed ← (reader.getInt64 (← at? j "random_seed")).mapError .json
  let prevRecordHash ← atString j "prev_record_hash"
  let recordHash ← atString j "record_hash"
  return {
    requestId := requestId
    recordedAt := recordedAt
    toolName := toolName
    input := input
    inputHash := inputHash
    output := output
    outputHash := outputHash
    status := status
    error := error
    gitCommitSha := gitCommitSha
    packageVersion := packageVersion
    randomSeed := randomSeed
    prevRecordHash := prevRecordHash
    recordHash := recordHash }

/-- A day is read as it is written, and a number is cast. -/
structure Documented {Text : Type} (env : Env Text) : Prop where
  day : ∀ d : Date, reader.parseDay (env.isoDay (dayOf d)) = some (dayOf d)
  integer : ∀ n, reader.getInt64 (.integer n) = .ok (Int64.ofInt n)

end Reader

/-! ### One record -/

/-- The first instant of the day. -/
def startOfDay (d : Date) : Date := Int64.ofInt (dayOf d * dayLength)

/-- The clock reaches back to the beginning of the day. It does so for all but its
first, incomplete day, in 1677. -/
def DayRepresentable (d : Date) : Prop := -2 ^ 63 ≤ dayOf d * dayLength

theorem toInt_startOfDay {d : Date} (h : DayRepresentable d) :
    (startOfDay d).toInt = dayOf d * dayLength := by
  have hlt := d.toInt_lt
  have hle : dayOf d * dayLength ≤ d.toInt := Int.ediv_mul_le _ (by decide)
  refine Int64.toInt_ofInt_of_le h ?_
  omega

theorem dayOf_startOfDay {d : Date} (h : DayRepresentable d) : dayOf (startOfDay d) = dayOf d := by
  rw [dayOf, toInt_startOfDay h]
  exact Int.mul_ediv_cancel _ (by decide)

def atDayStart (r : DecisionRecord) : DecisionRecord :=
  { r with recordedAt := startOfDay r.recordedAt }

variable {Text : Type} {env : Env Text} {reader : Reader} {r : DecisionRecord}

theorem fromJson_recordJson (hreader : reader.Documented env) (r : DecisionRecord) :
    reader.fromJson (env.recordJson r) = .ok (atDayStart r) := by
  have hdate : reader.readDate (env.formatDate r.recordedAt) =
      .ok (startOfDay r.recordedAt) := by
    rw [Reader.readDate, parseDate, Env.formatDate, hreader.day]
    rfl
  have hseed : reader.getInt64 (.integer r.randomSeed.toInt) = .ok r.randomSeed := by
    rw [hreader.integer, Int64.ofInt_toInt]
  simp only [Reader.fromJson, atString, at?, Env.recordJson, List.lookup_cons, Json.getString,
    Except.mapError, String.reduceBEq, bind, Except.bind, hdate, hseed]
  rfl

theorem recordJson_atDayStart (h : DayRepresentable r.recordedAt) :
    env.recordJson (atDayStart r) = env.recordJson r := by
  have hday : env.formatDate (startOfDay r.recordedAt) = env.formatDate r.recordedAt := by
    rw [Env.formatDate, dayOf_startOfDay h]
    rfl
  simp only [Env.recordJson, atDayStart, hday]

theorem hashRecord_atDayStart (h : DayRepresentable r.recordedAt) :
    env.hashRecord (atDayStart r) = env.hashRecord r :=
  congrArg env.hashJson (recordJson_atDayStart (r := { r with recordHash := "" }) h)

theorem verifyRecord_atDayStart (h : DayRepresentable r.recordedAt) :
    env.verifyRecord (atDayStart r) = env.verifyRecord r := by
  unfold Env.verifyRecord
  rw [hashRecord_atDayStart h]
  rfl

/-! ### A log -/

/-- The verifier looks at no more of a time than its day. -/
theorem verifyFrom_atDayStart {log : List DecisionRecord}
    (hlog : ∀ r ∈ log, DayRepresentable r.recordedAt) (prev : Option DecisionRecord) :
    env.verifyFrom (prev.map atDayStart) (log.map atDayStart) = env.verifyFrom prev log := by
  induction log generalizing prev with
  | nil =>
    cases prev with
    | none => rfl
    | some p => rfl
  | cons r rest ih =>
    obtain ⟨hr, hrest⟩ := List.forall_mem_cons.mp hlog
    have hnext := ih hrest (some r)
    rw [Option.map_some] at hnext
    rw [List.map_cons]
    cases prev with
    | none =>
      simp only [Option.map_none, Env.verifyFrom, verifyRecord_atDayStart hr, hnext]
    | some p =>
      simp only [Option.map_some, Env.verifyFrom, verifyRecord_atDayStart hr, hnext]
      rfl

theorem mapM_fromJson (hreader : reader.Documented env) (log : List DecisionRecord) :
    (log.map env.recordJson).mapM reader.fromJson = .ok (log.map atDayStart) := by
  rw [mapM_eq_ok, List.forall₂_map_left_iff, List.forall₂_map_right_iff]
  exact List.forall₂_same.mpr fun r _ => fromJson_recordJson hreader r

/-- A log that is exported as JSON and imported again consists of the same records,
each at the beginning of its day; its records have the hashes they had, and the
verifier says of it what it says of the original, down to the message. -/
theorem export_import {Text : Type} (env : Env Text) (reader : Reader)
    (hreader : reader.Documented env) (log : List DecisionRecord)
    (hlog : ∀ r ∈ log, DayRepresentable r.recordedAt) :
    (log.map env.recordJson).mapM reader.fromJson = .ok (log.map atDayStart) ∧
      (log.map atDayStart).map env.hashRecord = log.map env.hashRecord ∧
      env.verifyChain (log.map atDayStart) = env.verifyChain log := by
  refine ⟨mapM_fromJson hreader log, ?_, verifyFrom_atDayStart hlog none⟩
  rw [List.map_map]
  exact List.map_congr_left fun r hr => hashRecord_atDayStart (hlog r hr)

/-! ### A concrete reader -/

/-- Renders 2024-01-01, and every other day by a mark for each of its code. -/
def markedEnv : Env Json where
  dump := .ok
  hashBytes := sampleDigest
  isoDay day :=
    if day = 19723 then "2024-01-01"
    else String.ofList (List.replicate (Encodable.encode day) 'x')

def markedReader : Reader where
  parseDay s := if s = "2024-01-01" then some 19723 else Encodable.decode s.length
  getInt64
    | .integer n => .ok (Int64.ofInt n)
    | j => .error ("[json.exception.type_error.302] type must be number, but is " ++ j.typeName)

theorem markedReader_documented : markedReader.Documented markedEnv where
  integer _ := rfl
  day d := by
    generalize dayOf d = day
    by_cases hday : day = 19723
    · subst hday
      rfl
    · have hne : String.ofList (List.replicate (Encodable.encode day) 'x') ≠ "2024-01-01" := by
        intro hsame
        have hlist := congrArg String.toList hsame
        rw [String.toList_ofList] at hlist
        have hmem : '2' ∈ List.replicate (Encodable.encode day) 'x' := by
          rw [hlist]
          decide
        exact absurd (List.eq_of_mem_replicate hmem) (by decide)
      simp only [markedReader, markedEnv, if_neg hday, if_neg hne, String.length_ofList,
        List.length_replicate, Encodable.encodek]

/-- Two records of one day, a second after another. -/
def markedLog : List DecisionRecord :=
  (markedEnv.writeAll [] [{ sampleCall false with now := 1704067201000000000 },
    { sampleCall true with now := 1704067202000000000 }]).1

theorem export_import_sample :
    (markedLog.map markedEnv.recordJson).mapM markedReader.fromJson =
        .ok (markedLog.map atDayStart) ∧
      (markedLog.map atDayStart).map (·.recordedAt) =
        [1704067200000000000, 1704067200000000000] ∧
      markedEnv.verifyChain (markedLog.map atDayStart) = .ok () := by
  have htimes : markedLog.map (·.recordedAt) = [1704067201000000000, 1704067202000000000] := by
    decide +kernel
  have hday : ∀ r ∈ markedLog, DayRepresentable r.recordedAt := by
    intro r hr
    have hmem : r.recordedAt ∈ markedLog.map (·.recordedAt) := List.mem_map_of_mem hr
    rw [htimes] at hmem
    rcases List.mem_pair.mp hmem with htime | htime
    · rw [htime, DayRepresentable]
      decide
    · rw [htime, DayRepresentable]
      decide
  have hverified : markedEnv.verifyChain markedLog = .ok () := by decide +kernel
  obtain ⟨hread, -, hverify⟩ := export_import markedEnv markedReader markedReader_documented
    markedLog hday
  refine ⟨hread, ?_, hverify.trans hverified⟩
  calc (markedLog.map atDayStart).map (·.recordedAt)
      = (markedLog.map (·.recordedAt)).map startOfDay := by
        rw [List.map_map, List.map_map]
        rfl
    _ = [1704067200000000000, 1704067200000000000] := by
        rw [htimes]
        rfl

end StandardTools.Audit
