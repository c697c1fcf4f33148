import StandardTools.Audit.RoundTrip
import StandardTools.Lib.Simulation

/-!
# The two storages (`audit/storage.cpp`, `audit/postgres.cpp`)

A writer and the readers put their queries to one storage. `MemoryStorage` keeps
the records as they are; `PostgresStorage` keeps rows, in a table that takes no
`request_id` twice, and puts every query to a database that can fail.
-/

namespace StandardTools.Audit
open StandardTools.Core StandardTools.Lib

inductive Query where
  | write (now : Date) (record : DecisionRecord)
  | latest
  | getByRequestID (requestId : String)
  | all

/-- A query, and what the database fails it with, if anything, besides an id that
is taken. -/
structure Asked where
  query : Query
  refusal : Option Fault

inductive Answer where
  | written (outcome : Except AuditError Unit)
  | record (found : Except AuditError DecisionRecord)
  | records (found : Except AuditError (List DecisionRecord))

/-! ### In memory -/

/-- The record that was appended last under the id. -/
def getByRequestID (content : List DecisionRecord) (requestId : String) :
    Except AuditError DecisionRecord :=
  match content.reverse.find? fun r => r.requestId = requestId with
  | some r => .ok r
  | none => .error .notFound

def Env.memoryStep {Text : Type} (env : Env Text) (content : List DecisionRecord)
    (asked : Asked) : List DecisionRecord × Answer :=
  match asked.query with
  | .write now record =>
    let (content', outcome) := env.write content ⟨record, now, none, none⟩
    (content', .written outcome)
  | .latest => (content, .record (latest content))
  | .getByRequestID requestId => (content, .record (getByRequestID content requestId))
  | .all => (content, .records (.ok content))

/-! ### In the table -/

namespace Session
variable {Text : Type} (session : Session Text)

def getByRequestID (table : List (Stored Text)) (requestId : String) :
    Except AuditError DecisionRecord :=
  match table.find? fun stored => stored.row.requestId = requestId with
  | some stored => session.rowToRecord stored.row
  | none => .error .notFound

/-- `Write` where the row meets the ids of the table and a refusal. -/
def writeRow (table : List (Stored Text)) (now : Date) (record : DecisionRecord)
    (refusal : Option Fault) : List (Stored Text) × Except AuditError Unit :=
  session.write table
    ⟨record, now, none, insertFault (table.map (·.row.requestId)) refusal record.requestId⟩

/-- What a reader gets from a database that may fail. -/
def answerOr {α : Type} (refusal : Option Fault) (found : Except AuditError α) :
    Except AuditError α :=
  refusal.elim found fun e => .error e.val

def tableStep (table : List (Stored Text)) (asked : Asked) : List (Stored Text) × Answer :=
  match asked.query with
  | .write now record =>
    let (table', outcome) := session.writeRow table now record asked.refusal
    (table', .written outcome)
  | .latest => (table, .record (answerOr asked.refusal (session.latest table)))
  | .getByRequestID requestId =>
    (table, .record (answerOr asked.refusal (session.getByRequestID table requestId)))
  | .all => (table, .records (answerOr asked.refusal (session.all table)))

/-! ### One against the other -/

/-- The same outcome, or the same records at the times that come back. -/
def Agree : Answer → Answer → Prop
  | .written outcome, .written outcome' => outcome' = outcome
  | .record found, .record found' => found' = found.map session.rereadRecord
  | .records found, .records found' => found' = found.map (List.map session.rereadRecord)
  | _, _ => False

/-- A text that a C string holds to its end. -/
def NulFree (text : String) : Prop := '\x00' ∉ text.toList

instance (text : String) : Decidable (NulFree text) := inferInstanceAs (Decidable (_ ∉ _))

/-- No record comes in under the id of another one, and the database does not fail. -/
def Taken (content : List DecisionRecord) (asked : Asked) : Prop :=
  match asked.query with
  | .write now record => ∀ r, session.complete now (Audit.latest content) record = .ok r →
      asked.refusal = none ∧ record.requestId ∉ content.map (·.requestId)
  | _ => asked.refusal = none

/-- What a writer hands over is parsed as it was, and no text has a NUL, at which
the column would end. -/
def Legal (asked : Asked) : Prop :=
  match asked.query with
  | .write _ record =>
    session.ReadsBack record.input ∧ session.ReadsBack record.output ∧
      ∀ text ∈ [record.requestId, record.toolName, record.status, record.error,
        record.gitCommitSha, record.packageVersion, record.prevRecordHash], NulFree text
  | .getByRequestID requestId => NulFree requestId
  | _ => True

/-- The table holds the records of the memory, each once. -/
structure Represents (content : List DecisionRecord) (table : List (Stored Text)) : Prop where
  records : table.map (·.record) = content
  kept : session.Kept table
  ids : (content.map (·.requestId)).Nodup

/-- The column `raw` can be dumped where the values in it can. -/
def DumpsRaw : Prop := ∀ input output,
  (∃ text, session.dump input = .ok text) → (∃ text, session.dump output = .ok text) →
    ∃ text, session.dump (.object [("input", input), ("output", output)]) = .ok text

variable {session} {content : List DecisionRecord} {table : List (Stored Text)}
  {r : DecisionRecord} {row : Row Text}

theorem requestId_toRow (h : session.toRow r = .ok row) : row.requestId = r.requestId := by
  unfold toRow at h
  obtain ⟨inputJson, -, h⟩ := bind_eq_ok.mp h
  obtain ⟨outputJson, -, h⟩ := bind_eq_ok.mp h
  obtain ⟨raw, -, h⟩ := bind_eq_ok.mp h
  cases h
  rfl

theorem exists_toRow (hraw : session.DumpsRaw) (hvalid : session.Valid r) :
    ∃ row, session.toRow r = .ok row := by
  obtain ⟨inputJson, hinput, -⟩ := bind_eq_ok.mp hvalid.input
  obtain ⟨outputJson, houtput, -⟩ := bind_eq_ok.mp hvalid.output
  obtain ⟨raw, hboth⟩ := hraw r.input r.output ⟨_, hinput⟩ ⟨_, houtput⟩
  exact ⟨_, bind_eq_ok.mpr ⟨_, hinput, bind_eq_ok.mpr ⟨_, houtput,
    bind_eq_ok.mpr ⟨_, hboth, rfl⟩⟩⟩⟩

namespace Represents

theorem rowIds (h : session.Represents content table) :
    table.map (·.row.requestId) = content.map (·.requestId) := by
  rw [← h.records, List.map_map]
  refine List.map_congr_left fun stored hstored => ?_
  exact requestId_toRow (h.kept.row stored hstored)

theorem rowToRecord (h : session.Represents content table) {stored : Stored Text}
    (hstored : stored ∈ table) :
    session.rowToRecord stored.row = .ok (session.rereadRecord stored.record) :=
  rowToRecord_toRow (h.kept.row _ hstored) (h.kept.input _ hstored) (h.kept.output _ hstored)

theorem latest (h : session.Represents content table) :
    session.latest table = (Audit.latest content).map session.rereadRecord := by
  rw [Session.latest, Audit.latest, ← h.records, List.getLast?_map]
  cases hlast : table.getLast? with
  | none => rfl
  | some stored => exact h.rowToRecord (List.mem_of_getLast? hlast)

/-- Of records with different ids the first under an id is the last. -/
theorem find_reverse {content : List DecisionRecord} (h : (content.map (·.requestId)).Nodup)
    (requestId : String) :
    (content.reverse.find? fun r => r.requestId = requestId) =
      content.find? fun r => r.requestId = requestId := by
  induction content with
  | nil => rfl
  | cons r rest ih =>
    rw [List.map_cons, List.nodup_cons] at h
    rw [List.reverse_cons, List.find?_append, ih h.2]
    by_cases hr : r.requestId = requestId
    · have hnone : (rest.find? fun r => r.requestId = requestId) = none := by
        rw [List.find?_eq_none]
        intro r' hr' hsame
        refine h.1 (List.mem_map.mpr ⟨r', hr', ?_⟩)
        rw [of_decide_eq_true hsame, hr]
      simp [hnone, hr]
    · simp [hr]

theorem getByRequestID (h : session.Represents content table) (requestId : String) :
    session.getByRequestID table requestId =
      (Audit.getByRequestID content requestId).map session.rereadRecord := by
  have hfind : (content.find? fun r => r.requestId = requestId) =
      (table.find? fun stored => stored.row.requestId = requestId).map (·.record) := by
    rw [← h.records, List.find?_map]
    congr 1
    refine List.find?_congr fun stored hstored => ?_
    show decide (stored.record.requestId = requestId) = decide (stored.row.requestId = requestId)
    rw [requestId_toRow (h.kept.row stored hstored)]
  rw [Audit.getByRequestID, find_reverse h.ids, hfind, Session.getByRequestID]
  cases hstored : table.find? fun stored => stored.row.requestId = requestId with
  | none => rfl
  | some stored => exact h.rowToRecord (List.mem_of_find?_eq_some hstored)

end Represents

/-! ### One query -/

/-- A write of both storages: neither stores what cannot be completed, and the table
refuses an id that it has, or what the database refuses. -/
theorem write_both (hraw : session.DumpsRaw) (h : session.Represents content table) (now : Date)
    (record : DecisionRecord) (refusal : Option Fault) :
    (∃ e, session.toEnv.write content ⟨record, now, none, none⟩ = (content, .error e) ∧
      session.writeRow table now record refusal = (table, .error e) ∧
        ∀ r, session.complete now (Audit.latest content) record ≠ .ok r) ∨
    ∃ r, session.complete now (Audit.latest content) record = .ok r ∧
      session.toEnv.write content ⟨record, now, none, none⟩ = (content ++ [r], .ok ()) ∧
      (¬(refusal = none ∧ record.requestId ∉ content.map (·.requestId)) ∧
          (∃ e, session.writeRow table now record refusal = (table, .error e)) ∨
        (refusal = none ∧ record.requestId ∉ content.map (·.requestId)) ∧
          ∃ row, session.toRow r = .ok row ∧
            session.writeRow table now record refusal = (table ++ [⟨r, row⟩], .ok ())) := by
  have htip := complete_latest h.kept now record
  rw [h.records] at htip
  cases hcomplete : session.complete now (Audit.latest content) record with
  | error e =>
    refine Or.inl ⟨e, ?_, ?_, nofun⟩
    · simp only [Env.write, hcomplete]
    · simp only [writeRow, write, htip, hcomplete]
  | ok r =>
    refine Or.inr ⟨r, rfl, Env.write_eq_ok.mpr ⟨rfl, rfl, hcomplete⟩, ?_⟩
    simp only [writeRow, write, htip, hcomplete, append, h.rowIds]
    cases hfault : insertFault (content.map (·.requestId)) refusal record.requestId with
    | some e =>
      refine Or.inl ⟨?_, e.val, rfl⟩
      rw [← insertFault_eq_none, hfault]
      exact Option.some_ne_none e
    | none =>
      obtain ⟨row, hrow⟩ := exists_toRow hraw (Env.complete_eq_ok hcomplete).1
      refine Or.inr ⟨insertFault_eq_none.mp hfault, row, hrow, ?_⟩
      rw [hrow]

theorem represents_write (hhash : ∀ text, session.hashBytes text ≠ "") {now : Date}
    {record : DecisionRecord} {refusal : Option Fault} (h : session.Represents content table)
    (hinput : session.ReadsBack record.input) (houtput : session.ReadsBack record.output)
    (hid : record.requestId ∉ content.map (·.requestId))
    (hcomplete : session.complete now (Audit.latest content) record = .ok r)
    (hwrite : session.writeRow table now record refusal = (table ++ [⟨r, row⟩], .ok ())) :
    session.Represents (content ++ [r]) (table ++ [⟨r, row⟩]) := by
  have hkept : session.Kept (session.writeRow table now record refusal).1 :=
    kept_write hhash h.kept hinput houtput
  rw [hwrite] at hkept
  obtain ⟨recordedAt, prev, inputHash, outputHash, recordHash, hfields⟩ :=
    Env.complete_fields hcomplete
  refine ⟨?_, hkept, ?_⟩
  · rw [List.map_append, h.records]
    rfl
  · rw [List.map_append, List.nodup_append]
    refine ⟨h.ids, List.nodup_singleton _, ?_⟩
    rintro id hmem _ hr rfl
    rw [List.map_singleton, List.mem_singleton, hfields] at hr
    exact hid (hr ▸ hmem)

/-- A reader of the table gets what a reader of the memory gets, unless the database
fails: no reader of the memory gets any exception but the one for no record. -/
theorem answerOr_eq_iff {α : Type} {found : Except AuditError α} {found' : Except AuditError α}
    (hfound : found = found') (hmemory : ∀ e, found' = .error e → e = .notFound)
    (refusal : Option Fault) : answerOr refusal found = found' ↔ refusal = none := by
  cases refusal with
  | none => exact iff_of_true hfound rfl
  | some e =>
    exact iff_of_false (fun h => e.property (hmemory e.val h.symm)) (Option.some_ne_none e)

theorem latest_error {e : AuditError}
    (h : (Audit.latest content).map session.rereadRecord = .error e) : e = .notFound := by
  unfold Audit.latest at h
  cases hlast : content.getLast? with
  | none =>
    rw [hlast] at h
    exact (Except.error.inj h).symm
  | some r =>
    rw [hlast] at h
    cases h

theorem getByRequestID_error {requestId : String} {e : AuditError}
    (h : (Audit.getByRequestID content requestId).map session.rereadRecord = .error e) :
    e = .notFound := by
  unfold Audit.getByRequestID at h
  cases hfind : content.reverse.find? fun r => r.requestId = requestId with
  | none =>
    rw [hfind] at h
    exact (Except.error.inj h).symm
  | some r =>
    rw [hfind] at h
    cases h

theorem agree_step (hhash : ∀ text, session.hashBytes text ≠ "") (hraw : session.DumpsRaw)
    (h : session.Represents content table) (asked : Asked) (hlegal : session.Legal asked) :
    (session.Agree (session.memoryStep content asked).2 (session.tableStep table asked).2 ↔
      session.Taken content asked) ∧
    (session.Taken content asked →
      session.Represents (session.memoryStep content asked).1
        (session.tableStep table asked).1) := by
  obtain ⟨query, refusal⟩ := asked
  cases query with
  | write now record =>
    rcases write_both hraw h now record refusal with ⟨e, hmemory, htable, hnone⟩ |
      ⟨r, hcomplete, hmemory, hid⟩
    · simp only [Env.memoryStep, tableStep, hmemory, htable]
      exact ⟨iff_of_true rfl fun r hr => absurd hr (hnone r), fun _ => h⟩
    · rcases hid with ⟨hid, e, htable⟩ | ⟨hid, row, -, htable⟩
      · have hrefused : ¬session.Taken content ⟨.write now record, refusal⟩ :=
          fun htaken => hid (htaken r hcomplete)
        refine ⟨iff_of_false ?_ hrefused, fun htaken => absurd htaken hrefused⟩
        simp only [Env.memoryStep, tableStep, hmemory, htable, Agree]
        exact nofun
      · refine ⟨iff_of_true ?_ fun _ _ => hid, fun _ => ?_⟩
        · simp only [Env.memoryStep, tableStep, hmemory, htable, Agree]
        · simp only [Env.memoryStep, tableStep, hmemory, htable]
          exact represents_write hhash h hlegal.1 hlegal.2.1 hid.2 hcomplete htable
  | latest => exact ⟨answerOr_eq_iff h.latest (fun _ => latest_error) refusal, fun _ => h⟩
  | getByRequestID requestId =>
    exact ⟨answerOr_eq_iff (h.getByRequestID requestId) (fun _ => getByRequestID_error) refusal,
      fun _ => h⟩
  | all =>
    have hall : session.all table = (Except.ok content : Except AuditError _).map
        (List.map session.rereadRecord) := by
      rw [all_eq h.kept, ← h.records]
      simp [Except.map]
    exact ⟨answerOr_eq_iff hall nofun refusal, fun _ => h⟩

theorem represents_empty : session.Represents [] [] :=
  ⟨rfl, ⟨nofun, nofun, nofun, rfl⟩, List.nodup_nil⟩

end Session

/-- Whatever is put to both storages from the beginning, the table answers as the
memory does, but for the times that come back, exactly as long as no record comes
in under the id of an earlier one and the database does not fail otherwise. -/
theorem backends_agree_iff {Text : Type} (session : Session Text)
    (hhash : ∀ text, session.hashBytes text ≠ "") (hraw : session.DumpsRaw) (queries : List Asked)
    (hlegal : ∀ asked ∈ queries, session.Legal asked) :
    List.Forall₂ session.Agree (Machine.answers session.memoryStep [] queries)
        (Machine.answers session.tableStep [] queries) ↔
      Machine.Throughout session.memoryStep session.Taken [] queries :=
  Machine.forall₂_answers_iff (fun _ _ asked h hq => Session.agree_step hhash hraw h asked hq)
    Session.represents_empty hlegal

/-- Two calls of tools, and what is read afterwards. -/
def sampleQueries : List Asked :=
  [⟨.write 1704067200000000000 (sampleCall false).record, none⟩,
    ⟨.write 1704153600000000000 (sampleCall true).record, none⟩, ⟨.latest, none⟩,
    ⟨.getByRequestID "req-1", none⟩, ⟨.all, none⟩]

theorem sampleQueries_legal : ∀ asked ∈ sampleQueries, utcSession.Legal asked := by
  have hreads (value : Json) : utcSession.ReadsBack value := by
    intro text htext
    exact congrArg Except.ok (Except.ok.inj htext).symm
  have hlegal (second : Bool) (now : Date) :
      utcSession.Legal ⟨.write now (sampleCall second).record, none⟩ := by
    refine ⟨hreads _, hreads _, ?_⟩
    cases second <;> decide
  simp only [sampleQueries, List.forall_mem_cons]
  have hid : Session.NulFree "req-1" := by decide
  exact ⟨hlegal false _, hlegal true _, trivial, hid, trivial, nofun⟩

theorem sampleQueries_taken :
    Machine.Throughout utcSession.memoryStep utcSession.Taken [] sampleQueries := by
  refine ⟨fun _ _ => ⟨rfl, List.not_mem_nil⟩, fun _ _ => ⟨rfl, ?_⟩, rfl, rfl, rfl, trivial⟩
  show (sampleCall true).record.requestId ∉ ["req-1"]
  decide

theorem backends_agree_sample :
    List.Forall₂ utcSession.Agree (Machine.answers utcSession.memoryStep [] sampleQueries)
      (Machine.answers utcSession.tableStep [] sampleQueries) :=
  (backends_agree_iff utcSession sampleDigest_ne_empty (fun _ _ _ _ => ⟨_, rfl⟩) sampleQueries
    sampleQueries_legal).mpr sampleQueries_taken

end StandardTools.Audit
