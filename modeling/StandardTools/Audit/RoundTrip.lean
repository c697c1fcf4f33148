import StandardTools.Audit.Postgres
import StandardTools.Audit.TamperEvidence

/-!
# A log in Postgres

A record comes back from the table with another time: rounded to microseconds,
and moved by the minutes of the zone's offset. Its hash covers the day, so the
verifier accepts what was stored exactly when no record has come back on another
day.
-/

namespace StandardTools.Audit
open StandardTools.Core StandardTools.Lib

namespace Session
variable {Text : Type} (session : Session Text)

/-- The time comes back on its own day. -/
def KeepsDay (tp : Date) : Prop := dayOf (session.reread tp) = dayOf tp

/-- The record read back has the hashes which it carries. -/
def Verifies (row : Row Text) : Prop :=
  ∃ r, session.rowToRecord row = .ok r ∧ session.Valid r

/-- Hash and rendering tell the record from the one which comes back, if their
days differ. -/
structure Distinguishes (r : DecisionRecord) : Prop where
  hash : session.CollisionFree {session.cleared r, session.cleared (session.rereadRecord r)}
  day : session.isoDay (dayOf r.recordedAt) = session.isoDay (dayOf (session.reread r.recordedAt)) →
    dayOf r.recordedAt = dayOf (session.reread r.recordedAt)

/-- What the table holds after calls of `Write`: rows of records which form an
accepted chain, with values which are parsed as they were. -/
structure Kept (table : List (Stored Text)) : Prop where
  row : ∀ stored ∈ table, session.toRow stored.record = .ok stored.row
  input : ∀ stored ∈ table, session.ReadsBack stored.record.input
  output : ∀ stored ∈ table, session.ReadsBack stored.record.output
  chain : session.verifyChain (table.map (·.record)) = .ok ()

variable {session} {r : DecisionRecord} {row : Row Text} {table : List (Stored Text)}

/-! ### One record -/

theorem cleared_reread (h : session.KeepsDay r.recordedAt) :
    session.cleared (session.rereadRecord r) = session.cleared r := by
  have hday : session.formatDate (session.reread r.recordedAt) =
      session.formatDate r.recordedAt := congrArg session.isoDay h
  simp only [Env.cleared, Env.recordJson, rereadRecord, hday]

theorem valid_reread_iff (hvalid : session.Valid r) (hdist : session.Distinguishes r) :
    session.Valid (session.rereadRecord r) ↔ session.KeepsDay r.recordedAt := by
  constructor
  · intro h
    have hcleared : session.cleared r = session.cleared (session.rereadRecord r) :=
      hdist.hash _ (Set.mem_insert _ _) _ (Set.mem_insert_of_mem _ rfl) _ hvalid.record h.record
    exact (hdist.day (Env.cleared_inj hcleared).2).symm
  · intro h
    refine ⟨hvalid.input, hvalid.output, ?_⟩
    have hrecord := hvalid.record
    rw [Env.hashRecord, ← cleared_reread h] at hrecord
    exact hrecord

theorem verifies_iff (hvalid : session.Valid r) (hinput : session.ReadsBack r.input)
    (houtput : session.ReadsBack r.output) (hdist : session.Distinguishes r)
    (hrow : session.toRow r = .ok row) :
    session.Verifies row ↔ session.KeepsDay r.recordedAt := by
  rw [← valid_reread_iff hvalid hdist, Verifies, rowToRecord_toRow hrow hinput houtput]
  constructor
  · rintro ⟨r', hr', h⟩
    rw [Except.ok.inj hr']
    exact h
  · intro h
    exact ⟨_, rfl, h⟩

theorem distinguishes_of_reread (h : session.reread r.recordedAt = r.recordedAt) :
    session.Distinguishes r := by
  refine ⟨?_, fun _ => congrArg dayOf h.symm⟩
  have hsame : session.rereadRecord r = r := by
    unfold rereadRecord
    rw [h]
  intro v hv w hw _ _ _
  rw [hsame, Set.pair_eq_singleton, Set.mem_singleton_iff] at hv hw
  exact hv.trans hw.symm

/-! ### A whole log -/

theorem all_eq (h : session.Kept table) :
    session.all table = .ok (table.map fun stored => session.rereadRecord stored.record) := by
  rw [all, mapM_eq_ok, List.forall₂_map_right_iff]
  refine List.forall₂_same.mpr ?_
  intro stored hstored
  exact rowToRecord_toRow (h.row _ hstored) (h.input _ hstored) (h.output _ hstored)

theorem valid_of_kept (h : session.Kept table) : ∀ stored ∈ table, session.Valid stored.record :=
  fun _ hstored => (Env.verifyChain_eq_ok.mp h.chain).1 _ (List.mem_map_of_mem hstored)

theorem verifyTable_iff (h : session.Kept table)
    (hdist : ∀ stored ∈ table, session.Distinguishes stored.record) :
    session.verifyTable table = .ok () ↔
      ∀ stored ∈ table, session.KeepsDay stored.record.recordedAt := by
  have hchain :
      (table.map fun stored => session.rereadRecord stored.record).IsChain Env.Linked := by
    have hlinked := (Env.verifyChain_eq_ok.mp h.chain).2
    rw [List.isChain_map] at hlinked ⊢
    exact hlinked
  have htable : session.verifyTable table =
      session.verifyChain (table.map fun stored => session.rereadRecord stored.record) := by
    rw [verifyTable, all_eq h]
    rfl
  rw [htable, Env.verifyChain_eq_ok, and_iff_left hchain, List.forall_mem_map]
  constructor
  · intro hall stored hstored
    exact (valid_reread_iff (valid_of_kept h _ hstored) (hdist _ hstored)).mp (hall _ hstored)
  · intro hall stored hstored
    exact (valid_reread_iff (valid_of_kept h _ hstored) (hdist _ hstored)).mpr (hall _ hstored)

/-! ### Runs of the writer -/

/-- The tip differs from the record which was appended last in its time only. -/
theorem complete_latest (h : session.Kept table) (now : Date) (record : DecisionRecord) :
    session.complete now (session.latest table) record =
      session.complete now (Audit.latest (table.map (·.record))) record := by
  unfold latest Audit.latest
  rw [List.getLast?_map]
  cases hlast : table.getLast? with
  | none => rfl
  | some stored =>
    have hstored := List.mem_of_getLast? hlast
    simp only [rowToRecord_toRow (h.row _ hstored) (h.input _ hstored) (h.output _ hstored)]
    rfl

theorem kept_write (hhash : ∀ text, session.hashBytes text ≠ "") (h : session.Kept table)
    {call : Call} (hinput : session.ReadsBack call.record.input)
    (houtput : session.ReadsBack call.record.output) :
    session.Kept (session.write table call).1 := by
  unfold write
  cases hlatest : call.latestFault with
  | some e =>
    simp only [Env.complete_fault]
    exact h
  | none =>
    simp only [complete_latest h]
    cases hcomplete : session.complete call.now (Audit.latest (table.map (·.record)))
        call.record with
    | error e => exact h
    | ok r =>
      simp only [append]
      cases call.appendFault with
      | some e => exact h
      | none =>
        cases hrow : session.toRow r with
        | error e => exact h
        | ok row =>
          obtain ⟨recordedAt, prevRecordHash, inputHash, outputHash, recordHash, hfields⟩ :=
            Env.complete_fields hcomplete
          have hchain := Env.verifyChain_complete hhash h.chain hcomplete
          refine ⟨?_, ?_, ?_, ?_⟩
          · exact List.forall_mem_append.mpr ⟨h.row, List.forall_mem_singleton.mpr hrow⟩
          · refine List.forall_mem_append.mpr ⟨h.input, List.forall_mem_singleton.mpr ?_⟩
            rw [hfields]
            exact hinput
          · refine List.forall_mem_append.mpr ⟨h.output, List.forall_mem_singleton.mpr ?_⟩
            rw [hfields]
            exact houtput
          · rw [List.map_append]
            exact hchain

theorem kept_writeAll (hhash : ∀ text, session.hashBytes text ≠ "") (h : session.Kept table)
    {calls : List Call} (hjson : ∀ call ∈ calls,
      session.ReadsBack call.record.input ∧ session.ReadsBack call.record.output) :
    session.Kept (session.writeAll table calls) := by
  induction calls generalizing table with
  | nil => exact h
  | cons call calls ih =>
    obtain ⟨hcall, hrest⟩ := List.forall_mem_cons.mp hjson
    exact ih (kept_write hhash h hcall.1 hcall.2) hrest

/-! ### Which times keep their day -/

/-- In a zone of whole hours only the last half microsecond of a day is at risk. -/
theorem keepsDay_of_whole_hours {tp : Date}
    (hzone : (session.offset (session.timestamptz tp)).tmod 60 = 0)
    (hday : tp.toInt % dayLength + 500 < dayLength) (hmin : -2 ^ 63 + 500 ≤ tp.toInt)
    (hmax : tp.toInt + 500 < 2 ^ 63) : session.KeepsDay tp := by
  have hnear := session.micros_nearest tp.toInt
  have hreread : session.reread tp = Int64.ofInt (1000 * session.micros tp.toInt) := by
    rw [reread, hzone, mul_zero, add_zero]
    rfl
  have hwrap : (Int64.ofInt (1000 * session.micros tp.toInt)).toInt =
      1000 * session.micros tp.toInt := by
    apply Int64.toInt_ofInt_of_le
    · omega
    · omega
  unfold KeepsDay dayOf
  rw [hreread, hwrap]
  unfold dayLength at hday ⊢
  omega

end Session

theorem postgres_round_trip_iff {Text : Type} (session : Session Text)
    (hhash : ∀ text, session.hashBytes text ≠ "") :
    (∀ now tip record r row, session.complete now tip record = .ok r →
      session.ReadsBack r.input → session.ReadsBack r.output → session.Distinguishes r →
        session.toRow r = .ok row →
          (session.Verifies row ↔ session.KeepsDay r.recordedAt)) ∧
    ∀ calls : List Call,
      (∀ call ∈ calls,
        session.ReadsBack call.record.input ∧ session.ReadsBack call.record.output) →
      (∀ stored ∈ session.writeAll [] calls, session.Distinguishes stored.record) →
        (session.verifyTable (session.writeAll [] calls) = .ok () ↔
          ∀ stored ∈ session.writeAll [] calls, session.KeepsDay stored.record.recordedAt) := by
  refine ⟨?_, ?_⟩
  · intro now tip record r row hcomplete hinput houtput hdist hrow
    exact Session.verifies_iff (Env.complete_eq_ok hcomplete).1 hinput houtput hdist hrow
  · intro calls hjson hdist
    have hempty : session.Kept [] :=
      ⟨List.forall_mem_nil _, List.forall_mem_nil _, List.forall_mem_nil _, rfl⟩
    exact Session.verifyTable_iff (Session.kept_writeAll hhash hempty hjson) hdist

/-! ### Two sessions -/

/-- A session with the offset `minutes`, whose `TIMESTAMPTZ` rounds halves up. -/
def sampleSession (minutes : Int) (h : minutes.natAbs < 6000) : Session Json where
  toEnv := sampleEnv
  parse := .ok
  micros t := (t + 500) / 1000
  micros_nearest := by
    intro t
    omega
  offset _ := minutes
  offset_lt _ := h
  dateTimeText := toString

def utcSession : Session Json := sampleSession 0 (by decide)

/-- UTC+05:30. -/
def indiaSession : Session Json := sampleSession 330 (by decide)

theorem postgres_round_trip_utc :
    (∃ r row, utcSession.complete 1704067200000000000 (.error .notFound) (sampleCall false).record =
        .ok r ∧ utcSession.toRow r = .ok row ∧ utcSession.Verifies row) ∧
      utcSession.verifyTable (utcSession.writeAll [] [sampleCall false, sampleCall true]) =
        .ok () := by
  have hjson (value : Json) : utcSession.ReadsBack value := by
    intro text htext
    exact congrArg Except.ok (Except.ok.inj htext).symm
  have hfirst : utcSession.reread 1704067200000000000 = 1704067200000000000 := by decide +kernel
  have htimes : ∀ stored ∈ utcSession.writeAll [] [sampleCall false, sampleCall true],
      utcSession.reread stored.record.recordedAt = stored.record.recordedAt := by
    decide +kernel
  obtain ⟨hrecord, hlog⟩ := postgres_round_trip_iff utcSession sampleDigest_ne_empty
  refine ⟨?_, ?_⟩
  · obtain ⟨r, hr, htime⟩ : ∃ r, utcSession.complete 1704067200000000000 (.error .notFound)
        (sampleCall false).record = .ok r ∧ r.recordedAt = 1704067200000000000 := ⟨_, rfl, rfl⟩
    obtain ⟨row, hrow⟩ : ∃ row, utcSession.toRow r = .ok row := ⟨_, rfl⟩
    rw [← htime] at hfirst
    exact ⟨r, row, hr, hrow, (hrecord _ _ _ r row hr (hjson _) (hjson _)
      (Session.distinguishes_of_reread hfirst) hrow).mpr (congrArg dayOf hfirst)⟩
  · refine (hlog [sampleCall false, sampleCall true] (fun _ _ => ⟨hjson _, hjson _⟩) ?_).mpr ?_
    · intro stored hstored
      exact Session.distinguishes_of_reread (htimes stored hstored)
    · intro stored hstored
      exact congrArg dayOf (htimes stored hstored)

/-- In UTC a record of the last 400 ns of a day comes back on the next day, and
at UTC+05:30 so does one of 23:45. -/
theorem untouched_table_rejected :
    utcSession.verifyTable (utcSession.writeAll []
        [{ sampleCall false with now := 1704153599999999600 }]) =
      .error (.runtime "record hash mismatch at req-1") ∧
    (∃ stored ∈ utcSession.writeAll [] [{ sampleCall false with now := 1704153599999999600 }],
      ¬utcSession.Verifies stored.row) ∧
    indiaSession.verifyTable (indiaSession.writeAll []
        [{ sampleCall false with now := 1704152700000000000 }]) =
      .error (.runtime "record hash mismatch at req-1") := by
  refine ⟨by decide +kernel, ⟨_, List.mem_singleton.mpr rfl, ?_⟩, by decide +kernel⟩
  rintro ⟨r, hr, hvalid⟩
  cases hr
  exact absurd hvalid.record (by decide +kernel)

end StandardTools.Audit
