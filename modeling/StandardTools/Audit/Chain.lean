import Mathlib.Data.List.Chain
import StandardTools.Audit.Record
import StandardTools.Lib.Except

/-!
# Writer and verifier (`audit/writer.cpp`, `audit/verifier.cpp`, `audit/storage.cpp`)

The content of a storage is the list of its records, oldest first. A call of
`Writer::Write` completes the caller's record (time, link to the latest record,
hashes) and appends it; `Verifier::VerifyChain` checks every record by itself
and every record but the first against the one before it.
-/

namespace StandardTools.Audit
open StandardTools.Core StandardTools.Lib

/-! ### The storage -/

def tipAnswer : Option DecisionRecord → Except AuditError DecisionRecord
  | none => .error .notFound
  | some r => .ok r

def latest (content : List DecisionRecord) : Except AuditError DecisionRecord :=
  tipAnswer content.getLast?

/-! ### The writer -/

abbrev Fault := { e : AuditError // e ≠ .notFound }

/-- What the table throws for a second row of that id: `request_id TEXT NOT NULL UNIQUE`
(`storage/migrate.cpp:16`). -/
def uniqueViolation (requestId : String) : Fault :=
  ⟨.foreign ("ERROR:  duplicate key value violates unique constraint " ++
    "\"audit_records_request_id_key\"\nDETAIL:  Key (request_id)=(" ++ requestId ++
    ") already exists.\n"), AuditError.noConfusion⟩

/-- What an `INSERT` into a table with those ids meets. `refusal` is what the database
has against the row besides its id: a payload which JSONB does not take, a value too
long for an index, a lost connection. -/
def insertFault (ids : List String) (refusal : Option Fault) (requestId : String) : Option Fault :=
  refusal.or (if requestId ∈ ids then some (uniqueViolation requestId) else none)

theorem insertFault_eq_none {ids : List String} {refusal : Option Fault} {requestId : String} :
    insertFault ids refusal requestId = none ↔ refusal = none ∧ requestId ∉ ids := by
  rw [insertFault, Option.or_eq_none_iff, ite_eq_right_iff]
  simp only [reduceCtorEq, imp_false]

/-- One call of `Write`: the caller's record, the clock, and what the storage
throws during the call, if anything. -/
structure Call where
  record : DecisionRecord
  now : Date
  latestFault : Option Fault
  appendFault : Option Fault

def stamp (now : Date) (record : DecisionRecord) : DecisionRecord :=
  if record.recordedAt = 0 then { record with recordedAt := now } else record

def link (tip : Except AuditError DecisionRecord) (record : DecisionRecord) :
    Except AuditError DecisionRecord :=
  match tip with
  | .ok tip =>
    .ok (if tip.recordHash = "" then record else { record with prevRecordHash := tip.recordHash })
  | .error .notFound => .ok record
  | .error e => .error e

namespace Env
variable {Text : Type} (env : Env Text)

def canonicalizeAndHash (value : Json) : Except AuditError (Json × String) := do
  let canonical := match value with
    | .null => .null
    | value => value
  let hash ← env.hashJson canonical
  return (canonical, hash)

def fillHashes (record : DecisionRecord) : Except AuditError DecisionRecord := do
  let (inputJson, inputHash) ← env.canonicalizeAndHash record.input
  let record := { record with input := inputJson, inputHash := inputHash }
  let (outputJson, outputHash) ← env.canonicalizeAndHash record.output
  let record := { record with output := outputJson, outputHash := outputHash }
  let recordHash ← env.hashRecord record
  return { record with recordHash := recordHash }

def complete (now : Date) (tip : Except AuditError DecisionRecord) (record : DecisionRecord) :
    Except AuditError DecisionRecord := do
  let record ← link tip (stamp now record)
  env.fillHashes record

/-- `Write`: the content afterwards and the outcome of the call. -/
def write (content : List DecisionRecord) (call : Call) :
    List DecisionRecord × Except AuditError Unit :=
  let tip : Except AuditError DecisionRecord := match call.latestFault with
    | some e => .error e.val
    | none => latest content
  match env.complete call.now tip call.record with
  | .error e => (content, .error e)
  | .ok record =>
    match call.appendFault with
    | some e => (content, .error e.val)
    | none => (content ++ [record], .ok ())

def writeAll (content : List DecisionRecord) :
    List Call → List DecisionRecord × List (Except AuditError Unit)
  | [] => (content, [])
  | call :: calls =>
    let (content', outcome) := env.write content call
    let (content'', outcomes) := writeAll content' calls
    (content'', outcome :: outcomes)

/-! ### The verifier -/

def checkHash (name : String) (computed : Except AuditError String) (stored requestId : String) :
    Except AuditError Unit := do
  let hash ← computed
  if hash ≠ stored then .error (.runtime (name ++ " hash mismatch at " ++ requestId))
  else .ok ()

def verifyRecord (r : DecisionRecord) : Except AuditError Unit := do
  checkHash "input" (env.hashJson r.input) r.inputHash r.requestId
  checkHash "output" (env.hashJson r.output) r.outputHash r.requestId
  checkHash "record" (env.hashRecord r) r.recordHash r.requestId

def verifyFrom : Option DecisionRecord → List DecisionRecord → Except AuditError Unit
  | _, [] => .ok ()
  | prev, r :: rest => do
    env.verifyRecord r
    match prev with
    | none => verifyFrom (some r) rest
    | some p =>
      if r.prevRecordHash ≠ p.recordHash then
        .error (.runtime ("chain mismatch at " ++ r.requestId))
      else verifyFrom (some r) rest

def verifyChain (content : List DecisionRecord) : Except AuditError Unit :=
  env.verifyFrom none content

/-! ### What the verifier accepts -/

structure Valid (r : DecisionRecord) : Prop where
  input : env.hashJson r.input = .ok r.inputHash
  output : env.hashJson r.output = .ok r.outputHash
  record : env.hashRecord r = .ok r.recordHash

def Linked (p r : DecisionRecord) : Prop := r.prevRecordHash = p.recordHash

variable {env}

theorem checkHash_eq_ok {name stored requestId : String} {computed : Except AuditError String} :
    checkHash name computed stored requestId = .ok () ↔ computed = .ok stored := by
  unfold checkHash
  constructor
  · intro h
    obtain ⟨hash, hhash, h⟩ := bind_eq_ok.mp h
    by_cases heq : hash = stored
    · rw [hhash, heq]
    · rw [if_pos heq] at h
      cases h
  · intro h
    exact bind_eq_ok.mpr ⟨stored, h, if_neg (not_not_intro rfl)⟩

theorem verifyRecord_eq_ok {r : DecisionRecord} : env.verifyRecord r = .ok () ↔ env.Valid r := by
  unfold verifyRecord
  constructor
  · intro h
    obtain ⟨u, hinput, h⟩ := bind_eq_ok.mp h
    obtain ⟨v, houtput, hrecord⟩ := bind_eq_ok.mp h
    exact ⟨checkHash_eq_ok.mp hinput, checkHash_eq_ok.mp houtput, checkHash_eq_ok.mp hrecord⟩
  · intro h
    exact bind_eq_ok.mpr ⟨(), checkHash_eq_ok.mpr h.input,
      bind_eq_ok.mpr ⟨(), checkHash_eq_ok.mpr h.output, checkHash_eq_ok.mpr h.record⟩⟩

/-- By induction on the records: the loop carries the previous record along. -/
theorem verifyFrom_eq_ok {prev : Option DecisionRecord} {content : List DecisionRecord} :
    env.verifyFrom prev content = .ok () ↔
      (∀ r ∈ content, env.Valid r) ∧ (prev.toList ++ content).IsChain Linked := by
  induction content generalizing prev with
  | nil =>
    cases prev with
    | none => simp [verifyFrom]
    | some p => simp [verifyFrom]
  | cons r rest ih =>
    rw [List.forall_mem_cons]
    cases prev with
    | none =>
      have hrest := @ih (some r)
      simp only [Option.toList_none, Option.toList_some, List.nil_append, List.singleton_append]
        at hrest ⊢
      constructor
      · intro h
        obtain ⟨u, hr, h⟩ := bind_eq_ok.mp h
        obtain ⟨hvalid, hchain⟩ := hrest.mp h
        exact ⟨⟨verifyRecord_eq_ok.mp hr, hvalid⟩, hchain⟩
      · intro h
        obtain ⟨⟨hr, hvalid⟩, hchain⟩ := h
        exact bind_eq_ok.mpr ⟨(), verifyRecord_eq_ok.mpr hr, hrest.mpr ⟨hvalid, hchain⟩⟩
    | some p =>
      have hrest := @ih (some r)
      simp only [Option.toList_some, List.singleton_append, List.isChain_cons_cons] at hrest ⊢
      constructor
      · intro h
        obtain ⟨u, hr, h⟩ := bind_eq_ok.mp h
        by_cases hlink : r.prevRecordHash = p.recordHash
        · simp only [hlink, ne_eq, not_true_eq_false, if_false] at h
          obtain ⟨hvalid, hchain⟩ := hrest.mp h
          exact ⟨⟨verifyRecord_eq_ok.mp hr, hvalid⟩, hlink, hchain⟩
        · simp only [hlink, ne_eq, not_false_eq_true, if_true] at h
          cases h
      · intro h
        obtain ⟨⟨hr, hvalid⟩, hlink, hchain⟩ := h
        have heq : r.prevRecordHash = p.recordHash := hlink
        refine bind_eq_ok.mpr ⟨(), verifyRecord_eq_ok.mpr hr, ?_⟩
        simp only [heq, ne_eq, not_true_eq_false, if_false]
        exact hrest.mpr ⟨hvalid, hchain⟩

theorem verifyChain_eq_ok {content : List DecisionRecord} :
    env.verifyChain content = .ok () ↔
      (∀ r ∈ content, env.Valid r) ∧ content.IsChain Linked :=
  verifyFrom_eq_ok

theorem verifyChain_append {content : List DecisionRecord} {r : DecisionRecord} :
    env.verifyChain (content ++ [r]) = .ok () ↔
      env.verifyChain content = .ok () ∧ env.Valid r ∧
        ∀ tip ∈ content.getLast?, Linked tip r := by
  rw [verifyChain_eq_ok, verifyChain_eq_ok, List.isChain_append]
  constructor
  · intro h
    obtain ⟨hvalid, hchain, -, hlink⟩ := h
    refine ⟨⟨fun x hx => hvalid x (List.mem_append_left _ hx), hchain⟩,
      hvalid r (List.mem_append_right _ (List.mem_singleton.mpr rfl)), ?_⟩
    intro tip htip
    exact hlink tip htip r rfl
  · intro h
    obtain ⟨⟨hvalid, hchain⟩, hr, hlink⟩ := h
    refine ⟨?_, hchain, List.isChain_singleton r, ?_⟩
    · intro x hx
      rcases List.mem_append.mp hx with hx | hx
      · exact hvalid x hx
      · rw [List.mem_singleton.mp hx]
        exact hr
    · intro tip htip y hy
      obtain rfl : r = y := Option.some.inj hy
      exact hlink tip htip

/-! ### What the writer appends -/

theorem hashJson_ne_empty (hhash : ∀ text, env.hashBytes text ≠ "") {value : Json} {h : String}
    (hvalue : env.hashJson value = .ok h) : h ≠ "" := by
  obtain ⟨text, -, htext⟩ := bind_eq_ok.mp hvalue
  cases htext
  exact hhash text

theorem canonicalizeAndHash_eq_ok {value : Json} {x : Json × String} :
    env.canonicalizeAndHash value = .ok x ↔ x.1 = value ∧ env.hashJson value = .ok x.2 := by
  have hcanonical : env.canonicalizeAndHash value =
      (env.hashJson value).bind fun hash => .ok (value, hash) := by
    unfold canonicalizeAndHash
    cases value <;> rfl
  obtain ⟨canonical, hash⟩ := x
  rw [hcanonical]
  cases env.hashJson value with
  | error e => simp [Except.bind]
  | ok h => simp [Except.bind, eq_comm]

theorem fillHashes_eq_ok {record r : DecisionRecord} (h : env.fillHashes record = .ok r) :
    env.Valid r ∧ r.prevRecordHash = record.prevRecordHash ∧
      ∃ inputHash outputHash recordHash, r = { record with
        inputHash := inputHash, outputHash := outputHash, recordHash := recordHash } := by
  unfold fillHashes at h
  obtain ⟨⟨inputJson, inputHash⟩, hinput, h⟩ := bind_eq_ok.mp h
  obtain ⟨⟨outputJson, outputHash⟩, houtput, h⟩ := bind_eq_ok.mp h
  obtain ⟨recordHash, hrecord, h⟩ := bind_eq_ok.mp h
  obtain ⟨rfl, hinput⟩ := canonicalizeAndHash_eq_ok.mp hinput
  obtain ⟨rfl, houtput⟩ := canonicalizeAndHash_eq_ok.mp houtput
  cases h
  exact ⟨⟨hinput, houtput, hrecord⟩, rfl, inputHash, outputHash, recordHash, rfl⟩

theorem complete_eq_ok {now : Date} {tip : Except AuditError DecisionRecord}
    {record r : DecisionRecord} (h : env.complete now tip record = .ok r) :
    env.Valid r ∧ ∀ p, tip = .ok p → p.recordHash ≠ "" → Linked p r := by
  unfold complete at h
  obtain ⟨linked, hlinked, h⟩ := bind_eq_ok.mp h
  obtain ⟨hvalid, hprev, -⟩ := fillHashes_eq_ok h
  refine ⟨hvalid, ?_⟩
  intro p htip hne
  rw [htip, link, if_neg hne] at hlinked
  cases hlinked
  exact hprev

theorem stamp_eq (now : Date) (record : DecisionRecord) :
    ∃ recordedAt, stamp now record = { record with recordedAt := recordedAt } := by
  unfold stamp
  split_ifs
  · exact ⟨now, rfl⟩
  · exact ⟨record.recordedAt, rfl⟩

theorem link_eq_ok {tip : Except AuditError DecisionRecord} {record linked : DecisionRecord}
    (h : link tip record = .ok linked) :
    ∃ prevRecordHash, linked = { record with prevRecordHash := prevRecordHash } := by
  cases tip with
  | ok p =>
    cases h
    split_ifs
    · exact ⟨_, rfl⟩
    · exact ⟨_, rfl⟩
  | error e =>
    cases e with
    | notFound =>
      cases h
      exact ⟨_, rfl⟩
    | runtime | foreign => cases h

/-- A completed record differs from the caller's in time, link and hashes. -/
theorem complete_fields {now : Date} {tip : Except AuditError DecisionRecord}
    {record r : DecisionRecord} (h : env.complete now tip record = .ok r) :
    ∃ recordedAt prevRecordHash inputHash outputHash recordHash, r = { record with
      recordedAt := recordedAt, prevRecordHash := prevRecordHash, inputHash := inputHash,
      outputHash := outputHash, recordHash := recordHash } := by
  unfold complete at h
  obtain ⟨linked, hlinked, h⟩ := bind_eq_ok.mp h
  obtain ⟨-, -, inputHash, outputHash, recordHash, rfl⟩ := fillHashes_eq_ok h
  obtain ⟨recordedAt, hstamp⟩ := stamp_eq now record
  obtain ⟨prevRecordHash, rfl⟩ := link_eq_ok hlinked
  rw [hstamp]
  exact ⟨recordedAt, prevRecordHash, inputHash, outputHash, recordHash, rfl⟩

theorem latest_eq_ok {content : List DecisionRecord} {p : DecisionRecord} :
    latest content = .ok p ↔ content.getLast? = some p := by
  unfold latest
  cases content.getLast? with
  | none => simp [tipAnswer]
  | some q => simp [tipAnswer]

theorem complete_fault (e : Fault) (now : Date) (record : DecisionRecord) :
    env.complete now (.error e.val) record = .error e.val := by
  have hlink : ∀ record, link (.error e.val) record = .error e.val := by
    intro record
    obtain ⟨e, he⟩ := e
    cases e with
    | notFound => exact absurd rfl he
    | runtime msg => rfl
    | foreign msg => rfl
  unfold complete
  rw [hlink]
  rfl

/-- What `Latest` answered is still the tip, so the completed record fits. -/
theorem verifyChain_complete (hhash : ∀ text, env.hashBytes text ≠ "")
    {content : List DecisionRecord} (hok : env.verifyChain content = .ok ())
    {now : Date} {record r : DecisionRecord}
    (h : env.complete now (latest content) record = .ok r) :
    env.verifyChain (content ++ [r]) = .ok () := by
  obtain ⟨hvalid, hlink⟩ := complete_eq_ok h
  refine verifyChain_append.mpr ⟨hok, hvalid, ?_⟩
  intro tip htip
  have htipValid : env.Valid tip := (verifyChain_eq_ok.mp hok).1 tip (List.mem_of_getLast? htip)
  exact hlink tip (latest_eq_ok.mpr htip) (hashJson_ne_empty hhash htipValid.record)

/-- A call fails and stores nothing, or it appends what it completed. -/
theorem write_cases (content : List DecisionRecord) (call : Call) :
    (∃ e, env.write content call = (content, .error e)) ∨
      ∃ r, env.complete call.now (latest content) call.record = .ok r ∧
        env.write content call = (content ++ [r], .ok ()) := by
  unfold write
  cases hfault : call.latestFault with
  | some e =>
    simp only [complete_fault]
    exact Or.inl ⟨e.val, rfl⟩
  | none =>
    simp only
    cases hcomplete : env.complete call.now (latest content) call.record with
    | error e => exact Or.inl ⟨e, rfl⟩
    | ok r =>
      cases call.appendFault with
      | some e => exact Or.inl ⟨e.val, rfl⟩
      | none => exact Or.inr ⟨r, rfl, rfl⟩

theorem write_eq_ok {content : List DecisionRecord} {call : Call} {r : DecisionRecord} :
    env.write content call = (content ++ [r], .ok ()) ↔
      call.latestFault = none ∧ call.appendFault = none ∧
        env.complete call.now (latest content) call.record = .ok r := by
  unfold write
  cases call.latestFault with
  | some e => simp [complete_fault]
  | none =>
    simp only
    cases env.complete call.now (latest content) call.record with
    | error e => simp
    | ok r' =>
      cases call.appendFault with
      | some e => simp
      | none => simp

end Env

/-! ### A concrete environment -/

/-- SHA-256 of the texts which the sample calls below hash, by the value whose
text it is: a payload, or a record of that day behind that record. -/
def sampleDigest : Json → String
  | .null => "74234e98afe7498fb5daf1f36ac2d78acc339464f950703b8c019892f982b90b"
  | .array [] => "4f53cda18c2baa0c0354bb5f9a3ecbe5ed12ab4d8e11ba873c2f11161202b945"
  | .object [("status", .string "ok")] =>
    "a29ee2b15c494311c52521766e44af56a3ad2248e7a8ab465e5206463c13d288"
  | .object entries =>
    match entries.lookup "request_id", entries.lookup "recorded_at",
        entries.lookup "prev_record_hash" with
    | some (.string "req-1"), some (.string "2024-01-01"), _ =>
      "9bed9216e60ba29cec303b9ba85a9bb84847bef6c5dc0c81aa54e5e9d3273f34"
    | some (.string "req-1"), _, _ =>
      "09d69770e213bcd26efb9e13ffe6211ff3039d0c47e5e735af4e0f168117ee8a"
    | _, _, some (.string "") =>
      "cfbcb86ef07e339f6fdf61bf35627e12a86ea864541db188e976092ccdfa6e54"
    | _, _, _ => "8603cc2dc29516d44c3a6e3de18323c159cf999308be657bd0391656bf32d0ab"
  | _ => "unknown"

def sampleEnv : Env Json where
  dump := .ok
  hashBytes := sampleDigest
  isoDay day :=
    if day = 19723 then "2024-01-01" else if day = 19724 then "2024-01-02" else toString day

/-- A call of `health` on 2024-01-01 and one of `list_tools` a day later. -/
def sampleCall (second : Bool) : Call where
  record :=
    { requestId := if second then "req-2" else "req-1"
      recordedAt := 0
      toolName := if second then "list_tools" else "health"
      input := .null
      inputHash := ""
      output := if second then .array [] else .object [("status", .string "ok")]
      outputHash := ""
      status := "ok"
      error := ""
      gitCommitSha := ""
      packageVersion := ""
      randomSeed := 0
      prevRecordHash := ""
      recordHash := "" }
  now := if second then 1704153600000000000 else 1704067200000000000
  latestFault := none
  appendFault := none

end StandardTools.Audit
