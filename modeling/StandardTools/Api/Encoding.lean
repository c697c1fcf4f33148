import StandardTools.Api.Calls

/-!
# What can be recorded

`json::dump` throws on a string which is not UTF-8, and `Writer::Write` dumps the
payloads and the record. What was parsed from a request is UTF-8; what the
dispatcher returns or throws may be anything.
-/

namespace StandardTools.Api
open StandardTools.Core StandardTools.Audit StandardTools.Lib

namespace Server
variable {Text : Type}

/-- What the JSON library, SHA-256 and the build promise about strings. -/
structure Encoding (server : Server Text) (Utf8 : String → Prop) : Prop where
  dump : ∀ j, (∃ text, server.dump j = .ok text) ↔ j.AllStrings Utf8
  dump_field : ∀ j j' text key s s', server.dump j = .ok text → server.dump j' = .ok text →
    j.field? key = some (.string s) → j'.field? key = some (.string s') → s = s'
  parse : ∀ body j, server.parse body = some j → j.AllStrings Utf8
  ascii : ∀ s : String, isAscii s → Utf8 s
  hashBytes : ∀ text, Utf8 (server.hashBytes text)
  isoDay : ∀ day, Utf8 (server.isoDay day)
  gitCommit : Utf8 server.gitCommit
  packageVersion : Utf8 server.packageVersion

/-- All of a record but what was returned or thrown is UTF-8. -/
structure Prepared (Utf8 : String → Prop) (record : DecisionRecord) : Prop where
  input : record.input.AllStrings Utf8
  strings : ∀ s ∈ [record.gitCommitSha, record.packageVersion, record.prevRecordHash,
    record.requestId, record.status, record.toolName], Utf8 s

variable {server : Server Text} {Utf8 : String → Prop} {inv : Invocation} {req : ToolCallRequest}

theorem isAscii_append (s t : String) : isAscii (s ++ t) = (isAscii s && isAscii t) := by
  rw [isAscii, String.toList_append, List.all_append]
  rfl

theorem isAscii_toString (n : ℕ) : isAscii (toString n) = true := by
  refine List.all_eq_true.mpr fun c hc => ?_
  have hdigit : c.isDigit = true :=
    Nat.isDigit_of_mem_toDigits (by decide) (by decide) (Nat.toList_repr ▸ hc)
  simp only [Char.isDigit, Bool.and_eq_true, decide_eq_true_eq] at hdigit ⊢
  have hle : c.toNat ≤ 57 := hdigit.2
  omega

theorem isAscii_typeName (j : Json) : isAscii j.typeName = true := by
  cases j <;> (rw [Json.typeName]; decide +kernel)

namespace Encoding

theorem ascii_all (henc : server.Encoding Utf8) {texts : List String}
    (h : texts.all isAscii = true) : ∀ s ∈ texts, Utf8 s :=
  fun s hs => henc.ascii s (List.all_eq_true.mp h s hs)

theorem stringField (henc : server.Encoding Utf8) {j : Json} (hj : j.AllStrings Utf8)
    {key value : String} (h : Api.stringField j key = .ok value) : Utf8 value := by
  unfold Api.stringField at h
  cases hfield : j.field? key with
  | none =>
    rw [hfield] at h
    cases h
    exact henc.ascii "" rfl
  | some v =>
    rw [hfield] at h
    have hv := hj.field hfield
    cases v with
    | string s =>
      cases h
      exact Json.allStrings_string.mp hv
    | null | boolean | integer | float | array | object => cases h

theorem decode (henc : server.Encoding Utf8) (h : server.decodeToolCall inv.body = .ok req) :
    Utf8 req.tool ∧ Utf8 req.name ∧ req.arguments.AllStrings Utf8 := by
  unfold decodeToolCall at h
  cases hparse : server.parse inv.body with
  | none =>
    rw [hparse] at h
    cases h
  | some j =>
    rw [hparse] at h
    have hj := henc.parse _ _ hparse
    obtain ⟨tool, htool, h⟩ := bind_eq_ok.mp h
    obtain ⟨name, hname, h⟩ := bind_eq_ok.mp h
    cases h
    refine ⟨henc.stringField hj htool, henc.stringField hj hname, ?_⟩
    unfold argumentsField
    split
    · simp
    · simp
    · next arguments hfield => exact hj.field hfield

theorem stringField_error (henc : server.Encoding Utf8) {j : Json} {key : String} {e : Thrown}
    (h : Api.stringField j key = .error e) : Utf8 e.what := by
  unfold Api.stringField at h
  cases hfield : j.field? key with
  | none =>
    rw [hfield] at h
    cases h
  | some v =>
    rw [hfield] at h
    have hmessage : isAscii "[json.exception.type_error.302] type must be string, but is " := by
      decide +kernel
    have hascii (w : Json) : isAscii
        ("[json.exception.type_error.302] type must be string, but is " ++ w.typeName) := by
      rw [isAscii_append, hmessage, isAscii_typeName]
      rfl
    cases v with
    | string s => cases h
    | null | boolean | integer | float | array | object =>
      cases h
      exact henc.ascii _ (hascii _)

/-- A body that is not accepted is refused in words of the server's own. -/
theorem decode_error (henc : server.Encoding Utf8) {e : Thrown}
    (h : server.decodeToolCall inv.body = .error e) : Utf8 e.what := by
  unfold decodeToolCall at h
  cases hparse : server.parse inv.body with
  | none =>
    rw [hparse] at h
    cases h
    exact henc.ascii _ (by decide)
  | some j =>
    rw [hparse] at h
    cases htool : Api.stringField j "tool" with
    | error e' =>
      simp only [htool] at h
      cases h
      exact henc.stringField_error htool
    | ok tool =>
      cases hname : Api.stringField j "name" with
      | error e' =>
        simp only [htool, hname] at h
        cases h
        exact henc.stringField_error hname
      | ok name =>
        simp only [htool, hname] at h
        cases h

theorem hashJson (henc : server.Encoding Utf8) (j : Json) :
    (∃ hash, server.hashJson j = .ok hash) ↔ j.AllStrings Utf8 := by
  rw [← henc.dump]
  constructor
  · rintro ⟨hash, h⟩
    obtain ⟨text, htext, -⟩ := bind_eq_ok.mp h
    exact ⟨text, htext⟩
  · rintro ⟨text, htext⟩
    exact ⟨_, bind_eq_ok.mpr ⟨text, htext, rfl⟩⟩

/-- The text which `HashRecord` hashes. -/
theorem cleared (henc : server.Encoding Utf8) (r : DecisionRecord) :
    (server.cleared r).AllStrings Utf8 ↔
      r.input.AllStrings Utf8 ∧ r.output.AllStrings Utf8 ∧
        ∀ s ∈ [r.error, r.gitCommitSha, r.inputHash, r.outputHash, r.packageVersion,
          r.prevRecordHash, r.requestId, r.status, r.toolName], Utf8 s := by
  have hkeys : ∀ key ∈ ["error", "git_commit_sha", "input", "input_hash", "output", "output_hash",
      "package_version", "prev_record_hash", "random_seed", "record_hash", "recorded_at",
      "request_id", "status", "tool_name", ""], Utf8 key := henc.ascii_all (by decide +kernel)
  have hday : Utf8 (server.formatDate r.recordedAt) := henc.isoDay _
  simp only [List.forall_mem_cons] at hkeys
  simp only [Env.cleared, Env.recordJson, Json.allStrings_object, List.forall_mem_cons,
    Json.allStrings_string, Json.AllStrings.integer, hkeys, hday, true_and]
  constructor
  · rintro ⟨herror, hcommit, hinput, hin, houtput, hout, hversion, hprev, hid, hstatus, htool, -⟩
    exact ⟨hinput, houtput, herror, hcommit, hin, hout, hversion, hprev, hid, hstatus, htool,
      List.forall_mem_nil _⟩
  · rintro ⟨hinput, houtput, herror, hcommit, hin, hout, hversion, hprev, hid, hstatus, htool, -⟩
    exact ⟨herror, hcommit, hinput, hin, houtput, hout, hversion, hprev, hid, hstatus, htool,
      List.forall_mem_nil _⟩

theorem hashJson_utf8 (henc : server.Encoding Utf8) {j : Json} {hash : String}
    (h : server.hashJson j = .ok hash) : Utf8 hash := by
  obtain ⟨text, -, htext⟩ := bind_eq_ok.mp h
  cases htext
  exact henc.hashBytes text

theorem link_latest {content : List DecisionRecord}
    (hlog : ∀ r ∈ content, Utf8 r.recordHash) (record : DecisionRecord)
    (hprev : Utf8 record.prevRecordHash) :
    ∃ prevRecordHash, Utf8 prevRecordHash ∧
      Audit.link (latest content) record = .ok { record with prevRecordHash := prevRecordHash } := by
  unfold latest
  cases htip : content.getLast? with
  | none => exact ⟨record.prevRecordHash, hprev, rfl⟩
  | some tip =>
    by_cases hempty : tip.recordHash = ""
    · exact ⟨record.prevRecordHash, hprev, by simp [Audit.link, tipAnswer, hempty]⟩
    · exact ⟨tip.recordHash, hlog tip (List.mem_of_getLast? htip),
        by simp [Audit.link, tipAnswer, hempty]⟩

theorem complete (henc : server.Encoding Utf8) {content : List DecisionRecord}
    (hlog : ∀ r ∈ content, Utf8 r.recordHash) {record : DecisionRecord}
    (hrecord : Prepared Utf8 record) (now : Date) :
    (∃ r, server.toEnv.complete now (latest content) record = .ok r) ↔
      record.output.AllStrings Utf8 ∧ Utf8 record.error := by
  constructor
  · rintro ⟨r, h⟩
    obtain ⟨hvalid, -⟩ := Env.complete_eq_ok h
    obtain ⟨recordedAt, prev, inputHash, outputHash, recordHash, rfl⟩ := Env.complete_fields h
    have hcleared := (henc.cleared _).mp ((henc.hashJson _).mp ⟨_, hvalid.record⟩)
    exact ⟨hcleared.2.1, hcleared.2.2 record.error List.mem_cons_self⟩
  · rintro ⟨houtput, herror⟩
    have hstrings := hrecord.strings
    simp only [List.forall_mem_cons] at hstrings
    obtain ⟨hcommit, hversion, hprev, hid, hstatus, htool, -⟩ := hstrings
    obtain ⟨recordedAt, hstamp⟩ := Env.stamp_eq now record
    obtain ⟨prev, hprev, hlink⟩ :=
      link_latest hlog { record with recordedAt := recordedAt } hprev
    obtain ⟨inputHash, hinputHash⟩ := (henc.hashJson record.input).mpr hrecord.input
    obtain ⟨outputHash, houtputHash⟩ := (henc.hashJson record.output).mpr houtput
    have hstrings : ∀ s ∈ [record.error, record.gitCommitSha, inputHash, outputHash,
        record.packageVersion, prev, record.requestId, record.status, record.toolName],
        Utf8 s := by
      simp only [List.forall_mem_cons]
      exact ⟨herror, hcommit, henc.hashJson_utf8 hinputHash, henc.hashJson_utf8 houtputHash,
        hversion, hprev, hid, hstatus, htool, nofun⟩
    obtain ⟨recordHash, hrecordHash⟩ := (henc.hashJson (server.cleared { record with
      recordedAt := recordedAt, prevRecordHash := prev, inputHash := inputHash,
      outputHash := outputHash })).mpr ((henc.cleared _).mpr ⟨hrecord.input, houtput, hstrings⟩)
    unfold Env.complete
    rw [hstamp, hlink]
    have hfill : ∃ r, server.fillHashes { record with
        recordedAt := recordedAt, prevRecordHash := prev } = .ok r :=
      ⟨_, bind_eq_ok.mpr ⟨(record.input, inputHash),
        Env.canonicalizeAndHash_eq_ok.mpr ⟨rfl, hinputHash⟩,
        bind_eq_ok.mpr ⟨(record.output, outputHash),
          Env.canonicalizeAndHash_eq_ok.mpr ⟨rfl, houtputHash⟩,
          bind_eq_ok.mpr ⟨recordHash, hrecordHash, rfl⟩⟩⟩⟩
    exact hfill

end Encoding

/-! ### Storing -/

variable {content : List DecisionRecord}

/-- Nothing keeps the record out of the log. -/
structure Storable (server : Server Text) (Utf8 : String → Prop) (moment : Moment)
    (content : List DecisionRecord) (record : DecisionRecord) : Prop where
  latest : moment.latestFault = none
  append : server.storage.appendFault moment.refusal content record.requestId = none
  output : record.output.AllStrings Utf8
  error : Utf8 record.error

/-- What a record keeps when `Write` completes it. -/
structure Completes (Utf8 : String → Prop) (record r : DecisionRecord) : Prop where
  requestId : r.requestId = record.requestId
  status : r.status = record.status
  error : r.error = record.error
  recordHash : Utf8 r.recordHash

theorem storable_of_write (henc : server.Encoding Utf8)
    (hlog : ∀ r ∈ content, Utf8 r.recordHash) {record : DecisionRecord}
    (hrecord : Prepared Utf8 record) (moment : Moment) {r : DecisionRecord}
    (h : server.toEnv.write content (server.auditCall content moment record) =
      (content ++ [r], .ok ())) :
    server.Storable Utf8 moment content record ∧ Completes Utf8 record r := by
  obtain ⟨hlatest, happend, hr⟩ := Env.write_eq_ok.mp h
  obtain ⟨houtput, herror⟩ := (henc.complete hlog hrecord moment.now).mp ⟨r, hr⟩
  obtain ⟨hvalid, -⟩ := Env.complete_eq_ok hr
  obtain ⟨recordedAt, prev, inputHash, outputHash, recordHash, hfields⟩ := Env.complete_fields hr
  refine ⟨⟨hlatest, happend, houtput, herror⟩, ?_, ?_, ?_, henc.hashJson_utf8 hvalid.record⟩
  all_goals
    rw [hfields]
    rfl

theorem write_stored (henc : server.Encoding Utf8) (hlog : ∀ r ∈ content, Utf8 r.recordHash)
    {record : DecisionRecord} (hrecord : Prepared Utf8 record) {moment : Moment}
    (h : server.Storable Utf8 moment content record) {s : Trace} (hs : s.log = some content) :
    ∃ r, Completes Utf8 record r ∧ server.write moment record s =
      (.ok (), ⟨some (content ++ [r]), s.events ++ [.handed record]⟩) := by
  obtain ⟨r, hr⟩ := (henc.complete hlog hrecord moment.now).mpr ⟨h.output, h.error⟩
  have hwrite := (@Env.write_eq_ok _ server.toEnv content
    (server.auditCall content moment record) r).mpr ⟨h.latest, h.append, hr⟩
  refine ⟨r, (storable_of_write henc hlog hrecord moment hwrite).2, ?_⟩
  rw [write_some hs, hwrite]
  rfl

theorem write_refused (henc : server.Encoding Utf8) (hlog : ∀ r ∈ content, Utf8 r.recordHash)
    {record : DecisionRecord} (hrecord : Prepared Utf8 record) {moment : Moment}
    (h : ¬server.Storable Utf8 moment content record) {s : Trace} (hs : s.log = some content) :
    ∃ e, server.write moment record s =
      (.error e, ⟨some content, s.events ++ [.handed record]⟩) := by
  rw [write_some hs]
  rcases server.toEnv.write_cases content (server.auditCall content moment record) with
    ⟨e, hwrite⟩ | ⟨r, -, hwrite⟩
  · rw [hwrite]
    exact ⟨.audit e, rfl⟩
  · exact absurd (storable_of_write henc hlog hrecord moment hwrite).1 h

/-! ### The records of the handlers -/

theorem Encoding.taskId (henc : server.Encoding Utf8) (body : String) :
    Utf8 (server.taskId body) := by
  refine henc.ascii _ ?_
  have htask : isAscii "task-" := by decide
  rw [Server.taskId, isAscii_append, Bool.and_eq_true]
  exact ⟨htask, isAscii_toString _⟩

theorem Encoding.auditRecord (henc : server.Encoding Utf8) (moment : Moment)
    {id toolName : String} (hid : Utf8 id) (htool : Utf8 toolName) {input : Json}
    (hinput : input.AllStrings Utf8) (output : Json) (error : Option String) :
    Prepared Utf8 (server.auditRecord moment id toolName input output error) := by
  refine ⟨hinput, ?_⟩
  simp only [List.forall_mem_cons, Server.auditRecord]
  refine ⟨henc.gitCommit, henc.packageVersion, henc.ascii "" rfl, ?_, ?_, htool, nofun⟩
  · split_ifs
    · exact henc.ascii _ moment.uuid_ascii
    · exact hid
  · split_ifs
    · exact henc.ascii _ (by decide)
    · exact henc.ascii _ (by decide)

theorem Encoding.auditedName (transport : Transport) (htool : Utf8 req.tool)
    (hname : Utf8 req.name) : Utf8 (Server.auditedName transport req) := by
  cases transport with
  | rest | a2a =>
    simp only [Server.auditedName]
    split_ifs <;> assumption
  | mcp =>
    simp only [Server.auditedName]
    split_ifs <;> assumption

theorem Encoding.okRecord (henc : server.Encoding Utf8) (transport : Transport)
    (hdecode : server.decodeToolCall inv.body = .ok req) (output : Json) :
    Prepared Utf8 (server.okRecord transport inv req output) := by
  obtain ⟨htool, hname, harguments⟩ := henc.decode hdecode
  refine henc.auditRecord inv.tried ?_ (auditedName transport htool hname) harguments output none
  cases transport with
  | rest | mcp => exact henc.ascii "" rfl
  | a2a => exact henc.taskId inv.body

theorem Encoding.errorRecord (henc : server.Encoding Utf8) (htool : Utf8 req.tool)
    (hname : Utf8 req.name) (harguments : req.arguments.AllStrings Utf8) (e : Thrown) :
    Prepared Utf8 (server.errorRecord inv req e) :=
  henc.auditRecord inv.caught (henc.taskId inv.body) (auditedName .a2a htool hname) harguments
    .null (some e.what)

theorem jsonResponse_eq_ok (henc : server.Encoding Utf8) (status : Int) (body : Json) :
    (∃ response, server.jsonResponse status body = .ok response) ↔ body.AllStrings Utf8 := by
  rw [← henc.dump, jsonResponse]
  cases server.dump body with
  | ok text => simp
  | error e => simp

theorem dump_of_jsonResponse {status : Int} {body : Json} {response : Response Text}
    (h : server.jsonResponse status body = .ok response) :
    server.dump body = .ok response.body := by
  unfold jsonResponse at h
  cases hdump : server.dump body with
  | error e =>
    rw [hdump] at h
    cases h
  | ok text =>
    rw [hdump] at h
    cases h
    rfl

theorem Encoding.taskJson (henc : server.Encoding Utf8) (body status : String) (output error : Json)
    (hstatus : Utf8 status) :
    (Server.taskJson (server.taskId body) status output error).AllStrings Utf8 ↔
      output.AllStrings Utf8 ∧ error.AllStrings Utf8 := by
  have hkeys : ∀ key ∈ ["id", "result", "error", "output", "status"], Utf8 key :=
    henc.ascii_all (by decide +kernel)
  simp only [List.forall_mem_cons] at hkeys
  simp [Server.taskJson, hkeys, hstatus, henc.taskId, and_comm]

end Server

theorem sampleServer_encoding (storage : Storage) :
    (sampleServer storage).Encoding fun _ => True where
  dump j := iff_of_true ⟨j, rfl⟩ j.allStrings_true
  dump_field j j' text key s s' h h' hs hs' := by
    obtain rfl : j = j' := Except.ok.inj (h.trans h'.symm)
    exact Json.string.inj (Option.some.inj (hs.symm.trans hs'))
  parse _ j _ := j.allStrings_true
  ascii _ _ := trivial
  hashBytes _ := trivial
  isoDay _ := trivial
  gitCommit := trivial
  packageVersion := trivial

end StandardTools.Api
