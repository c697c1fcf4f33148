import StandardTools.Audit.Soundness
import StandardTools.Lib.HashChain

/-!
# What a forger cannot do

Where the hashes are free of collisions, a record's own hash fixes everything
that `to_json` puts into the hashed text. The text holds the day of
`recorded_at` and not its time, and nothing ties the first record to anything
before it: these are the two things which the chain does not cover.
-/

namespace StandardTools.Audit
open StandardTools.Core StandardTools.Lib

namespace Env
variable {Text : Type} {env : Env Text}

def CollisionFree (env : Env Text) (values : Set Json) : Prop :=
  ∀ v ∈ values, ∀ w ∈ values, ∀ h, env.hashJson v = .ok h → env.hashJson w = .ok h → v = w

theorem CollisionFree.mono {values values' : Set Json} (h : env.CollisionFree values)
    (hsub : values' ⊆ values) : env.CollisionFree values' :=
  fun v hv w hw => h v (hsub hv) w (hsub hw)

theorem collisionFree_of_nodup {content : List DecisionRecord}
    (h : (content.map env.hashRecord).Nodup) :
    env.CollisionFree {v | ∃ r ∈ content, v = env.cleared r} := by
  intro v hv w hw hash hhv hhw
  obtain ⟨a, ha, rfl⟩ := hv
  obtain ⟨b, hb, rfl⟩ := hw
  have hab : a = b := List.inj_on_of_nodup_map h ha hb (hhv.trans hhw.symm)
  rw [hab]

/-- The hashed text fixes all fields but the time of day, and the record's own
hash, which is left out of it. -/
theorem cleared_inj {a b : DecisionRecord} (h : env.cleared a = env.cleared b) :
    b = { a with recordedAt := b.recordedAt, recordHash := b.recordHash } ∧
      env.formatDate a.recordedAt = env.formatDate b.recordedAt := by
  obtain ⟨id, recordedAt, tool, input, inputHash, output, outputHash, status, error, sha, version,
    seed, prevHash, hash⟩ := a
  obtain ⟨id', recordedAt', tool', input', inputHash', output', outputHash', status', error', sha',
    version', seed', prevHash', hash'⟩ := b
  simp only [cleared, recordJson, Json.object.injEq, List.cons.injEq, Prod.mk.injEq,
    Json.string.injEq, Json.integer.injEq, Int64.toInt_inj, true_and, and_true] at h
  obtain ⟨rfl, rfl, rfl, rfl, rfl, rfl, rfl, rfl, rfl, hday, rfl, rfl, rfl⟩ := h
  exact ⟨rfl, hday⟩

theorem recordJson_congr {a b : DecisionRecord} (h : env.cleared a = env.cleared b)
    (hhash : a.recordHash = b.recordHash) : env.recordJson a = env.recordJson b := by
  obtain ⟨hb, hday⟩ := cleared_inj h
  rw [hb]
  simp only [recordJson, hday, hhash]

theorem prevRecordHash_of_recordJson {a b : DecisionRecord}
    (h : env.recordJson a = env.recordJson b) : a.prevRecordHash = b.prevRecordHash := by
  simp only [recordJson, Json.object.injEq, List.cons.injEq, Prod.mk.injEq, Json.string.injEq,
    true_and] at h
  obtain ⟨-, -, -, -, -, -, -, hprev, -⟩ := h
  exact hprev

theorem verifyChain_chained {content : List DecisionRecord} (h : env.verifyChain content = .ok ()) :
    Chained (fun r : DecisionRecord => r.recordHash) (fun r => r.prevRecordHash) content :=
  (verifyChain_eq_ok.mp h).2

theorem recordJson_of_recordHash {values : Set Json} (hfree : env.CollisionFree values)
    {a b : DecisionRecord} (ha : env.Valid a) (hb : env.Valid b) (hav : env.cleared a ∈ values)
    (hbv : env.cleared b ∈ values) (h : a.recordHash = b.recordHash) :
    env.recordJson a = env.recordJson b := by
  have hbhash := hb.record
  rw [← h] at hbhash
  exact recordJson_congr (hfree _ hav _ hbv _ ha.record hbhash) h

end Env

def tipHash (content : List DecisionRecord) : Option String :=
  content.getLast?.map (·.recordHash)

/-- A log with the tip of a writer's log agrees with it record by record,
counted from the end, as far as both of them reach. It can only be the longer
one when the writer's first record carries a link which its caller made up. -/
theorem anchored_tip_pins_common_end {Text : Type} (env : Env Text)
    (hhash : ∀ text, env.hashBytes text ≠ "") (calls : List Call) (log : List DecisionRecord)
    (hfree : env.CollisionFree
      {v | ∃ r ∈ (env.writeAll [] calls).1 ++ log, v = env.cleared r})
    (hok : env.verifyChain log = .ok ()) (htip : tipHash log = tipHash (env.writeAll [] calls).1) :
    (log.map env.recordJson <:+ (env.writeAll [] calls).1.map env.recordJson ∨
      (env.writeAll [] calls).1.map env.recordJson <:+ log.map env.recordJson) ∧
    ((∀ r ∈ (env.writeAll [] calls).1.head?, r.prevRecordHash = "") →
      log.map env.recordJson <:+ (env.writeAll [] calls).1.map env.recordJson) := by
  have hwritten : env.verifyChain (env.writeAll [] calls).1 = .ok () := by
    obtain ⟨added, hcontent, -, hchain⟩ := @Env.writeAll_spec Text env hhash calls [] rfl
    rw [hcontent]
    exact hchain
  have hvalid := (Env.verifyChain_eq_ok.mp hok).1
  have hvalid' := (Env.verifyChain_eq_ok.mp hwritten).1
  have hchain := Env.verifyChain_chained hok
  have hsuffix : log.map env.recordJson <:+ (env.writeAll [] calls).1.map env.recordJson ∨
      (env.writeAll [] calls).1.map env.recordJson <:+ log.map env.recordJson := by
    apply hchain.suffix_of_same_tip (Env.verifyChain_chained hwritten)
    · intro a ha b hb hab
      exact Env.recordJson_of_recordHash hfree (hvalid a ha) (hvalid' b hb)
        ⟨a, List.mem_append_right _ ha, rfl⟩ ⟨b, List.mem_append_left _ hb, rfl⟩ hab
    · intro a _ b _ hab
      exact Env.prevRecordHash_of_recordJson hab
    · exact htip
  refine ⟨hsuffix, ?_⟩
  intro hroot
  rcases hsuffix with hlog | hwriter
  · exact hlog
  by_cases hne : (env.writeAll [] calls).1 = []
  · have hempty : log = [] := by
      rw [hne] at htip
      exact List.getLast?_eq_none_iff.mp (Option.map_eq_none_iff.mp htip)
    rw [hempty]
    exact List.nil_suffix
  · have heq := hchain.eq_of_rooted (fun a _ b _ hab => Env.prevRecordHash_of_recordJson hab)
      (fun a ha b hb hab => Env.hashJson_ne_empty hhash (hvalid b hb).record
        (hab.trans (hroot a ha))) hne hwriter
    rw [heq]

def sampleLog : List DecisionRecord :=
  (sampleEnv.writeAll [] [sampleCall false, sampleCall true]).1

theorem sampleLog_collisionFree :
    sampleEnv.CollisionFree
      {v | ∃ r ∈ sampleLog ++ sampleLog.drop 1, v = sampleEnv.cleared r} := by
  have hfree : sampleEnv.CollisionFree {v | ∃ r ∈ sampleLog, v = sampleEnv.cleared r} :=
    Env.collisionFree_of_nodup (by decide +kernel)
  refine hfree.mono ?_
  intro v hv
  obtain ⟨r, hr, rfl⟩ := hv
  rcases List.mem_append.mp hr with hr | hr
  · exact ⟨r, hr, rfl⟩
  · exact ⟨r, List.mem_of_mem_drop hr, rfl⟩

theorem anchored_tip_pins_common_end_cut :
    (sampleLog.drop 1).map sampleEnv.recordJson <:+ sampleLog.map sampleEnv.recordJson :=
  (anchored_tip_pins_common_end sampleEnv sampleDigest_ne_empty [sampleCall false, sampleCall true]
    (sampleLog.drop 1) sampleLog_collisionFree (by decide +kernel) (by decide +kernel)).2
      (by decide +kernel)

/-- Both calls succeed; without the first record the log is still accepted,
still ends in the same tip, and is shorter. -/
theorem front_record_dropped :
    (sampleEnv.writeAll [] [sampleCall false, sampleCall true]).2 = [.ok (), .ok ()] ∧
      sampleEnv.CollisionFree
        {v | ∃ r ∈ sampleLog ++ sampleLog.drop 1, v = sampleEnv.cleared r} ∧
      sampleEnv.verifyChain (sampleLog.drop 1) = .ok () ∧
      tipHash (sampleLog.drop 1) = tipHash sampleLog ∧
      (sampleLog.drop 1).length < sampleLog.length :=
  ⟨by decide +kernel, sampleLog_collisionFree, by decide +kernel, by decide +kernel,
    by decide +kernel⟩

/-! ### Changing one record -/

namespace Env
variable {Text : Type} {env : Env Text}

theorem verifyChain_set {content : List DecisionRecord} {i : ℕ} (hi : i < content.length)
    {r : DecisionRecord} (hok : env.verifyChain content = .ok ()) (hr : env.Valid r)
    (hprev : r.prevRecordHash = content[i].prevRecordHash)
    (hhash : r.recordHash = content[i].recordHash) :
    env.verifyChain (content.set i r) = .ok () := by
  have hvalid := (verifyChain_eq_ok.mp hok).1
  refine verifyChain_eq_ok.mpr ⟨?_, ?_⟩
  · intro x hx
    rcases List.mem_or_eq_of_mem_set hx with hx | rfl
    · exact hvalid x hx
    · exact hr
  · refine (verifyChain_chained hok).congr ?_
    have hself : content.set i content[i] = content := List.set_getElem_self hi
    rw [List.map_set, hprev, hhash]
    conv_rhs => rw [← hself, List.map_set]

end Env

/-- Changing a stored record, but not its hash or nothing but its hash, makes
the verifier throw if and only if more than the time of day has changed. -/
theorem tampering_throws_iff {Text : Type} (env : Env Text) (log : List DecisionRecord)
    (hok : env.verifyChain log = .ok ()) (i : ℕ) (hi : i < log.length) (r : DecisionRecord)
    (hchanged : r ≠ log[i])
    (hkind : r.recordHash = log[i].recordHash ∨ r = { log[i] with recordHash := r.recordHash })
    (hfree : env.CollisionFree {env.cleared log[i], env.cleared r})
    (hday : env.formatDate log[i].recordedAt = env.formatDate r.recordedAt →
      dayOf log[i].recordedAt = dayOf r.recordedAt) :
    (∃ e, env.verifyChain (log.set i r) = .error e) ↔
      ¬(r = { log[i] with recordedAt := r.recordedAt } ∧
        dayOf log[i].recordedAt = dayOf r.recordedAt) := by
  have hold : env.Valid log[i] := (Env.verifyChain_eq_ok.mp hok).1 _ (List.getElem_mem hi)
  constructor
  · intro h hsame
    obtain ⟨e, he⟩ := h
    obtain ⟨hr, hsameDay⟩ := hsame
    have hcleared : env.cleared r = env.cleared log[i] := by
      have hformat : env.formatDate r.recordedAt = env.formatDate log[i].recordedAt := by
        rw [Env.formatDate, Env.formatDate, hsameDay]
      rw [hr]
      simp only [Env.cleared, Env.recordJson, hformat]
    have hvalid : env.Valid r := by
      refine ⟨?_, ?_, ?_⟩
      · rw [hr]
        exact hold.input
      · rw [hr]
        exact hold.output
      · rw [Env.hashRecord, hcleared]
        rw [hr]
        exact hold.record
    have hprev : r.prevRecordHash = log[i].prevRecordHash := by rw [hr]
    have hhash : r.recordHash = log[i].recordHash := by rw [hr]
    rw [Env.verifyChain_set hi hok hvalid hprev hhash] at he
    cases he
  · intro hmore
    cases hverify : env.verifyChain (log.set i r) with
    | error e => exact ⟨e, rfl⟩
    | ok u =>
      exfalso
      have hnew : env.Valid r :=
        (Env.verifyChain_eq_ok.mp hverify).1 r (List.mem_set hi r)
      rcases hkind with hhash | hr
      · have hrhash := hnew.record
        rw [hhash] at hrhash
        have hcleared : env.cleared log[i] = env.cleared r :=
          hfree _ (Or.inl rfl) _ (Or.inr rfl) _ hold.record hrhash
        obtain ⟨hr, hformat⟩ := Env.cleared_inj hcleared
        rw [hhash] at hr
        exact hmore ⟨hr, hday hformat⟩
      · -- the record's hash is not part of the hashed text
        have hcleared : env.cleared r = env.cleared log[i] := by
          rw [hr]
          rfl
        have hrhash := hnew.record
        rw [Env.hashRecord, hcleared] at hrhash
        have hhash : r.recordHash = log[i].recordHash :=
          Except.ok.inj (hrhash.symm.trans hold.record)
        rw [hhash] at hr
        exact hchanged hr

/-- The first of two records is moved by a day. -/
theorem tampering_throws_iff_next_day :
    sampleLog.length = 2 ∧ ∃ (hi : 0 < sampleLog.length) (e : AuditError), sampleEnv.verifyChain
      (sampleLog.set 0 { sampleLog[0] with recordedAt := 1704153600000000000 }) = .error e := by
  have htwo : sampleLog.length = 2 := by decide +kernel
  have hi : 0 < sampleLog.length := htwo ▸ Nat.two_pos
  have htime : sampleLog[0].recordedAt = 1704067200000000000 := by decide +kernel +revert
  have hnodup : ([sampleLog[0], { sampleLog[0] with recordedAt := 1704153600000000000 }].map
      sampleEnv.hashRecord).Nodup := by
    clear htime
    decide +kernel +revert
  have hfree : sampleEnv.CollisionFree {sampleEnv.cleared sampleLog[0],
      sampleEnv.cleared { sampleLog[0] with recordedAt := 1704153600000000000 }} := by
    refine (Env.collisionFree_of_nodup hnodup).mono ?_
    intro v hv
    rcases hv with rfl | rfl
    · exact ⟨_, List.mem_cons_self, rfl⟩
    · exact ⟨_, List.mem_cons_of_mem _ List.mem_cons_self, rfl⟩
  have hdays : dayOf sampleLog[0].recordedAt ≠ dayOf 1704153600000000000 := by
    rw [htime]
    decide
  refine ⟨htwo, hi, (tampering_throws_iff sampleEnv sampleLog (by decide +kernel) 0 hi
    { sampleLog[0] with recordedAt := 1704153600000000000 } ?_ (Or.inl rfl) hfree ?_).mpr ?_⟩
  · intro h
    exact hdays (congrArg (fun r => dayOf r.recordedAt) h).symm
  · intro h
    rw [htime] at h
    have hrendered : sampleEnv.formatDate 1704067200000000000 ≠
        sampleEnv.formatDate 1704153600000000000 := by decide +kernel
    exact absurd h hrendered
  · intro h
    exact hdays h.2

def sampleRecord : DecisionRecord :=
  { (sampleCall false).record with
    recordedAt := 1704067200000000000
    inputHash := "74234e98afe7498fb5daf1f36ac2d78acc339464f950703b8c019892f982b90b"
    outputHash := "a29ee2b15c494311c52521766e44af56a3ad2248e7a8ab465e5206463c13d288"
    recordHash := "9bed9216e60ba29cec303b9ba85a9bb84847bef6c5dc0c81aa54e5e9d3273f34" }

/-- Moved by an hour, it is accepted although it is another record. -/
theorem hour_changed_unnoticed :
    ∃ r, r ≠ sampleRecord ∧ r.recordHash = sampleRecord.recordHash ∧
      sampleEnv.CollisionFree {sampleEnv.cleared sampleRecord, sampleEnv.cleared r} ∧
      sampleEnv.verifyChain [sampleRecord] = .ok () ∧
      sampleEnv.verifyChain ([sampleRecord].set 0 r) = .ok () := by
  have hcleared : sampleEnv.cleared { sampleRecord with recordedAt := 1704070800000000000 } =
      sampleEnv.cleared sampleRecord := rfl
  refine ⟨{ sampleRecord with recordedAt := 1704070800000000000 }, ?_, rfl, ?_, ?_, ?_⟩
  · intro h
    have hdate := congrArg (fun r => r.recordedAt) h
    exact absurd hdate (by decide)
  · intro v hv w hw h _ _
    rw [hcleared] at hv hw
    rcases hv with rfl | rfl
    · rcases hw with rfl | rfl
      · rfl
      · rfl
    · rcases hw with rfl | rfl
      · rfl
      · rfl
  · decide +kernel
  · decide +kernel

end StandardTools.Audit
