import StandardTools.Audit.Soundness
import StandardTools.Lib.SharedLog

/-!
# Several writers on one storage

The mutex of a `Writer` keeps its own calls apart. Between the `Latest` and the
`Append` of one writer another writer may append; both records then point at
the same predecessor, and the verifier refuses the log. Nothing else goes
wrong: while no append falls into that gap, any number of writers keep the chain.
-/

namespace StandardTools.Audit
open StandardTools.Core StandardTools.Lib

namespace Env
variable {Text : Type} (env : Env Text)

def makeRecord (tip : Option DecisionRecord) (call : Call) : Option DecisionRecord :=
  match call.latestFault with
  | some _ => none
  | none => (env.complete call.now (tipAnswer tip) call.record).toOption

variable {env}

theorem makeRecord_eq_some {content : List DecisionRecord} {call : Call} {r : DecisionRecord}
    (h : env.makeRecord content.getLast? call = some r) :
    env.complete call.now (latest content) call.record = .ok r := by
  unfold makeRecord at h
  cases hfault : call.latestFault with
  | some e =>
    rw [hfault] at h
    cases h
  | none =>
    rw [hfault] at h
    unfold latest
    cases hcomplete : env.complete call.now (tipAnswer content.getLast?) call.record with
    | error e =>
      simp only [hcomplete] at h
      cases h
    | ok r' =>
      simp only [hcomplete] at h
      cases h
      rfl

theorem write_content (content : List DecisionRecord) (call : Call) :
    (env.write content call).1 =
      match env.makeRecord content.getLast? call, call.appendFault with
      | some r, none => content ++ [r]
      | _, _ => content := by
  unfold write makeRecord
  cases hfault : call.latestFault with
  | some e => simp only [complete_fault]
  | none =>
    unfold latest
    cases hcomplete : env.complete call.now (tipAnswer content.getLast?) call.record with
    | error e =>
      simp only [hcomplete]
      rfl
    | ok r =>
      simp only [hcomplete]
      cases call.appendFault with
      | some e => rfl
      | none => rfl

theorem write_eq_steps {W : Type} [DecidableEq W] (w : W) (content : List DecisionRecord)
    (call : Call) :
    ∃ events : List (SharedEvent W Call), (∀ e ∈ events, e.writer = w) ∧
      SharedState.run env.makeRecord ⟨content, fun _ => none⟩ events =
        some ⟨(env.write content call).1, fun _ => none⟩ := by
  rw [write_content]
  cases hmake : env.makeRecord content.getLast? call with
  | none =>
    refine ⟨[.look w call], by simp [SharedEvent.writer], ?_⟩
    exact SharedState.run_refused hmake
  | some r =>
    cases happend : call.appendFault with
    | some e =>
      refine ⟨[.look w call, .giveUp w], by simp [SharedEvent.writer], ?_⟩
      exact SharedState.run_givenUp hmake
    | none =>
      refine ⟨[.look w call, .append w], by simp [SharedEvent.writer], ?_⟩
      exact SharedState.run_appended hmake

end Env

/-- Any number of writers keep the chain as long as no append falls between the
`Latest` and the `Append` of another write, and so does a single writer. -/
theorem undisturbed_writers_keep_chain {Text : Type} (env : Env Text)
    (hhash : ∀ text, env.hashBytes text ≠ "") {W : Type} [DecidableEq W]
    (events : List (SharedEvent W Call)) (s : SharedState W DecisionRecord)
    (hrun : SharedState.run env.makeRecord ⟨[], fun _ => none⟩ events = some s)
    (hevents : SharedState.Undisturbed (fun _ => false) events ∨
      ∃ w, ∀ e ∈ events, e.writer = w) :
    env.verifyChain s.log = .ok () := by
  have hundisturbed : SharedState.Undisturbed (fun _ => false) events := by
    rcases hevents with hevents | hsingle
    · exact hevents
    · obtain ⟨w, hsingle⟩ := hsingle
      refine SharedState.undisturbed_of_single hrun hsingle ?_
      intro a ha
      cases ha
  have hfresh : SharedState.FreshFits env.makeRecord (fun _ : W => false) ⟨[], fun _ => none⟩ := by
    intro w hw
    cases hw
  refine SharedState.run_invariant (P := fun log => env.verifyChain log = .ok ()) ?_ hrun hfresh
    hundisturbed rfl
  intro log call r hok hmake
  exact Env.verifyChain_complete hhash hok (Env.makeRecord_eq_some hmake)

theorem undisturbed_writers_keep_chain_in_turn :
    ∃ s, SharedState.run sampleEnv.makeRecord ⟨[], fun _ : Bool => none⟩
        [.look false (sampleCall false), .append false, .look true (sampleCall true),
          .append true] = some s ∧
      sampleEnv.verifyChain s.log = .ok () := by
  refine ⟨_, rfl, ?_⟩
  exact undisturbed_writers_keep_chain sampleEnv sampleDigest_ne_empty
    [.look false (sampleCall false), .append false, .look true (sampleCall true), .append true]
    _ rfl (Or.inl (by simp [SharedState.Undisturbed]))

/-- Two writers which both look before either appends. -/
theorem forked_chain :
    ∃ s, SharedState.run sampleEnv.makeRecord ⟨[], fun _ : Bool => none⟩
        [.look false (sampleCall false), .look true (sampleCall true), .append false,
          .append true] = some s ∧
      sampleEnv.verifyChain s.log = .error (.runtime "chain mismatch at req-2") :=
  ⟨_, rfl, by decide +kernel⟩

end StandardTools.Audit
