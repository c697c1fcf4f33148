import StandardTools.Audit.Chain

/-!
# One writer keeps the chain

Whatever callers put into their records and wherever a call fails, the storage
behind one writer stays acceptable: a call that throws has stored nothing, and
a call that returns has appended one record which fits the tip it found.
-/

namespace StandardTools.Audit
open StandardTools.Core StandardTools.Lib

namespace Env
variable {Text : Type} {env : Env Text}

/-- By induction on the calls; the content before a call is accepted, so
`Latest` answers with a record whose hash is not empty. -/
theorem writeAll_spec (hhash : ∀ text, env.hashBytes text ≠ "") (calls : List Call)
    {content : List DecisionRecord} (hok : env.verifyChain content = .ok ()) :
    ∃ added, (env.writeAll content calls).1 = content ++ added ∧
      added.length = (env.writeAll content calls).2.countP (·.isOk) ∧
      env.verifyChain (content ++ added) = .ok () := by
  induction calls generalizing content with
  | nil =>
    refine ⟨[], (List.append_nil content).symm, rfl, ?_⟩
    rw [List.append_nil]
    exact hok
  | cons call calls ih =>
    rcases env.write_cases content call with hfail | hdone
    · obtain ⟨e, hwrite⟩ := hfail
      obtain ⟨added, hcontent, hcount, hchain⟩ := ih hok
      refine ⟨added, ?_, ?_, hchain⟩
      · rw [writeAll, hwrite]
        exact hcontent
      · rw [writeAll, hwrite]
        exact hcount
    · obtain ⟨r, hcomplete, hwrite⟩ := hdone
      obtain ⟨added, hcontent, hcount, hchain⟩ := ih (verifyChain_complete hhash hok hcomplete)
      rw [List.append_assoc] at hcontent hchain
      refine ⟨r :: added, ?_, ?_, hchain⟩
      · rw [writeAll, hwrite]
        exact hcontent
      · rw [writeAll, hwrite, List.length_cons, hcount]
        exact (List.countP_cons_of_pos rfl).symm

end Env

/-- After every prefix of the calls of one writer the earlier content is still
there, one record was added for each call that returned, and the verifier
accepts the whole. -/
theorem writer_keeps_chain {Text : Type} (env : Env Text)
    (hhash : ∀ text, env.hashBytes text ≠ "") (content : List DecisionRecord)
    (hok : env.verifyChain content = .ok ()) (calls : List Call) (k : ℕ) :
    ∃ added, (env.writeAll content (calls.take k)).1 = content ++ added ∧
      added.length = (env.writeAll content (calls.take k)).2.countP (·.isOk) ∧
      env.verifyChain (env.writeAll content (calls.take k)).1 = .ok () := by
  obtain ⟨added, hcontent, hcount, hchain⟩ := Env.writeAll_spec hhash (calls.take k) hok
  refine ⟨added, hcontent, hcount, ?_⟩
  rw [hcontent]
  exact hchain

theorem sampleDigest_ne_empty (value : Json) : sampleDigest value ≠ "" := by
  unfold sampleDigest
  split
  · decide
  · decide
  · decide
  · split
    · decide
    · decide
    · decide
    · decide
  · decide

theorem writer_keeps_chain_refused :
    ∃ added, (sampleEnv.writeAll [] [sampleCall false,
        { sampleCall true with appendFault := some ⟨.foreign "disk full", by decide⟩ },
        sampleCall true]).1 = added ∧ added.length = 2 ∧
      sampleEnv.verifyChain added = .ok () := by
  obtain ⟨added, hcontent, hcount, hchain⟩ := writer_keeps_chain sampleEnv sampleDigest_ne_empty
    [] rfl [sampleCall false,
      { sampleCall true with appendFault := some ⟨.foreign "disk full", by decide⟩ },
      sampleCall true] 3
  refine ⟨added, hcontent, ?_, ?_⟩
  · rw [hcount]
    decide +kernel
  · rw [hcontent] at hchain
    exact hchain

end StandardTools.Audit
