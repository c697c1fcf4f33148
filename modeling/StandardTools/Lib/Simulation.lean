import Mathlib.Data.List.Forall2

/-!
# Machines that answer queries

A machine takes a query to its next state and an answer. Two machines whose states
are related give related answers; where that holds for some queries only, their
answers are related exactly as long as no other query is put.
-/

namespace StandardTools.Lib

namespace Machine
variable {σ τ Q A B : Type}

def answers (step : σ → Q → σ × A) : σ → List Q → List A
  | _, [] => []
  | s, q :: qs => (step s q).2 :: answers step (step s q).1 qs

def final (step : σ → Q → σ × A) (s : σ) (qs : List Q) : σ := qs.foldl (fun s q => (step s q).1) s

/-- Every query is admissible in the state in which it is put. -/
def Throughout (step : σ → Q → σ × A) (admissible : σ → Q → Prop) : σ → List Q → Prop
  | _, [] => True
  | s, q :: qs => admissible s q ∧ Throughout step admissible (step s q).1 qs

variable {step : σ → Q → σ × A} {step' : τ → Q → τ × B} {R : σ → τ → Prop} {S : A → B → Prop}
  {admissible : σ → Q → Prop} {legal : Q → Prop} {s : σ} {t : τ} {qs : List Q}

/-- Up to the first query that is not admissible the second machine simulates the
first, and there it does not. -/
theorem forall₂_answers_iff
    (hstep : ∀ s t q, R s t → legal q → (S (step s q).2 (step' t q).2 ↔ admissible s q) ∧
      (admissible s q → R (step s q).1 (step' t q).1))
    (hR : R s t) (hlegal : ∀ q ∈ qs, legal q) :
    List.Forall₂ S (answers step s qs) (answers step' t qs) ↔ Throughout step admissible s qs := by
  induction qs generalizing s t with
  | nil => exact iff_of_true List.Forall₂.nil trivial
  | cons q qs ih =>
    obtain ⟨hq, hqs⟩ := List.forall_mem_cons.mp hlegal
    obtain ⟨hanswer, hnext⟩ := hstep s t q hR hq
    rw [answers, answers, List.forall₂_cons, Throughout, hanswer]
    refine and_congr_right fun hadmissible => ?_
    exact ih (hnext hadmissible) hqs

/-- The states stay related as well. -/
theorem final_related
    (hstep : ∀ s t q, R s t → legal q → admissible s q → R (step s q).1 (step' t q).1)
    (hR : R s t) (hlegal : ∀ q ∈ qs, legal q) (hqs : Throughout step admissible s qs) :
    R (final step s qs) (final step' t qs) := by
  induction qs generalizing s t with
  | nil => exact hR
  | cons q qs ih =>
    obtain ⟨hq, hrest⟩ := List.forall_mem_cons.mp hlegal
    exact ih (hstep s t q hR hq hqs.1) hrest hqs.2

end Machine

end StandardTools.Lib
