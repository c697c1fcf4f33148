import Mathlib.Logic.Function.Iterate

/-!
# Threads over a shared state

Every thread has a state of its own and all of them share one. A move of a thread
is atomic: it reads and writes its own state and the shared one. What the
scheduler does is a list of threads, in the order in which they move.
-/

namespace StandardTools.Lib

structure Threads (W σ τ : Type) where
  shared : σ
  own : W → τ

namespace Threads
variable {W σ τ A : Type} [DecidableEq W] (move : W → τ → σ → τ × σ)

def step (c : Threads W σ τ) (w : W) : Threads W σ τ :=
  ⟨(move w (c.own w) c.shared).2, Function.update c.own w (move w (c.own w) c.shared).1⟩

def run (c : Threads W σ τ) (schedule : List W) : Threads W σ τ := schedule.foldl (step move) c

variable {move} {c : Threads W σ τ}

theorem run_append (first rest : List W) :
    run move c (first ++ rest) = run move (run move c first) rest := List.foldl_append

/-! ### Invariants -/

theorem run_invariant {I : Threads W σ τ → Prop} (hstep : ∀ c w, I c → I (step move c w))
    (hc : I c) (schedule : List W) : I (run move c schedule) := by
  induction schedule generalizing c with
  | nil => exact hc
  | cons w rest ih => exact ih (hstep c w hc)

/-- An invariant of the shared state and one of every thread, which may mention
a value that no thread can see. A move keeps its own two, and the others are not
affected by what it does to the shared state and to that value. -/
structure Holds (global : σ → A → Prop) (own : W → τ → σ → A → Prop) (c : Threads W σ τ)
    (a : A) : Prop where
  shared : global c.shared a
  each : ∀ w, own w (c.own w) c.shared a

theorem holds_step {global : σ → A → Prop} {own : W → τ → σ → A → Prop}
    (hmove : ∀ w t s a, global s a → own w t s a → ∃ a',
      global (move w t s).2 a' ∧ own w (move w t s).1 (move w t s).2 a' ∧
        ∀ v u, v ≠ w → own v u s a → own v u (move w t s).2 a')
    (c : Threads W σ τ) (w : W) (hc : ∃ a, Holds global own c a) :
    ∃ a', Holds global own (step move c w) a' := by
  obtain ⟨a, hshared, hown⟩ := hc
  obtain ⟨a', hshared', hself, hothers⟩ := hmove w (c.own w) c.shared a hshared (hown w)
  refine ⟨a', hshared', fun v => ?_⟩
  by_cases hv : v = w
  · subst hv
    show own v (Function.update c.own v (move v (c.own v) c.shared).1 v) _ a'
    rw [Function.update_self]
    exact hself
  · show own v (Function.update c.own w (move w (c.own w) c.shared).1 v) _ a'
    rw [Function.update_of_ne hv]
    exact hothers v _ hv (hown v)

theorem run_holds {global : σ → A → Prop} {own : W → τ → σ → A → Prop}
    (hmove : ∀ w t s a, global s a → own w t s a → ∃ a',
      global (move w t s).2 a' ∧ own w (move w t s).1 (move w t s).2 a' ∧
        ∀ v u, v ≠ w → own v u s a → own v u (move w t s).2 a')
    {a : A} (hc : Holds global own c a) (schedule : List W) :
    ∃ a', Holds global own (run move c schedule) a' :=
  run_invariant (holds_step hmove) ⟨a, hc⟩ schedule

/-! ### Progress -/

/-- A thread that gets nearer to its end with every move of its own gets there,
whatever the others do. -/
theorem run_rank_of_invariant {rank : τ → Nat} {I : Threads W σ τ → Prop} (w : W)
    (hstep : ∀ c v, I c → I (step move c v))
    (hmove : ∀ c, I c → rank (move w (c.own w) c.shared).1 ≤ rank (c.own w) - 1) (hc : I c)
    (schedule : List W) :
    rank ((run move c schedule).own w) ≤ rank (c.own w) - schedule.count w := by
  induction schedule generalizing c with
  | nil => exact Nat.le_refl _
  | cons v rest ih =>
    have hrest := ih (c := step move c v) (hstep c v hc)
    show rank ((run move (step move c v) rest).own w) ≤ _
    by_cases hv : v = w
    · subst hv
      have hown : (step move c v).own v = (move v (c.own v) c.shared).1 := Function.update_self ..
      have hfirst := hmove c hc
      rw [← hown] at hfirst
      rw [List.count_cons_self]
      omega
    · have hsame : (step move c v).own w = c.own w := Function.update_of_ne (Ne.symm hv) ..
      rw [List.count_cons_of_ne hv, ← hsame]
      exact hrest

theorem run_rank {rank : τ → Nat} {I : τ → Prop} (w : W)
    (hmove : ∀ t s, I t → rank (move w t s).1 ≤ rank t - 1 ∧ I (move w t s).1)
    (hc : I (c.own w)) (schedule : List W) :
    rank ((run move c schedule).own w) ≤ rank (c.own w) - schedule.count w ∧
      I ((run move c schedule).own w) := by
  have hstep : ∀ c v, I (c.own w) → I ((step move c v).own w) := by
    intro c v hc
    by_cases hv : v = w
    · subst hv
      show I (Function.update c.own v (move v (c.own v) c.shared).1 v)
      rw [Function.update_self]
      exact (hmove (c.own v) c.shared hc).2
    · show I (Function.update c.own v (move v (c.own v) c.shared).1 w)
      rw [Function.update_of_ne (Ne.symm hv)]
      exact hc
  exact ⟨run_rank_of_invariant w hstep (fun c hc => (hmove _ _ hc).1) hc schedule,
    run_invariant (I := fun c => I (c.own w)) hstep hc schedule⟩

/-! ### Threads without effect -/

/-- Threads that leave the shared state alone may as well not move: nobody else
notices. `other` is what is left of the moves of the rest. -/
theorem run_filter {other : W → τ → σ → τ × σ} (keep : W → Bool) {quiet : W → τ → Prop}
    (hkeep : ∀ w t s, keep w = true → move w t s = other w t s)
    (hquiet : ∀ w t s, keep w = false → quiet w t →
      (move w t s).2 = s ∧ quiet w (move w t s).1)
    {d : Threads W σ τ} (hshared : c.shared = d.shared)
    (hsame : ∀ w, keep w = true → c.own w = d.own w)
    (hrest : ∀ w, keep w = false → quiet w (c.own w)) (schedule : List W) :
    (run move c schedule).shared = (run other d (schedule.filter keep)).shared ∧
      (∀ w, keep w = true →
        (run move c schedule).own w = (run other d (schedule.filter keep)).own w) ∧
      ∀ w, keep w = false → quiet w ((run move c schedule).own w) := by
  induction schedule generalizing c d with
  | nil => exact ⟨hshared, hsame, hrest⟩
  | cons w rest ih =>
    cases hw : keep w with
    | true =>
      have hmove : move w (c.own w) c.shared = other w (d.own w) d.shared := by
        rw [hkeep w _ _ hw, hsame w hw, hshared]
      rw [List.filter_cons_of_pos hw]
      refine ih (c := step move c w) (d := step other d w) (congrArg Prod.snd hmove) ?_ ?_
      · intro v hv
        by_cases hvw : v = w
        · subst hvw
          simp only [step, Function.update_self, hmove]
        · simp only [step, Function.update_of_ne hvw, hsame v hv]
      · intro v hv
        have hvw : v ≠ w := by
          rintro rfl
          exact absurd hw (by rw [hv]; decide)
        simp only [step, Function.update_of_ne hvw]
        exact hrest v hv
    | false =>
      obtain ⟨hunchanged, hstill⟩ := hquiet w (c.own w) c.shared hw (hrest w hw)
      rw [List.filter_cons_of_neg (by simp [hw])]
      refine ih (c := step move c w) (hunchanged.trans hshared) ?_ ?_
      · intro v hv
        have hvw : v ≠ w := by
          rintro rfl
          exact absurd hw (by rw [hv]; decide)
        simp only [step, Function.update_of_ne hvw]
        exact hsame v hv
      · intro v hv
        by_cases hvw : v = w
        · subst hvw
          simp only [step, Function.update_self]
          exact hstill
        · simp only [step, Function.update_of_ne hvw]
          exact hrest v hv

/-! ### One thread alone -/

theorem run_alone (w : W) (n : Nat) :
    run move c (List.replicate n w) =
      ⟨((fun x : τ × σ => move w x.1 x.2)^[n] (c.own w, c.shared)).2,
        Function.update c.own w
          ((fun x : τ × σ => move w x.1 x.2)^[n] (c.own w, c.shared)).1⟩ := by
  induction n generalizing c with
  | zero =>
    show c = ⟨c.shared, Function.update c.own w (c.own w)⟩
    rw [Function.update_eq_self]
  | succ n ih =>
    show run move (step move c w) (List.replicate n w) = _
    rw [ih, Function.iterate_succ_apply]
    simp only [step, Function.update_self, Function.update_idem]

end Threads

/-! ### Entries with the thread that made them -/

section Entries
variable {W α : Type} [DecidableEq W]

def entriesOf (w : W) (journal : List (W × α)) : List α :=
  journal.filterMap fun entry => if entry.1 = w then some entry.2 else none

@[simp] theorem entriesOf_nil (w : W) : entriesOf w ([] : List (W × α)) = [] := rfl

theorem entriesOf_append_self (w : W) (journal : List (W × α)) (a : α) :
    entriesOf w (journal ++ [(w, a)]) = entriesOf w journal ++ [a] := by
  simp [entriesOf, List.filterMap_append]

theorem entriesOf_append_of_ne {v w : W} (h : v ≠ w) (journal : List (W × α)) (a : α) :
    entriesOf v (journal ++ [(w, a)]) = entriesOf v journal := by
  simp [entriesOf, List.filterMap_append, h.symm]

end Entries

end StandardTools.Lib
