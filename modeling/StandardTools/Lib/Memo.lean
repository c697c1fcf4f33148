import Mathlib.Data.List.Basic
import Mathlib.Logic.Function.Basic

/-!
# Memoised answers

A store keeps the first answer which is found under a key, and every later
question under that key is answered from the store. An exception is not kept.
The answers are the wanted ones exactly when no two questions share a key and
want different answers.
-/

namespace StandardTools.Lib.Memo

variable {κ ε β : Type} [DecidableEq κ]

/-- The answer to a question, given by its key and by the answer it wants, and
the store after it. -/
def ask (store : κ → Option β) (question : κ × Except ε β) : Except ε β × (κ → Option β) :=
  match store question.1 with
  | some b => (.ok b, store)
  | none =>
    match question.2 with
    | .error e => (.error e, store)
    | .ok b => (.ok b, Function.update store question.1 (some b))

def answers (store : κ → Option β) : List (κ × Except ε β) → List (Except ε β)
  | [] => []
  | question :: rest => (ask store question).1 :: answers (ask store question).2 rest

/-- The first question leaves no answer behind which the second does not want. -/
def Compatible (a b : κ × Except ε β) : Prop :=
  a.1 = b.1 → ∀ answer, a.2 = .ok answer → b.2 = .ok answer

/-- What the store holds is what the question wants. -/
def Serves (store : κ → Option β) (question : κ × Except ε β) : Prop :=
  ∀ answer, store question.1 = some answer → question.2 = .ok answer

variable {store : κ → Option β} {a b : κ × Except ε β}

theorem ask_eq_iff : (ask store a).1 = a.2 ↔ Serves store a := by
  unfold ask Serves
  cases hs : store a.1 with
  | some v =>
    constructor
    · intro h answer hanswer
      rw [← Option.some.inj hanswer]
      exact h.symm
    · intro h
      exact (h v rfl).symm
  | none =>
    constructor
    · intro _ answer hanswer
      cases hanswer
    · intro _
      cases ha : a.2 with
      | error e => rfl
      | ok v => rfl

/-- After a question which was answered as it wanted, the store serves those
which it served before and which are compatible with the question. -/
theorem serves_ask_iff (h : Serves store a) :
    Serves (ask store a).2 b ↔ Serves store b ∧ Compatible a b := by
  unfold ask
  cases hs : store a.1 with
  | some v =>
    refine ⟨fun hb => ⟨hb, ?_⟩, fun hb => hb.1⟩
    intro hkey answer hanswer
    have hv : a.2 = .ok v := h v hs
    rw [hanswer] at hv
    rw [Except.ok.inj hv]
    exact hb v (hkey ▸ hs)
  | none =>
    cases ha : a.2 with
    | error e =>
      refine ⟨fun hb => ⟨hb, ?_⟩, fun hb => hb.1⟩
      intro _ answer hanswer
      rw [ha] at hanswer
      cases hanswer
    | ok v =>
      by_cases hkey : b.1 = a.1
      · constructor
        · intro hb
          have hv : b.2 = .ok v := hb v (by rw [hkey]; exact Function.update_self _ _ _)
          refine ⟨?_, ?_⟩
          · intro answer hanswer
            rw [hkey, hs] at hanswer
            cases hanswer
          · intro _ answer hanswer
            rw [ha] at hanswer
            rw [← Except.ok.inj hanswer]
            exact hv
        · rintro ⟨-, hab⟩ answer hanswer
          have hanswer : Function.update store a.1 (some v) b.1 = some answer := hanswer
          rw [hkey, Function.update_self] at hanswer
          rw [← Option.some.inj hanswer]
          exact hab hkey.symm v ha
      · have hother : Function.update store a.1 (some v) b.1 = store b.1 :=
          Function.update_of_ne hkey _ _
        constructor
        · intro hb
          refine ⟨fun answer hanswer => hb answer (hother.trans hanswer), ?_⟩
          intro hab
          exact absurd hab.symm hkey
        · intro hb answer hanswer
          exact hb.1 answer (hother.symm.trans hanswer)

/-- An answer is in the store from then on. -/
theorem ask_stores {b : β} (h : (ask store a).1 = .ok b) : (ask store a).2 a.1 = some b := by
  unfold ask at h ⊢
  cases hs : store a.1 with
  | some v =>
    rw [hs] at h
    rw [← Except.ok.inj h]
    exact hs
  | none =>
    rw [hs] at h
    cases ha : a.2 with
    | error e =>
      rw [ha] at h
      cases h
    | ok v =>
      rw [ha] at h
      rw [← Except.ok.inj h]
      exact Function.update_self _ _ _

/-- A stored answer stays. -/
theorem ask_stored {k : κ} {b : β} (h : store k = some b) : (ask store a).2 k = some b := by
  unfold ask
  cases hs : store a.1 with
  | some v => exact h
  | none =>
    cases ha : a.2 with
    | error e => exact h
    | ok v =>
      have hkey : k ≠ a.1 := by
        rintro rfl
        cases h.symm.trans hs
      exact (Function.update_of_ne hkey _ _).trans h

/-- The first answer under a key is the answer to the next question under it. -/
theorem ask_ask {answer : β} (hnew : store a.1 = none) (hanswer : a.2 = .ok answer)
    (hkey : b.1 = a.1) : (ask (ask store a).2 b).1 = .ok answer := by
  have hstore : (ask store a).2 = Function.update store a.1 (some answer) := by
    rw [ask, hnew, hanswer]
  rw [hstore, ask, hkey, Function.update_self]

theorem answers_eq_iff (store : κ → Option β) (questions : List (κ × Except ε β)) :
    answers store questions = questions.map Prod.snd ↔
      (∀ a ∈ questions, Serves store a) ∧ questions.Pairwise Compatible := by
  induction questions generalizing store with
  | nil =>
    refine iff_of_true rfl ⟨?_, List.Pairwise.nil⟩
    intro a ha
    cases ha
  | cons a rest ih =>
    rw [answers, List.map_cons, List.cons.injEq, ih, List.forall_mem_cons, List.pairwise_cons,
      ask_eq_iff]
    constructor
    · rintro ⟨ha, hrest, hpair⟩
      have hboth := fun b hb => (serves_ask_iff ha).mp (hrest b hb)
      exact ⟨⟨ha, fun b hb => (hboth b hb).1⟩, fun b hb => (hboth b hb).2, hpair⟩
    · rintro ⟨⟨ha, hrest⟩, hcompat, hpair⟩
      exact ⟨ha, fun b hb => (serves_ask_iff ha).mpr ⟨hrest b hb, hcompat b hb⟩, hpair⟩

theorem answers_empty_eq_iff (questions : List (κ × Except ε β)) :
    answers (fun _ => none) questions = questions.map Prod.snd ↔
      questions.Pairwise Compatible := by
  rw [answers_eq_iff]
  refine and_iff_right ?_
  intro a _ answer hanswer
  cases hanswer

end StandardTools.Lib.Memo
