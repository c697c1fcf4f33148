/-!
# Code that may throw and keeps what it did

An `Effect` is run from a state and ends with a value or an exception, in both
cases in the state it has reached: an exception undoes nothing.
-/

namespace StandardTools.Lib

def Effect (σ ε α : Type) : Type := σ → Except ε α × σ

namespace Effect
variable {σ ε α β : Type}

instance : Monad (Effect σ ε) where
  pure a s := (.ok a, s)
  bind x f s :=
    match x s with
    | (.ok a, s') => f a s'
    | (.error e, s') => (.error e, s')

/-- A computation which reads and writes nothing of the state. -/
def ofExcept (x : Except ε α) : Effect σ ε α := fun s => (x, s)

def mapError {ε' : Type} (f : ε → ε') (x : Effect σ ε α) : Effect σ ε' α := fun s =>
  ((x s).1.mapError f, (x s).2)

/-- `try { x } catch (e) { handler(e) }`. -/
def attempt (x : Effect σ ε α) (handler : ε → Effect σ ε α) : Effect σ ε α := fun s =>
  match x s with
  | (.ok a, s') => (.ok a, s')
  | (.error e, s') => handler e s'

variable {x : Effect σ ε α} {f : α → Effect σ ε β} {handler : ε → Effect σ ε α} {s s' : σ}
  {a : α} {e : ε}

@[simp] theorem ofExcept_apply (x : Except ε α) (s : σ) :
    (ofExcept x : Effect σ ε α) s = (x, s) := rfl

@[simp] theorem ofExcept_ok_bind (a : α) (f : α → Effect σ ε β) :
    (ofExcept (.ok a) >>= f) = f a := rfl

theorem ofExcept_bind (x : Except ε α) (f : α → Except ε β) :
    (ofExcept x >>= fun a => ofExcept (f a) : Effect σ ε β) = ofExcept (x >>= f) := by
  cases x <;> rfl

theorem bind_ok (h : x s = (.ok a, s')) : (x >>= f) s = f a s' := by
  show (match x s with
    | (.ok a, s') => f a s'
    | (.error e, s') => (.error e, s')) = f a s'
  rw [h]

theorem bind_error (h : x s = (.error e, s')) : (x >>= f) s = (.error e, s') := by
  show (match x s with
    | (.ok a, s') => f a s'
    | (.error e, s') => (.error e, s')) = (.error e, s')
  rw [h]

theorem bind_ofExcept_state (x : Effect σ ε α) (f : α → Except ε β) (s : σ) :
    ((x >>= fun a => ofExcept (f a)) s).2 = (x s).2 := by
  cases hx : x s with
  | mk result s' =>
    cases result with
    | error e => rw [bind_error hx]
    | ok a =>
      rw [bind_ok hx]
      rfl

theorem attempt_ok (h : x s = (.ok a, s')) : attempt x handler s = (.ok a, s') := by
  rw [attempt, h]

theorem attempt_error (h : x s = (.error e, s')) : attempt x handler s = handler e s' := by
  rw [attempt, h]

theorem bind_ofExcept_eq_ok {x : Effect σ ε α} {y : Except ε β} {b : β} :
    ((x >>= fun _ => ofExcept y) s).1 = .ok b ↔ (∃ a, (x s).1 = .ok a) ∧ y = .ok b := by
  cases hx : x s with
  | mk result s' =>
    cases result with
    | error e =>
      rw [bind_error hx]
      simp
    | ok a =>
      rw [bind_ok hx]
      simp

theorem bind_eq_ok {b : β} :
    ((x >>= f) s).1 = .ok b ↔ ∃ a s', x s = (.ok a, s') ∧ (f a s').1 = .ok b := by
  cases hx : x s with
  | mk result s' =>
    cases result with
    | error e =>
      rw [bind_error hx]
      simp
    | ok a =>
      rw [bind_ok hx]
      refine ⟨fun h => ⟨a, s', rfl, h⟩, fun h => ?_⟩
      obtain ⟨a', t, hsame, h⟩ := h
      cases hsame
      exact h

/-! ### Invariants -/

/-- The computation keeps `I`, also when it throws. -/
def Preserves (I : σ → Prop) (x : Effect σ ε α) : Prop := ∀ s, I s → I (x s).2

variable {I : σ → Prop}

theorem preserves_ofExcept (y : Except ε α) : Preserves I (ofExcept y : Effect σ ε α) :=
  fun _ h => h

theorem Preserves.bind (hx : Preserves I x) (hf : ∀ a, Preserves I (f a)) :
    Preserves I (x >>= f) := by
  intro s hs
  have hnext := hx s hs
  cases h : x s with
  | mk result s' =>
    rw [h] at hnext
    cases result with
    | error e =>
      rw [bind_error h]
      exact hnext
    | ok a =>
      rw [bind_ok h]
      exact hf a s' hnext

theorem Preserves.mapError {ε' : Type} (f : ε → ε') (hx : Preserves I x) :
    Preserves I (mapError f x) := hx

theorem attempt_state (hx : I (x s).2) (hhandler : ∀ e, Preserves I (handler e)) :
    I (attempt x handler s).2 := by
  cases h : x s with
  | mk result s' =>
    rw [h] at hx
    cases result with
    | error e =>
      rw [attempt_error h]
      exact hhandler e s' hx
    | ok a =>
      rw [attempt_ok h]
      exact hx

theorem Preserves.attempt (hx : Preserves I x) (hhandler : ∀ e, Preserves I (handler e)) :
    Preserves I (attempt x handler) := fun s hs => attempt_state (hx s hs) hhandler

end Effect

end StandardTools.Lib
