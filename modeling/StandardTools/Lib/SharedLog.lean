import Mathlib.Data.List.Chain
import Mathlib.Logic.Function.Basic

/-!
# Writers on a shared log

Any number of writers append to one log. A write is two atomic steps: the
writer looks at the tip of the log and makes an entry from it, later it appends
the entry, or gives up. Between the two steps the other writers may move. The
entry fits the log as long as nobody has appended since the look.
-/

namespace StandardTools.Lib

variable {W ι α : Type} [DecidableEq W]

inductive SharedEvent (W ι : Type) where
  | look (w : W) (input : ι)
  | append (w : W)
  | giveUp (w : W)

def SharedEvent.writer : SharedEvent W ι → W
  | .look w _ => w
  | .append w => w
  | .giveUp w => w

structure SharedState (W α : Type) where
  log : List α
  pending : W → Option α

namespace SharedState

variable (make : Option α → ι → Option α)

/-- One step, `none` when it is not the writer's turn to make it. An entry which
cannot be made ends the write. -/
def step (s : SharedState W α) : SharedEvent W ι → Option (SharedState W α)
  | .look w input =>
    match s.pending w with
    | some _ => none
    | none => some { s with pending := Function.update s.pending w (make s.log.getLast? input) }
  | .append w =>
    match s.pending w with
    | none => none
    | some a =>
      some { log := s.log ++ [a], pending := Function.update s.pending w none }
  | .giveUp w =>
    match s.pending w with
    | none => none
    | some _ => some { s with pending := Function.update s.pending w none }

def run (s : SharedState W α) : List (SharedEvent W ι) → Option (SharedState W α)
  | [] => some s
  | e :: events => (s.step make e).bind fun s' => run s' events

/-- Every append follows a look of its writer with no append in between.
`fresh w` says that nobody has appended since `w` looked. -/
def Undisturbed : (W → Bool) → List (SharedEvent W ι) → Prop
  | _, [] => True
  | fresh, .look w _ :: events => Undisturbed (Function.update fresh w true) events
  | fresh, .append w :: events => fresh w = true ∧ Undisturbed (fun _ => false) events
  | fresh, .giveUp _ :: events => Undisturbed fresh events

def FreshFits (fresh : W → Bool) (s : SharedState W α) : Prop :=
  ∀ w, fresh w = true → ∀ a ∈ s.pending w, ∃ input, make s.log.getLast? input = some a

variable {make} {s s' t : SharedState W α} {w : W}

/-! ### What a step can do -/

theorem step_look {input : ι} (h : s.step make (.look w input) = some t) :
    s.pending w = none ∧
      t = { s with pending := Function.update s.pending w (make s.log.getLast? input) } := by
  cases hpending : s.pending w with
  | some a => simp only [step, hpending, reduceCtorEq] at h
  | none =>
    simp only [step, hpending, Option.some.injEq] at h
    exact ⟨rfl, h.symm⟩

theorem step_append (h : s.step make (.append w : SharedEvent W ι) = some t) :
    ∃ a, s.pending w = some a ∧
      t = { log := s.log ++ [a], pending := Function.update s.pending w none } := by
  cases hpending : s.pending w with
  | none => simp only [step, hpending, reduceCtorEq] at h
  | some a =>
    simp only [step, hpending, Option.some.injEq] at h
    exact ⟨a, rfl, h.symm⟩

theorem step_giveUp (h : s.step make (.giveUp w : SharedEvent W ι) = some t) :
    t = { s with pending := Function.update s.pending w none } := by
  cases hpending : s.pending w with
  | none => simp only [step, hpending, reduceCtorEq] at h
  | some a =>
    simp only [step, hpending, Option.some.injEq] at h
    exact h.symm

/-! ### Whole runs -/

/-- What an append of a fitting entry preserves holds of the log after every
undisturbed run. -/
theorem run_invariant {P : List α → Prop}
    (happend : ∀ log input a, P log → make log.getLast? input = some a → P (log ++ [a]))
    {fresh : W → Bool} {events : List (SharedEvent W ι)}
    (hrun : s.run make events = some s') (hfresh : FreshFits make fresh s)
    (hevents : Undisturbed fresh events) (hP : P s.log) : P s'.log := by
  induction events generalizing s fresh with
  | nil =>
    cases hrun
    exact hP
  | cons e events ih =>
    obtain ⟨t, hstep, hrun⟩ := Option.bind_eq_some_iff.mp hrun
    cases e with
    | look w input =>
      obtain ⟨-, rfl⟩ := step_look hstep
      refine ih hrun ?_ hevents hP
      intro v hv a ha
      by_cases hvw : v = w
      · subst hvw
        simp only [Function.update_self] at ha
        exact ⟨input, ha⟩
      · simp only [Function.update_of_ne hvw] at hv ha
        exact hfresh v hv a ha
    | append w =>
      obtain ⟨a, hpending, rfl⟩ := step_append hstep
      obtain ⟨hw, hevents⟩ := hevents
      obtain ⟨input, hmake⟩ := hfresh w hw a hpending
      refine ih hrun ?_ hevents (happend _ _ _ hP hmake)
      intro v hv
      cases hv
    | giveUp w =>
      obtain rfl := step_giveUp hstep
      refine ih hrun ?_ hevents hP
      intro v hv b hb
      by_cases hvw : v = w
      · subst hvw
        simp only [Function.update_self] at hb
        cases hb
      · simp only [Function.update_of_ne hvw] at hb
        exact hfresh v hv b hb

/-- A run of a single writer is undisturbed: it cannot append without having
looked since its last append. -/
theorem undisturbed_of_single {fresh : W → Bool} {events : List (SharedEvent W ι)}
    (hrun : s.run make events = some s') (hsingle : ∀ e ∈ events, e.writer = w)
    (hfresh : ∀ a ∈ s.pending w, fresh w = true) : Undisturbed fresh events := by
  induction events generalizing s fresh with
  | nil => trivial
  | cons e events ih =>
    obtain ⟨t, hstep, htail⟩ := Option.bind_eq_some_iff.mp hrun
    have hrest : ∀ e ∈ events, e.writer = w :=
      fun e he => hsingle e (List.mem_cons_of_mem _ he)
    have hw : e.writer = w := hsingle e List.mem_cons_self
    subst hw
    cases e with
    | look w input =>
      refine ih htail hrest ?_
      intro a _
      exact Function.update_self ..
    | append w =>
      obtain ⟨a, hpending, rfl⟩ := step_append hstep
      refine ⟨hfresh a hpending, ih htail hrest ?_⟩
      intro b hb
      simp only [SharedEvent.writer, Function.update_self] at hb
      cases hb
    | giveUp w =>
      obtain rfl := step_giveUp hstep
      refine ih htail hrest ?_
      intro b hb
      simp only [SharedEvent.writer, Function.update_self] at hb
      cases hb

/-! ### The write of one writer alone -/

variable {log : List α} {input : ι}

theorem run_refused (h : make log.getLast? input = none) :
    SharedState.run make ⟨log, fun _ => none⟩ [.look w input] = some ⟨log, fun _ => none⟩ := by
  simp only [run, step, h, Function.update_eq_self, Option.bind_some]

theorem run_givenUp {a : α} (h : make log.getLast? input = some a) :
    SharedState.run make ⟨log, fun _ => none⟩ [.look w input, .giveUp w] =
      some ⟨log, fun _ => none⟩ := by
  simp only [run, step, h, Function.update_self, Function.update_idem, Function.update_eq_self,
    Option.bind_some]

theorem run_appended {a : α} (h : make log.getLast? input = some a) :
    SharedState.run make ⟨log, fun _ => none⟩ [.look w input, .append w] =
      some ⟨log ++ [a], fun _ => none⟩ := by
  simp only [run, step, h, Function.update_self, Function.update_idem, Function.update_eq_self,
    Option.bind_some]

end SharedState

end StandardTools.Lib
