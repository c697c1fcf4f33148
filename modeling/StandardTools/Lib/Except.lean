import Mathlib.Data.List.Forall2

/-!
# Computations which may throw
-/

namespace StandardTools.Lib

variable {ε α β : Type}

theorem bind_eq_ok {x : Except ε α} {f : α → Except ε β} {b : β} :
    x >>= f = .ok b ↔ ∃ a, x = .ok a ∧ f a = .ok b := by
  cases x with
  | error e =>
    constructor
    · intro h
      cases h
    · intro h
      obtain ⟨a, ha, -⟩ := h
      cases ha
  | ok a =>
    constructor
    · intro h
      exact ⟨a, rfl, h⟩
    · intro h
      obtain ⟨a', ha, hf⟩ := h
      cases ha
      exact hf

/-- A check in front of a computation. -/
theorem ite_error_eq_ok {c : Prop} [Decidable c] {e : ε} {x : Except ε α} {a : α} :
    (if c then .error e else x) = .ok a ↔ ¬c ∧ x = .ok a := by
  split_ifs with hc
  · exact ⟨nofun, fun h => absurd hc h.1⟩
  · exact ⟨fun h => ⟨hc, h⟩, And.right⟩

theorem mapError_eq_ok {ε' : Type} {x : Except ε α} {f : ε → ε'} {a : α} :
    x.mapError f = .ok a ↔ x = .ok a := by
  cases x with
  | error e => simp [Except.mapError]
  | ok b => simp [Except.mapError]

theorem map_eq_ok {x : Except ε α} {f : α → β} {b : β} :
    x.map f = .ok b ↔ ∃ a, x = .ok a ∧ f a = b := by
  cases x with
  | error e => simp [Except.map]
  | ok a => simp [Except.map]

theorem map_eq_error {x : Except ε α} {f : α → β} {e : ε} : x.map f = .error e ↔ x = .error e := by
  cases x with
  | error e' => simp [Except.map]
  | ok a => simp [Except.map]

theorem map_bind {γ : Type} (x : Except ε α) (f : α → Except ε β) (g : β → γ) :
    (x >>= f).map g = x >>= fun a => (f a).map g := by
  cases x with
  | error e => rfl
  | ok a => rfl

theorem forM_eq_ok {f : α → Except ε PUnit} {l : List α} :
    l.forM f = .ok () ↔ ∀ x ∈ l, f x = .ok () := by
  induction l with
  | nil =>
    constructor
    · intro _ x hx
      exact absurd hx List.not_mem_nil
    · intro _
      rfl
  | cons x l ih =>
    rw [List.forall_mem_cons, ← ih]
    constructor
    · intro h
      obtain ⟨u, hx, hl⟩ := bind_eq_ok.mp h
      exact ⟨hx, hl⟩
    · intro h
      exact bind_eq_ok.mpr ⟨(), h.1, h.2⟩

theorem mapM_eq_ok {f : α → Except ε β} {l : List α} {l' : List β} :
    l.mapM f = .ok l' ↔ List.Forall₂ (fun a b => f a = .ok b) l l' := by
  induction l generalizing l' with
  | nil =>
    rw [List.mapM_nil, List.forall₂_nil_left_iff]
    constructor
    · intro h
      exact (Except.ok.inj h).symm
    · intro h
      rw [h]
      rfl
  | cons a l ih =>
    rw [List.mapM_cons, bind_eq_ok, List.forall₂_cons_left_iff]
    constructor
    · intro h
      obtain ⟨b, hb, h⟩ := h
      obtain ⟨rest, hrest, h⟩ := bind_eq_ok.mp h
      exact ⟨b, rest, hb, ih.mp hrest, (Except.ok.inj h).symm⟩
    · intro h
      obtain ⟨b, rest, hb, hrest, rfl⟩ := h
      exact ⟨b, hb, bind_eq_ok.mpr ⟨rest, ih.mpr hrest, rfl⟩⟩

theorem exists_of_mem_mapM {f : α → Except ε β} {l : List α} {l' : List β}
    (h : l.mapM f = .ok l') : ∀ b ∈ l', ∃ a ∈ l, f a = .ok b := by
  rw [mapM_eq_ok] at h
  induction h with
  | nil => exact nofun
  | cons hfirst _ ih =>
    refine List.forall_mem_cons.mpr ⟨⟨_, List.mem_cons_self, hfirst⟩, fun b hb => ?_⟩
    obtain ⟨a, ha, hab⟩ := ih b hb
    exact ⟨a, List.mem_cons_of_mem _ ha, hab⟩

theorem exists_mapM {f : α → Except ε β} {l : List α} (h : ∀ a ∈ l, ∃ b, f a = .ok b) :
    ∃ l', l.mapM f = .ok l' := by
  simp only [mapM_eq_ok]
  induction l with
  | nil => exact ⟨[], List.Forall₂.nil⟩
  | cons a l ih =>
    obtain ⟨hfirst, hrest⟩ := List.forall_mem_cons.mp h
    obtain ⟨b, hb⟩ := hfirst
    obtain ⟨l', hl'⟩ := ih hrest
    exact ⟨b :: l', List.Forall₂.cons hb hl'⟩

/-- What every round of a loop preserves, counted by its rounds, holds after the
loop. -/
theorem foldlM_invariant {P : Nat → β → Prop} {f : β → α → Except ε β} {l : List α}
    (hstep : ∀ i (h : i < l.length) a b, P i a → f a l[i] = .ok b → P (i + 1) b) {a b : β}
    (hrun : l.foldlM f a = .ok b) (ha : P 0 a) : P l.length b := by
  suffices hall : ∀ k (l' : List α), l.drop k = l' → k ≤ l.length → ∀ a, P k a →
      l'.foldlM f a = .ok b → P l.length b from
    hall 0 l rfl (Nat.zero_le _) a ha hrun
  intro k l'
  induction l' generalizing k with
  | nil =>
    intro hdrop hk a ha hrun
    have hlen : k = l.length := by
      have hle := List.drop_eq_nil_iff.mp hdrop
      omega
    cases hrun
    rw [← hlen]
    exact ha
  | cons x l' ih =>
    intro hdrop hk a ha hrun
    have hlt : k < l.length := by
      have hlen := congrArg List.length hdrop
      rw [List.length_drop, List.length_cons] at hlen
      omega
    rw [List.drop_eq_getElem_cons hlt] at hdrop
    obtain ⟨rfl, hrest⟩ := List.cons.inj hdrop
    obtain ⟨c, hc, hrun⟩ := bind_eq_ok.mp hrun
    exact ih (k + 1) hrest hlt c (hstep k hlt a c ha hc) hrun

/-- A loop none of whose rounds throws gets through every number of rounds. -/
theorem foldlM_take {P : Nat → β → Prop} {f : β → α → Except ε β} {l : List α}
    (hstep : ∀ i (h : i < l.length) a, P i a → ∃ b, f a l[i] = .ok b ∧ P (i + 1) b) {a : β}
    (ha : P 0 a) {k : Nat} (hk : k ≤ l.length) : ∃ b, (l.take k).foldlM f a = .ok b ∧ P k b := by
  induction k with
  | zero => exact ⟨a, rfl, ha⟩
  | succ k ih =>
    obtain ⟨b, hb, hPb⟩ := ih (by omega)
    obtain ⟨c, hc, hPc⟩ := hstep k (by omega) b hPb
    refine ⟨c, ?_, hPc⟩
    rw [List.take_succ_eq_append_getElem (by omega), List.foldlM_append]
    refine bind_eq_ok.mpr ⟨b, hb, ?_⟩
    rw [List.foldlM_cons]
    exact bind_eq_ok.mpr ⟨c, hc, rfl⟩

theorem bind_eq_error {x : Except ε α} {f : α → Except ε β} {e : ε} :
    x >>= f = .error e ↔ x = .error e ∨ ∃ a, x = .ok a ∧ f a = .error e := by
  cases x with
  | error e' => simp [bind, Except.bind]
  | ok a => simp [bind, Except.bind]

/-- A loop throws what one of its rounds throws. -/
theorem foldlM_error {f : β → α → Except ε β} {l : List α} {a : β} {e : ε}
    (h : l.foldlM f a = .error e) : ∃ b x, x ∈ l ∧ f b x = .error e := by
  induction l generalizing a with
  | nil => cases h
  | cons x l ih =>
    rcases bind_eq_error.mp h with hx | ⟨b, -, hl⟩
    · exact ⟨a, x, List.mem_cons_self, hx⟩
    · obtain ⟨c, y, hy, hc⟩ := ih hl
      exact ⟨c, y, List.mem_cons_of_mem _ hy, hc⟩

theorem mapM_error {f : α → Except ε β} {l : List α} {e : ε} (h : l.mapM f = .error e) :
    ∃ a ∈ l, f a = .error e := by
  induction l with
  | nil => cases h
  | cons a l ih =>
    rw [List.mapM_cons] at h
    rcases bind_eq_error.mp h with ha | ⟨b, -, h⟩
    · exact ⟨a, List.mem_cons_self, ha⟩
    · rcases bind_eq_error.mp h with hl | ⟨rest, -, h⟩
      · obtain ⟨a', hmem, ha'⟩ := ih hl
        exact ⟨a', List.mem_cons_of_mem _ hmem, ha'⟩
      · cases h

end StandardTools.Lib
