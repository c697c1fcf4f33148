import Mathlib.Algebra.Order.BigOperators.Group.List
import Mathlib.Algebra.Order.Field.Basic
import Mathlib.Tactic.FieldSimp
import Mathlib.Tactic.Positivity

/-!
# Wilder's smoothed average

The mean of the first `p` values, into which every later value enters with the
weight `1 / p`. For `p = 1` only the last value is left; for a larger `p` no
value is ever forgotten.
-/

namespace StandardTools.Lib

variable {F : Type} [Field F]

def wilderStep (p : ℕ) (avg v : F) : F := (avg * ((p - 1 : ℕ) : F) + v) / (p : F)

def wilder (p : ℕ) (l : List F) : F :=
  (l.drop p).foldl (wilderStep p) ((l.take p).sum / ((l.take p).length : F))

variable {p : ℕ} {l : List F}

theorem wilder_of_length_eq (h : l.length = p) : wilder p l = l.sum / (l.length : F) := by
  rw [wilder, List.drop_of_length_le h.le, List.take_of_length_le h.le]
  rfl

theorem wilder_append (h : p ≤ l.length) (v : F) :
    wilder p (l ++ [v]) = wilderStep p (wilder p l) v := by
  rw [wilder, List.drop_append_of_le_length h, List.take_append_of_le_length h, List.foldl_append,
    wilder]
  rfl

theorem wilder_one (l : List F) (v : F) : wilder 1 (l ++ [v]) = v := by
  cases l with
  | nil => simp [wilder]
  | cons u l =>
    rw [wilder_append (Nat.succ_pos _), wilderStep, Nat.sub_self, Nat.cast_zero, mul_zero,
      zero_add, Nat.cast_one, div_one]

omit [Field F] in
/-- Lists of at least `p` values, from the first average on. -/
theorem wilder_induction {motive : List F → Prop} (seed : ∀ l, l.length = p → motive l)
    (append : ∀ l v, p ≤ l.length → motive l → motive (l ++ [v])) (h : p ≤ l.length) :
    motive l := by
  induction l using List.reverseRecOn with
  | nil => exact seed [] (Nat.le_antisymm (Nat.zero_le p) h)
  | append_singleton l v ih =>
    rcases Nat.eq_or_lt_of_le h with heq | hlt
    · exact seed _ heq.symm
    · have hl : p ≤ l.length := by
        rw [List.length_append, List.length_singleton] at hlt
        omega
      exact append l v hl (ih hl)

section Order
variable [LinearOrder F] [IsStrictOrderedRing F]

theorem wilderStep_nonneg {avg v : F} (havg : 0 ≤ avg) (hv : 0 ≤ v) : 0 ≤ wilderStep p avg v :=
  div_nonneg (add_nonneg (mul_nonneg havg (Nat.cast_nonneg _)) hv) (Nat.cast_nonneg _)

theorem wilder_nonneg (hlen : p ≤ l.length) (hl : ∀ v ∈ l, 0 ≤ v) : 0 ≤ wilder p l := by
  refine wilder_induction (motive := fun l => (∀ v ∈ l, 0 ≤ v) → 0 ≤ wilder p l) ?_ ?_ hlen hl
  · intro l hp hl
    rw [wilder_of_length_eq hp]
    exact div_nonneg (List.sum_nonneg hl) (Nat.cast_nonneg _)
  · intro l v hp ih hl
    rw [List.forall_mem_append, List.forall_mem_singleton] at hl
    rw [wilder_append hp]
    exact wilderStep_nonneg (ih hl.1) hl.2

/-- The weights of the average so far and of the new value are both positive. -/
theorem wilderStep_eq_zero_iff (hp : 2 ≤ p) {avg v : F} (havg : 0 ≤ avg) (hv : 0 ≤ v) :
    wilderStep p avg v = 0 ↔ avg = 0 ∧ v = 0 := by
  have hpos : (0 : F) < (p : F) := Nat.cast_pos.mpr (by omega)
  have hweight : (0 : F) < ((p - 1 : ℕ) : F) := Nat.cast_pos.mpr (by omega)
  rw [wilderStep, div_eq_zero_iff, or_iff_left hpos.ne',
    add_eq_zero_iff_of_nonneg (mul_nonneg havg hweight.le) hv, mul_eq_zero,
    or_iff_left hweight.ne']

/-- No value is forgotten. -/
theorem wilder_eq_zero_iff (hp : 2 ≤ p) (hlen : p ≤ l.length) (hl : ∀ v ∈ l, 0 ≤ v) :
    wilder p l = 0 ↔ ∀ v ∈ l, v = 0 := by
  refine wilder_induction
    (motive := fun l => (∀ v ∈ l, 0 ≤ v) → (wilder p l = 0 ↔ ∀ v ∈ l, v = 0)) ?_ ?_ hlen hl
  · intro l hl hnonneg
    have hpos : (0 : F) < (l.length : F) := Nat.cast_pos.mpr (by omega)
    rw [wilder_of_length_eq hl, div_eq_zero_iff, or_iff_left hpos.ne']
    exact ⟨fun hsum v hv => List.all_zero_of_le_zero_le_of_sum_eq_zero hnonneg hsum hv,
      List.sum_eq_zero⟩
  · intro l v hl ih hnonneg
    rw [List.forall_mem_append, List.forall_mem_singleton] at hnonneg
    rw [wilder_append hl, wilderStep_eq_zero_iff hp (wilder_nonneg hl hnonneg.1) hnonneg.2,
      ih hnonneg.1, List.forall_mem_append, List.forall_mem_singleton]

end Order

end StandardTools.Lib
