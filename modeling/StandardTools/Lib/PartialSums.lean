import Mathlib.Algebra.BigOperators.Group.List.Basic
import Mathlib.Algebra.Order.Field.Basic
import Mathlib.Order.Lattice

/-!
# Extremes of partial sums

A loop adds up and keeps the largest and the least sum so far, starting from two
sentinels. The sentinels do not show once a sum lies between them, and where the
summands cancel the last sum is zero.
-/

namespace StandardTools.Lib

/-! ### Extremes from a sentinel on -/

section Extremes
variable {α : Type*} [LinearOrder α]

theorem foldl_max_le_iff (l : List α) (b y : α) : l.foldl max b ≤ y ↔ b ≤ y ∧ ∀ x ∈ l, x ≤ y := by
  induction l generalizing b with
  | nil => simp
  | cons x l ih => rw [List.foldl_cons, ih, max_le_iff, List.forall_mem_cons, and_assoc]

theorem le_foldl_min_iff (l : List α) (b y : α) : y ≤ l.foldl min b ↔ y ≤ b ∧ ∀ x ∈ l, y ≤ x := by
  induction l generalizing b with
  | nil => simp
  | cons x l ih => rw [List.foldl_cons, ih, le_min_iff, List.forall_mem_cons, and_assoc]

/-- A sentinel which some element passes may as well be that element. -/
theorem foldl_max_of_mem {l : List α} {b x : α} (hx : x ∈ l) (hb : b ≤ x) :
    l.foldl max b = l.foldl max x := by
  refine eq_of_forall_ge_iff fun y => ?_
  rw [foldl_max_le_iff, foldl_max_le_iff]
  exact ⟨fun h => ⟨h.2 x hx, h.2⟩, fun h => ⟨hb.trans h.1, h.2⟩⟩

theorem foldl_min_of_mem {l : List α} {b x : α} (hx : x ∈ l) (hb : x ≤ b) :
    l.foldl min b = l.foldl min x := by
  refine eq_of_forall_le_iff fun y => ?_
  rw [le_foldl_min_iff, le_foldl_min_iff]
  exact ⟨fun h => ⟨h.2 x hx, h.2⟩, fun h => ⟨h.1.trans hb, h.2⟩⟩

end Extremes

variable {F : Type*} [Field F]

/-! ### Partial sums -/

/-- The sums behind each summand. -/
def partialSums (sum : F) : List F → List F
  | [] => []
  | d :: l => (sum + d) :: partialSums (sum + d) l

theorem sum_mem_partialSums {l : List F} (hne : l ≠ []) (sum : F) :
    sum + l.sum ∈ partialSums sum l := by
  induction l generalizing sum with
  | nil => exact absurd rfl hne
  | cons d l ih =>
    rw [partialSums, List.sum_cons, ← add_assoc]
    by_cases hl : l = []
    · rw [hl, List.sum_nil, add_zero]
      exact List.mem_cons_self
    · exact List.mem_cons_of_mem _ (ih hl (sum + d))

theorem partialSums_map_mul (a : F) (l : List F) (sum : F) :
    partialSums (a * sum) (l.map (a * ·)) = (partialSums sum l).map (a * ·) := by
  induction l generalizing sum with
  | nil => rfl
  | cons d l ih => rw [List.map_cons, partialSums, partialSums, List.map_cons, ← mul_add, ih]

/-- The sums stay where they are exactly when nothing is added. -/
theorem partialSums_const_iff (l : List F) (sum : F) :
    (∀ s ∈ partialSums sum l, s = sum) ↔ ∀ d ∈ l, d = 0 := by
  induction l with
  | nil => simp [partialSums]
  | cons d l ih =>
    rw [partialSums, List.forall_mem_cons, List.forall_mem_cons, add_eq_left]
    refine and_congr_right fun hd => ?_
    rw [hd, add_zero]
    exact ih

/-! ### Their range -/

variable [LinearOrder F] [IsStrictOrderedRing F]

theorem foldl_max_map_mul {a : F} (ha : 0 ≤ a) (l : List F) (b : F) :
    (l.map (a * ·)).foldl max (a * b) = a * l.foldl max b := by
  induction l generalizing b with
  | nil => rfl
  | cons x l ih => rw [List.map_cons, List.foldl_cons, ← mul_max_of_nonneg _ _ ha, ih, List.foldl_cons]

theorem foldl_min_map_mul {a : F} (ha : 0 ≤ a) (l : List F) (b : F) :
    (l.map (a * ·)).foldl min (a * b) = a * l.foldl min b := by
  induction l generalizing b with
  | nil => rfl
  | cons x l ih => rw [List.map_cons, List.foldl_cons, ← mul_min_of_nonneg _ _ ha, ih, List.foldl_cons]

/-- From the least to the largest partial sum, the empty one included. -/
def excursion (l : List F) : F :=
  (partialSums 0 l).foldl max 0 - (partialSums 0 l).foldl min 0

theorem excursion_map_mul {a : F} (ha : 0 ≤ a) (l : List F) :
    excursion (l.map (a * ·)) = a * excursion l := by
  have hsums := partialSums_map_mul a l 0
  have hmax := foldl_max_map_mul ha (partialSums 0 l) 0
  have hmin := foldl_min_map_mul ha (partialSums 0 l) 0
  rw [mul_zero] at hsums hmax hmin
  rw [excursion, hsums, hmax, hmin, ← mul_sub, ← excursion]

theorem excursion_pos {l : List F} (h : ∃ d ∈ l, d ≠ 0) : 0 < excursion l := by
  have hmax := (foldl_max_le_iff (partialSums 0 l) 0 _).mp le_rfl
  have hmin := (le_foldl_min_iff (partialSums 0 l) 0 _).mp le_rfl
  rw [excursion, sub_pos]
  refine lt_of_le_of_ne (hmin.1.trans hmax.1) fun heq => ?_
  obtain ⟨d, hd, hne⟩ := h
  refine hne ((partialSums_const_iff l 0).mp (fun s hs => ?_) d hd)
  exact le_antisymm ((hmax.2 s hs).trans (heq.symm.le.trans hmin.1))
    ((hmax.1.trans heq.symm.le).trans (hmin.2 s hs))

omit [IsStrictOrderedRing F] in
/-- Sentinels on both sides of zero, and summands which cancel. -/
theorem excursion_eq {l : List F} (hne : l ≠ []) (hsum : l.sum = 0) {low high : F}
    (hlow : low ≤ 0) (hhigh : 0 ≤ high) :
    (partialSums 0 l).foldl max low - (partialSums 0 l).foldl min high = excursion l := by
  have hlast := sum_mem_partialSums hne 0
  rw [hsum, add_zero] at hlast
  rw [foldl_max_of_mem hlast hlow, foldl_min_of_mem hlast hhigh, excursion]

end StandardTools.Lib
