import Mathlib.Algebra.Order.BigOperators.Group.List
import Mathlib.Algebra.Order.Field.Basic
import Mathlib.Algebra.Order.Ring.Nat
import Mathlib.Data.Nat.Cast.Order.Field
import Mathlib.Order.Bounds.Defs
import StandardTools.Lib.StdAlgorithm

/-!
# Ranks in a sorted list

The elements up to a bound stand in front of the others, so their number decides
what stands at a position: the element of rank `k` is the least one which more
than `k` elements do not exceed, in whatever order they were given.
-/

namespace StandardTools.Lib

/-! ### Properties of a front part -/

section Front
variable {α : Type} {P : α → Bool} {l : List α}

/-- What has the property stands in front of what does not have it. -/
def Front (P : α → Bool) (l : List α) : Prop := l.Pairwise fun a b => P b = true → P a = true

theorem Front.countP_eq_zero {a : α} (h : Front P (a :: l)) (ha : ¬P a = true) :
    l.countP P = 0 :=
  List.countP_eq_zero.mpr fun b hb hPb => ha ((List.pairwise_cons.mp h).1 b hb hPb)

theorem Front.getElem_iff (h : Front P l) {i : ℕ} (hi : i < l.length) :
    P l[i] = true ↔ i < l.countP P := by
  induction l generalizing i with
  | nil => exact absurd hi (Nat.not_lt_zero i)
  | cons a l ih =>
    by_cases ha : P a = true
    · rw [List.countP_cons_of_pos ha]
      cases i with
      | zero => exact iff_of_true ha (Nat.succ_pos _)
      | succ i =>
        rw [Nat.succ_lt_succ_iff]
        exact ih (List.pairwise_cons.mp h).2 (Nat.lt_of_succ_lt_succ hi)
    · rw [List.countP_cons_of_neg ha, h.countP_eq_zero ha]
      refine iff_of_false (fun hP => ha ?_) (Nat.not_lt_zero i)
      cases i with
      | zero => exact hP
      | succ i => exact (List.pairwise_cons.mp h).1 _ (List.getElem_mem _) hP

theorem Front.filter_eq_take (h : Front P l) : l.filter P = l.take (l.countP P) := by
  induction l with
  | nil => rfl
  | cons a l ih =>
    by_cases ha : P a = true
    · rw [List.filter_cons_of_pos ha, List.countP_cons_of_pos ha, List.take_succ_cons,
        ih (List.pairwise_cons.mp h).2]
    · have hnone := h.countP_eq_zero ha
      rw [List.filter_cons_of_neg ha, List.countP_cons_of_neg ha, hnone, List.take_zero]
      exact List.eq_nil_iff_length_eq_zero.mpr (by rw [← List.countP_eq_length_filter, hnone])

end Front

/-! ### Ranks -/

section Rank
variable {α : Type} [LinearOrder α] {l sorted : List α}

theorem front_le (h : sorted.Pairwise (· ≤ ·)) (v : α) : Front (fun a => decide (a ≤ v)) sorted :=
  h.imp fun hab hb => decide_eq_true (hab.trans (of_decide_eq_true hb))

theorem front_lt (h : sorted.Pairwise (· ≤ ·)) (v : α) : Front (fun a => decide (a < v)) sorted :=
  h.imp fun hab hb => decide_eq_true (hab.trans_lt (of_decide_eq_true hb))

variable (hperm : sorted.Perm l) (hsorted : sorted.Pairwise (· ≤ ·)) {k : ℕ}
include hperm hsorted

theorem sorted_le_iff (hk : k < sorted.length) {v : α} :
    sorted[k] ≤ v ↔ k < l.countP fun a => decide (a ≤ v) := by
  rw [← hperm.countP_eq, ← (front_le hsorted v).getElem_iff hk, decide_eq_true_iff]

theorem sorted_lt_iff (hk : k < sorted.length) {v : α} :
    sorted[k] < v ↔ k < l.countP fun a => decide (a < v) := by
  rw [← hperm.countP_eq, ← (front_lt hsorted v).getElem_iff hk, decide_eq_true_iff]

theorem isLeast_sorted (hk : k < sorted.length) :
    IsLeast {v | v ∈ l ∧ k < l.countP fun a => decide (a ≤ v)} sorted[k] := by
  refine ⟨⟨hperm.subset (List.getElem_mem hk), ?_⟩, fun v hv => ?_⟩
  · exact (sorted_le_iff hperm hsorted hk).mp (le_refl _)
  · exact (sorted_le_iff hperm hsorted hk).mpr hv.2

/-- Two neighbours are equal when one element takes up both ranks. -/
theorem sorted_succ_eq_iff (hk : k + 1 < sorted.length) :
    sorted[k + 1] = sorted[k] ↔ ∃ v ∈ l, (l.countP fun a => decide (a < v)) ≤ k ∧
      k + 2 ≤ l.countP fun a => decide (a ≤ v) := by
  have hk' : k < sorted.length := Nat.lt_of_succ_lt hk
  constructor
  · intro heq
    refine ⟨sorted[k], hperm.subset (List.getElem_mem hk'), ?_, ?_⟩
    · exact not_lt.mp (mt (sorted_lt_iff hperm hsorted hk').mpr (lt_irrefl _))
    · exact (sorted_le_iff hperm hsorted hk).mp heq.le
  · rintro ⟨v, -, hlow, hhigh⟩
    have hle : sorted[k + 1] ≤ v := (sorted_le_iff hperm hsorted hk).mpr hhigh
    have hge : v ≤ sorted[k] :=
      not_lt.mp (mt (sorted_lt_iff hperm hsorted hk').mp (not_lt.mpr hlow))
    exact le_antisymm (hle.trans hge)
      (List.pairwise_iff_getElem.mp hsorted k (k + 1) hk' hk (Nat.lt_succ_self k))

/-- What does not exceed a bound is what stands in front. -/
theorem filter_perm_take (v : α) :
    (l.filter fun a => decide (a ≤ v)).Perm
      (sorted.take (l.countP fun a => decide (a ≤ v))) := by
  rw [← hperm.countP_eq, ← (front_le hsorted v).filter_eq_take]
  exact (hperm.filter _).symm

omit hperm hsorted

theorem StdSort.pairwise_le (sort : StdSort α (· < ·)) (l : List α) :
    (sort.run l).Pairwise (· ≤ ·) :=
  (sort.sorted l).imp not_lt.mp

theorem StdSort.run_perm (sort sort' : StdSort α (· < ·)) {l l' : List α} (h : l'.Perm l) :
    sort'.run l' = sort.run l :=
  List.Perm.eq_of_pairwise (fun _ _ _ _ hab hba => le_antisymm hab hba) (sort'.pairwise_le l')
    (sort.pairwise_le l) (((sort'.perm l').trans h).trans (sort.perm l).symm)

end Rank

/-! ### Means -/

section Mean
variable {F : Type} [Field F] [LinearOrder F] [IsStrictOrderedRing F] {l : List F} {b : F}

theorem mean_le (hne : l ≠ []) (h : ∀ a ∈ l, a ≤ b) : l.sum / l.length ≤ b := by
  have hpos : (0 : F) < l.length := Nat.cast_pos.mpr (List.length_pos_iff.mpr hne)
  have hsum := List.sum_le_card_nsmul l b h
  rw [div_le_iff₀ hpos, mul_comm, ← nsmul_eq_mul]
  exact hsum

theorem le_mean (hne : l ≠ []) (h : ∀ a ∈ l, b ≤ a) : b ≤ l.sum / l.length := by
  have hpos : (0 : F) < l.length := Nat.cast_pos.mpr (List.length_pos_iff.mpr hne)
  have hsum := List.card_nsmul_le_sum l b h
  rw [le_div_iff₀ hpos, mul_comm, ← nsmul_eq_mul]
  exact hsum

end Mean

end StandardTools.Lib
