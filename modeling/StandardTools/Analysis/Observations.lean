import StandardTools.Analysis.Multivariate
import StandardTools.Lib.Scatter

/-!
# The observations behind the loops (`analysis/calculator.cpp:29-62`, `617-645`)

A loop over a range adds up a function of the observations, and the mean is the
average of it. The covariances which fill the upper triangle are symmetric
anyway, so that the mirror image changes nothing.
-/

namespace StandardTools.Analysis
open StandardTools.Core Lib Finset Fintype

/-! ### Loops as sums -/

theorem sumOver_eq_sum {α : Type} (f : α → ℝ) (l : List α) : sumOver f l = (l.map f).sum := by
  rw [sumOver, foldl_add_eq, zero_add]

theorem sumOver_eq {α : Type} (f : α → ℝ) (l : List α) :
    sumOver f l = ∑ i : Fin l.length, f l[i] := by
  rw [sumOver_eq_sum, ← Fin.sum_univ_fun_getElem]
  rfl

theorem sumOver_finRange {n : ℕ} (f : Fin n → ℝ) : sumOver f (List.finRange n) = ∑ i, f i := by
  rw [sumOver_eq_sum, ← Fin.sum_univ_def]

theorem mean_map {α : Type} (f : α → ℝ) (l : List α) :
    mean (l.map f) = average fun i : Fin l.length => f l[i] := by
  have hsum : sumOver id (l.map f) = ∑ i : Fin l.length, f l[i] := by
    rw [sumOver_eq_sum, List.map_id, ← sumOver_eq_sum, sumOver_eq]
  rw [mean, hsum, List.length_map, average_eq, Fintype.card_fin]
  split_ifs with hnil
  · rw [List.isEmpty_iff, List.map_eq_nil_iff] at hnil
    simp [hnil]
  · rfl

theorem mean_eq (values : List ℝ) :
    mean values = average fun i : Fin values.length => values[i] := by
  have hmap := mean_map id values
  rwa [List.map_id] at hmap

theorem sumOver_squares (values : List ℝ) :
    sumOver (fun v => (v - mean values) * (v - mean values)) values =
      scatter (fun i : Fin values.length => values[i]) (fun i => values[i]) := by
  rw [sumOver_eq, mean_eq]
  rfl

/-! ### Several series -/

/-- The first `nObs` entries of a series, as the loops read them. -/
def observed (series : List ℝ) (nObs : ℕ) : Fin nObs → ℝ := fun t => series.getD t 0

theorem mean_observed {series : List ℝ} {nObs : ℕ} (h : series.length = nObs) :
    mean series = average (observed series nObs) := by
  subst h
  rw [mean_eq]
  exact congrArg average (funext fun t => by simp [observed])

theorem mirrored_eq {n : ℕ} {upper : SquareMatrix ℝ n} (h : ∀ i j, upper i j = upper j i) :
    mirrored upper = upper := by
  funext i j
  rw [mirrored]
  split_ifs with hij
  · rfl
  · exact h j i

theorem mem_pairsAbove {n : ℕ} {pair : Fin n × Fin n} :
    pair ∈ pairsAbove n ↔ pair.1 < pair.2 := by
  obtain ⟨p, q⟩ := pair
  simp [pairsAbove]

end StandardTools.Analysis
