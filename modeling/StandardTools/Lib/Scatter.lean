import Mathlib.Algebra.BigOperators.Balance
import Mathlib.Algebra.Order.BigOperators.Ring.Finset
import Mathlib.Algebra.Order.Chebyshev
import Mathlib.Analysis.Real.Sqrt
import Mathlib.Tactic.LinearCombination

/-!
# Scatter of finite data

Data of finitely many observations is a function on the observations, and its
deviation is what `Fintype.balance` leaves of it. The scatter of two such
functions is the inner product of the deviations: covariances and the sums of a
linear regression are multiples of it. The least-squares line is read off the scatter, and the
Cauchy-Schwarz inequality and the positivity of Gram matrices hold of it.
-/

namespace StandardTools.Lib
open Finset Fintype
open scoped BigOperators

variable {ι κ F : Type*} [Fintype ι] [Field F] [LinearOrder F] [IsStrictOrderedRing F]

def average (x : ι → F) : F := 𝔼 i, x i

def deviation (x : ι → F) : ι → F := Fintype.balance x

theorem deviation_apply (x : ι → F) (i : ι) : deviation x i = x i - average x := rfl

theorem sum_deviation (x : ι → F) : ∑ i, deviation x i = 0 := Fintype.sum_balance x

theorem average_eq (x : ι → F) : average x = (∑ i, x i) / card ι :=
  Fintype.expect_eq_sum_div_card x

def scatter (x y : ι → F) : F := ∑ i, deviation x i * deviation y i

theorem scatter_comm (x y : ι → F) : scatter x y = scatter y x :=
  sum_congr rfl fun _ _ => mul_comm _ _

theorem scatter_self_nonneg (x : ι → F) : 0 ≤ scatter x x :=
  sum_nonneg fun i _ => mul_self_nonneg (deviation x i)

theorem scatter_self_eq_zero_iff (x : ι → F) : scatter x x = 0 ↔ ∀ i, deviation x i = 0 := by
  rw [scatter, Finset.sum_eq_zero_iff_of_nonneg fun i _ => mul_self_nonneg (deviation x i)]
  exact ⟨fun h i => mul_self_eq_zero.mp (h i (mem_univ i)), fun h i _ => by rw [h i, zero_mul]⟩

/-- Only constant data has no scatter. -/
theorem scatter_self_eq_zero_iff_const (x : ι → F) : scatter x x = 0 ↔ ∀ i j, x i = x j := by
  rw [scatter_self_eq_zero_iff]
  constructor
  · intro h i j
    exact (sub_eq_zero.mp (h i)).trans (sub_eq_zero.mp (h j)).symm
  · intro h i
    have : Nonempty ι := ⟨i⟩
    rw [deviation_apply, average, expect_congr rfl fun j _ => h j i, Fintype.expect_const, sub_self]

/-- Cauchy-Schwarz. -/
theorem scatter_sq_le (x y : ι → F) : scatter x y ^ 2 ≤ scatter x x * scatter y y := by
  have h := sum_mul_sq_le_sq_mul_sq univ (deviation x) (deviation y)
  simpa only [scatter, sq] using h

theorem deviation_affine (a b : F) (x : ι → F) (i : ι) :
    deviation (fun j => a * x j + b) i = a * deviation x i := by
  have : Nonempty ι := ⟨i⟩
  simp only [deviation_apply, average, expect_add_distrib, ← mul_expect, Fintype.expect_const]
  ring

theorem scatter_affine (a b c d : F) (x y : ι → F) :
    scatter (fun i => a * x i + b) (fun i => c * y i + d) = a * c * scatter x y := by
  simp only [scatter, deviation_affine, mul_sum]
  exact sum_congr rfl fun i _ => by ring

/-- The scatters of several data sets form a Gram matrix. -/
theorem sum_scatter [Fintype κ] (x : κ → ι → F) (w : κ → F) :
    ∑ i, ∑ j, w i * w j * scatter (x i) (x j) = ∑ t, (∑ i, w i * deviation (x i) t) ^ 2 := by
  simp only [scatter, mul_sum]
  calc ∑ i, ∑ j, ∑ t, w i * w j * (deviation (x i) t * deviation (x j) t)
      = ∑ i, ∑ t, ∑ j, w i * w j * (deviation (x i) t * deviation (x j) t) :=
        sum_congr rfl fun i _ => sum_comm
    _ = ∑ t, ∑ i, ∑ j, w i * w j * (deviation (x i) t * deviation (x j) t) := sum_comm
    _ = ∑ t, (∑ i, w i * deviation (x i) t) ^ 2 := by
        refine sum_congr rfl fun t _ => ?_
        rw [sq, Finset.sum_mul_sum]
        exact sum_congr rfl fun i _ => sum_congr rfl fun j _ => by ring

/-- A combination of deviations deviates from zero. -/
theorem deviation_combination [Fintype κ] (x : κ → ι → F) (w : κ → F) :
    (deviation fun t => ∑ i, w i * deviation (x i) t) = fun t => ∑ i, w i * deviation (x i) t := by
  have hsum : ∑ t, ∑ i, w i * deviation (x i) t = 0 := by
    rw [sum_comm]
    simp only [← mul_sum, sum_deviation, mul_zero, sum_const_zero]
  funext t
  rw [deviation_apply, average_eq, hsum, zero_div, sub_zero]

theorem scatter_combination [Fintype κ] (x : κ → ι → F) (w : κ → F) :
    scatter (fun t => ∑ i, w i * deviation (x i) t) (fun t => ∑ i, w i * deviation (x i) t) =
      ∑ i, ∑ j, w i * w j * scatter (x i) (x j) := by
  rw [sum_scatter, scatter, deviation_combination]
  exact sum_congr rfl fun t _ => (sq _).symm

/-- One observation deviates the more, the more the others make up for it. -/
theorem card_mul_deviation_sq_le (x : ι → F) (i : ι) :
    (card ι : F) * deviation x i ^ 2 ≤ ((card ι : F) - 1) * scatter x x := by
  classical
  have hothers : ∑ j ∈ univ.erase i, deviation x j = -deviation x i := by
    have hsum := add_sum_erase univ (deviation x) (mem_univ i)
    rw [sum_deviation] at hsum
    linear_combination hsum
  have hcauchy := sq_sum_le_card_mul_sum_sq (s := univ.erase i) (f := deviation x)
  rw [hothers, card_erase_of_mem (mem_univ i), card_univ,
    Nat.cast_pred (card_pos_iff.mpr ⟨i⟩)] at hcauchy
  have hsquares := add_sum_erase univ (fun j => deviation x j ^ 2) (mem_univ i)
  have hscatter : scatter x x = ∑ j, deviation x j ^ 2 := sum_congr rfl fun j _ => (sq _).symm
  rw [hscatter, ← hsquares]
  linear_combination hcauchy

/-! ### The least-squares line -/

section Line
variable (x y : ι → F)

def lineSlope : F := scatter x y / scatter x x

def lineIntercept : F := average y - lineSlope x y * average x

def lineResidual (i : ι) : F := y i - (lineIntercept x y + lineSlope x y * x i)

theorem lineResidual_eq (i : ι) :
    lineResidual x y i = deviation y i - lineSlope x y * deviation x i := by
  rw [lineResidual, lineIntercept, deviation_apply, deviation_apply]
  ring

theorem sum_lineResidual : ∑ i, lineResidual x y i = 0 := by
  simp only [lineResidual_eq, sum_sub_distrib, ← mul_sum, sum_deviation]
  ring

variable {x y}

theorem sum_lineResidual_mul (h : scatter x x ≠ 0) : ∑ i, lineResidual x y i * x i = 0 := by
  have hdeviation : ∑ i, lineResidual x y i * deviation x i = 0 := by
    have hslope : lineSlope x y * scatter x x = scatter x y := div_mul_cancel₀ _ h
    simp only [lineResidual_eq, sub_mul, sum_sub_distrib, mul_assoc, ← mul_sum]
    rw [← scatter, ← scatter, hslope, scatter_comm, sub_self]
  simp only [deviation_apply, mul_sub, sum_sub_distrib, ← sum_mul, sum_lineResidual] at hdeviation
  linear_combination hdeviation

/-- Any other line has the squares of the best one and of its distance to it. -/
theorem sum_sq_line (h : scatter x x ≠ 0) (a b : F) :
    ∑ i, (y i - a - b * x i) ^ 2 = ∑ i, lineResidual x y i ^ 2 +
      ∑ i, (lineIntercept x y - a + (lineSlope x y - b) * x i) ^ 2 := by
  have hterm (i : ι) : (y i - a - b * x i) ^ 2 = lineResidual x y i ^ 2 +
      (lineIntercept x y - a + (lineSlope x y - b) * x i) ^ 2 +
      (2 * (lineIntercept x y - a) * lineResidual x y i +
        2 * (lineSlope x y - b) * (lineResidual x y i * x i)) := by
    rw [lineResidual]
    ring
  simp only [hterm, sum_add_distrib, ← mul_sum, sum_lineResidual, sum_lineResidual_mul h]
  ring

theorem sum_lineResidual_sq_le (h : scatter x x ≠ 0) (a b : F) :
    ∑ i, lineResidual x y i ^ 2 ≤ ∑ i, (y i - a - b * x i) ^ 2 := by
  rw [sum_sq_line h]
  exact le_add_of_nonneg_right (sum_nonneg fun i _ => sq_nonneg _)

theorem eq_line_of_sum_sq_eq (h : scatter x x ≠ 0) {a b : F}
    (heq : ∑ i, (y i - a - b * x i) ^ 2 = ∑ i, lineResidual x y i ^ 2) :
    a = lineIntercept x y ∧ b = lineSlope x y := by
  rw [sum_sq_line h, add_eq_left, Finset.sum_eq_zero_iff_of_nonneg fun i _ => sq_nonneg _] at heq
  have hzero (i : ι) : lineIntercept x y - a + (lineSlope x y - b) * x i = 0 :=
    pow_eq_zero_iff two_ne_zero |>.mp (heq i (mem_univ i))
  have hb : lineSlope x y - b = 0 := by
    by_contra hne
    refine h ((scatter_self_eq_zero_iff_const x).mpr fun i j => ?_)
    have hij : (lineSlope x y - b) * (x i - x j) = 0 := by linear_combination hzero i - hzero j
    exact sub_eq_zero.mp ((mul_eq_zero.mp hij).resolve_left hne)
  have hi : ∃ i, deviation x i ≠ 0 := by
    by_contra hall
    push Not at hall
    exact h ((scatter_self_eq_zero_iff x).mpr hall)
  obtain ⟨i, -⟩ := hi
  have ha := hzero i
  rw [hb, zero_mul, add_zero] at ha
  exact ⟨(sub_eq_zero.mp ha).symm, (sub_eq_zero.mp hb).symm⟩

end Line

/-! ### The correlation coefficient -/

section Pearson
variable (x y : ι → ℝ)

noncomputable def pearson : ℝ := (Real.sqrt (scatter x x * scatter y y))⁻¹ * scatter x y

theorem pearson_comm : pearson x y = pearson y x := by
  rw [pearson, pearson, scatter_comm x y, mul_comm (scatter x x)]

theorem abs_pearson_le_one : |pearson x y| ≤ 1 := by
  rw [pearson, ← div_eq_inv_mul, abs_div, abs_of_nonneg (Real.sqrt_nonneg _)]
  exact div_le_one_of_le₀ (Real.abs_le_sqrt (scatter_sq_le x y)) (Real.sqrt_nonneg _)

variable {x y}

theorem pearson_self (h : scatter x x ≠ 0) : pearson x x = 1 := by
  rw [pearson, ← div_eq_inv_mul, Real.sqrt_mul_self (scatter_self_nonneg x), div_self h]

theorem pearson_affine {a c : ℝ} (ha : 0 < a) (hc : 0 < c) (b d : ℝ) :
    pearson (fun i => a * x i + b) (fun i => c * y i + d) = pearson x y := by
  have hsquare : a * a * scatter x x * (c * c * scatter y y) =
      (a * c) ^ 2 * (scatter x x * scatter y y) := by ring
  rw [pearson, ← div_eq_inv_mul, scatter_affine, scatter_affine, scatter_affine, hsquare,
    Real.sqrt_mul (sq_nonneg _), Real.sqrt_sq (mul_pos ha hc).le,
    mul_div_mul_left _ _ (mul_pos ha hc).ne', pearson, ← div_eq_inv_mul]

theorem sum_pearson_nonneg [Fintype κ] (x : κ → ι → ℝ) (w : κ → ℝ) :
    0 ≤ ∑ i, ∑ j, w i * w j * pearson (x i) (x j) := by
  have hscaled (i j : κ) : w i * w j * pearson (x i) (x j) =
      w i / Real.sqrt (scatter (x i) (x i)) * (w j / Real.sqrt (scatter (x j) (x j))) *
        scatter (x i) (x j) := by
    rw [pearson, Real.sqrt_mul (scatter_self_nonneg _)]
    ring
  simp only [hscaled, sum_scatter x fun i => w i / Real.sqrt (scatter (x i) (x i))]
  exact sum_nonneg fun t _ => sq_nonneg _

end Pearson

end StandardTools.Lib
