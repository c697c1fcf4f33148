import Mathlib.LinearAlgebra.Matrix.PosDef
import Mathlib.Tactic.FieldSimp
import Mathlib.Tactic.LinearCombination

/-!
# Views on a mean

A prior with mean `π` and covariance `S` meets the views `P x = q`, whose errors
are independent and have the variances `ω`. The precisions add up, and the mean
moves to where both sides, weighed by their precisions, agree.
-/

namespace StandardTools.Lib
open Matrix

variable {R : Type} [Field R]
variable {ι κ : Type} [Fintype ι] [Fintype κ] [DecidableEq ι] [DecidableEq κ]

noncomputable def viewPrecision (S : Matrix ι ι R) (P : Matrix κ ι R) (ω : κ → R) : Matrix ι ι R :=
  S⁻¹ + Pᵀ * diagonal ω⁻¹ * P

noncomputable def viewMean (S : Matrix ι ι R) (P : Matrix κ ι R) (ω : κ → R) (π : ι → R)
    (q : κ → R) : ι → R :=
  (viewPrecision S P ω)⁻¹ *ᵥ (S⁻¹ *ᵥ π + Pᵀ *ᵥ (ω⁻¹ * q))

variable [LinearOrder R] [StarRing R] [TrivialStar R] [StarOrderedRing R]
variable {S : Matrix ι ι R} {P : Matrix κ ι R} {ω : κ → R}

theorem viewPrecision_posDef (hS : S.PosDef) (hω : ∀ i, 0 < ω i) : (viewPrecision S P ω).PosDef := by
  have hdiagonal : (diagonal ω⁻¹).PosSemidef :=
    PosSemidef.diagonal (fun i => inv_nonneg.mpr (hω i).le)
  have hviews := hdiagonal.conjTranspose_mul_mul_same P
  rw [conjTranspose_eq_transpose_of_trivial] at hviews
  exact hS.inv.add_posSemidef hviews

theorem viewCovariance_posDef {V : Matrix ι ι R} (hV : V.PosDef) (hS : S.PosDef)
    (hω : ∀ i, 0 < ω i) : (V + (viewPrecision S P ω)⁻¹).PosDef :=
  hV.add (viewPrecision_posDef hS hω).inv

omit [TrivialStar R] [StarOrderedRing R] in
theorem mul_inv_of_posDef {A : Matrix ι ι R} (h : A.PosDef) : A * A⁻¹ = 1 :=
  mul_nonsing_inv A ((isUnit_iff_isUnit_det A).mp h.isUnit)

omit [TrivialStar R] [StarOrderedRing R] in
theorem inv_mul_of_posDef {A : Matrix ι ι R} (h : A.PosDef) : A⁻¹ * A = 1 :=
  nonsing_inv_mul A ((isUnit_iff_isUnit_det A).mp h.isUnit)

/-! ### In the space of the views -/

omit [DecidableEq ι] in
theorem viewSpace_posDef (hS : S.PosDef) (hω : ∀ i, 0 < ω i) :
    (diagonal ω + P * S * Pᵀ).PosDef := by
  have hspread := hS.posSemidef.mul_mul_conjTranspose_same P
  rw [conjTranspose_eq_transpose_of_trivial] at hspread
  exact (PosDef.diagonal hω).add_posSemidef hspread

/-- What the views demand beyond the prior mean, weighed by their uncertainty. -/
noncomputable def viewSurprise (S : Matrix ι ι R) (P : Matrix κ ι R) (ω : κ → R) (π : ι → R)
    (q : κ → R) : κ → R :=
  (diagonal ω + P * S * Pᵀ)⁻¹ *ᵥ (q - P *ᵥ π)

omit [DecidableEq ι] in
theorem viewSurprise_solve (hS : S.PosDef) (hω : ∀ i, 0 < ω i) (π : ι → R) (q : κ → R) :
    ω * viewSurprise S P ω π q + P *ᵥ S *ᵥ Pᵀ *ᵥ viewSurprise S P ω π q = q - P *ᵥ π := by
  have h : (diagonal ω + P * S * Pᵀ) *ᵥ viewSurprise S P ω π q = q - P *ᵥ π := by
    unfold viewSurprise
    rw [mulVec_mulVec, mul_inv_of_posDef (viewSpace_posDef hS hω), one_mulVec]
  rw [add_mulVec, ← mulVec_mulVec, ← mulVec_mulVec] at h
  rw [← h]
  congr 1
  funext i
  exact (mulVec_diagonal ω _ i).symm

theorem viewMean_eq (hS : S.PosDef) (hω : ∀ i, 0 < ω i) (π : ι → R) (q : κ → R) :
    viewMean S P ω π q = π + S *ᵥ Pᵀ *ᵥ viewSurprise S P ω π q := by
  have hsolve := viewSurprise_solve (P := P) hS hω π q
  generalize viewSurprise S P ω π q = y at hsolve ⊢
  have hscaled : ω⁻¹ * (P *ᵥ (π + S *ᵥ Pᵀ *ᵥ y)) + y = ω⁻¹ * q := by
    funext i
    have hi := congrFun hsolve i
    have hω' := (hω i).ne'
    simp only [Pi.add_apply, Pi.mul_apply, Pi.sub_apply, Pi.inv_apply, mulVec_add] at hi ⊢
    field_simp
    linear_combination hi
  have hprecision : viewPrecision S P ω *ᵥ (π + S *ᵥ Pᵀ *ᵥ y) = S⁻¹ *ᵥ π + Pᵀ *ᵥ (ω⁻¹ * q) := by
    have hdiagonal : diagonal ω⁻¹ *ᵥ P *ᵥ (π + S *ᵥ Pᵀ *ᵥ y) =
        ω⁻¹ * (P *ᵥ (π + S *ᵥ Pᵀ *ᵥ y)) := funext (mulVec_diagonal _ _)
    unfold viewPrecision
    rw [add_mulVec, ← mulVec_mulVec, ← mulVec_mulVec, hdiagonal, ← hscaled, mulVec_add, mulVec_add,
      mulVec_mulVec _ S⁻¹ S, inv_mul_of_posDef hS, one_mulVec, mulVec_add Pᵀ, add_assoc,
      add_comm (Pᵀ *ᵥ y)]
  unfold viewMean
  rw [← hprecision, mulVec_mulVec, inv_mul_of_posDef (viewPrecision_posDef hS hω), one_mulVec]

/-- The mean stays where it is exactly when every view holds of it, unless views
contradict each other. -/
theorem viewMean_eq_prior_iff (hS : S.PosDef) (hω : ∀ i, 0 < ω i) (π : ι → R) (q : κ → R)
    (hP : ∀ y, Pᵀ *ᵥ y = 0 → y = 0) : viewMean S P ω π q = π ↔ q = P *ᵥ π := by
  have hsolve := viewSurprise_solve (P := P) hS hω π q
  rw [viewMean_eq hS hω, add_eq_left]
  constructor
  · intro hmove
    have hback : Pᵀ *ᵥ viewSurprise S P ω π q = 0 := by
      have h := congrArg (S⁻¹ *ᵥ ·) hmove
      simpa only [mulVec_mulVec, ← Matrix.mul_assoc, inv_mul_of_posDef hS, Matrix.one_mul,
        mulVec_zero] using h
    rw [hmove, hP _ hback, mulVec_zero, mul_zero, add_zero] at hsolve
    exact (sub_eq_zero.mp hsolve.symm)
  · intro hq
    rw [viewSurprise, hq, sub_self, mulVec_zero, mulVec_zero, mulVec_zero]

/-- A single view, as uncertain as the prior: the mean goes half way. -/
theorem viewMean_single (hS : S.PosDef) (hω : ∀ i, 0 < ω i) (π : ι → R) (q : κ → R) {i : κ}
    (hsingle : ∀ j, j = i) (hself : ω i = P i ⬝ᵥ S *ᵥ P i) :
    P i ⬝ᵥ viewMean S P ω π q = (P i ⬝ᵥ π + q i) / (1 + 1) := by
  have hsolve := congrFun (viewSurprise_solve (P := P) hS hω π q) i
  rw [viewMean_eq hS hω]
  generalize viewSurprise S P ω π q = y at hsolve ⊢
  have hback : Pᵀ *ᵥ y = y i • P i := by
    funext a
    rw [mulVec, dotProduct, Finset.sum_eq_single i (fun j _ hj => absurd (hsingle j) hj)
      (fun hi => absurd (Finset.mem_univ i) hi)]
    exact mul_comm _ _
  have hmove : P i ⬝ᵥ S *ᵥ Pᵀ *ᵥ y = ω i * y i := by
    rw [hback, mulVec_smul, dotProduct_smul, ← hself, smul_eq_mul, mul_comm]
  have hnormal : ω i * y i + ω i * y i = q i - P i ⬝ᵥ π := by
    nth_rewrite 2 [← hmove]
    exact hsolve
  rw [dotProduct_add, hmove, eq_div_iff (by positivity)]
  linear_combination hnormal

/-- Views can only shrink the covariance. -/
theorem viewPrecision_inv_le (hS : S.PosDef) (hω : ∀ i, 0 < ω i) (x : ι → R) :
    x ⬝ᵥ (viewPrecision S P ω)⁻¹ *ᵥ x ≤ x ⬝ᵥ S *ᵥ x := by
  have hspace : (diagonal ω + P * S * Pᵀ).PosDef := viewSpace_posDef hS hω
  have hinv : (diagonal ω⁻¹)⁻¹ = diagonal ω := by
    apply inv_eq_left_inv
    rw [diagonal_mul_diagonal, ← diagonal_one]
    congr 1
    funext i
    exact mul_inv_cancel₀ (hω i).ne'
  have hS' : S⁻¹⁻¹ = S := nonsing_inv_nonsing_inv S ((isUnit_iff_isUnit_det S).mp hS.isUnit)
  have hsymm : Sᵀ = S := (conjTranspose_eq_transpose_of_trivial S).symm.trans hS.isHermitian
  have hwoodbury : (viewPrecision S P ω)⁻¹ =
      S - (P * S)ᵀ * (diagonal ω + P * S * Pᵀ)⁻¹ * (P * S) := by
    have h := add_mul_mul_inv_eq_sub S⁻¹ Pᵀ (diagonal ω⁻¹) P hS.inv.isUnit
      (PosDef.diagonal fun i => inv_pos.mpr (hω i)).isUnit
    rw [hS', hinv] at h
    rw [transpose_mul, hsymm, ← Matrix.mul_assoc _ P S]
    exact h hspace.isUnit
  have hgain := (hspace.inv.posSemidef.conjTranspose_mul_mul_same (P * S)).dotProduct_mulVec_nonneg x
  rw [conjTranspose_eq_transpose_of_trivial, star_trivial] at hgain
  rw [hwoodbury, sub_mulVec, dotProduct_sub]
  exact sub_le_self _ hgain

end StandardTools.Lib
