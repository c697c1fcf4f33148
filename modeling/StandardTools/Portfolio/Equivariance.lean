import StandardTools.Portfolio.Pivots
import StandardTools.Portfolio.RiskBudget

/-!
# The calculations in another order of the assets

A one-to-one renumbering of the assets carries every vector and matrix of the
source along. Sums do not see it, and neither does the inverse, since there is
only one, although the elimination takes other pivots; the rounds of the risk
parity iteration end in the same way, at the renumbered weights.
-/

namespace StandardTools.Portfolio
open Matrix StandardTools.Core StandardTools.Lib

variable {n n' : ℕ} (e : Fin n ≃ Fin n')

/-- Rows and columns renumbered by `e`. -/
def reindexed (a : SquareMatrix ℝ n') : SquareMatrix ℝ n := fun i j => a (e i) (e j)

/-! ### Sums and figures -/

theorem sumLoop_comp (f : Fin n' → ℝ) : sumLoop (f ∘ e) = sumLoop f := by
  rw [sumLoop_eq, sumLoop_eq]
  exact e.sum_comp f

theorem vecDot_comp (a b : Fin n' → ℝ) : vecDot (a ∘ e) (b ∘ e) = vecDot a b :=
  sumLoop_comp e fun i => a i * b i

theorem vecDotMat_comp (a : SquareMatrix ℝ n') (x : Fin n' → ℝ) :
    vecDotMat (reindexed e a) (x ∘ e) = vecDotMat a x ∘ e :=
  funext fun i => sumLoop_comp e fun j => a (e i) j * x j

theorem quadraticForm_eq_vecDot {n : ℕ} (x : Fin n → ℝ) (a : SquareMatrix ℝ n) :
    quadraticForm x a = vecDot x (vecDotMat a x) := by
  rw [quadraticForm_eq, vecDot_eq, vecDotMat_eq]

theorem portfolioMetrics_comp (w means : Fin n' → ℝ) (cov : SquareMatrix ℝ n') (rf : ℝ) :
    portfolioMetrics (w ∘ e) (means ∘ e) (reindexed e cov) rf =
      portfolioMetrics w means cov rf := by
  unfold portfolioMetrics
  simp only [quadraticForm_eq_vecDot, vecDotMat_comp, vecDot_comp]

/-! ### Inversion and the funds -/

theorem matInverse_reindexed {a inv' : SquareMatrix ℝ n'} {inv : SquareMatrix ℝ n}
    (h : matInverse (reindexed e a) = .ok inv) (h' : matInverse a = .ok inv') :
    inv = reindexed e inv' := by
  have hleft := matInverse_mul h
  have hright : Matrix.of (reindexed e inv') * Matrix.of (reindexed e a) = 1 := by
    calc Matrix.of (reindexed e inv') * Matrix.of (reindexed e a)
        = (Matrix.of inv').submatrix e e * (Matrix.of a).submatrix e e := rfl
      _ = 1 := by rw [submatrix_mul_equiv, matInverse_mul h', submatrix_one_equiv]
  exact Matrix.of.injective (left_inv_eq_right_inv hleft (mul_eq_one_comm.mp hright))

theorem vecDotMat_ones (inv : SquareMatrix ℝ n') :
    (vecDotMat (reindexed e inv) fun _ => 1) = (vecDotMat inv fun _ => 1) ∘ e :=
  vecDotMat_comp e inv fun _ => 1

theorem minVarianceFund_comp (inv : SquareMatrix ℝ n') :
    minVarianceFund (reindexed e inv) = (minVarianceFund inv).map (· ∘ e) := by
  unfold minVarianceFund
  simp only [vecDotMat_ones, sumLoop_comp]
  split_ifs <;> rfl

theorem maxSharpeFund_comp (inv : SquareMatrix ℝ n') (means wMv : Fin n' → ℝ) (rf : ℝ) :
    maxSharpeFund (reindexed e inv) (means ∘ e) rf (wMv ∘ e) =
      maxSharpeFund inv means rf wMv ∘ e := by
  have hk : (vecDotMat (reindexed e inv) fun i => (means ∘ e) i - rf) =
      (vecDotMat inv fun i => means i - rf) ∘ e := vecDotMat_comp e inv fun i => means i - rf
  unfold maxSharpeFund
  simp only [hk, sumLoop_comp]
  split_ifs <;> rfl

theorem targetVolatilityBlend_comp (wMs wMv : Fin n' → ℝ) (cov : SquareMatrix ℝ n')
    (targetVol volMv volMs : ℝ) :
    targetVolatilityBlend (wMs ∘ e) (wMv ∘ e) (reindexed e cov) targetVol volMv volMs =
      targetVolatilityBlend wMs wMv cov targetVol volMv volMs ∘ e := by
  unfold targetVolatilityBlend
  simp only [vecDotMat_comp, vecDot_comp]
  split_ifs <;> rfl

/-! ### Risk parity -/

def RoundEnd.comp : RoundEnd ℝ n' → RoundEnd ℝ n
  | .degenerate => .degenerate
  | .converged => .converged
  | .vanished => .vanished
  | .moved w => .moved (w ∘ e)

theorem riskContributions_comp (cov : SquareMatrix ℝ n') (w : Fin n' → ℝ) :
    riskContributions (reindexed e cov) (w ∘ e) = riskContributions cov w ∘ e := by
  unfold riskContributions
  rw [vecDotMat_comp]
  rfl

theorem riskConverged_comp (rc : Fin n' → ℝ) (target : ℝ) :
    riskConverged (rc ∘ e) target = riskConverged rc target := by
  rw [Bool.eq_iff_iff]
  unfold riskConverged
  rw [List.all_eq_true, List.all_eq_true]
  constructor
  · intro h i _
    have hi := h (e.symm i) (List.mem_finRange _)
    rwa [Function.comp_apply, e.apply_symm_apply] at hi
  · intro h i _
    exact h (e i) (List.mem_finRange _)

include e in
theorem assets_cast_eq : (n : ℝ) = n' :=
  congrArg Nat.cast (Fin.equiv_iff_eq.mp ⟨e⟩)

theorem riskParityRound_comp (cov : SquareMatrix ℝ n') (w : Fin n' → ℝ) :
    riskParityRound (reindexed e cov) (w ∘ e) = (riskParityRound cov w).comp e := by
  have hdamped : ∀ (rc : Fin n' → ℝ) (target : ℝ), dampedWeights (w ∘ e) (rc ∘ e) target =
      dampedWeights w rc target ∘ e := fun _ _ => rfl
  unfold riskParityRound
  simp only [riskContributions_comp, sumLoop_comp, riskConverged_comp, assets_cast_eq e, hdamped]
  split_ifs <;> rfl

theorem riskParityLoop_comp (cov : SquareMatrix ℝ n') (rounds : ℕ) (w : Fin n' → ℝ) :
    riskParityLoop (reindexed e cov) rounds (w ∘ e) = riskParityLoop cov rounds w ∘ e := by
  induction rounds generalizing w with
  | zero => rfl
  | succ rounds ih =>
    rw [riskParityLoop, riskParityRound_comp, riskParityLoop]
    cases riskParityRound cov w with
    | degenerate => rfl
    | converged => rfl
    | vanished => rfl
    | moved w' => exact ih w'

theorem equalWeights_comp : (equalWeights n : Fin n → ℝ) = equalWeights n' ∘ e := by
  funext i
  rw [Function.comp_apply, equalWeights, equalWeights, assets_cast_eq e]

/-! ### The map of the weights -/

theorem finRange_perm : ((List.finRange n).map e).Perm (List.finRange n') := by
  refine (List.perm_ext_iff_of_nodup ((List.nodup_finRange n).map e.injective)
    (List.nodup_finRange n')).mpr fun i => ?_
  simp only [List.mem_finRange, iff_true, List.mem_map]
  exact ⟨e.symm i, trivial, e.apply_symm_apply i⟩

theorem assign_labels_comp {labels : Fin n' → String} (hlabels : Function.Injective labels)
    (w : Fin n' → ℝ) :
    StdMap.empty.assign ((List.finRange n).map fun i => ((labels ∘ e) i, (w ∘ e) i)) =
      StdMap.empty.assign ((List.finRange n').map fun i => (labels i, w i)) := by
  apply StdMap.eq_of_perm
  have hperm := (finRange_perm e).map fun i => (labels i, w i)
  rw [List.map_map] at hperm
  exact (assign_labels_perm (hlabels.comp e.injective) (w ∘ e)).trans
    (hperm.trans (assign_labels_perm hlabels w).symm)

theorem buildResult_comp {labels : Fin n' → String} (hlabels : Function.Injective labels)
    (w : Fin n' → ℝ) (figures : PortfolioFigures ℝ) :
    buildResult (w ∘ e) (labels ∘ e) figures = buildResult w labels figures := by
  unfold buildResult
  rw [assign_labels_comp e hlabels]

end StandardTools.Portfolio
