import Mathlib.Algebra.Order.Star.Real
import StandardTools.Lib.ConstrainedMinimum
import StandardTools.Portfolio.Inverse
import StandardTools.Portfolio.Optimizer

/-!
# The funds in exact arithmetic (`portfolio/optimizer.cpp:174-393`)

With the ridge the covariance is positive definite. At the two funds its
gradient is a combination of the means and of the vector of ones, and so it is
at every blend of them; all these weights sum to 1.
-/

namespace StandardTools.Portfolio
open Matrix StandardTools.Core StandardTools.Lib

/-! ### The covariance -/

namespace ReturnMatrix
variable (m : ReturnMatrix ℝ)

theorem sampleCovariance_apply (i j : Fin m.assets) :
    m.sampleCovariance i j =
      (∑ t, m.centered i t * m.centered j t) * (1 / ((m.obs : ℝ) - 1)) := by
  unfold sampleCovariance
  simp only [sumLoop_eq]
  by_cases hij : i ≤ j
  · rw [if_pos hij]
  · rw [if_neg hij]
    congr 1
    exact Finset.sum_congr rfl fun t _ => mul_comm _ _

theorem sampleCovariance_eq :
    Matrix.of m.sampleCovariance =
      (1 / ((m.obs : ℝ) - 1)) • (Matrix.of m.centered * (Matrix.of m.centered)ᴴ) := by
  ext i j
  rw [Matrix.of_apply, sampleCovariance_apply, Matrix.smul_apply, Matrix.mul_apply, smul_eq_mul,
    mul_comm]
  rfl

theorem covariance_eq :
    Matrix.of m.covariance = Matrix.of m.sampleCovariance + (covRidge : ℝ) • 1 := by
  ext i j
  rw [Matrix.of_apply, Matrix.add_apply, Matrix.smul_apply, Matrix.one_apply, smul_eq_mul]
  unfold covariance
  by_cases hij : i = j
  · rw [if_pos hij, if_pos hij, mul_one]
    rfl
  · rw [if_neg hij, if_neg hij, mul_zero, add_zero]
    rfl

theorem covRidge_pos : 0 < (covRidge : ℝ) := by
  unfold covRidge
  positivity

theorem sampleCovariance_posSemidef : (Matrix.of m.sampleCovariance).PosSemidef := by
  have hobs : (2 : ℝ) ≤ m.obs := by exact_mod_cast m.obs_two
  have hfactor : 0 ≤ 1 / ((m.obs : ℝ) - 1) := one_div_nonneg.mpr (by linarith)
  rw [sampleCovariance_eq]
  exact (posSemidef_self_mul_conjTranspose (Matrix.of m.centered)).smul hfactor

theorem covariance_posDef : (Matrix.of m.covariance).PosDef := by
  rw [covariance_eq]
  exact PosDef.posSemidef_add m.sampleCovariance_posSemidef (PosDef.one.smul covRidge_pos)

/-- The variance as a bilinear form. -/
noncomputable def form : LinearMap.BilinForm ℝ (Fin m.assets → ℝ) :=
  (Matrix.of m.covariance).toBilin'

noncomputable def mean : (Fin m.assets → ℝ) →ₗ[ℝ] ℝ := dotProductBilin ℝ ℝ m.means

/-- The sum of the weights. -/
noncomputable def budget : (Fin m.assets → ℝ) →ₗ[ℝ] ℝ := dotProductBilin ℝ ℝ 1

theorem form_apply (v w : Fin m.assets → ℝ) :
    m.form v w = v ⬝ᵥ Matrix.of m.covariance *ᵥ w :=
  toBilin'_apply' _ _ _

theorem mean_apply (v : Fin m.assets → ℝ) : m.mean v = v ⬝ᵥ m.means :=
  dotProduct_comm m.means v

theorem budget_apply (v : Fin m.assets → ℝ) : m.budget v = ∑ i, v i := one_dotProduct v

theorem form_isSymm : LinearMap.IsSymm m.form := posDef_isSymm m.covariance_posDef

theorem form_pos (v : Fin m.assets → ℝ) (hv : v ≠ 0) : 0 < m.form v v :=
  posDef_apply_self m.covariance_posDef v hv

noncomputable def deviation (v : Fin m.assets → ℝ) : ℝ := √(m.form v v)

theorem deviation_root (v : Fin m.assets → ℝ) : 0 ≤ m.deviation v ∧ m.deviation v ^ 2 = m.form v v :=
  ⟨Real.sqrt_nonneg _, Real.sq_sqrt (apply_self_nonneg m.form_pos v)⟩

theorem form_inverse {inv : SquareMatrix ℝ m.assets} (h : matInverse m.covariance = .ok inv)
    (x v : Fin m.assets → ℝ) : m.form (vecDotMat inv x) v = x ⬝ᵥ v := by
  rw [vecDotMat_eq]
  exact toBilin'_inverse m.covariance_posDef (matInverse_mul h) x v

/-! ### Funds -/

/-- Fully invested, and of least variance for its mean return. -/
def IsFund (w : Fin m.assets → ℝ) : Prop := w ∈ twoFunds m.form m.mean m.budget ∧ m.budget w = 1

end ReturnMatrix

variable {m : ReturnMatrix ℝ}

theorem degeneracyEps_pos : 0 < (degeneracyEps : ℝ) := by
  unfold degeneracyEps
  positivity

theorem scale_eq {n : ℕ} (values : Fin n → ℝ) (factor : ℝ) :
    scale values factor = factor • values :=
  funext fun _ => mul_comm _ _

theorem blend_eq {n : ℕ} (a b : Fin n → ℝ) (alpha : ℝ) :
    blend a b alpha = alpha • a + (1 - alpha) • b :=
  rfl

theorem ne_zero_of_not_degenerate {x : ℝ} (h : ¬|x| < degeneracyEps) : x ≠ 0 := by
  intro hzero
  rw [hzero, abs_zero] at h
  exact h degeneracyEps_pos

theorem budget_normalized {k : Fin m.assets → ℝ} (h : ¬|m.budget k| < degeneracyEps) :
    m.budget ((1 / m.budget k) • k) = 1 := by
  rw [map_smul, smul_eq_mul]
  exact one_div_mul_cancel (ne_zero_of_not_degenerate h)

theorem minVarianceFund_eq_ok {inv : SquareMatrix ℝ m.assets} {w : Fin m.assets → ℝ}
    (h : minVarianceFund inv = .ok w) :
    let k := vecDotMat inv 1
    ¬|m.budget k| < degeneracyEps ∧ w = (1 / m.budget k) • k := by
  unfold minVarianceFund at h
  simp only [sumLoop_eq, scale_eq, abs_real, ← m.budget_apply] at h
  by_cases hsmall : |m.budget (vecDotMat inv 1)| < degeneracyEps
  · rw [if_pos (by exact hsmall)] at h
    cases h
  · rw [if_neg (by exact hsmall)] at h
    cases h
    exact ⟨hsmall, rfl⟩

/-- The gradient at the minimum-variance fund is a multiple of the ones. -/
theorem minVarianceFund_gradient {inv : SquareMatrix ℝ m.assets} {w : Fin m.assets → ℝ}
    (hinv : matInverse m.covariance = .ok inv) (h : minVarianceFund inv = .ok w) :
    m.budget w = 1 ∧ ∃ b, ∀ v, m.form w v = b * m.budget v := by
  obtain ⟨hsum, rfl⟩ := minVarianceFund_eq_ok h
  refine ⟨budget_normalized hsum, 1 / m.budget (vecDotMat inv 1), fun v => ?_⟩
  rw [map_smul, LinearMap.smul_apply, m.form_inverse hinv, smul_eq_mul]
  rfl

theorem minVarianceFund_isFund {inv : SquareMatrix ℝ m.assets} {w : Fin m.assets → ℝ}
    (hinv : matInverse m.covariance = .ok inv) (h : minVarianceFund inv = .ok w) :
    m.IsFund w := by
  obtain ⟨hsum, b, hgradient⟩ := minVarianceFund_gradient hinv h
  refine ⟨mem_twoFunds.mpr ⟨0, b, fun v => ?_⟩, hsum⟩
  rw [hgradient, zero_mul, zero_add]

theorem maxSharpeFund_eq {inv : SquareMatrix ℝ m.assets} {rf : ℝ} {wMv : Fin m.assets → ℝ} :
    let k := vecDotMat inv fun i => m.means i - rf
    maxSharpeFund inv m.means rf wMv =
      if |m.budget k| < degeneracyEps then wMv else (1 / m.budget k) • k := by
  unfold maxSharpeFund
  simp only [sumLoop_eq, scale_eq, abs_real, ← m.budget_apply]

/-- The excess return over the rate, for a unit of capital at that rate. -/
noncomputable def ReturnMatrix.excess (m : ReturnMatrix ℝ) (rf : ℝ) :
    (Fin m.assets → ℝ) →ₗ[ℝ] ℝ :=
  m.mean - rf • m.budget

theorem ReturnMatrix.excess_apply (m : ReturnMatrix ℝ) (rf : ℝ) (v : Fin m.assets → ℝ) :
    m.excess rf v = (fun i => m.means i - rf) ⬝ᵥ v := by
  have hsplit : (fun i => m.means i - rf) = m.means - rf • 1 := by
    funext i
    rw [Pi.sub_apply, Pi.smul_apply, Pi.one_apply, smul_eq_mul, mul_one]
  rw [hsplit, sub_dotProduct, smul_dotProduct]
  rfl

theorem ReturnMatrix.excess_of_budget (m : ReturnMatrix ℝ) (rf : ℝ) {v : Fin m.assets → ℝ}
    (hv : m.budget v = 1) : m.excess rf v = m.mean v - rf := by
  have hexcess : m.excess rf v = m.mean v - rf * m.budget v := rfl
  rw [hexcess, hv, mul_one]

theorem ReturnMatrix.form_excess (m : ReturnMatrix ℝ) {inv : SquareMatrix ℝ m.assets}
    (hinv : matInverse m.covariance = .ok inv) (rf : ℝ) (v : Fin m.assets → ℝ) :
    m.form (vecDotMat inv fun i => m.means i - rf) v = m.excess rf v := by
  rw [m.excess_apply, m.form_inverse hinv]

theorem maxSharpeFund_isFund {inv : SquareMatrix ℝ m.assets} {rf : ℝ} {wMv : Fin m.assets → ℝ}
    (hinv : matInverse m.covariance = .ok inv) (hmv : m.IsFund wMv) :
    m.IsFund (maxSharpeFund inv m.means rf wMv) := by
  rw [maxSharpeFund_eq]
  split_ifs with hsmall
  · exact hmv
  refine ⟨Submodule.smul_mem _ _ (mem_twoFunds.mpr ⟨1, -rf, fun v => ?_⟩),
    budget_normalized hsmall⟩
  rw [m.form_excess hinv, one_mul, neg_mul]
  exact sub_eq_add_neg _ _

/-! ### Blends -/

theorem blend_isFund {a b : Fin m.assets → ℝ} (ha : m.IsFund a) (hb : m.IsFund b) (alpha : ℝ) :
    m.IsFund (blend a b alpha) := by
  rw [blend_eq]
  refine ⟨Submodule.add_mem _ (Submodule.smul_mem _ _ ha.1) (Submodule.smul_mem _ _ hb.1), ?_⟩
  rw [map_add, map_smul, map_smul, ha.2, hb.2, smul_eq_mul, smul_eq_mul]
  ring

theorem targetVolatilityBlend_isFund {wMs wMv : Fin m.assets → ℝ} (hms : m.IsFund wMs)
    (hmv : m.IsFund wMv) (targetVol volMv volMs : ℝ) :
    m.IsFund (targetVolatilityBlend wMs wMv m.covariance targetVol volMv volMs) := by
  unfold targetVolatilityBlend
  simp only
  split_ifs
  · exact hmv
  · exact hms
  · exact blend_isFund hms hmv _

theorem weights_eq_ok {rf : ℝ} {objective : Objective ℝ} {w : Fin m.assets → ℝ} :
    m.weights rf objective = .ok w ↔
      ∃ inv wMv, matInverse m.covariance = .ok inv ∧ minVarianceFund inv = .ok wMv ∧
        w = m.combine rf wMv (maxSharpeFund inv m.means rf wMv) objective := by
  constructor
  · intro h
    obtain ⟨inv, hinv, h⟩ := bind_eq_ok.mp h
    obtain ⟨wMv, hmv, h⟩ := bind_eq_ok.mp h
    cases h
    exact ⟨inv, wMv, hinv, hmv, rfl⟩
  · intro h
    obtain ⟨inv, wMv, hinv, hmv, rfl⟩ := h
    exact bind_eq_ok.mpr ⟨inv, hinv, bind_eq_ok.mpr ⟨wMv, hmv, rfl⟩⟩

/-- Whatever the objective, the weights are a fund. -/
theorem weights_isFund {rf : ℝ} {objective : Objective ℝ} {w : Fin m.assets → ℝ}
    (h : m.weights rf objective = .ok w) : m.IsFund w := by
  obtain ⟨inv, wMv, hinv, hok, rfl⟩ := weights_eq_ok.mp h
  have hmv := minVarianceFund_isFund hinv hok
  have hms : m.IsFund (maxSharpeFund inv m.means rf wMv) := maxSharpeFund_isFund hinv hmv
  cases objective with
  | maxSharpe => exact hms
  | minVolatility => exact hmv
  | targetReturn target => exact blend_isFund hms hmv _
  | targetVolatility target => exact targetVolatilityBlend_isFund hms hmv _ _ _

end StandardTools.Portfolio
