import StandardTools.Lib.ScalingPotential
import StandardTools.Portfolio.RiskBudget

/-!
# Equal contributions (`portfolio/risk_parity.cpp:142-231`)

A round is a damped scaling of the covariances, with contributions below
`degeneracyEps` taken for that. Where no covariance is negative, a thousand rounds
bring the contributions together from almost any start; where some are, equal weights
have to be near enough. The test which ends the loop before is absolute: on a portfolio
of small variance it passes whatever the contributions are.
-/

namespace StandardTools.Portfolio
open Matrix StandardTools.Core StandardTools.Lib

variable {n : ℕ} {cov : SquareMatrix ℝ n} {w : Fin n → ℝ}

/-! ### The property -/

/-- The contributions differ by at most one per cent of the whole risk. -/
def EqualRisk (cov : SquareMatrix ℝ n) (w : Fin n → ℝ) : Prop :=
  ∀ i j, riskContributions cov w i - riskContributions cov w j ≤
    1 / 100 * ∑ k, riskContributions cov w k

theorem riskContributions_sum (cov : SquareMatrix ℝ n) (w : Fin n → ℝ) :
    ∑ i, riskContributions cov w i = w ⬝ᵥ Matrix.of cov *ᵥ w := by
  unfold riskContributions
  rw [vecDotMat_eq]
  rfl

/-! ### Rounds as a scaling -/

/-- The weights behind a round which moves. -/
noncomputable def parityStep (cov : SquareMatrix ℝ n) (w : Fin n → ℝ) : Fin n → ℝ :=
  let rc := riskContributions cov w
  let next := dampedWeights w rc (sumLoop rc / n)
  fun i => next i / sumLoop next

theorem eq_parityStep {w' : Fin n → ℝ} (h : riskParityRound cov w = .moved w') :
    w' = parityStep cov w := by
  unfold riskParityRound at h
  simp only at h
  split_ifs at h
  exact (RoundEnd.moved.inj h).symm

/-- The loop returns what some number of rounds leads to: all of them, or those before
the first one that ends otherwise. -/
theorem riskParityLoop_iterate (cov : SquareMatrix ℝ n) (rounds : ℕ) (w : Fin n → ℝ) :
    ∃ k ≤ rounds, riskParityLoop cov rounds w = (parityStep cov)^[k] w ∧
      (k < rounds → ∀ w', riskParityRound cov ((parityStep cov)^[k] w) ≠ .moved w') := by
  induction rounds generalizing w with
  | zero => exact ⟨0, le_rfl, rfl, fun h => absurd h (Nat.lt_irrefl 0)⟩
  | succ rounds ih =>
    by_cases hmoved : ∃ w', riskParityRound cov w = .moved w'
    · obtain ⟨w', hround⟩ := hmoved
      obtain ⟨k, hk, hloop, hend⟩ := ih w'
      rw [eq_parityStep hround, ← Function.iterate_succ_apply] at hloop hend
      refine ⟨k + 1, Nat.succ_le_succ hk, ?_, fun hlt => hend (Nat.lt_of_succ_lt_succ hlt)⟩
      rw [riskParityLoop, hround]
      rw [eq_parityStep hround]
      exact hloop
    · refine ⟨0, Nat.zero_le _, ?_, fun _ w' hround => hmoved ⟨w', hround⟩⟩
      rw [riskParityLoop]
      cases hround : riskParityRound cov w with
      | moved w' => exact absurd ⟨w', hround⟩ hmoved
      | degenerate | converged | vanished => rfl

theorem load_eq (cov : SquareMatrix ℝ n) (w : Fin n → ℝ) :
    Scaling.load cov w = riskContributions cov w := by
  unfold riskContributions
  rw [vecDotMat_eq]
  rfl

theorem total_eq (cov : SquareMatrix ℝ n) (w : Fin n → ℝ) :
    Scaling.total cov w = ∑ i, riskContributions cov w i := by
  rw [← load_eq]
  rfl

/-- The clamp of a round, as a share of the whole risk. -/
noncomputable def clampedShare (cov : SquareMatrix ℝ n) (w : Fin n → ℝ) : ℝ :=
  n * degeneracyEps / ∑ i, riskContributions cov w i

theorem dampedWeights_scaled (htotal : 0 < ∑ i, riskContributions cov w i) (hn : 0 < n)
    (i : Fin n) :
    dampedWeights w (riskContributions cov w) (sumLoop (riskContributions cov w) / n) i =
      1 / 2 * Scaling.scaled cov (clampedShare cov w) w i := by
  have hcast : (0 : ℝ) < n := Nat.cast_pos.mpr hn
  have hfactor : 0 ≤ (n : ℝ) / ∑ i, riskContributions cov w i := (div_pos hcast htotal).le
  have hclamp : max (Scaling.share cov w i) (clampedShare cov w) =
      n / (∑ i, riskContributions cov w i) *
        stdMax (riskContributions cov w i) degeneracyEps := by
    unfold Scaling.share clampedShare
    rw [load_eq, total_eq, Fintype.card_fin, stdMax_real, mul_max_of_nonneg _ _ hfactor,
      div_mul_eq_mul_div, div_mul_eq_mul_div]
  have hclamped := (clamped_pos (riskContributions cov w i)).ne'
  rw [dampedWeights_eq, Scaling.scaled, Scaling.push, hclamp, sumLoop_eq]
  field_simp

theorem parityStep_scaled (hw : OnSimplex w) (htotal : 0 < ∑ i, riskContributions cov w i) :
    OnSimplex (parityStep cov w) ∧ ∃ c, 0 < c ∧
      parityStep cov w = fun i => c * Scaling.scaled cov (clampedShare cov w) w i := by
  have htarget : 0 < sumLoop (riskContributions cov w) / n :=
    div_pos ((sumLoop_eq _).symm ▸ htotal) (Nat.cast_pos.mpr hw.assets_pos)
  have hpos : ∀ i, 0 < dampedWeights w (riskContributions cov w)
      (sumLoop (riskContributions cov w) / n) i := fun i =>
    (half_pos (hw.pos i)).trans (half_lt_dampedWeights hw _ htarget i)
  have hsum : 0 < sumLoop (dampedWeights w (riskContributions cov w)
      (sumLoop (riskContributions cov w) / n)) :=
    (half_pos one_pos).trans_le (half_le_sum_dampedWeights hw _ htarget)
  refine ⟨onSimplex_normalized hpos hsum, _, div_pos (half_pos one_pos) hsum, funext fun i => ?_⟩
  unfold parityStep
  rw [dampedWeights_scaled htotal hw.assets_pos i]
  exact (div_mul_eq_mul_div _ _ _).symm

theorem equalRisk_of_shares (htotal : 0 < ∑ i, riskContributions cov w i)
    (hshare : ∀ i, |√(Scaling.share cov w i) - 1| ≤ 1 / 1000)
    (hpos : ∀ i, 0 ≤ Scaling.share cov w i) : EqualRisk cov w := by
  have hnear : ∀ i, 998 / 1000 ≤ Scaling.share cov w i ∧ Scaling.share cov w i ≤ 1003 / 1000 := by
    intro i
    obtain ⟨hlow, hhigh⟩ := abs_le.mp (hshare i)
    rw [← Real.sq_sqrt (hpos i)]
    constructor <;> nlinarith
  intro i j
  have hn : (1 : ℝ) ≤ n := Nat.one_le_cast.mpr (Nat.one_le_of_lt i.pos)
  have hcontribution : ∀ k, riskContributions cov w k =
      (∑ k, riskContributions cov w k) / n * Scaling.share cov w k := by
    intro k
    unfold Scaling.share
    rw [load_eq, total_eq, Fintype.card_fin]
    field_simp
  have hmean : (∑ k, riskContributions cov w k) / n ≤ ∑ k, riskContributions cov w k :=
    div_le_self htotal.le hn
  have hpart : 0 < (∑ k, riskContributions cov w k) / n := div_pos htotal (by linarith)
  have hspread : Scaling.share cov w i - Scaling.share cov w j ≤ 1 / 100 := by
    linarith [(hnear i).2, (hnear j).1]
  calc riskContributions cov w i - riskContributions cov w j
      = (∑ k, riskContributions cov w k) / n *
          (Scaling.share cov w i - Scaling.share cov w j) := by
        rw [hcontribution i, hcontribution j]
        ring
    _ ≤ (∑ k, riskContributions cov w k) / n * (1 / 100) :=
        mul_le_mul_of_nonneg_left hspread hpart.le
    _ ≤ 1 / 100 * ∑ k, riskContributions cov w k := by linarith

/-! ### Settling -/

variable {m : ReturnMatrix ℝ}

/-- The least variance on which the absolute tolerance stands for one per cent. -/
noncomputable def toleratedVariance : ℝ := 1 / ((50000000 : ℕ) : ℝ)

/-- Long-only portfolios have risk enough for the clamp and for the loop's test. -/
structure RiskVisible (m : ReturnMatrix ℝ) : Prop where
  clamp : ∀ v, OnSimplex v →
    10 * degeneracyEps ≤ (v ⬝ᵥ Matrix.of m.sampleCovariance *ᵥ v) / m.assets
  test : ∀ v, OnSimplex v → riskConverged (riskContributions m.sampleCovariance v)
      (sumLoop (riskContributions m.sampleCovariance v) / m.assets) = true →
    toleratedVariance ≤ v ⬝ᵥ Matrix.of m.sampleCovariance *ᵥ v

/-- No covariance is negative, and of the risk of equal weights no asset has next to nothing. -/
structure Uncancelled (m : ReturnMatrix ℝ) : Prop where
  nonneg : ∀ i j, 0 ≤ m.sampleCovariance i j
  start : ∀ i, (∑ k, riskContributions m.sampleCovariance (equalWeights m.assets) k) / m.assets ≤
    10 ^ 40 * riskContributions m.sampleCovariance (equalWeights m.assets) i

/-- The variance over the square of the geometric mean of the weights, which is least where
the contributions are equal, is not above that of equal weights. -/
def NoWorse (m : ReturnMatrix ℝ) (v : Fin m.assets → ℝ) : Prop :=
  (v ⬝ᵥ Matrix.of m.sampleCovariance *ᵥ v) ^ m.assets ≤
    (equalWeights m.assets ⬝ᵥ Matrix.of m.sampleCovariance *ᵥ equalWeights m.assets) ^ m.assets *
      (∏ i, m.assets * v i) ^ 2

/-- On portfolios that are no worse than equal weights no contribution is below the mean
divided by `b`, and the variances are within a factor of those of uncorrelated assets with the
same marginal risks. At equal contributions the rounds attract up to the factor 3. -/
structure Steady (m : ReturnMatrix ℝ) (b : ℝ) : Prop where
  bound : 1 ≤ b ∧ b ≤ 7
  share : ∀ v, OnSimplex v → NoWorse m v → ∀ i,
    (∑ k, riskContributions m.sampleCovariance v k) / m.assets ≤
      b * riskContributions m.sampleCovariance v i
  form : ∀ v, OnSimplex v → NoWorse m v → ∀ z : Fin m.assets → ℝ,
    z ⬝ᵥ Matrix.of m.sampleCovariance *ᵥ z ≤
      (12 / (b + 3) - 1 / 5) * ∑ i, (Matrix.of m.sampleCovariance *ᵥ v) i / v i * z i ^ 2

/-- Where the rounds from equal weights lead to equal contributions, and the exits of the
loop are no sooner. -/
structure RiskBudgetable (m : ReturnMatrix ℝ) : Prop extends RiskVisible m where
  approach : Uncancelled m ∨ ∃ b, Steady m b

namespace RiskVisible
variable (h : RiskVisible m)
include h

theorem total_pos {v : Fin m.assets → ℝ} (hv : OnSimplex v) :
    0 < ∑ i, riskContributions m.sampleCovariance v i := by
  have hassets : (0 : ℝ) < m.assets := Nat.cast_pos.mpr m.assets_pos
  have hrisk := h.clamp v hv
  rw [le_div_iff₀ hassets, ← riskContributions_sum] at hrisk
  exact (mul_pos (mul_pos (by norm_num) degeneracyEps_pos) hassets).trans_le hrisk

theorem onSimplex_iterate (k : ℕ) :
    OnSimplex ((parityStep m.sampleCovariance)^[k] (equalWeights m.assets)) := by
  induction k with
  | zero => exact equalWeights_onSimplex m.assets_pos
  | succ k ih =>
    rw [Function.iterate_succ_apply']
    exact (parityStep_scaled ih (h.total_pos ih)).1

theorem orbit : Scaling.Orbit m.sampleCovariance
    (fun k => (parityStep m.sampleCovariance)^[k] (equalWeights m.assets))
    (fun k => clampedShare m.sampleCovariance
      ((parityStep m.sampleCovariance)^[k] (equalWeights m.assets))) where
  symm i j := m.sampleCovariance_posSemidef.isHermitian.apply j i
  card := by
    rw [Fintype.card_fin]
    exact m.assets_pos
  pos k := (h.onSimplex_iterate k).pos
  total k := by
    rw [total_eq]
    exact h.total_pos (h.onSimplex_iterate k)
  threshold k := by
    have hassets : (0 : ℝ) < m.assets := Nat.cast_pos.mpr m.assets_pos
    have htotal := h.total_pos (h.onSimplex_iterate k)
    have hrisk := h.clamp _ (h.onSimplex_iterate k)
    rw [le_div_iff₀ hassets, ← riskContributions_sum] at hrisk
    refine ⟨div_pos (mul_pos hassets degeneracyEps_pos) htotal, ?_⟩
    unfold clampedShare
    rw [div_le_iff₀ htotal]
    linarith
  next k := by
    rw [Function.iterate_succ_apply']
    exact (parityStep_scaled (h.onSimplex_iterate k) (h.total_pos (h.onSimplex_iterate k))).2

/-- A contribution against the mean, as a share of the whole risk. -/
theorem one_le_share {v : Fin m.assets → ℝ} (hv : OnSimplex v) {b : ℝ} {i : Fin m.assets}
    (hi : (∑ k, riskContributions m.sampleCovariance v k) / m.assets ≤
      b * riskContributions m.sampleCovariance v i) :
    1 ≤ b * Scaling.share m.sampleCovariance v i := by
  have hassets : (0 : ℝ) < m.assets := Nat.cast_pos.mpr m.assets_pos
  unfold Scaling.share
  rw [load_eq, total_eq, Fintype.card_fin, mul_div_assoc', one_le_div (h.total_pos hv)]
  rw [div_le_iff₀ hassets] at hi
  linarith

/-- Contributions with a small gap are equal up to one per cent. -/
theorem equalRisk_of_gap {v : Fin m.assets → ℝ} (hv : OnSimplex v)
    (hpos : ∀ i, 0 < Scaling.share m.sampleCovariance v i)
    (hgap : Scaling.gap m.sampleCovariance v ≤ (1 / 1000) ^ 2) :
    EqualRisk m.sampleCovariance v := by
  have htotal := h.total_pos hv
  refine equalRisk_of_shares htotal (fun i => ?_) fun i => (hpos i).le
  rw [← total_eq] at htotal
  have hsquare := Scaling.sq_sqrt_share_sub_one_le htotal.ne' hpos i
  exact abs_le_of_sq_le_sq (hsquare.trans hgap) (by norm_num)

theorem noWorse_of_potential {v : Fin m.assets → ℝ} (hv : OnSimplex v)
    (hpotential : Scaling.potential m.sampleCovariance v ≤
      Scaling.potential m.sampleCovariance (equalWeights m.assets)) : NoWorse m v := by
  have hassets : (0 : ℝ) < m.assets := Nat.cast_pos.mpr m.assets_pos
  have hequal := equalWeights_onSimplex m.assets_pos
  have htotal := h.total_pos hv
  have hstart := h.total_pos hequal
  have hfactor : ∀ i, (m.assets * v i) ≠ 0 := fun i => (mul_pos hassets (hv.pos i)).ne'
  have hproduct : 0 < ∏ i, m.assets * v i :=
    Finset.prod_pos fun i _ => mul_pos hassets (hv.pos i)
  have hlogs : Real.log (∏ i, m.assets * v i) =
      ∑ i, Real.log (v i) - ∑ i, Real.log (equalWeights m.assets i) := by
    rw [Real.log_prod fun i _ => hfactor i, ← Finset.sum_sub_distrib]
    refine Finset.sum_congr rfl fun i _ => ?_
    unfold equalWeights
    rw [Real.log_mul hassets.ne' (hv.pos i).ne', one_div, Real.log_inv]
    ring
  unfold NoWorse
  rw [← riskContributions_sum, ← riskContributions_sum]
  rw [Scaling.potential_eq ((total_eq _ _).symm ▸ htotal),
    Scaling.potential_eq ((total_eq _ _).symm ▸ hstart), total_eq, total_eq,
    Fintype.card_fin] at hpotential
  rw [← Real.log_le_log_iff (pow_pos htotal _) (mul_pos (pow_pos hstart _) (pow_pos hproduct 2)),
    Real.log_mul (pow_pos hstart _).ne' (pow_pos hproduct 2).ne', Real.log_pow, Real.log_pow,
    Real.log_pow, hlogs]
  push_cast
  linarith

end RiskVisible

theorem total_nonneg (m : ReturnMatrix ℝ) (v : Fin m.assets → ℝ) :
    0 ≤ Scaling.total m.sampleCovariance v := by
  rw [total_eq, riskContributions_sum]
  exact m.sampleCovariance_posSemidef.dotProduct_mulVec_nonneg v

/-- Two thirds of the rounds lift every share above a tenth, and the rest of them bring
all shares near 1. -/
theorem Uncancelled.equalRisk_last (hm : Uncancelled m) (h : RiskVisible m) :
    EqualRisk m.sampleCovariance
      ((parityStep m.sampleCovariance)^[riskParityRounds] (equalWeights m.assets)) := by
  have hstart : ∀ i, 1 ≤ 10 ^ 40 * Scaling.share m.sampleCovariance (equalWeights m.assets) i :=
    fun i => h.one_le_share (equalWeights_onSimplex m.assets_pos) (hm.start i)
  have hlate : (3 / 4 : ℝ) ^ (110 * 3) * (13 / 10 * 10 ^ 40 - 10) ≤ 1 := by
    have hpart : (3 / 4 : ℝ) ^ 110 ≤ 2 / 10 ^ 14 := by norm_num
    calc (3 / 4 : ℝ) ^ (110 * 3) * (13 / 10 * 10 ^ 40 - 10)
        ≤ (2 / 10 ^ 14) ^ 3 * (13 / 10 * 10 ^ 40 - 10) := by
          rw [pow_mul]
          exact mul_le_mul_of_nonneg_right (pow_le_pow_left₀ (by positivity) hpart 3) (by norm_num)
      _ ≤ 1 := by norm_num
  have htenth : ∀ k, 663 ≤ k → ∀ i, 1 ≤ 10 * Scaling.share m.sampleCovariance
      ((parityStep m.sampleCovariance)^[k] (equalWeights m.assets)) i := fun k hk =>
    h.orbit.tenth_le hm.nonneg (by norm_num) hstart hlate hk
  have hbound : ∀ k, 663 ≤ k → Scaling.DiagonalBound m.sampleCovariance
      ((parityStep m.sampleCovariance)^[k] (equalWeights m.assets)) 1 := fun k _ =>
    Scaling.diagonalBound_one h.orbit.symm hm.nonneg h.orbit.card (h.orbit.pos k) (h.orbit.total k)
  have hgap := h.orbit.gap_le Scaling.affords_ten (by norm_num) le_rfl (by norm_num) (by norm_num)
    (total_nonneg m) htenth hbound 337
  have hpow : (1 - 1 / 8 : ℝ) ^ 337 ≤ 1 / 10 ^ 11 := by
    have hpart : (1 - 1 / 8 : ℝ) ^ 200 ≤ 1 / 10 ^ 11 := by norm_num
    exact (pow_le_pow_of_le_one (by norm_num) (by norm_num) (by decide)).trans hpart
  have hassets : (m.assets : ℝ) ≤ 100 := by exact_mod_cast m.assets_le
  have hsmall : (1 - 1 / 8 : ℝ) ^ 337 * (Fintype.card (Fin m.assets) * (10 - 1)) ≤
      1 / 10 ^ 11 * (100 * (10 - 1)) := by
    rw [Fintype.card_fin]
    gcongr
  refine h.equalRisk_of_gap (h.onSimplex_iterate _) (fun i => ?_) ?_
  · linarith [htenth riskParityRounds (by decide) i]
  · have hlast : 1 / 10 ^ 11 * (100 * (10 - 1)) ≤ (1 / 8 : ℝ) * (1 / 1000) ^ 2 := by norm_num
    exact le_of_mul_le_mul_left ((hgap.trans hsmall).trans hlast) (by norm_num)

/-- No round makes the weights worse than equal ones, and every round loses a part of what
they are worse by than equal contributions. -/
theorem Steady.equalRisk_last {b : ℝ} (hm : Steady m b) (h : RiskVisible m) :
    EqualRisk m.sampleCovariance
      ((parityStep m.sampleCovariance)^[riskParityRounds] (equalWeights m.assets)) := by
  obtain ⟨hb1, hb7⟩ := hm.bound
  have hb0 : 0 < b := one_pos.trans_le hb1
  have hb10 : b ≤ 10 := hb7.trans (by norm_num)
  have hafford : Scaling.Affords (12 / (b + 3) - 1 / 5) (1 / 40) b :=
    Scaling.affords_of_le hb1 (by norm_num) (by linarith)
  have hroom : ∀ k, Scaling.potential m.sampleCovariance
        ((parityStep m.sampleCovariance)^[k] (equalWeights m.assets)) ≤
      Scaling.potential m.sampleCovariance (equalWeights m.assets) →
      (∀ i, 1 ≤ b * Scaling.share m.sampleCovariance
        ((parityStep m.sampleCovariance)^[k] (equalWeights m.assets)) i) ∧
      Scaling.DiagonalBound m.sampleCovariance
        ((parityStep m.sampleCovariance)^[k] (equalWeights m.assets))
        (12 / (b + 3) - 1 / 5) := by
    intro k hpotential
    have hsimplex := h.onSimplex_iterate k
    have hlevel := h.noWorse_of_potential hsimplex hpotential
    refine ⟨fun i => h.one_le_share hsimplex (hm.share _ hsimplex hlevel i), fun z => ?_⟩
    rw [total_eq, riskContributions_sum]
    exact hm.form _ hsimplex hlevel z
  have hlevel := h.orbit.potential_le_start hafford hb0 hb10 (by norm_num) hroom
  have hshare := fun k (_ : 0 ≤ k) => (hroom k (hlevel k)).1
  have hgap := h.orbit.gap_le hafford hb0 hb10 (by norm_num) (by norm_num)
    (total_nonneg m) hshare (fun k _ => (hroom k (hlevel k)).2) riskParityRounds
  have hpow : (1 - 1 / 40 : ℝ) ^ riskParityRounds ≤ 2 / 10 ^ 11 := by
    have hpart : (1 - 1 / 40 : ℝ) ^ 100 ≤ 8 / 100 := by norm_num
    calc (1 - 1 / 40 : ℝ) ^ riskParityRounds = ((1 - 1 / 40) ^ 100) ^ 10 := by
          rw [← pow_mul]
          rfl
      _ ≤ (8 / 100) ^ 10 := pow_le_pow_left₀ (by norm_num) hpart 10
      _ ≤ 2 / 10 ^ 11 := by norm_num
  have hassets : (m.assets : ℝ) ≤ 100 := by exact_mod_cast m.assets_le
  have hsmall : (1 - 1 / 40 : ℝ) ^ riskParityRounds * (Fintype.card (Fin m.assets) * (b - 1)) ≤
      2 / 10 ^ 11 * (100 * (7 - 1)) := by
    rw [Fintype.card_fin]
    gcongr
  rw [Nat.zero_add] at hgap
  refine h.equalRisk_of_gap (h.onSimplex_iterate _) (fun i => ?_) ?_
  · exact pos_of_mul_pos_right (one_pos.trans_le (hshare _ (Nat.zero_le _) i)) hb0.le
  · have hlast : 2 / 10 ^ 11 * (100 * (7 - 1)) ≤ (1 / 40 : ℝ) * (1 / 1000) ^ 2 := by norm_num
    exact le_of_mul_le_mul_left ((hgap.trans hsmall).trans hlast) (by norm_num)

theorem RiskBudgetable.equalRisk_last (h : RiskBudgetable m) : EqualRisk m.sampleCovariance
    ((parityStep m.sampleCovariance)^[riskParityRounds] (equalWeights m.assets)) := by
  rcases h.approach with hm | ⟨b, hm⟩
  · exact hm.equalRisk_last h.toRiskVisible
  · exact hm.equalRisk_last h.toRiskVisible

theorem riskConverged_apart {rc : Fin n → ℝ} {target : ℝ} (h : riskConverged rc target = true)
    (i j : Fin n) : rc i - rc j ≤ 2 * convergenceTol := by
  have hnear : ∀ k, |rc k - target| < convergenceTol := by
    intro k
    have hk := List.all_eq_true.mp h k (List.mem_finRange k)
    rw [Bool.not_eq_true', decide_eq_false_iff_not, abs_real] at hk
    exact not_le.mp hk
  have hi := abs_lt.mp (hnear i)
  have hj := abs_lt.mp (hnear j)
  linarith [hi.2, hj.1]

/-- The tests which end the loop pass at once. -/
def StopsAtOnce (m : ReturnMatrix ℝ) : Prop :=
  sumLoop (riskContributions m.sampleCovariance (equalWeights m.assets)) < degeneracyEps ∨
    riskConverged (riskContributions m.sampleCovariance (equalWeights m.assets))
      (sumLoop (riskContributions m.sampleCovariance (equalWeights m.assets)) / m.assets) = true

theorem StopsAtOnce.parityWeights_eq (h : StopsAtOnce m) :
    m.parityWeights = equalWeights m.assets := by
  have hend : ∀ w', riskParityRound m.sampleCovariance (equalWeights m.assets) ≠ .moved w' := by
    intro w' hround
    unfold riskParityRound at hround
    simp only at hround
    split_ifs at hround with hdegenerate hconverged
    exact h.elim hdegenerate hconverged
  show riskParityLoop m.sampleCovariance (999 + 1) (equalWeights m.assets) = _
  rw [riskParityLoop]
  cases hround : riskParityRound m.sampleCovariance (equalWeights m.assets) with
  | moved w' => exact absurd hround (hend w')
  | degenerate | converged | vanished => rfl

theorem equalRisk_parityWeights (h : RiskBudgetable m) :
    EqualRisk m.sampleCovariance m.parityWeights := by
  obtain ⟨k, hk, hloop, hend⟩ :=
    riskParityLoop_iterate m.sampleCovariance riskParityRounds (equalWeights m.assets)
  have hweights : m.parityWeights =
      (parityStep m.sampleCovariance)^[k] (equalWeights m.assets) := hloop
  have hsimplex := h.onSimplex_iterate k
  rw [hweights]
  rcases Nat.lt_or_eq_of_le hk with hlt | rfl
  · obtain ⟨hdegenerate, -⟩ | ⟨-, hconverged, -⟩ | ⟨-, -, w', -, hround⟩ :=
      riskParityRound_cases m.sampleCovariance hsimplex
    · have hassets : (1 : ℝ) ≤ m.assets := Nat.one_le_cast.mpr m.assets_pos
      have hrisk := h.clamp _ hsimplex
      have heps : (0 : ℝ) < degeneracyEps := degeneracyEps_pos
      rw [le_div_iff₀ (by linarith), ← riskContributions_sum, ← sumLoop_eq] at hrisk
      nlinarith
    · intro i j
      have hapart := riskConverged_apart hconverged i j
      have hvariance := h.test _ hsimplex hconverged
      rw [riskContributions_sum]
      unfold toleratedVariance at hvariance
      unfold convergenceTol at hapart
      norm_num at hapart hvariance ⊢
      linarith
    · exact absurd hround (hend hlt w')
  · exact h.equalRisk_last

theorem parityEntry_mem (m : ReturnMatrix ℝ) (i : Fin m.assets) :
    (m.labels i, m.parityWeights i) ∈ m.parityResult.weights.entries :=
  (parityResult_entries m).mem_iff.mpr (List.mem_map.mpr ⟨i, List.mem_finRange i, rfl⟩)

theorem riskContributions_swing (a b : ℝ) (w : Fin 2 → ℝ) (i : Fin 2) :
    riskContributions (swingMarket a b).sampleCovariance w i =
      w i * (swingVariance a b i * w i) := by
  unfold riskContributions vecDotMat
  rw [sampleCovariance_swing, sumLoop_eq, Fin.sum_univ_two]
  fin_cases i
  · simp
  · simp

theorem equalContributions_swing (a b : ℝ) (i : Fin 2) :
    riskContributions (swingMarket a b).sampleCovariance (equalWeights 2) i =
      (if i = 0 then a * a else b * b) / 12 := by
  rw [riskContributions_swing]
  unfold equalWeights swingVariance
  fin_cases i
  · norm_num
    ring
  · norm_num
    ring

/-- The first test passes where the variances differ by little in absolute terms. -/
theorem stopsAtOnce_swing {a b : ℝ} (hnear : |a * a - b * b| < 24 * convergenceTol) :
    StopsAtOnce (swingMarket a b) := by
  have hsum : sumLoop (riskContributions (swingMarket a b).sampleCovariance (equalWeights 2)) =
      a * a / 12 + b * b / 12 := by
    rw [sumLoop_eq, Fin.sum_univ_two, equalContributions_swing, equalContributions_swing]
    rfl
  obtain ⟨hlow, hhigh⟩ := abs_lt.mp hnear
  refine Or.inr (List.all_eq_true.mpr fun i _ => ?_)
  rw [Bool.not_eq_true', decide_eq_false_iff_not, abs_real, not_le, hsum,
    equalContributions_swing, abs_lt]
  fin_cases i
  · norm_num
    constructor <;> linarith
  · norm_num
    constructor <;> linarith

/-- A market in which the loop does not stop at once. -/
theorem budgetable_swing : RiskBudgetable (swingMarket 1 2) := by
  have hrisk : ∀ v, OnSimplex v →
      1 / 6 ≤ v ⬝ᵥ Matrix.of (swingMarket 1 2).sampleCovariance *ᵥ v := by
    intro v hv
    have hsum := hv.sum
    rw [Fin.sum_univ_two] at hsum
    rw [← riskContributions_sum, Fin.sum_univ_two, riskContributions_swing, riskContributions_swing]
    unfold swingVariance
    norm_num
    nlinarith [sq_nonneg (v 0 - v 1), sq_nonneg (v 1)]
  refine ⟨⟨fun v hv => ?_, fun v hv _ => ?_⟩, Or.inl ⟨?_, ?_⟩⟩
  · have hvariance := hrisk v hv
    unfold degeneracyEps
    norm_num
    linarith
  · have hvariance := hrisk v hv
    unfold toleratedVariance
    norm_num
    linarith
  · intro i j
    rw [sampleCovariance_swing]
    show 0 ≤ if i = j then swingVariance 1 2 i else 0
    unfold swingVariance
    split_ifs <;> norm_num
  · intro i
    rw [Fin.sum_univ_two, equalContributions_swing, equalContributions_swing,
      equalContributions_swing]
    fin_cases i <;> norm_num

/-- `A` swings by `a`, and `B` against it by `p` and by `q` at times of its own. -/
def hedgeRequest (a p q : ℝ) : RiskParityRequest ℝ where
  returns := [[a, -a, a, -a], [q - p, q + p, -q - p, p - q]]
  labels := ["A", "B"]

abbrev hedgeMarket (a p q : ℝ) : ReturnMatrix ℝ where
  assets := 2
  obs := 4
  returns := fun i t => ([[a, -a, a, -a], [q - p, q + p, -q - p, p - q]].get i).getD t 0
  labels := fun i => ["A", "B"].get i
  assets_pos := stillMarket.assets_pos
  assets_le := stillMarket.assets_le
  obs_two := (swingMarket a q).obs_two
  labels_injective := stillMarket.labels_injective

theorem validate_hedge (a p q : ℝ) :
    validateReturnMatrix (hedgeRequest a p q).returns (hedgeRequest a p q).labels =
      .ok (hedgeMarket a p q) := rfl

theorem means_hedge (a p q : ℝ) (i : Fin 2) : (hedgeMarket a p q).means i = 0 := by
  unfold ReturnMatrix.means
  rw [sumLoop_eq, Fin.sum_univ_four]
  fin_cases i
  · norm_num
  · norm_num
    ring

theorem sampleCovariance_hedge (i j : Fin 2) :
    (hedgeMarket 3 1 4).sampleCovariance i j =
      if i = j then (if i = 0 then 12 else 68 / 3) else -4 := by
  unfold ReturnMatrix.sampleCovariance ReturnMatrix.centered
  simp only [sumLoop_eq, means_hedge, Fin.sum_univ_four]
  fin_cases i <;> fin_cases j <;> norm_num

theorem mulVec_hedge (v : Fin 2 → ℝ) :
    (Matrix.of (hedgeMarket 3 1 4).sampleCovariance *ᵥ v) 0 = 12 * v 0 - 4 * v 1 ∧
      (Matrix.of (hedgeMarket 3 1 4).sampleCovariance *ᵥ v) 1 = 68 / 3 * v 1 - 4 * v 0 := by
  simp only [mulVec, dotProduct, Fin.sum_univ_two, Matrix.of_apply, sampleCovariance_hedge]
  norm_num
  constructor <;> ring

theorem variance_hedge (v : Fin 2 → ℝ) :
    v ⬝ᵥ Matrix.of (hedgeMarket 3 1 4).sampleCovariance *ᵥ v =
      12 * v 0 ^ 2 - 8 * (v 0 * v 1) + 68 / 3 * v 1 ^ 2 := by
  obtain ⟨hA, hB⟩ := mulVec_hedge v
  rw [dotProduct, Fin.sum_univ_two, hA, hB]
  ring

theorem riskContributions_hedge (v : Fin 2 → ℝ) :
    riskContributions (hedgeMarket 3 1 4).sampleCovariance v 0 = v 0 * (12 * v 0 - 4 * v 1) ∧
      riskContributions (hedgeMarket 3 1 4).sampleCovariance v 1 =
        v 1 * (68 / 3 * v 1 - 4 * v 0) := by
  obtain ⟨hA, hB⟩ := mulVec_hedge v
  rw [← hA, ← hB, ← load_eq]
  exact ⟨rfl, rfl⟩

/-- Portfolios that are no worse than equal weights lie between these and those of equal
contributions on the other side. -/
theorem noWorse_hedge {v : Fin 2 → ℝ} (hv : OnSimplex v) (h : NoWorse (hedgeMarket 3 1 4) v) :
    v 1 ≤ v 0 ∧ 9 * v 0 ≤ 17 * v 1 := by
  have hA := hv.pos 0
  have hB := hv.pos 1
  have hAB := mul_pos hA hB
  have hsquare : (12 * v 0 ^ 2 - 8 * (v 0 * v 1) + 68 / 3 * v 1 ^ 2) ^ 2 ≤
      (80 / 3 * (v 0 * v 1)) ^ 2 := by
    unfold NoWorse at h
    rw [variance_hedge, variance_hedge, Fin.prod_univ_two] at h
    unfold equalWeights at h
    norm_num at h ⊢
    linarith
  have hroot := abs_le_of_sq_le_sq hsquare (by positivity)
  have hproduct : (9 * v 0 - 17 * v 1) * (v 0 - v 1) ≤ 0 := by
    linarith [(abs_le.mp hroot).2]
  constructor
  · by_contra hlt
    nlinarith
  · by_contra hlt
    nlinarith

/-- A market with a negative covariance. -/
theorem budgetable_hedge : RiskBudgetable (hedgeMarket 3 1 4) := by
  have hrisk : ∀ v, OnSimplex v →
      1 ≤ v ⬝ᵥ Matrix.of (hedgeMarket 3 1 4).sampleCovariance *ᵥ v := by
    intro v hv
    have hsum := hv.sum
    rw [Fin.sum_univ_two] at hsum
    rw [variance_hedge]
    nlinarith [sq_nonneg (v 0 - v 1), sq_nonneg (v 1), hv.pos 0, hv.pos 1]
  refine ⟨⟨fun v hv => ?_, fun v hv _ => ?_⟩, Or.inr ⟨2, ?_⟩⟩
  · have hvariance := hrisk v hv
    unfold degeneracyEps
    norm_num
    linarith
  · have hvariance := hrisk v hv
    unfold toleratedVariance
    norm_num
    linarith
  refine ⟨by norm_num, fun v hv hlevel i => ?_, fun v hv hlevel z => ?_⟩
  · obtain ⟨hle, hnear⟩ := noWorse_hedge hv hlevel
    obtain ⟨hA, hB⟩ := riskContributions_hedge v
    have hposA := hv.pos 0
    have hposB := hv.pos 1
    rw [Fin.sum_univ_two, hA, hB]
    fin_cases i
    · norm_num
      rw [hA]
      nlinarith
    · norm_num
      rw [hB]
      nlinarith
  · obtain ⟨hle, hnear⟩ := noWorse_hedge hv hlevel
    obtain ⟨hA, hB⟩ := mulVec_hedge v
    have hrowA : 8 ≤ (12 * v 0 - 4 * v 1) / v 0 := by
      rw [le_div_iff₀ (hv.pos 0)]
      linarith
    have hrowB : 15 ≤ (68 / 3 * v 1 - 4 * v 0) / v 1 := by
      rw [le_div_iff₀ (hv.pos 1)]
      linarith
    rw [variance_hedge, Fin.sum_univ_two, hA, hB]
    have hformA := mul_le_mul_of_nonneg_right hrowA (sq_nonneg (z 0))
    have hformB := mul_le_mul_of_nonneg_right hrowB (sq_nonneg (z 1))
    norm_num
    linarith [sq_nonneg (z 0 + z 1), sq_nonneg (z 0), sq_nonneg (z 1)]

theorem riskParity_hedge :
    riskParity (hedgeRequest 3 1 4) = .ok (hedgeMarket 3 1 4).parityResult := by
  apply riskParity_eq_ok (validate_hedge 3 1 4)
  rw [sumLoop_eq, Fin.sum_univ_two, sampleCovariance_hedge, sampleCovariance_hedge, not_lt]
  unfold degeneracyEps
  norm_num

noncomputable abbrev quietRequest : RiskParityRequest ℝ := swingRequest (1 / 50000) (1 / 25000)

noncomputable abbrev quietMarket : ReturnMatrix ℝ := swingMarket (1 / 50000) (1 / 25000)

end StandardTools.Portfolio
