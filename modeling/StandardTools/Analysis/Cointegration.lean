import StandardTools.Analysis.Regression

/-!
# Cointegration (`analysis/calculator.cpp:89-149`, `349-400`)

The two regressions of the residuals on their predecessors have the same
denominator, and the coefficient on the differences is that on the values less
one: the half-life and the statistic agree on the side of a unit root. The
score of the last residual is bounded by the number of observations alone.
-/

namespace StandardTools.Analysis
open StandardTools.Core Lib Finset Fintype

/-! ### The regressions on the previous value -/

theorem sum_differences (l : List (ℝ × ℝ)) : sumOver (fun p => (p.2 - p.1) * p.1) l =
    sumOver (fun p => p.2 * p.1) l - sumOver (fun p => p.1 * p.1) l := by
  simp only [sumOver_eq, sub_mul, sum_sub_distrib]

/-- The statistic is zero, or the coefficient less one over a positive error. -/
theorem adfStatistic_cases (values : List ℝ) : adfStatistic values = 0 ∨
    ∃ se, 0 < se ∧ adfStatistic values = (ar1Coefficient values - 1) / se := by
  unfold adfStatistic ar1Coefficient
  by_cases hshort : values.length < 3
  · exact Or.inl (if_pos hshort)
  have htwo : ¬values.length < 2 := by omega
  rw [if_neg hshort, if_neg htwo]
  by_cases hden : sumOver (fun p => p.1 * p.1) (lagged values) = 0
  · exact Or.inl (if_pos (beq_iff_eq.mpr hden))
  simp only [if_neg (mt beq_iff_eq.mp hden), sum_differences, sub_div, div_self hden]
  split_ifs with hse
  · exact Or.inl rfl
  · refine Or.inr ⟨_, lt_of_le_of_ne (Real.sqrt_nonneg _) ?_, rfl⟩
    exact fun hzero => hse (beq_iff_eq.mpr hzero.symm)

theorem adfStatistic_nonpos {values : List ℝ} (h : ar1Coefficient values < 1) :
    adfStatistic values ≤ 0 := by
  obtain hzero | ⟨se, hse, heq⟩ := adfStatistic_cases values
  · exact hzero.le
  · rw [heq]
    exact div_nonpos_of_nonpos_of_nonneg (sub_neg.mpr h).le hse.le

theorem one_lt_of_adfStatistic_pos {values : List ℝ} (h : 0 < adfStatistic values) :
    1 < ar1Coefficient values := by
  obtain hzero | ⟨se, hse, heq⟩ := adfStatistic_cases values
  · exact absurd hzero h.ne'
  · rw [heq] at h
    exact sub_pos.mp (pos_of_mul_pos_left h (inv_pos.mpr hse).le)

/-! ### The half-life -/

theorem halfLife_finite {phi : ℝ} (h : 0 < phi ∧ phi < 1) :
    ∃ t : ℝ, 0 < t ∧ halfLife phi = ((t : WithTop ℝ) : Extended ℝ) := by
  refine ⟨-Real.log ((2 : ℕ) : ℝ) / Real.log phi, ?_, if_pos h⟩
  have htwo : 0 < Real.log ((2 : ℕ) : ℝ) := Real.log_pos (by norm_num)
  exact div_pos_of_neg_of_neg (neg_neg_of_pos htwo) (Real.log_neg h.1 h.2)

theorem halfLife_ne_top_iff (phi : ℝ) : halfLife phi ≠ ⊤ ↔ 0 < phi ∧ phi < 1 := by
  constructor
  · exact fun hfinite => by_contra fun h => hfinite (if_neg h)
  · intro h
    obtain ⟨t, -, ht⟩ := halfLife_finite h
    rw [ht]
    exact fun htop => WithTop.coe_ne_top (WithBot.coe_injective htop)

/-! ### The score -/

theorem standardScore_sq_le {values : List ℝ} {value : ℝ} (h : value ∈ values) :
    standardScore value values ^ 2 ≤ (values.length : ℝ) - 1 := by
  obtain ⟨i, hi, rfl⟩ := List.getElem_of_mem h
  have hlen : (1 : ℝ) ≤ values.length := by exact_mod_cast Nat.one_le_of_lt hi
  have hdeviation := card_mul_deviation_sq_le (fun j : Fin values.length => values[j]) ⟨i, hi⟩
  rw [deviation_apply, ← mean_eq, Fintype.card_fin] at hdeviation
  rw [standardScore, sumOver_squares]
  generalize scatter (fun j : Fin values.length => values[j]) (fun j => values[j]) = s
    at hdeviation
  change (if (Real.sqrt (s / values.length) == 0) = true then 0
    else (values[i] - mean values) / Real.sqrt (s / values.length)) ^ 2 ≤ _
  split_ifs with hzero
  · linarith
  have hpos : 0 < s / values.length := Real.sqrt_ne_zero'.mp (mt beq_iff_eq.mpr hzero)
  have hs : 0 < s := (div_pos_iff_of_pos_right (by linarith)).mp hpos
  rw [div_pow, Real.sq_sqrt hpos.le, div_div_eq_mul_div, div_le_iff₀ hs, mul_comm]
  exact hdeviation

/-! ### The spread -/

theorem spread_eq {a b : List ℝ} (hlen : a.length = b.length) (hten : 10 ≤ a.length) :
    spread a b = if scatter (regressor (b.zip a)) (regressor (b.zip a)) = 0 then
        .error (.dataQuality "benchmark series has zero variance")
      else .ok (lineSlope (regressor (b.zip a)) (response (b.zip a)),
        List.ofFn (lineResidual (regressor (b.zip a)) (response (b.zip a)))) := by
  have hb : (b.zip a).map (·.1) = b := List.map_fst_zip hlen.ge
  have ha : (b.zip a).map (·.2) = a := List.map_snd_zip hlen.le
  rw [spread, validateFinite_real, validateFinite_real]
  change (if a.length ≠ b.length then _ else _) = _
  rw [if_neg (not_not.mpr hlen), if_neg (not_lt.mpr hten)]
  generalize b.zip a = observations at ha hb ⊢
  subst ha hb
  have hbb : _ = scatter (regressor observations) (regressor observations) :=
    sumOver_deviations observations (·.1) (·.1)
  have hab : _ = scatter (response observations) (regressor observations) :=
    sumOver_deviations observations (·.2) (·.1)
  have hx : mean (observations.map (·.1)) = average (regressor observations) := mean_map _ _
  have hy : mean (observations.map (·.2)) = average (response observations) := mean_map _ _
  simp only [hbb, hab, scatter_comm (response observations)]
  simp only [hx, hy]
  by_cases hzero : scatter (regressor observations) (regressor observations) = 0
  · rw [if_pos hzero, if_pos (beq_iff_eq.mpr hzero)]
  · rw [if_neg hzero, if_neg (mt beq_iff_eq.mp hzero), ← map_lineResidual]
    rfl

theorem spread_ok_iff {a b : List ℝ} {s : ℝ × List ℝ} : spread a b = .ok s ↔
    a.length = b.length ∧ 10 ≤ a.length ∧
      scatter (regressor (b.zip a)) (regressor (b.zip a)) ≠ 0 ∧
      s = (lineSlope (regressor (b.zip a)) (response (b.zip a)),
        List.ofFn (lineResidual (regressor (b.zip a)) (response (b.zip a)))) := by
  by_cases hguards : a.length = b.length ∧ 10 ≤ a.length
  · obtain ⟨hlen, hten⟩ := hguards
    rw [spread_eq hlen hten, ite_error_eq_ok, Except.ok.injEq]
    exact ⟨fun h => ⟨hlen, hten, h.1, h.2.symm⟩, fun h => ⟨h.2.2.1, h.2.2.2.symm⟩⟩
  · rw [spread, validateFinite_real, validateFinite_real]
    change (if a.length ≠ b.length then _ else if a.length < 10 then _ else _) = _ ↔ _
    rw [ite_error_eq_ok, ite_error_eq_ok, not_not, not_lt]
    exact ⟨fun h => absurd ⟨h.1, h.2.1⟩ hguards, fun h => absurd ⟨h.1, h.2.1⟩ hguards⟩

/-- The diagnostics of the residuals agree: on the half-life, on the side of a
unit root, and on how far the last residual can be off. -/
theorem cointegration_consistent (a b : List ℝ) :
    ((∃ r, cointegration a b = .ok r) ↔ a.length = b.length ∧ 10 ≤ a.length ∧
      ¬∀ x ∈ b, ∀ y ∈ b, x = y) ∧
    ∀ r, cointegration a b = .ok r → ∃ residuals, spread a b = .ok (r.hedgeRatio, residuals) ∧
      (r.halfLife = ⊤ ∨ ∃ t : ℝ, 0 < t ∧ r.halfLife = ((t : WithTop ℝ) : Extended ℝ)) ∧
      (r.halfLife ≠ ⊤ ↔ 0 < ar1Coefficient residuals ∧ ar1Coefficient residuals < 1) ∧
      (r.halfLife ≠ ⊤ → r.adfStatistic ≤ 0) ∧
      (0 < r.adfStatistic → 1 < ar1Coefficient residuals ∧ r.halfLife = ⊤) ∧
      |r.currentZScore| ≤ Real.sqrt ((a.length : ℝ) - 1) := by
  constructor
  · constructor
    · rintro ⟨r, hr⟩
      obtain ⟨s, hs, -⟩ := bind_eq_ok.mp hr
      obtain ⟨hlen, hten, hvaries, -⟩ := spread_ok_iff.mp hs
      exact ⟨hlen, hten, mt (scatter_regressor_eq_zero_iff hlen).mpr hvaries⟩
    · rintro ⟨hlen, hten, hvaries⟩
      have hs := spread_ok_iff.mpr
        ⟨hlen, hten, mt (scatter_regressor_eq_zero_iff hlen).mp hvaries, rfl⟩
      exact ⟨_, bind_eq_ok.mpr ⟨_, hs, rfl⟩⟩
  intro r hr
  obtain ⟨⟨hedgeRatio, residuals⟩, hs, hr⟩ := bind_eq_ok.mp hr
  cases hr
  refine ⟨residuals, hs, ?_, halfLife_ne_top_iff _, fun hfinite => ?_, fun hpos => ?_, ?_⟩
  · by_cases h : 0 < ar1Coefficient residuals ∧ ar1Coefficient residuals < 1
    · exact Or.inr (halfLife_finite h)
    · exact Or.inl (if_neg h)
  · exact adfStatistic_nonpos ((halfLife_ne_top_iff _).mp hfinite).2
  · have hroot := one_lt_of_adfStatistic_pos hpos
    exact ⟨hroot, if_neg fun h => absurd h.2 (not_lt.mpr hroot.le)⟩
  · obtain ⟨hlen, hten, -, heq⟩ := spread_ok_iff.mp hs
    have hresiduals : residuals.length = a.length := by
      rw [(Prod.mk.inj heq).2, List.length_ofFn, List.length_zip, ← hlen, Nat.min_self]
    have hne : residuals ≠ [] := List.ne_nil_of_length_pos (by omega)
    have hlast : residuals.getLastD 0 ∈ residuals := by
      rw [List.getLastD_eq_getLast?, List.getLast?_eq_some_getLast hne]
      exact List.getLast_mem hne
    rw [← hresiduals]
    exact Real.abs_le_sqrt (standardScore_sq_le hlast)

theorem cointegration_consistent_ten :
    ∃ r, cointegration [3, 1, 4, 1, 5, 9, 2, 6, 5, 3] [(2 : ℝ), 7, 1, 8, 2, 8, 1, 8, 2, 8] = .ok r ∧
      |r.currentZScore| ≤ Real.sqrt (((10 : ℕ) : ℝ) - 1) := by
  have hmoves : ¬∀ x ∈ [(2 : ℝ), 7, 1, 8, 2, 8, 1, 8, 2, 8], ∀ y ∈
      [(2 : ℝ), 7, 1, 8, 2, 8, 1, 8, 2, 8], x = y := fun h => by
    have h27 := h 2 (by simp) 7 (by simp)
    norm_num at h27
  have h := cointegration_consistent [3, 1, 4, 1, 5, 9, 2, 6, 5, 3]
    [(2 : ℝ), 7, 1, 8, 2, 8, 1, 8, 2, 8]
  obtain ⟨r, hr⟩ := h.1.mpr ⟨rfl, le_rfl, hmoves⟩
  obtain ⟨residuals, -, -, -, -, -, hscore⟩ := h.2 r hr
  exact ⟨r, hr, hscore⟩

end StandardTools.Analysis
