import StandardTools.Lib.OrderStatistics
import StandardTools.Metrics.OneDrawdown

/-!
# Value at risk and expected shortfall (`metrics/risk_return.cpp:106-135`)

`HistoricalVaR` reads the sorted returns at a rounded position, and
`HistoricalCVaR` averages the returns up to that value. The position is the
nearest rank for half of all lengths; for the other half it is one too far.
-/

namespace StandardTools.Metrics
open StandardTools.Core StandardTools.Lib Backtest

/-! ### The accepted series -/

theorem computeReturns_length (prices : List ℝ) :
    (computeReturns prices).length = prices.length - 1 := by
  unfold computeReturns
  rw [List.length_zipWith, List.length_tail]
  omega

theorem calculateRiskMetrics_inv {sort : StdSort ℝ (· < ·)} {series : List ℝ} {riskFreeRate : ℝ}
    {metrics : RiskMetrics ℝ} (h : calculateRiskMetrics sort series riskFreeRate = .ok metrics) :
    computeReturns series ≠ [] ∧
      metrics.var95 = historicalVaR sort (computeReturns series) varQuantile ∧
      metrics.cvar95 = historicalCVaR sort (computeReturns series) varQuantile := by
  obtain ⟨u, hvalid, h⟩ := bind_eq_ok.mp h
  cases h
  refine ⟨fun hnil => ?_, rfl, rfl⟩
  have hlength := congrArg List.length hnil
  rw [computeReturns_length, List.length_nil] at hlength
  unfold validatePrices at hvalid
  rw [if_pos (by omega)] at hvalid
  cases hvalid

/-! ### Value at risk -/

/-- `lround (0.05 * (m - 1))`, which is never behind the end. -/
theorem varIndex_eq {m : ℕ} (hm : m ≠ 0) :
    min (Cmath.lround ((varQuantile : ℝ) * ((m - 1 : ℕ) : ℝ))).toNat (m - 1) = (m + 9) / 20 := by
  have hnonneg : ¬(varQuantile : ℝ) * ((m - 1 : ℕ) : ℝ) < 0 := by
    unfold varQuantile
    exact not_lt.mpr (by positivity)
  have hshift : (varQuantile : ℝ) * ((m - 1 : ℕ) : ℝ) + 1 / ((2 : ℕ) : ℝ) =
      ((m + 9 : ℕ) : ℝ) / (20 : ℕ) := by
    unfold varQuantile
    rw [Nat.cast_pred (Nat.pos_of_ne_zero hm)]
    push_cast
    ring
  have hround : Cmath.lround ((varQuantile : ℝ) * ((m - 1 : ℕ) : ℝ)) = ((m + 9) / 20 : ℕ) := by
    show (if _ then _ else ⌊_⌋) = _
    rw [if_neg hnonneg, hshift, Int.floor_div_natCast, Int.floor_natCast]
    rfl
  rw [hround, Int.toNat_natCast]
  omega

theorem historicalVaR_eq (sort : StdSort ℝ (· < ·)) {returns : List ℝ} (hne : returns ≠ []) :
    ∃ hk : (returns.length + 9) / 20 < (sort.run returns).length,
      historicalVaR sort returns varQuantile =
        some (sort.run returns)[(returns.length + 9) / 20] := by
  have hlength := (sort.perm returns).length_eq
  have hpos := List.length_pos_iff.mpr hne
  have hk : (returns.length + 9) / 20 < (sort.run returns).length := by omega
  refine ⟨hk, ?_⟩
  unfold historicalVaR
  simp only [if_neg hne]
  rw [hlength, varIndex_eq hpos.ne', List.getD_eq_getElem?_getD, List.getElem?_eq_getElem hk,
    Option.getD_some]

theorem historicalVaR_of_count (sort : StdSort ℝ (· < ·)) {returns : List ℝ} (hne : returns ≠ [])
    {v : ℝ} (hbelow : (returns.countP fun r => decide (r < v)) ≤ (returns.length + 9) / 20)
    (hupTo : (returns.length + 9) / 20 < returns.countP fun r => decide (r ≤ v)) :
    historicalVaR sort returns varQuantile = some v := by
  obtain ⟨hk, hindex⟩ := historicalVaR_eq sort hne
  have hsorted := sort.pairwise_le returns
  have hupper := (sorted_le_iff (sort.perm returns) hsorted hk).mpr hupTo
  have hlower := mt (sorted_lt_iff (sort.perm returns) hsorted hk).mp (not_lt.mpr hbelow)
  rw [hindex, le_antisymm hupper (not_lt.mp hlower)]

/-- At least 5% of `m` elements are more than `(m - 1) / 20` elements. -/
theorem varQuantile_le_iff {m count : ℕ} (hm : m ≠ 0) :
    (varQuantile : ℝ) * (m : ℝ) ≤ (count : ℝ) ↔ (m - 1) / 20 < count := by
  have hscale : (varQuantile : ℝ) * (m : ℝ) ≤ (count : ℝ) ↔
      ((m : ℕ) : ℝ) ≤ ((20 * count : ℕ) : ℝ) := by
    unfold varQuantile
    push_cast
    constructor
    · intro h
      linarith
    · intro h
      linarith
  rw [hscale, Nat.cast_le]
  omega

theorem var_nearestRank_iff {sort : StdSort ℝ (· < ·)} {series : List ℝ} {riskFreeRate : ℝ}
    {metrics : RiskMetrics ℝ} (h : calculateRiskMetrics sort series riskFreeRate = .ok metrics) :
    let returns := computeReturns series
    (∃ v, metrics.var95 = some v ∧ IsLeast {v | v ∈ returns ∧ varQuantile * (returns.length : ℝ) ≤
        ((returns.countP fun r => decide (r ≤ v) : ℕ) : ℝ)} v) ↔
      (returns.length - 1) % 20 < 10 ∨
        ∃ v ∈ returns, (returns.countP fun r => decide (r < v)) ≤ (returns.length - 1) / 20 ∧
          (returns.length - 1) / 20 + 2 ≤ returns.countP fun r => decide (r ≤ v) := by
  intro returns
  obtain ⟨hne, hvar, -⟩ := calculateRiskMetrics_inv h
  obtain ⟨hk, hindex⟩ := historicalVaR_eq sort hne
  have hpos : returns.length ≠ 0 := (List.length_pos_iff.mpr hne).ne'
  have hlength := (sort.perm returns).length_eq
  have hsorted := sort.pairwise_le returns
  have hrank : (returns.length - 1) / 20 < (sort.run returns).length := by omega
  have hleast := isLeast_sorted (sort.perm returns) hsorted hrank
  -- the returned value is a nearest rank when it is the one of rank `(m - 1) / 20`
  have hreturned : (∃ v, metrics.var95 = some v ∧ IsLeast {v | v ∈ returns ∧
      (returns.length - 1) / 20 < returns.countP fun r => decide (r ≤ v)} v) ↔
        (sort.run returns)[(returns.length + 9) / 20] =
          (sort.run returns)[(returns.length - 1) / 20] := by
    rw [hvar, hindex]
    constructor
    · rintro ⟨v, hv, hmin⟩
      rw [Option.some.inj hv]
      exact hmin.unique hleast
    · intro heq
      exact ⟨_, rfl, heq ▸ hleast⟩
  simp only [varQuantile_le_iff hpos]
  rw [hreturned]
  by_cases hmod : (returns.length - 1) % 20 < 10
  · have hsame : (returns.length + 9) / 20 = (returns.length - 1) / 20 := by omega
    exact iff_of_true (getElem_congr_idx hsame) (Or.inl hmod)
  · have hnext : (returns.length + 9) / 20 = (returns.length - 1) / 20 + 1 := by omega
    rw [or_iff_right hmod, getElem_congr_idx hnext]
    exact sorted_succ_eq_iff (sort.perm returns) hsorted (by omega)

theorem calculateRiskMetrics_ok (sort : StdSort ℝ (· < ·)) {series : List ℝ} (riskFreeRate : ℝ)
    (hlength : 2 ≤ series.length) (hpos : ∀ p ∈ series, 0 < p) :
    ∃ metrics, calculateRiskMetrics sort series riskFreeRate = .ok metrics :=
  ⟨_, bind_eq_ok.mpr ⟨(), validatePrices_eq_ok hlength hpos, rfl⟩⟩

/-- Two falls by one half, the second after a rise, share the first two of eleven ranks. -/
theorem var_nearestRank_iff_tie :
    ∃ metrics,
      calculateRiskMetrics numberSort [2, 1, 2, 1, 1, 1, 1, 1, 1, 1, 1, 1] 0 = .ok metrics ∧
      let returns : List ℝ := computeReturns [2, 1, 2, 1, 1, 1, 1, 1, 1, 1, 1, 1]
      ∃ v, metrics.var95 = some v ∧ IsLeast {v | v ∈ returns ∧
        varQuantile * (returns.length : ℝ) ≤
          ((returns.countP fun r => decide (r ≤ v) : ℕ) : ℝ)} v := by
  obtain ⟨metrics, hmetrics⟩ := @calculateRiskMetrics_ok numberSort
    [2, 1, 2, 1, 1, 1, 1, 1, 1, 1, 1, 1] 0 (by simp) (by simp)
  have hreturns : computeReturns [(2 : ℝ), 1, 2, 1, 1, 1, 1, 1, 1, 1, 1, 1] =
      [-(1 / 2), 1, -(1 / 2), 0, 0, 0, 0, 0, 0, 0, 0] := by
    norm_num [computeReturns]
  refine ⟨metrics, hmetrics, (var_nearestRank_iff hmetrics).mpr (Or.inr ⟨-(1 / 2), ?_⟩)⟩
  rw [hreturns]
  norm_num

/-- One fall and ten returns of zero. The fall is a share of more than 5%, but it
stands at position 0 of the sorted returns and the code reads position 1. -/
theorem fall_not_reported :
    ∃ metrics,
      calculateRiskMetrics numberSort [2, 1, 1, 1, 1, 1, 1, 1, 1, 1, 1, 1] 0 = .ok metrics ∧
      metrics.var95 = some 0 ∧
      let returns : List ℝ := computeReturns [2, 1, 1, 1, 1, 1, 1, 1, 1, 1, 1, 1]
      ¬IsLeast {v | v ∈ returns ∧ varQuantile * (returns.length : ℝ) ≤
        ((returns.countP fun r => decide (r ≤ v) : ℕ) : ℝ)} 0 := by
  obtain ⟨metrics, hmetrics⟩ := @calculateRiskMetrics_ok numberSort
    [2, 1, 1, 1, 1, 1, 1, 1, 1, 1, 1, 1] 0 (by simp) (by simp)
  obtain ⟨hne, hvar, -⟩ := calculateRiskMetrics_inv hmetrics
  have hreturns : computeReturns [(2 : ℝ), 1, 1, 1, 1, 1, 1, 1, 1, 1, 1, 1] =
      [-(1 / 2), 0, 0, 0, 0, 0, 0, 0, 0, 0, 0] := by
    norm_num [computeReturns]
  rw [hreturns] at hne hvar
  refine ⟨metrics, hmetrics, ?_, ?_⟩
  · rw [hvar]
    exact historicalVaR_of_count numberSort hne (by norm_num) (by norm_num)
  · intro returns hleast
    have hfall : -(1 / 2) ∈ {v | v ∈ returns ∧ varQuantile * (returns.length : ℝ) ≤
        ((returns.countP fun r => decide (r ≤ v) : ℕ) : ℝ)} := by
      show _ ∈ returns ∧ _
      simp only [returns, hreturns]
      norm_num [varQuantile]
    have hle := hleast.2 hfall
    norm_num at hle

/-! ### Expected shortfall -/

/-- Neither function returns NaN: the value at risk is one of the returns, so there is
something to average. -/
theorem historicalCVaR_eq (sort : StdSort ℝ (· < ·)) {returns : List ℝ} {v : ℝ}
    (hvar : historicalVaR sort returns varQuantile = some v) (hmem : v ∈ returns) :
    historicalCVaR sort returns varQuantile =
      some ((returns.filter fun r => decide (r ≤ v)).sum /
        (returns.countP fun r => decide (r ≤ v) : ℕ)) := by
  have htail : (returns.filter fun r => decide (r ≤ v)).length ≠ 0 :=
    (List.length_pos_of_mem (List.mem_filter.mpr ⟨hmem, decide_eq_true (le_refl v)⟩)).ne'
  have hsum := foldl_add_eq (returns.filter fun r => decide (r ≤ v)) (fun r : ℝ => r) 0
  rw [List.map_id', zero_add] at hsum
  rw [List.countP_eq_length_filter]
  unfold historicalCVaR
  rw [hvar]
  simp only [isFinite_real, Bool.not_true, Bool.false_eq_true, if_false]
  rw [if_neg htail, hsum]

theorem historicalVaR_mem (sort : StdSort ℝ (· < ·)) {returns : List ℝ} (hne : returns ≠ []) :
    ∃ v, historicalVaR sort returns varQuantile = some v ∧ v ∈ returns := by
  obtain ⟨hk, hindex⟩ := historicalVaR_eq sort hne
  exact ⟨_, hindex, (sort.perm returns).subset (List.getElem_mem hk)⟩

theorem historicalVaR_perm (sort sort' : StdSort ℝ (· < ·)) {returns returns' : List ℝ}
    (hne : returns ≠ []) (h : returns'.Perm returns) :
    historicalVaR sort' returns' varQuantile = historicalVaR sort returns varQuantile := by
  have hne' : returns' ≠ [] := fun hnil => hne (List.nil_perm.mp (hnil ▸ h))
  unfold historicalVaR
  rw [if_neg hne, if_neg hne', sort.run_perm sort' h]

theorem cvar_tail_mean {sort : StdSort ℝ (· < ·)} {series : List ℝ} {riskFreeRate : ℝ}
    {metrics : RiskMetrics ℝ} (h : calculateRiskMetrics sort series riskFreeRate = .ok metrics) :
    let returns := computeReturns series
    ∃ var cvar, metrics.var95 = some var ∧ metrics.cvar95 = some cvar ∧
      (∃ low, IsLeast {r | r ∈ returns} low ∧ low ≤ cvar) ∧ cvar ≤ var ∧
      (∀ sorted : List ℝ, sorted.Perm returns → sorted.Pairwise (· ≤ ·) →
        let k := returns.countP fun r => decide (r ≤ var)
        cvar = (sorted.take k).sum / (k : ℝ)) ∧
      ∀ (sort' : StdSort ℝ (· < ·)) (returns' : List ℝ), returns'.Perm returns →
        historicalVaR sort' returns' varQuantile = some var ∧
          historicalCVaR sort' returns' varQuantile = some cvar := by
  intro returns
  obtain ⟨hne, hvar, hcvar⟩ := calculateRiskMetrics_inv h
  obtain ⟨v, hv, hmem⟩ := historicalVaR_mem sort hne
  have htail : (returns.filter fun r => decide (r ≤ v)) ≠ [] :=
    List.ne_nil_of_mem (List.mem_filter.mpr ⟨hmem, decide_eq_true (le_refl v)⟩)
  rw [historicalCVaR_eq sort hv hmem] at hcvar
  refine ⟨v, _, hvar.trans hv, hcvar, ?_, ?_, fun sorted hperm hsorted => ?_,
    fun sort' returns' hperm => ?_⟩
  · have hpos := (sort.perm returns).length_eq.trans_gt (List.length_pos_iff.mpr hne)
    obtain ⟨⟨hlow, -⟩, hmin⟩ := isLeast_sorted (sort.perm returns) (sort.pairwise_le returns) hpos
    have hlower : ∀ r ∈ returns, (sort.run returns)[0] ≤ r := fun r hr =>
      hmin ⟨hr, List.countP_pos_iff.mpr ⟨r, hr, decide_eq_true (le_refl r)⟩⟩
    refine ⟨_, ⟨hlow, hlower⟩, ?_⟩
    rw [List.countP_eq_length_filter]
    exact le_mean htail fun r hr => hlower r (List.mem_filter.mp hr).1
  · rw [List.countP_eq_length_filter]
    exact mean_le htail fun r hr => of_decide_eq_true (List.mem_filter.mp hr).2
  · rw [(filter_perm_take hperm hsorted v).sum_eq]
  · have hv' := (historicalVaR_perm sort sort' hne hperm).trans hv
    refine ⟨hv', ?_⟩
    rw [historicalCVaR_eq sort' hv' (hperm.symm.subset hmem), (hperm.filter _).sum_eq,
      hperm.countP_eq]

/-- Falls by three quarters and by one half stand before nine returns of zero: the
second is the value at risk, and the shortfall is the mean of both. -/
theorem cvar_tail_mean_falls :
    ∃ metrics,
      calculateRiskMetrics numberSort [8, 2, 1, 1, 1, 1, 1, 1, 1, 1, 1, 1] 0 = .ok metrics ∧
      metrics.var95 = some (-(1 / 2)) ∧ metrics.cvar95 = some (-(5 / 8)) := by
  obtain ⟨metrics, hmetrics⟩ := @calculateRiskMetrics_ok numberSort
    [8, 2, 1, 1, 1, 1, 1, 1, 1, 1, 1, 1] 0 (by simp) (by simp)
  obtain ⟨hne, hvar, -⟩ := calculateRiskMetrics_inv hmetrics
  obtain ⟨var, cvar, hreported, hcvar, -, -, htail, -⟩ := cvar_tail_mean hmetrics
  have hreturns : computeReturns [(8 : ℝ), 2, 1, 1, 1, 1, 1, 1, 1, 1, 1, 1] =
      [-(3 / 4), -(1 / 2), 0, 0, 0, 0, 0, 0, 0, 0, 0] := by
    norm_num [computeReturns]
  rw [hreturns] at hne hvar htail
  rw [historicalVaR_of_count numberSort hne (v := -(1 / 2)) (by norm_num) (by norm_num)] at hvar
  obtain rfl := Option.some.inj (hvar.symm.trans hreported)
  have hmean := htail _ (List.Perm.refl _) (by norm_num)
  norm_num at hmean
  exact ⟨metrics, hmetrics, hvar, by rw [hcvar, hmean]⟩

end StandardTools.Metrics
