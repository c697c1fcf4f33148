import StandardTools.Backtest.MonteCarlo
import StandardTools.Lib.Drawdown
import StandardTools.Lib.Except
import StandardTools.Metrics.RiskReturn

/-!
# Three drawdowns (`risk_return.cpp:20-104`, `monte_carlo.cpp:22-41`, `engine.cpp:104-119`)

The metrics compound the returns of a price series from 1, the simulator from the
initial capital, and the engine reads an equity curve from a peak of zero. All
three track the peak of the prices up to a factor, so all three return the worst
relative change between two prices in order.
-/

namespace StandardTools.Metrics
open StandardTools.Core StandardTools.Lib Backtest

/-! ### One step is a step of the scan -/

theorem drawdownStep_eq (s : DrawdownState ℝ) (r : ℝ) :
    drawdownStep s r = ⟨s.equity * (1 + r), (peakStep (s.peak, s.maxDd) (s.equity * (1 + r))).1,
      (peakStep (s.peak, s.maxDd) (s.equity * (1 + r))).2⟩ := by
  unfold drawdownStep peakStep
  simp only [← stdMax_real]
  rfl

theorem pathStep_eq (s : PathState ℝ) (r : ℝ) (hpeak : 0 < s.peak) :
    pathStep s r = ⟨s.equity * (1 + r), (peakStep (s.peak, s.maxDd) (s.equity * (1 + r))).1,
      (peakStep (s.peak, s.maxDd) (s.equity * (1 + r))).2⟩ := by
  have hguard : 0 < max s.peak (s.equity * (1 + r)) := hpeak.trans_le (le_max_left _ _)
  rw [← stdMax_real] at hguard
  unfold pathStep peakStep
  simp only [← stdMax_real]
  exact if_pos hguard

theorem curveStep_eq (s : ℝ × ℝ) (p : EquityPoint ℝ) (hequity : 0 < p.equity) :
    Backtest.drawdownStep s p = peakStep s p.equity := by
  have hguard : 0 < max s.1 p.equity := hequity.trans_le (le_max_right _ _)
  rw [← stdMax_real] at hguard
  unfold Backtest.drawdownStep peakStep
  simp only [← stdMax_real]
  exact if_pos hguard

/-! ### Compounding the returns of prices -/

theorem computeReturns_cons (p q : ℝ) (rest : List ℝ) :
    computeReturns (p :: q :: rest) = (q / p - 1) :: computeReturns (q :: rest) := rfl

/-- A loop over the returns which scans what it compounds, scans the prices up to
the factor between its equity and the price. -/
theorem compound_scan {σ : Type} {step : σ → ℝ → σ} {equity : σ → ℝ} {scan : σ → ℝ × ℝ}
    (hequity : ∀ s r, equity (step s r) = equity s * (1 + r))
    (hscan : ∀ s r, 0 < (scan s).1 → scan (step s r) = peakStep (scan s) (equity s * (1 + r)))
    {c p : ℝ} {rest : List ℝ} {s : σ} (hp : 0 < p) (hrest : ∀ q ∈ rest, 0 < q)
    (hstart : equity s = c * p) (hpeak : 0 < (scan s).1) :
    scan ((computeReturns (p :: rest)).foldl step s) =
      (rest.map (c * ·)).foldl peakStep (scan s) := by
  induction rest generalizing p s with
  | nil => rfl
  | cons q rest ih =>
    have hcompound : equity s * (1 + (q / p - 1)) = c * q := by
      rw [hstart]
      field_simp
      ring
    have hnext : scan (step s (q / p - 1)) = peakStep (scan s) (c * q) := by
      rw [hscan s _ hpeak, hcompound]
    have hpeak' : 0 < (scan (step s (q / p - 1))).1 := by
      rw [hnext]
      exact hpeak.trans_le (le_max_left _ _)
    have hequity' : equity (step s (q / p - 1)) = c * q := (hequity s _).trans hcompound
    rw [computeReturns_cons, List.foldl_cons, List.map_cons, List.foldl_cons, ← hnext]
    exact ih (hrest q List.mem_cons_self) (fun x hx => hrest x (List.mem_cons_of_mem _ hx))
      hequity' hpeak'

variable {p : ℝ} {rest : List ℝ}

theorem maxDrawdown_eq (hp : 0 < p) (hrest : ∀ q ∈ rest, 0 < q) :
    maxDrawdown (computeReturns (p :: rest)) = -worstFall p rest := by
  have hrun := @compound_scan _ drawdownStep DrawdownState.equity (fun s => (s.peak, s.maxDd))
    (fun s r => by rw [drawdownStep_eq]) (fun s r _ => by rw [drawdownStep_eq])
    (1 / p) p rest ⟨1, 1, 0⟩ hp hrest (one_div_mul_cancel hp.ne').symm one_pos
  have hscale := worstFall_scale (one_div_pos.mpr hp) p rest
  rw [one_div_mul_cancel hp.ne'] at hscale
  rw [← hscale]
  exact congrArg (fun s => -s.2) hrun

theorem simulatePath_eq {initial : ℝ} (hp : 0 < p) (hrest : ∀ q ∈ rest, 0 < q)
    (hinitial : 0 < initial) :
    (simulatePath (computeReturns (p :: rest)) initial).2 = -worstFall p rest := by
  have hstart : initial / p * p = initial := div_mul_cancel₀ initial hp.ne'
  have hrun := @compound_scan _ pathStep PathState.equity (fun s => (s.peak, s.maxDd))
    pathStep_equity
    (fun s r hpeak => by rw [pathStep_eq s r hpeak])
    (initial / p) p rest ⟨initial, initial, 0⟩ hp hrest hstart.symm hinitial
  have hscale := worstFall_scale (div_pos hinitial hp) p rest
  rw [hstart] at hscale
  rw [← hscale]
  exact congrArg (fun s => -s.2) hrun

theorem computeMaxDrawdown_eq {curve : List (EquityPoint ℝ)}
    (hcurve : curve.map (·.equity) = p :: rest) (hp : 0 < p) (hrest : ∀ q ∈ rest, 0 < q) :
    computeMaxDrawdown curve = -worstFall p rest := by
  have hrun : ∀ (points : List (EquityPoint ℝ)) (s : ℝ × ℝ),
      (∀ q ∈ points.map (·.equity), 0 < q) →
      points.foldl Backtest.drawdownStep s = (points.map (·.equity)).foldl peakStep s := by
    intro points
    induction points with
    | nil => exact fun s _ => rfl
    | cons point points ih =>
      intro s hpos
      rw [List.foldl_cons, List.map_cons, List.foldl_cons,
        curveStep_eq s point (hpos _ List.mem_cons_self)]
      exact ih _ fun q hq => hpos q (List.mem_cons_of_mem _ hq)
  have hfirst : peakStep (0, 0) p = (p, 0) := by
    unfold peakStep
    simp only [max_eq_right hp.le, sub_self, zero_div, max_self]
  unfold computeMaxDrawdown
  rw [hrun curve (0, 0), hcurve, List.foldl_cons, hfirst]
  · rfl
  · rw [hcurve]
    intro q hq
    rcases List.mem_cons.mp hq with rfl | hq
    · exact hp
    · exact hrest q hq

/-! ### One definition -/

theorem validatePrices_eq_ok {prices : List ℝ} (hlength : 2 ≤ prices.length)
    (hpos : ∀ q ∈ prices, 0 < q) : validatePrices prices = .ok () := by
  have hfind : prices.zipIdx.find? (fun p => decide (p.1 ≤ 0) || !Double.isFinite p.1) = none := by
    rw [List.find?_eq_none]
    intro entry hentry
    have hq := hpos entry.1 (List.fst_mem_of_mem_zipIdx hentry)
    simp [hq]
  unfold validatePrices
  rw [if_neg (not_lt.mpr hlength), hfind]

theorem one_drawdown (sort : StdSort ℝ (· < ·)) (riskFreeRate : ℝ) {p initial : ℝ}
    {rest : List ℝ} {curve : List (EquityPoint ℝ)} (hlength : rest ≠ [])
    (hpos : ∀ q ∈ p :: rest, 0 < q) (hinitial : 0 < initial)
    (hcurve : curve.map (·.equity) = (p :: rest).map fun q => initial * q / p) :
    ∃ m d, calculateRiskMetrics sort (p :: rest) riskFreeRate = .ok m ∧ m.maxDrawdown = d ∧
      (simulatePath (computeReturns (p :: rest)) initial).2 = d ∧ computeMaxDrawdown curve = d ∧
      IsLeast {x | ∃ i j : ℕ, ∃ a b, i ≤ j ∧ (p :: rest)[i]? = some a ∧ (p :: rest)[j]? = some b ∧
        x = b / a - 1} d ∧ -1 < d ∧ d ≤ 0 := by
  have hp := hpos p List.mem_cons_self
  have hrest : ∀ q ∈ rest, 0 < q := fun q hq => hpos q (List.mem_cons_of_mem _ hq)
  have hleast := isLeast_worstFall hp hrest
  have hvalid : validatePrices (p :: rest) = .ok () := by
    apply validatePrices_eq_ok _ hpos
    rw [List.length_cons]
    exact Nat.succ_le_succ (List.length_pos_iff.mpr hlength)
  refine ⟨_, -worstFall p rest, bind_eq_ok.mpr ⟨(), hvalid, rfl⟩, maxDrawdown_eq hp hrest,
    simulatePath_eq hp hrest hinitial, ?_, hleast, neg_one_lt_relativeChange hpos hleast.1,
    neg_nonpos.mpr (worstFall_nonneg hp hrest)⟩
  have hfactor : 0 < initial / p := div_pos hinitial hp
  have hscaled : curve.map (·.equity) = initial / p * p :: rest.map (initial / p * ·) := by
    rw [hcurve, List.map_cons]
    simp only [mul_div_right_comm]
  rw [computeMaxDrawdown_eq hscaled (mul_pos hfactor hp), worstFall_scale hfactor]
  intro q hq
  obtain ⟨x, hx, rfl⟩ := List.mem_map.mp hq
  exact mul_pos hfactor (hrest x hx)

theorem one_drawdown_dip :
    ∃ (m : RiskMetrics ℝ) (d : ℝ), calculateRiskMetrics numberSort [2, 1] 0 = .ok m ∧
      m.maxDrawdown = d ∧ (simulatePath (computeReturns [2, 1]) 1).2 = d ∧
      computeMaxDrawdown [⟨0, 1 * 2 / 2⟩, ⟨1, 1 * 1 / 2⟩] = d ∧ -1 < d ∧ d ≤ 0 := by
  obtain ⟨m, d, hm, hmetrics, hpath, hcurve, -, hlow, hhigh⟩ :=
    @one_drawdown numberSort 0 2 1 [1] [⟨0, 1 * 2 / 2⟩, ⟨1, 1 * 1 / 2⟩] (List.cons_ne_nil _ _)
      (by simp) one_pos rfl
  exact ⟨m, d, hm, hmetrics, hpath, hcurve, hlow, hhigh⟩

end StandardTools.Metrics
