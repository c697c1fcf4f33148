import Mathlib.Data.List.GetD
import StandardTools.Backtest.Resampling
import StandardTools.Lib.OrderStatistics

/-!
# The interval of the drawdowns (`monte_carlo.cpp:22-53`, `80-118`)

The equity of a path never passes its peak and no return of -100% or more makes
it negative, so that a drawdown is a share of the peak. A percentile is one of
the sorted drawdowns, at an index which grows with the quantile.
-/

namespace StandardTools.Backtest
open StandardTools.Core StandardTools.Lib

/-! ### The drawdown of a path -/

/-- The locals of `SimulatePath` between two rounds. -/
structure PathState.Sound (s : PathState ℝ) : Prop where
  equity_nonneg : 0 ≤ s.equity
  equity_le : s.equity ≤ s.peak
  peak_pos : 0 < s.peak
  maxDd_nonneg : 0 ≤ s.maxDd
  maxDd_le : s.maxDd ≤ 1

theorem PathState.Sound.pathStep {s : PathState ℝ} (h : s.Sound) {r : ℝ} (hr : -1 ≤ r) :
    (Backtest.pathStep s r).Sound := by
  have hequity : 0 ≤ s.equity * (1 + r) := mul_nonneg h.equity_nonneg (by linarith)
  have hpeak : (if s.peak < s.equity * (1 + r) then s.equity * (1 + r) else s.peak) =
      max s.peak (s.equity * (1 + r)) := stdMax_real _ _
  have hpos : 0 < max s.peak (s.equity * (1 + r)) := lt_max_of_lt_left h.peak_pos
  have hle : s.equity * (1 + r) ≤ max s.peak (s.equity * (1 + r)) := le_max_right _ _
  have hdd : (max s.peak (s.equity * (1 + r)) - s.equity * (1 + r)) /
      max s.peak (s.equity * (1 + r)) ≤ 1 := by
    rw [div_le_one hpos]
    exact sub_le_self _ hequity
  unfold Backtest.pathStep
  simp only [hpeak, if_pos hpos]
  refine ⟨hequity, hle, hpos, ?_, ?_⟩
  · split_ifs with hdeeper
    · exact h.maxDd_nonneg.trans hdeeper.le
    · exact h.maxDd_nonneg
  · split_ifs
    · exact hdd
    · exact h.maxDd_le

theorem simulatePath_drawdown {returns : List ℝ} (hreturns : ∀ r ∈ returns, -1 ≤ r) {initial : ℝ}
    (hinitial : 0 < initial) :
    -1 ≤ (simulatePath returns initial).2 ∧ (simulatePath returns initial).2 ≤ 0 := by
  have hstart : PathState.Sound ⟨initial, initial, 0⟩ :=
    ⟨hinitial.le, le_rfl, hinitial, le_rfl, zero_le_one⟩
  have hrun : PathState.Sound (returns.foldl pathStep ⟨initial, initial, 0⟩) :=
    List.foldlRecOn _ _ hstart fun s hs r hr => hs.pathStep (hreturns r hr)
  exact ⟨neg_le_neg hrun.maxDd_le, neg_nonpos.mpr hrun.maxDd_nonneg⟩

/-- Every path is one of some order of the returns. -/
theorem simulatePaths_perm (shuffle : StdShuffle ℝ) (returns : List ℝ) (initial : ℝ)
    (simulations : ℕ) (rng : shuffle.Rng) :
    ∀ path ∈ simulatePaths shuffle returns initial simulations rng,
      ∃ order : List ℝ, order.Perm returns ∧ path = simulatePath order initial := by
  induction simulations generalizing rng with
  | zero => exact fun path hpath => absurd hpath List.not_mem_nil
  | succ simulations ih =>
    rw [simulatePaths, List.forall_mem_cons]
    exact ⟨⟨_, shuffle.perm returns rng, rfl⟩, ih _⟩

theorem length_simulatePaths (shuffle : StdShuffle ℝ) (returns : List ℝ) (initial : ℝ)
    (simulations : ℕ) (rng : shuffle.Rng) :
    (simulatePaths shuffle returns initial simulations rng).length = simulations := by
  induction simulations generalizing rng with
  | zero => rfl
  | succ simulations ih => rw [simulatePaths, List.length_cons, ih]

/-! ### Percentiles -/

/-- The index which `Percentile` reads. -/
noncomputable def percentileIndex (length : ℕ) (quantile : ℝ) : ℕ :=
  min (length - 1) ⌊quantile * ((length - 1 : ℕ) : ℝ) + 1 / ((2 : ℕ) : ℝ)⌋₊

theorem percentileIndex_lt {length : ℕ} (hpos : 0 < length) (quantile : ℝ) :
    percentileIndex length quantile < length := by
  have hle : percentileIndex length quantile ≤ length - 1 := min_le_left _ _
  omega

theorem percentileIndex_mono (length : ℕ) {p q : ℝ} (hpq : p ≤ q) :
    percentileIndex length p ≤ percentileIndex length q := by
  refine min_le_min le_rfl (Nat.floor_mono ?_)
  have hmul := mul_le_mul_of_nonneg_right hpq (Nat.cast_nonneg (α := ℝ) (length - 1))
  linarith

theorem percentile_eq {values : List ℝ} (hne : values ≠ []) (quantile : ℝ) :
    percentile values quantile = values.getD (percentileIndex values.length quantile) 0 := by
  have hlast : ∀ index : ℕ, (if values.length ≤ index then values.length - 1 else index) =
      min (values.length - 1) index := by
    have hpos : 0 < values.length := List.length_pos_iff.mpr hne
    intro index
    split
    · omega
    · omega
  unfold percentile
  rw [if_neg hne]
  simp only [hlast]
  rfl

theorem percentile_mem {values : List ℝ} (hne : values ≠ []) (quantile : ℝ) :
    percentile values quantile ∈ values := by
  have hindex := percentileIndex_lt (List.length_pos_iff.mpr hne) quantile
  rw [percentile_eq hne, List.getD_eq_getElem _ _ hindex]
  exact List.getElem_mem hindex

theorem percentile_mono {values : List ℝ} (hne : values ≠ []) (hsorted : values.Pairwise (· ≤ ·))
    {p q : ℝ} (hpq : p ≤ q) : percentile values p ≤ percentile values q := by
  have hpos : 0 < values.length := List.length_pos_iff.mpr hne
  have hp := percentileIndex_lt hpos p
  have hq := percentileIndex_lt hpos q
  rw [percentile_eq hne, percentile_eq hne, List.getD_eq_getElem _ _ hp,
    List.getD_eq_getElem _ _ hq]
  rcases (percentileIndex_mono values.length hpq).eq_or_lt with heq | hlt
  · exact (getElem_congr_idx heq).le
  · exact List.pairwise_iff_getElem.mp hsorted _ _ hp hq hlt

/-- The percentiles of a sample are two of its values, in order. -/
theorem percentileInterval_spec (sort : StdSort ℝ (· < ·)) {values : List ℝ} (hne : values ≠ []) :
    (percentileInterval sort values).lower ∈ values ∧
      (percentileInterval sort values).upper ∈ values ∧
      (percentileInterval sort values).lower ≤ (percentileInterval sort values).upper := by
  have hperm : (sort.run values).Perm values := sort.perm values
  have hsorted : sort.run values ≠ [] := fun hnil => hne (hnil ▸ hperm).symm.eq_nil
  refine ⟨hperm.subset (percentile_mem hsorted _), hperm.subset (percentile_mem hsorted _), ?_⟩
  refine percentile_mono hsorted (sort.pairwise_le values) ?_
  norm_num

/-! ### The interval -/

/-- Both ends of the interval are drawdowns of orders of the returns, between a total
loss and none. -/
theorem drawdown_interval (shuffle : StdShuffle ℝ) (sort : StdSort ℝ (· < ·)) {returns : List ℝ}
    (hne : returns ≠ []) (hreturns : ∀ r ∈ returns, -1 ≤ r) {initial : ℝ} (hinitial : 0 < initial)
    {simulations : ℤ} (hsimulations : 1 ≤ simulations) (seed : Option UInt64) :
    let interval := ((MonteCarloSimulator.make simulations seed).fromReturns shuffle sort
      returns initial).maxDrawdownCi
    (-1 ≤ interval.lower ∧ interval.lower ≤ interval.upper ∧ interval.upper ≤ 0) ∧
      (∃ order : List ℝ, order.Perm returns ∧
        interval.lower = (simulatePath order initial).2) ∧
      ∃ order : List ℝ, order.Perm returns ∧
        interval.upper = (simulatePath order initial).2 := by
  set simulator := MonteCarloSimulator.make simulations seed
  have hsim : simulator.simulations ≠ 0 := make_simulations hsimulations seed
  set paths := simulatePaths shuffle returns initial simulator.simulations
    (shuffle.makeRng simulator.seed) with hpaths
  have hci : (simulator.fromReturns shuffle sort returns initial).maxDrawdownCi =
      percentileInterval sort (paths.map Prod.snd) := by
    unfold MonteCarloSimulator.fromReturns
    rw [if_neg (not_or.mpr ⟨hne, hsim⟩)]
  have hnonempty : paths.map Prod.snd ≠ [] := by
    refine List.ne_nil_of_length_pos ?_
    rw [List.length_map, hpaths, length_simulatePaths]
    exact Nat.pos_of_ne_zero hsim
  -- each drawdown of the sample is the one of an order
  have hdrawdowns : ∀ d ∈ paths.map Prod.snd, (-1 ≤ d ∧ d ≤ 0) ∧
      ∃ order : List ℝ, order.Perm returns ∧ d = (simulatePath order initial).2 := by
    intro d hd
    obtain ⟨path, hpath, rfl⟩ := List.mem_map.mp hd
    obtain ⟨order, horder, rfl⟩ := simulatePaths_perm shuffle returns initial _ _ path hpath
    exact ⟨simulatePath_drawdown (fun r hr => hreturns r (horder.subset hr)) hinitial,
      order, horder, rfl⟩
  obtain ⟨hlower, hupper, hle⟩ := percentileInterval_spec sort hnonempty
  simp only [hci]
  exact ⟨⟨(hdrawdowns _ hlower).1.1, hle, (hdrawdowns _ hupper).1.2⟩,
    (hdrawdowns _ hlower).2, (hdrawdowns _ hupper).2⟩

theorem drawdown_interval_halved :
    let interval := ((MonteCarloSimulator.make 1 none).fromReturns StdShuffle.keep numberSort
      [(1 : ℝ), -(1 / 2)] 1).maxDrawdownCi
    (-1 ≤ interval.lower) ∧ interval.lower ≤ interval.upper ∧ interval.upper ≤ 0 := by
  have hreturns : ∀ r ∈ [(1 : ℝ), -(1 / 2)], -1 ≤ r := by
    intro r hr
    rcases List.mem_pair.mp hr with rfl | rfl
    · norm_num
    · norm_num
  exact (drawdown_interval StdShuffle.keep numberSort (List.cons_ne_nil _ _) hreturns zero_lt_one
    (le_refl 1) none).1

end StandardTools.Backtest
