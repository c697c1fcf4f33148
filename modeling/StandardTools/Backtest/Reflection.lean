import StandardTools.Backtest.Strategy
import StandardTools.Indicators.Reflection

/-!
# The strength index and its strategy on reflected closes

On a bar behind a move the reflected series has the complement of the index, and
`rsi_threshold` with thresholds at one distance from 50 emits the opposite
signal. On a bar behind no move both series have the index 100.
-/

namespace StandardTools.Backtest
open StandardTools.Core Lib Indicators

theorem valueAt_eq_some_iff {K : Type} {values : List (IndicatorValue K)} {i : ℕ} {x : K} :
    valueAt values i = some x ↔ HasValue values i x := by
  unfold valueAt HasValue
  rw [Option.bind_eq_some_iff]
  constructor
  · rintro ⟨⟨date, value⟩, hi, rfl⟩
    exact ⟨date, hi⟩
  · rintro ⟨date, hi⟩
    exact ⟨⟨date, some x⟩, hi, rfl⟩

/-! ### The index -/

theorem valueAt_rsiValues {series : List (OHLCV ℝ)} {period i : ℕ} (hp : 0 < period)
    (hi : i < series.length) :
    valueAt (rsiValues series period) i =
      if period ≤ i then some (rsiAt period (series.take (i + 1))) else none := by
  have haligned := aligned_rsiValues series hp
  have hlt : i < (rsiValues series period).length := haligned.length_eq.symm ▸ hi
  have hsome : (valueAt (rsiValues series period) i).isSome ↔ period ≤ i := by
    rw [valueAt, List.getElem?_eq_getElem hlt, Option.bind_some]
    exact haligned.isSome_iff i _ (List.getElem?_eq_getElem hlt)
  split_ifs with hperiod
  · obtain ⟨x, hx⟩ := Option.isSome_iff_exists.mp (hsome.mpr hperiod)
    obtain ⟨-, -, -, rfl⟩ := rsiValues_value (valueAt_eq_some_iff.mp hx)
    exact hx
  · exact Option.not_isSome_iff_eq_none.mp (mt hsome.mp hperiod)

theorem valueAt_rsiValues_of_le {series : List (OHLCV ℝ)} {period i : ℕ}
    (hi : series.length ≤ i) : valueAt (rsiValues series period) i = none := by
  rw [valueAt, List.getElem?_eq_none, Option.bind_none]
  rwa [(causal_rsiValues period).length_eq]

section Index
variable (k : ℝ) {series : List (OHLCV ℝ)} {period i : ℕ}

/-- Before the first value both series are empty, and behind a move the two values
add up to 100. -/
theorem rsiValues_complement (hp : 0 < period)
    (hmoved : i < period ∨ ¬Still period (series.take (i + 1))) :
    valueAt (rsiValues (series.map (OHLCV.reflected k)) period) i =
      (valueAt (rsiValues series period) i).map (100 - ·) := by
  have hlen : (series.map (OHLCV.reflected k)).length = series.length := List.length_map _
  rcases Nat.lt_or_ge i series.length with hi | hi
  · rw [valueAt_rsiValues hp (hlen.symm ▸ hi), valueAt_rsiValues hp hi]
    split_ifs with hperiod
    · have htake : period + 1 ≤ (series.take (i + 1)).length := by
        rw [List.length_take_of_le hi]
        exact Nat.succ_le_succ hperiod
      rw [← List.map_take, rsiAt_complement k hp htake (hmoved.resolve_left (by omega))]
      rfl
    · rfl
  · rw [valueAt_rsiValues_of_le (hlen.symm ▸ hi), valueAt_rsiValues_of_le hi]
    rfl

theorem rsiValues_still (hp : 0 < period) (hi : i < series.length) (hperiod : period ≤ i)
    (hstill : Still period (series.take (i + 1))) :
    valueAt (rsiValues series period) i = some 100 ∧
      valueAt (rsiValues (series.map (OHLCV.reflected k)) period) i = some 100 := by
  have hlen : (series.map (OHLCV.reflected k)).length = series.length := List.length_map _
  have htake : period + 1 ≤ (series.take (i + 1)).length := by
    rw [List.length_take_of_le hi]
    exact Nat.succ_le_succ hperiod
  obtain ⟨horiginal, hreflected⟩ := rsiAt_still k hp htake hstill
  constructor
  · rw [valueAt_rsiValues hp hi, if_pos hperiod, horiginal]
  · rw [valueAt_rsiValues hp (hlen.symm ▸ hi), if_pos hperiod, ← List.map_take, hreflected]

end Index

/-! ### The signals -/

def Signal.opposite : Signal → Signal
  | .hold => .hold
  | .buy => .sell
  | .sell => .buy

theorem thresholdSignal_complement {values values' : List (IndicatorValue ℝ)} {i : ℕ}
    (h : valueAt values' i = (valueAt values i).map (100 - ·)) {oversold overbought : ℝ}
    (hsum : oversold + overbought = 100) (hle : oversold ≤ overbought) :
    thresholdSignal values' oversold overbought i =
      (thresholdSignal values oversold overbought i).opposite := by
  unfold thresholdSignal
  rw [h]
  cases valueAt values i with
  | none => rfl
  | some v =>
    have hbuy : 100 - v < oversold ↔ overbought < v := by constructor <;> intro _ <;> linarith
    have hsell : overbought < 100 - v ↔ v < oversold := by constructor <;> intro _ <;> linarith
    simp only [Option.map_some, hbuy, hsell]
    -- a value cannot pass both thresholds, so that the order of the tests is immaterial
    have hnotboth : ¬(v < oversold ∧ overbought < v) := fun hboth => by linarith [hboth.1, hboth.2]
    split_ifs with _ hover hunder
    · exact absurd ⟨hunder, hover⟩ hnotboth
    all_goals rfl

theorem rsiThreshold_signals {series : List (OHLCV ℝ)} {params : ParamMap ℝ} {period : ℕ}
    (hperiod : paramAsSize params "period" 14 = .ok period) :
    rsiThreshold.signals series params = .ok (thresholdSignals series (rsiValues series period)
      (paramOrDefault params "oversold" ((30 : ℕ) : ℝ))
      (paramOrDefault params "overbought" ((70 : ℕ) : ℝ))) := by
  simp only [rsiThreshold, calculate_rsi, calculateRSI, hperiod]
  rfl

theorem calculate_rsi_eq {series : List (OHLCV ℝ)} {params : ParamMap ℝ} {period : ℕ}
    (hperiod : paramAsSize params "period" 14 = .ok period) :
    calculate "rsi" series params =
      .ok ⟨"rsi", .ofList [("period", (period : ℝ))], rsiValues series period, []⟩ := by
  rw [calculate_rsi, calculateRSI, hperiod]
  rfl

/-- What reflecting the closes at `k` does to the index and to `rsi_threshold`. On
a bar which has a value but no move behind it both indices are 100; on every
other bar the values add up to 100 and the signals are opposite. -/
theorem rsi_reflection (k : ℝ) (series : List (OHLCV ℝ)) (params : ParamMap ℝ) (period : ℕ)
    (hperiod : paramAsSize params "period" 14 = .ok period) :
    (∃ r r', calculate "rsi" series params = .ok r ∧
      calculate "rsi" (series.map (OHLCV.reflected k)) params = .ok r' ∧
      ∀ i, ((valueAt r'.values i).isSome ↔ (valueAt r.values i).isSome) ∧
        ∀ x, valueAt r.values i = some x →
          (¬Still period (series.take (i + 1)) → valueAt r'.values i = some (100 - x)) ∧
          (Still period (series.take (i + 1)) → x = 100 ∧ valueAt r'.values i = some 100)) ∧
    (paramOrDefault params "oversold" ((30 : ℕ) : ℝ) +
        paramOrDefault params "overbought" ((70 : ℕ) : ℝ) = 100 →
      paramOrDefault params "oversold" ((30 : ℕ) : ℝ) ≤
        paramOrDefault params "overbought" ((70 : ℕ) : ℝ) →
      ∃ signals signals', rsiThreshold.signals series params = .ok signals ∧
        rsiThreshold.signals (series.map (OHLCV.reflected k)) params = .ok signals' ∧
        ∀ i, i < period ∨ ¬Still period (series.take (i + 1)) →
          signals'[i]? = signals[i]?.map fun s => ⟨s.date, s.signal.opposite⟩) := by
  have hp : 0 < period := (usesParam_of_ok hperiod).pos (by decide)
  have hlen : (series.map (OHLCV.reflected k)).length = series.length := List.length_map _
  constructor
  · refine ⟨_, _, calculate_rsi_eq hperiod, calculate_rsi_eq hperiod, fun i => ⟨?_, ?_⟩⟩
    · rcases Nat.lt_or_ge i series.length with hi | hi
      · rw [valueAt_rsiValues hp (hlen.symm ▸ hi), valueAt_rsiValues hp hi]
        split_ifs <;> simp
      · rw [valueAt_rsiValues_of_le (hlen.symm ▸ hi), valueAt_rsiValues_of_le hi]
    · intro x hx
      obtain ⟨-, hle, hi, -⟩ := rsiValues_value (valueAt_eq_some_iff.mp hx)
      refine ⟨fun hmoved => ?_, fun hstill => ?_⟩
      · rw [rsiValues_complement k hp (.inr hmoved), hx]
        rfl
      · obtain ⟨horiginal, hreflected⟩ := rsiValues_still k hp hi hle hstill
        exact ⟨Option.some.inj (hx.symm.trans horiginal), hreflected⟩
  · intro hsum hle
    refine ⟨_, _, rsiThreshold_signals hperiod, rsiThreshold_signals hperiod, fun i hi => ?_⟩
    have hsignal := thresholdSignal_complement (rsiValues_complement k hp hi) hsum hle
    simp only [thresholdSignals, List.getElem?_mapIdx, List.getElem?_map, hsignal, Option.map_map]
    rfl

/-- A series of two bars at one price, and one which goes up and down by 1. -/
def flatBars : List (OHLCV ℝ) := [⟨0, 1, 1, 1, 1, 1⟩, ⟨1, 1, 1, 1, 1, 1⟩]

def zigzagBars : List (OHLCV ℝ) := [⟨0, 0, 0, 0, 0, 1⟩, ⟨1, 1, 1, 1, 1, 1⟩, ⟨2, 0, 0, 0, 0, 1⟩]

theorem paramAsSize_period : paramAsSize (.ofList [("period", ((2 : ℕ) : ℝ))]) "period" 14 = .ok 2 :=
  (usesParam_real.mpr (.inr ⟨rfl, Nat.two_pos⟩)).paramAsSize_eq

/-- A series which goes up and down by 1, under the default thresholds. -/
theorem rsi_reflection_zigzag :
    ∃ signals signals',
      rsiThreshold.signals zigzagBars (.ofList [("period", ((2 : ℕ) : ℝ))]) = .ok signals ∧
      rsiThreshold.signals (zigzagBars.map (OHLCV.reflected 1))
        (.ofList [("period", ((2 : ℕ) : ℝ))]) = .ok signals' ∧
      ∀ i, i < 2 ∨ ¬Still 2 (zigzagBars.take (i + 1)) →
        signals'[i]? = signals[i]?.map fun s => ⟨s.date, s.signal.opposite⟩ := by
  have hsum : ((30 : ℕ) : ℝ) + ((70 : ℕ) : ℝ) = 100 := by norm_num
  have hle : ((30 : ℕ) : ℝ) ≤ ((70 : ℕ) : ℝ) := by norm_num
  exact (rsi_reflection 1 zigzagBars _ 2 paramAsSize_period).2 hsum hle

def crossedParams : ParamMap ℝ :=
  .ofList [("period", ((2 : ℕ) : ℝ)), ("oversold", ((70 : ℕ) : ℝ)), ("overbought", ((30 : ℕ) : ℝ))]

theorem paramAsSize_crossedParams : paramAsSize crossedParams "period" 14 = .ok 2 :=
  (usesParam_real.mpr (.inr ⟨rfl, Nat.two_pos⟩)).paramAsSize_eq

theorem moved_zigzag : ¬Still 2 zigzagBars := by
  norm_num [Still, rememberedMoves, closeDiffs, closesOf, zigzagBars]

/-- Gains and losses are even, so that the index is 50 and below the threshold 70. -/
theorem rsiAt_zigzag : rsiAt 2 zigzagBars = 50 := by
  have hdiffs : closeDiffs zigzagBars = [1, -1] := by norm_num [closeDiffs, closesOf, zigzagBars]
  have hgains : gainsOf zigzagBars = [1, 0] := by norm_num [gainsOf, hdiffs, gainLoss]
  have hlosses : lossesOf zigzagBars = [0, 1] := by norm_num [lossesOf, hdiffs, gainLoss]
  have hgain : wilder 2 (gainsOf zigzagBars) = 1 / 2 := by
    norm_num [hgains, wilder]
  have hloss : wilder 2 (lossesOf zigzagBars) = 1 / 2 := by
    norm_num [hlosses, wilder]
  rw [rsiAt, hgain, hloss, rsiValue_eq (by norm_num) (by norm_num) (by norm_num)]
  norm_num

theorem thresholdSignals_even {series : List (OHLCV ℝ)} (hlen : series.length = 3)
    (hindex : rsiAt 2 series = 50) :
    (thresholdSignals series (rsiValues series 2) ((70 : ℕ) : ℝ) ((30 : ℕ) : ℝ))[2]?.map
      (·.signal) = some .buy := by
  have hvalue : valueAt (rsiValues series 2) 2 = some 50 := by
    rw [valueAt_rsiValues Nat.two_pos (by omega), if_pos le_rfl, List.take_of_length_le (by omega),
      hindex]
  have hbuy : thresholdSignal (rsiValues series 2) ((70 : ℕ) : ℝ) ((30 : ℕ) : ℝ) 2 = .buy := by
    unfold thresholdSignal
    rw [hvalue]
    norm_num
  rw [thresholdSignals, List.getElem?_mapIdx, List.getElem?_eq_getElem (by omega)]
  simp only [Option.map_some, hbuy]

/-- A flat series has the index 100 and is not at 100 minus 100, and thresholds in
the wrong order buy on both series behind a move. -/
theorem not_rsi_reflection :
    (¬∀ (k : ℝ) (series : List (OHLCV ℝ)) (period : ℕ), 0 < period → ∀ i x,
      valueAt (rsiValues series period) i = some x →
        valueAt (rsiValues (series.map (OHLCV.reflected k)) period) i = some (100 - x)) ∧
    (∃ signals signals', rsiThreshold.signals zigzagBars crossedParams = .ok signals ∧
      rsiThreshold.signals (zigzagBars.map (OHLCV.reflected 1)) crossedParams = .ok signals' ∧
      signals'[2]?.map (·.signal) = some .buy ∧ signals[2]?.map (·.signal) ≠ some .sell) := by
  constructor
  · intro h
    have hstill : Still 1 (flatBars.take (1 + 1)) := by
      simp [Still, rememberedMoves, flatBars, closeDiffs, closesOf]
    obtain ⟨horiginal, hreflected⟩ := rsiValues_still 1 Nat.one_pos Nat.one_lt_two le_rfl hstill
    have hcomplement := h 1 flatBars 1 Nat.one_pos 1 100 horiginal
    rw [hreflected, Option.some.injEq] at hcomplement
    norm_num at hcomplement
  · have hreflected := rsiAt_complement 1 Nat.two_pos le_rfl moved_zigzag
    rw [rsiAt_zigzag] at hreflected
    refine ⟨_, _, rsiThreshold_signals paramAsSize_crossedParams,
      rsiThreshold_signals paramAsSize_crossedParams, ?_, ?_⟩
    · exact thresholdSignals_even rfl (hreflected.trans (by norm_num))
    · intro hsell
      cases (thresholdSignals_even rfl rsiAt_zigzag).symm.trans hsell

end StandardTools.Backtest
