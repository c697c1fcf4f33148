import StandardTools.Indicators.Affine

/-!
# Indicators and the price unit

Multiplying every price by one positive factor multiplies the averages and the
bands by it and leaves the strength index alone: the change of scale which
leaves the zero of the prices where it is.
-/

namespace StandardTools.Core

def OHLCV.repriced (a : ℝ) (bar : OHLCV ℝ) : OHLCV ℝ where
  date := bar.date
  open_ := a * bar.open_
  high := a * bar.high
  low := a * bar.low
  close := a * bar.close
  volume := bar.volume

theorem OHLCV.repriced_eq (a : ℝ) : OHLCV.repriced a = OHLCV.affine a 0 := by
  funext bar
  simp only [OHLCV.repriced, OHLCV.affine, affine_zero]

end StandardTools.Core

namespace StandardTools.Indicators
open StandardTools.Core Lib

def IndicatorValue.scale (a : ℝ) (iv : IndicatorValue ℝ) : IndicatorValue ℝ :=
  ⟨iv.date, iv.value.map (a * ·)⟩

theorem IndicatorValue.scale_eq (a : ℝ) :
    IndicatorValue.scale a = IndicatorValue.map (affine a 0) := by
  rw [affine_zero]
  rfl

variable {a : ℝ}

theorem smaValues_repriced (series : List (OHLCV ℝ)) (period : ℕ) :
    smaValues (series.map (OHLCV.repriced a)) period =
      (smaValues series period).map (IndicatorValue.scale a) := by
  rw [OHLCV.repriced_eq, IndicatorValue.scale_eq, smaValues_affine]

theorem bollingerSeries_repriced (ha : 0 < a) (series : List (OHLCV ℝ)) (period stdDevCount : ℕ)
    {band : ℝ → ℝ → ℝ} (hband : ∀ m w, band (a * m) (a * w) = a * band m w) :
    bollingerSeries (series.map (OHLCV.repriced a)) period stdDevCount band =
      (bollingerSeries series period stdDevCount band).map (IndicatorValue.scale a) := by
  rw [OHLCV.repriced_eq, IndicatorValue.scale_eq, bollingerSeries_affine ha]
  intro m w
  simpa only [affine_zero] using hband m w

theorem macdSeries_repriced (series : List (OHLCV ℝ)) (fast slow signal : ℕ) :
    macdSeries (series.map (OHLCV.repriced a)) fast slow signal =
      ((macdSeries series fast slow signal).1.map (IndicatorValue.scale a),
        (macdSeries series fast slow signal).2.1.map (IndicatorValue.scale a),
        (macdSeries series fast slow signal).2.2.map (IndicatorValue.scale a)) := by
  rw [OHLCV.repriced_eq, IndicatorValue.scale_eq, macdSeries_affine]

theorem rsiValues_repriced (ha : 0 < a) (series : List (OHLCV ℝ)) (period : ℕ) :
    rsiValues (series.map (OHLCV.repriced a)) period = rsiValues series period := by
  rw [OHLCV.repriced_eq, rsiValues_affine ha]

end StandardTools.Indicators
