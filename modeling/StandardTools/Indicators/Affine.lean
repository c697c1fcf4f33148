import Mathlib.Algebra.BigOperators.Group.List.Basic
import Mathlib.Tactic.FieldSimp
import Mathlib.Tactic.Ring
import StandardTools.Indicators.WarmUp

/-!
# Indicators under a change of the price scale

Prices are read in another unit and from another zero: every price `x` becomes
`a * x + b`. The averages, the bands and the average price are price levels and
follow it, differences of prices only see `a`, and what is a quotient of
differences or a sum of volumes sees neither.
-/

namespace StandardTools.Core

/-- The price `x` in the unit `1 / a` and from the zero `-b`. -/
def affine (a b x : ℝ) : ℝ := a * x + b

theorem affine_sub (a b x y : ℝ) : affine a b x - affine a b y = a * (x - y) := by
  unfold affine
  ring

theorem affine_zero (a : ℝ) : affine a 0 = fun x => a * x := by
  funext x
  exact add_zero _

theorem affine_lt_affine {a : ℝ} (ha : 0 < a) (b x y : ℝ) :
    affine a b x < affine a b y ↔ x < y := by
  rw [← sub_pos, affine_sub, mul_pos_iff_of_pos_left ha, sub_pos]

def OHLCV.affine (a b : ℝ) (bar : OHLCV ℝ) : OHLCV ℝ where
  date := bar.date
  open_ := Core.affine a b bar.open_
  high := Core.affine a b bar.high
  low := Core.affine a b bar.low
  close := Core.affine a b bar.close
  volume := bar.volume

end StandardTools.Core

namespace StandardTools.Indicators
open StandardTools.Core Lib

def IndicatorValue.map (f : ℝ → ℝ) (iv : IndicatorValue ℝ) : IndicatorValue ℝ :=
  ⟨iv.date, iv.value.map f⟩

def IndicatorResult.map (f : ℝ → ℝ) (r : IndicatorResult ℝ) : IndicatorResult ℝ where
  name := r.name
  params := r.params
  values := r.values.map (IndicatorValue.map f)
  extraSeries := r.extraSeries.map fun e => (e.1, e.2.map (IndicatorValue.map f))

variable {a b : ℝ}

/-! ### Dates, closes and windows -/

theorem datesFromSeries_affine (series : List (OHLCV ℝ)) :
    datesFromSeries (series.map (OHLCV.affine a b)) = datesFromSeries series := by
  simp only [datesFromSeries, List.map_map]
  rfl

theorem closesOf_affine (series : List (OHLCV ℝ)) :
    closesOf (series.map (OHLCV.affine a b)) = (closesOf series).map (affine a b) := by
  simp only [closesOf, List.map_map]
  rfl

theorem closeWindow_affine (series : List (OHLCV ℝ)) (period i : ℕ) :
    closeWindow (series.map (OHLCV.affine a b)) period i =
      (closeWindow series period i).map (affine a b) := by
  rw [closeWindow, ← List.map_take, ← List.map_drop, closesOf_affine, closeWindow]

theorem noneValues_map (f : ℝ → ℝ) (dates : List Date) :
    (noneValues dates).map (IndicatorValue.map f) = noneValues dates := by
  simp only [noneValues, List.map_map]
  rfl

theorem noneBar_map (f : ℝ → ℝ) (series : List (OHLCV ℝ)) :
    (series.map (OHLCV.affine a b)).map noneBar =
      (series.map noneBar).map (IndicatorValue.map f) := by
  simp only [List.map_map]
  rfl

/-! ### Means and deviations -/

theorem mean_eq (values : List ℝ) : mean values = values.sum / values.length := by
  rw [mean, List.sum_eq_foldl]

theorem sum_scale (a : ℝ) (values : List ℝ) : (values.map fun x => a * x).sum = a * values.sum := by
  rw [List.sum_map_mul_left, List.map_id']

theorem mean_scale (a : ℝ) (values : List ℝ) :
    mean (values.map fun x => a * x) = a * mean values := by
  rw [mean_eq, mean_eq, sum_scale, List.length_map, mul_div_assoc]

theorem mean_affine {values : List ℝ} (hne : values ≠ []) :
    mean (values.map (affine a b)) = affine a b (mean values) := by
  have hlen : (values.length : ℝ) ≠ 0 :=
    Nat.cast_ne_zero.mpr (List.length_pos_iff.mpr hne).ne'
  have hsum : (values.map (affine a b)).sum = a * values.sum + values.length * b := by
    change (values.map fun x => a * x + b).sum = _
    rw [List.sum_map_add, sum_scale, List.map_const', List.sum_replicate, nsmul_eq_mul]
  rw [mean_eq, mean_eq, hsum, List.length_map, affine]
  field_simp

theorem squares_affine (values : List ℝ) (m s : ℝ) :
    (values.map (affine a b)).foldl
        (fun acc v => acc + (v - affine a b m) * (v - affine a b m)) (a * a * s) =
      a * a * values.foldl (fun acc v => acc + (v - m) * (v - m)) s := by
  rw [List.foldl_map]
  refine List.foldl_hom (a * a * ·) fun acc v => ?_
  rw [affine_sub]
  ring

theorem sampleStdDev_affine (ha : 0 < a) (values : List ℝ) :
    sampleStdDev (values.map (affine a b)) = a * sampleStdDev values := by
  unfold sampleStdDev
  rw [List.length_map]
  split_ifs with hlen
  · exact (mul_zero a).symm
  · have hne : values ≠ [] := by
      rintro rfl
      exact hlen Nat.two_pos
    have hsquares := squares_affine (a := a) (b := b) values (mean values) 0
    rw [mul_zero] at hsquares
    simp only [mean_affine hne, hsquares, sqrt_real]
    rw [mul_div_assoc, Real.sqrt_mul (mul_self_nonneg a), Real.sqrt_mul_self ha.le]

/-! ### Windowed values -/

theorem smaValues_affine (series : List (OHLCV ℝ)) (period : ℕ) :
    smaValues (series.map (OHLCV.affine a b)) period =
      (smaValues series period).map (IndicatorValue.map (affine a b)) := by
  unfold smaValues
  rw [List.length_map, datesFromSeries_affine]
  split_ifs with hshort
  · exact (noneValues_map _ _).symm
  · refine List.ext_getElem (by simp) fun i hi _ => ?_
    rw [List.length_mapIdx, List.length_map] at hi
    have hwindow : closeWindow series period i ≠ [] := closeWindow_ne_nil (by omega) hi
    simp only [List.getElem_mapIdx, List.getElem_map, closeWindow_affine, mean_affine hwindow,
      IndicatorValue.map]
    split_ifs <;> rfl

theorem bollingerSeries_affine (ha : 0 < a) (series : List (OHLCV ℝ)) (period stdDevCount : ℕ)
    {band : ℝ → ℝ → ℝ} (hband : ∀ m w, band (affine a b m) (a * w) = affine a b (band m w)) :
    bollingerSeries (series.map (OHLCV.affine a b)) period stdDevCount band =
      (bollingerSeries series period stdDevCount band).map (IndicatorValue.map (affine a b)) := by
  unfold bollingerSeries
  rw [List.length_map, datesFromSeries_affine]
  split_ifs with hshort
  · exact (noneValues_map _ _).symm
  · refine List.ext_getElem (by simp) fun i hi _ => ?_
    rw [List.length_mapIdx, List.length_map] at hi
    have hwindow : closeWindow series period i ≠ [] := closeWindow_ne_nil (by omega) hi
    simp only [List.getElem_mapIdx, List.getElem_map, closeWindow_affine, mean_affine hwindow,
      sampleStdDev_affine ha, mul_left_comm (stdDevCount : ℝ) a, hband, IndicatorValue.map]
    split_ifs <;> rfl

/-! ### Exponential averages and MACD -/

theorem emaStep_affine (period : ℕ) (multiplier seed : ℝ) (s : ℕ × ℝ) (x : Date × ℝ) :
    emaStep period multiplier (affine a b seed) (s.1, affine a b s.2) (x.1, affine a b x.2) =
      ((emaStep period multiplier seed s x).1.map (affine a b),
        (emaStep period multiplier seed s x).2.1,
        affine a b (emaStep period multiplier seed s x).2.2) := by
  have hnext : (affine a b x.2 - affine a b s.2) * multiplier + affine a b s.2 =
      affine a b ((x.2 - s.2) * multiplier + s.2) := by
    unfold affine
    ring
  unfold emaStep
  split_ifs
  · rfl
  · rfl
  · simp only [hnext]
    rfl

/-- The average before its first value is not read. -/
theorem scanLoop_emaStep_initial (period : ℕ) (multiplier seed ema ema' : ℝ) (i : ℕ)
    (hi : i < period) (l : List (Date × ℝ)) :
    scanLoop (emaStep period multiplier seed) (i, ema) l =
      scanLoop (emaStep period multiplier seed) (i, ema') l := by
  induction l generalizing i with
  | nil => rfl
  | cons x l ih =>
    by_cases hwarm : i + 1 < period
    · simp only [scanLoop, emaStep, hwarm, if_true, ih (i + 1) hwarm]
    · have hseed : i + 1 = period := by omega
      simp only [scanLoop, emaStep, hseed, lt_irrefl, if_true, if_false]

theorem emaValues_affine (closes : List ℝ) (dates : List Date) (period : ℕ) :
    emaValues (closes.map (affine a b)) dates period =
      (emaValues closes dates period).map (IndicatorValue.map (affine a b)) := by
  unfold emaValues
  rw [List.length_map]
  split_ifs with hshort
  · exact (noneValues_map _ dates).symm
  · have hloop := scanLoop_map (emaStep_affine (a := a) (b := b) period (emaMultiplier period)
      (mean (closes.take period))) (0, 0) (dates.zip closes)
    have hne : closes.take period ≠ [] := by
      refine List.ne_nil_of_length_pos ?_
      rw [List.length_take]
      omega
    rw [← List.map_take, mean_affine hne, List.zip_map_right,
      scanLoop_emaStep_initial period _ _ 0 (affine a b 0) 0 (by omega)]
    exact hloop

theorem emaOfOptionsStep_affine (period : ℕ) (multiplier : ℝ) (s : Option ℝ × ℕ × List ℝ)
    (iv : IndicatorValue ℝ) :
    emaOfOptionsStep period multiplier (s.1.map (affine a b), s.2.1, s.2.2.map (affine a b))
        (iv.map (affine a b)) =
      ((emaOfOptionsStep period multiplier s iv).1.map (affine a b),
        (emaOfOptionsStep period multiplier s iv).2.1.map (affine a b),
        (emaOfOptionsStep period multiplier s iv).2.2.1,
        (emaOfOptionsStep period multiplier s iv).2.2.2.map (affine a b)) := by
  obtain ⟨ema, seen, seedValues⟩ := s
  obtain ⟨date, value⟩ := iv
  cases value with
  | none => rfl
  | some v =>
    cases ema with
    | none =>
      have hseeds : seedValues.map (affine a b) ++ [affine a b v] =
          (seedValues ++ [v]).map (affine a b) := by
        rw [List.map_append, List.map_singleton]
      have hne : seedValues ++ [v] ≠ [] := List.append_ne_nil_of_right_ne_nil _ (by simp)
      simp only [emaOfOptionsStep, IndicatorValue.map, Option.map_some, Option.map_none, hseeds,
        mean_affine hne]
      split_ifs <;> rfl
    | some ema =>
      have hnext : (affine a b v - affine a b ema) * multiplier + affine a b ema =
          affine a b ((v - ema) * multiplier + ema) := by
        unfold affine
        ring
      simp only [emaOfOptionsStep, IndicatorValue.map, Option.map_some, hnext]

theorem emaOfOptions_affine (series : List (IndicatorValue ℝ)) (period : ℕ) :
    emaOfOptions (series.map (IndicatorValue.map (affine a b))) period =
      (emaOfOptions series period).map (IndicatorValue.map (affine a b)) := by
  unfold emaOfOptions
  split_ifs with hzero
  · rw [noneValues_map, List.map_map]
    rfl
  · exact scanLoop_map (emaOfOptionsStep_affine (a := a) (b := b) period (emaMultiplier period))
      (none, 0, []) series

/-- In a difference the zero of the prices cancels. -/
theorem differences_affine (dates : List Date) (xs ys : List (IndicatorValue ℝ)) :
    List.zipWith (fun d v => (⟨d, v⟩ : IndicatorValue ℝ)) dates
        (List.zipWith valueDiff (xs.map (IndicatorValue.map (affine a b)))
          (ys.map (IndicatorValue.map (affine a b)))) =
      (List.zipWith (fun d v => ⟨d, v⟩) dates
        (List.zipWith valueDiff xs ys)).map (IndicatorValue.map (affine a 0)) := by
  have hdiff : ∀ x y : IndicatorValue ℝ,
      valueDiff (x.map (affine a b)) (y.map (affine a b)) =
        (valueDiff x y).map (affine a 0) := by
    intro x y
    obtain ⟨_, x⟩ := x
    obtain ⟨_, y⟩ := y
    cases x <;> cases y <;> simp only [valueDiff, IndicatorValue.map, Option.map_none,
      Option.map_some, affine_sub, affine_zero]
  refine List.ext_getElem (by simp) fun i _ _ => ?_
  simp only [List.getElem_zipWith, List.getElem_map, hdiff]
  rfl

theorem macdSeries_affine (series : List (OHLCV ℝ)) (fast slow signal : ℕ) :
    macdSeries (series.map (OHLCV.affine a b)) fast slow signal =
      ((macdSeries series fast slow signal).1.map (IndicatorValue.map (affine a 0)),
        (macdSeries series fast slow signal).2.1.map (IndicatorValue.map (affine a 0)),
        (macdSeries series fast slow signal).2.2.map (IndicatorValue.map (affine a 0))) := by
  unfold macdSeries
  rw [List.length_map, datesFromSeries_affine, closesOf_affine]
  split_ifs with hshort
  · simp only [noneValues_map]
  · simp only [emaValues_affine, differences_affine, emaOfOptions_affine]

/-! ### The strength index -/

theorem rsiValue_scale (ha : 0 < a) (gain loss : ℝ) :
    rsiValue (a * gain) (a * loss) = rsiValue gain loss := by
  have hzero : (a * loss == 0) = (loss == 0) := by simp [ha.ne']
  unfold rsiValue
  rw [hzero, mul_div_mul_left gain loss ha.ne']

theorem gainLoss_scale (ha : 0 < a) (diff : ℝ) :
    gainLoss (a * diff) = (a * (gainLoss diff).1, a * (gainLoss diff).2) := by
  unfold gainLoss
  by_cases hdiff : 0 ≤ diff
  · rw [if_pos hdiff, if_pos (mul_nonneg ha.le hdiff), mul_zero]
  · rw [if_neg hdiff, if_neg (mt (nonneg_of_mul_nonneg_right · ha) hdiff), mul_zero, mul_neg]

theorem closeDiffs_affine (series : List (OHLCV ℝ)) :
    closeDiffs (series.map (OHLCV.affine a b)) = (closeDiffs series).map fun x => a * x := by
  rw [closeDiffs, closesOf_affine, closeDiffs]
  exact zipWith_tail_map _ (fun next prev => affine_sub a b next prev) (closesOf series)

/-- Wilder's average of a scaled average and a scaled value. -/
theorem smooth_scale (a : ℝ) (period : ℕ) (x g : ℝ) :
    (a * x * ((period - 1 : ℕ) : ℝ) + a * g) / (period : ℝ) =
      a * ((x * ((period - 1 : ℕ) : ℝ) + g) / (period : ℝ)) := by
  ring

theorem rsiStep_affine (ha : 0 < a) (period : ℕ) (s : ℝ × ℝ × ℝ) (bar : OHLCV ℝ) :
    rsiStep period (a * s.1, a * s.2.1, affine a b s.2.2) (bar.affine a b) =
      ((rsiStep period s bar).1, a * (rsiStep period s bar).2.1,
        a * (rsiStep period s bar).2.2.1, affine a b (rsiStep period s bar).2.2.2) := by
  simp only [rsiStep, OHLCV.affine, affine_sub, gainLoss_scale ha, smooth_scale,
    rsiValue_scale ha]

theorem rsiSeeds_affine (ha : 0 < a) (series : List (OHLCV ℝ)) (period : ℕ) :
    rsiSeeds (series.map (OHLCV.affine a b)) period =
      (a * (rsiSeeds series period).1, a * (rsiSeeds series period).2) := by
  have hseeds : ((closeDiffs (series.map (OHLCV.affine a b))).take period).map gainLoss =
      (((closeDiffs series).take period).map gainLoss).map fun gl => (a * gl.1, a * gl.2) := by
    rw [closeDiffs_affine, ← List.map_take, List.map_map, List.map_map]
    exact List.map_congr_left fun diff _ => gainLoss_scale ha diff
  simp only [rsiSeeds, hseeds]
  rw [← mean_scale, ← mean_scale]
  simp only [List.map_map]
  rfl

theorem rsiTail_affine (ha : 0 < a) (period : ℕ) (seeds : ℝ × ℝ) (series : List (OHLCV ℝ)) :
    rsiTail period (a * seeds.1, a * seeds.2) (series.map (OHLCV.affine a b)) =
      rsiTail period seeds series := by
  cases series with
  | nil => rfl
  | cons bar rest =>
    have hloop := scanLoop_map (k := id) (rsiStep_affine (b := b) ha period)
      (seeds.1, seeds.2, bar.close) rest
    rw [List.map_id] at hloop
    simp only [List.map_cons, rsiTail, rsiValue_scale ha]
    exact congrArg _ hloop

theorem rsiValues_affine (ha : 0 < a) (series : List (OHLCV ℝ)) (period : ℕ) :
    rsiValues (series.map (OHLCV.affine a b)) period = rsiValues series period := by
  have hnone : ∀ bars : List (OHLCV ℝ), (bars.map (OHLCV.affine a b)).map noneBar =
      bars.map (noneBar (K := ℝ)) := by
    intro bars
    rw [List.map_map]
    rfl
  rw [rsiValues_eq, rsiValues_eq, List.length_map, rsiSeeds_affine ha, ← List.map_take,
    ← List.map_drop, rsiTail_affine ha, hnone, hnone]

/-! ### True range, balance and average price -/

theorem trueRange_affine (ha : 0 < a) (bar prev : OHLCV ℝ) :
    trueRange (bar.affine a b) (prev.affine a b) = a * trueRange bar prev := by
  simp only [trueRange, OHLCV.affine, affine_sub, stdMax_real, abs_real, abs_mul, abs_of_pos ha,
    mul_max_of_nonneg _ _ ha.le]

theorem trueRanges_affine (ha : 0 < a) (series : List (OHLCV ℝ)) :
    trueRanges (series.map (OHLCV.affine a b)) = (trueRanges series).map fun x => a * x := by
  exact zipWith_tail_map trueRange (trueRange_affine ha) series

theorem atrStep_affine (ha : 0 < a) (period : ℕ) (s : ℝ × OHLCV ℝ) (bar : OHLCV ℝ) :
    atrStep period (a * s.1, s.2.affine a b) (bar.affine a b) =
      ((atrStep period s bar).1.map (a * ·), a * (atrStep period s bar).2.1,
        (atrStep period s bar).2.2.affine a b) := by
  simp only [atrStep, trueRange_affine ha, smooth_scale]
  rfl

theorem atrTail_affine (ha : 0 < a) (period : ℕ) (atr : ℝ) (series : List (OHLCV ℝ)) :
    atrTail period (a * atr) (series.map (OHLCV.affine a b)) =
      (atrTail period atr series).map (IndicatorValue.map (a * ·)) := by
  cases series with
  | nil => rfl
  | cons bar rest =>
    exact congrArg _ (scanLoop_map (atrStep_affine (b := b) ha period) (atr, bar) rest)

theorem atrValues_affine (ha : 0 < a) (series : List (OHLCV ℝ)) (period : ℕ) :
    atrValues (series.map (OHLCV.affine a b)) period =
      (atrValues series period).map (IndicatorValue.map (a * ·)) := by
  have hseed : atrSeed (series.map (OHLCV.affine a b)) period = a * atrSeed series period := by
    rw [atrSeed, trueRanges_affine ha, ← List.map_take, mean_scale, atrSeed]
  rw [atrValues_eq, atrValues_eq, List.length_map, hseed]
  split_ifs with hshort
  · exact noneBar_map _ series
  · rw [List.map_append, ← noneBar_map (a := a) (b := b), ← List.map_take, ← List.map_drop,
      atrTail_affine ha]

theorem obvStep_affine (ha : 0 < a) (s : ℝ × ℝ) (bar : OHLCV ℝ) :
    obvStep (s.1, affine a b s.2) (bar.affine a b) =
      ((obvStep s bar).1, (obvStep s bar).2.1, affine a b (obvStep s bar).2.2) := by
  simp only [obvStep, OHLCV.affine, affine_lt_affine ha, volumeOf]

theorem obvValues_affine (ha : 0 < a) (series : List (OHLCV ℝ)) :
    obvValues (series.map (OHLCV.affine a b)) = obvValues series := by
  cases series with
  | nil => rfl
  | cons bar rest =>
    have hloop := scanLoop_map (k := id) (obvStep_affine (b := b) ha) (volumeOf bar, bar.close) rest
    rw [List.map_id] at hloop
    exact congrArg (⟨bar.date, some (volumeOf bar)⟩ :: ·) hloop

theorem vwapStep_affine (s : ℝ × ℝ) (bar : OHLCV ℝ) :
    vwapStep (a * s.1 + b * s.2, s.2) (bar.affine a b) =
      ((vwapStep s bar).1.map (affine a b), a * (vwapStep s bar).2.1 + b * (vwapStep s bar).2.2,
        (vwapStep s bar).2.2) := by
  have hvolume : volumeOf (bar.affine a b) = volumeOf bar := rfl
  have hsum : a * s.1 + b * s.2 +
      ((bar.affine a b).high + (bar.affine a b).low + (bar.affine a b).close) / ((3 : ℕ) : ℝ) *
        volumeOf bar =
      a * (s.1 + (bar.high + bar.low + bar.close) / ((3 : ℕ) : ℝ) * volumeOf bar) +
        b * (s.2 + volumeOf bar) := by
    simp only [OHLCV.affine, affine]
    push_cast
    ring
  simp only [vwapStep, hvolume, hsum]
  generalize s.2 + volumeOf bar = volume
  generalize s.1 + (bar.high + bar.low + bar.close) / ((3 : ℕ) : ℝ) * volumeOf bar = tpVolume
  by_cases hzero : volume = 0
  · simp only [hzero, bne_self_eq_false, Bool.false_eq_true, if_false]
    rfl
  · have hdiv : (a * tpVolume + b * volume) / volume = affine a b (tpVolume / volume) := by
      unfold affine
      field_simp
    simp only [bne_iff_ne, ne_eq, hzero, not_false_eq_true, if_true, hdiv]
    rfl

theorem vwapValues_affine (series : List (OHLCV ℝ)) :
    scanLoop vwapStep (0, 0) (series.map (OHLCV.affine a b)) =
      (scanLoop vwapStep (0, 0) series).map (IndicatorValue.map (affine a b)) := by
  have hloop := scanLoop_map (vwapStep_affine (a := a) (b := b)) (0, 0) series
  simpa only [mul_zero, add_zero] using hloop

/-! ### The results of the calculators -/

section Results
variable (a b) (series : List (OHLCV ℝ)) (params : ParamMap ℝ)

theorem calculateSMA_affine :
    calculateSMA (series.map (OHLCV.affine a b)) params =
      (calculateSMA series params).map (IndicatorResult.map (affine a b)) := by
  rw [calculateSMA, calculateSMA, map_bind]
  refine bind_congr fun period => ?_
  rw [smaValues_affine]
  rfl

theorem calculateEMA_affine :
    calculateEMA (series.map (OHLCV.affine a b)) params =
      (calculateEMA series params).map (IndicatorResult.map (affine a b)) := by
  rw [calculateEMA, calculateEMA, map_bind]
  refine bind_congr fun period => ?_
  rw [emaSeries_eq, emaSeries_eq, closesOf_affine, datesFromSeries_affine, emaValues_affine]
  rfl

theorem calculateBollinger_affine (ha : 0 < a) :
    calculateBollinger (series.map (OHLCV.affine a b)) params =
      (calculateBollinger series params).map (IndicatorResult.map (affine a b)) := by
  rw [calculateBollinger, calculateBollinger, map_bind]
  refine bind_congr fun period => ?_
  rw [map_bind]
  refine bind_congr fun stdDevCount => ?_
  have hmiddle := @bollingerSeries_affine a b ha series period stdDevCount
    (fun middle _ => middle) (fun _ _ => rfl)
  have hupper := @bollingerSeries_affine a b ha series period stdDevCount
    (fun middle width => middle + width) (fun m w => by unfold affine; ring)
  have hlower := @bollingerSeries_affine a b ha series period stdDevCount
    (fun middle width => middle - width) (fun m w => by unfold affine; ring)
  rw [hmiddle, hupper, hlower]
  rfl

theorem calculateVWAP_affine :
    calculateVWAP (series.map (OHLCV.affine a b)) params =
      (calculateVWAP series params).map (IndicatorResult.map (affine a b)) := by
  rw [calculateVWAP, calculateVWAP, vwapValues_affine]
  rfl

theorem calculateMACD_affine :
    calculateMACD (series.map (OHLCV.affine a b)) params =
      (calculateMACD series params).map (IndicatorResult.map (a * ·)) := by
  rw [calculateMACD, calculateMACD, map_bind]
  refine bind_congr fun fast => ?_
  rw [map_bind]
  refine bind_congr fun slow => ?_
  rw [map_bind]
  refine bind_congr fun signal => ?_
  rw [macdSeries_affine, affine_zero]
  rfl

theorem calculateATR_affine (ha : 0 < a) :
    calculateATR (series.map (OHLCV.affine a b)) params =
      (calculateATR series params).map (IndicatorResult.map (a * ·)) := by
  rw [calculateATR, calculateATR, map_bind]
  refine bind_congr fun period => ?_
  rw [atrValues_affine ha]
  rfl

theorem calculateRSI_affine (ha : 0 < a) :
    calculateRSI (series.map (OHLCV.affine a b)) params = calculateRSI series params := by
  rw [calculateRSI, calculateRSI]
  refine bind_congr fun period => ?_
  rw [rsiValues_affine ha]

theorem calculateOBV_affine (ha : 0 < a) :
    calculateOBV (series.map (OHLCV.affine a b)) params = calculateOBV series params := by
  rw [calculateOBV_eq, calculateOBV_eq, obvValues_affine ha]

end Results

/-- Prices in another unit and from another zero give the same answers in that
unit and from that zero: the same errors, the same bars without a value, and
every value moved as a price level, as a price difference or not at all. -/
theorem calculate_affine (ha : 0 < a) (b : ℝ) (series : List (OHLCV ℝ)) (params : ParamMap ℝ) :
    (∀ name ∈ ["sma", "ema", "bollinger_bands", "vwap"],
      calculate name (series.map (OHLCV.affine a b)) params =
        (calculate name series params).map (IndicatorResult.map (affine a b))) ∧
    (∀ name ∈ ["macd", "atr"],
      calculate name (series.map (OHLCV.affine a b)) params =
        (calculate name series params).map (IndicatorResult.map (a * ·))) ∧
    (∀ name ∈ ["rsi", "obv"],
      calculate name (series.map (OHLCV.affine a b)) params = calculate name series params) := by
  simp only [List.forall_mem_cons, List.not_mem_nil, false_implies, implies_true, and_true,
    calculate_sma, calculate_ema, calculate_bollinger, calculate_vwap, calculate_macd,
    calculate_atr, calculate_rsi, calculate_obv]
  exact ⟨⟨calculateSMA_affine a b series params, calculateEMA_affine a b series params,
      calculateBollinger_affine a b series params ha, calculateVWAP_affine a b series params⟩,
    ⟨calculateMACD_affine a b series params, calculateATR_affine a b series params ha⟩,
    calculateRSI_affine a b series params ha, calculateOBV_affine a b series params ha⟩

/-- Three bars quoted in a unit of which two make one, and from a zero at -32. -/
theorem calculate_affine_fahrenheit :
    (∃ r date x, calculate "ema" turningBars turningParams = .ok r ∧
      r.values[2]? = some ⟨date, some x⟩ ∧
      calculate "ema" (turningBars.map (OHLCV.affine 2 32)) turningParams =
        .ok (r.map (affine 2 32))) ∧
    (∃ r date x, calculate "atr" turningBars turningParams = .ok r ∧
      r.values[2]? = some ⟨date, some x⟩ ∧
      calculate "atr" (turningBars.map (OHLCV.affine 2 32)) turningParams =
        .ok (r.map (2 * ·))) := by
  obtain ⟨hlevels, hdifferences, -⟩ := calculate_affine two_pos 32 turningBars turningParams
  obtain ⟨ema, date, x, hema, hx⟩ := (yields_ema turningBars (usesParam_turning 20)).value
    (i := 2) (by decide) (by decide)
  obtain ⟨atr, date', y, hatr, hy⟩ := (yields_atr turningBars (usesParam_turning 14)).value
    (i := 2) (by decide) (by decide)
  refine ⟨⟨ema, date, x, hema, hx, ?_⟩, ⟨atr, date', y, hatr, hy, ?_⟩⟩
  · rw [hlevels "ema" (by decide), hema]
    rfl
  · rw [hdifferences "atr" (by decide), hatr]
    rfl

end StandardTools.Indicators
