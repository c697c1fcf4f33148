import StandardTools.Indicators.Calculator
import StandardTools.Lib.Except

/-!
# Causality of the indicator series

Each series which the strategies read is a causal function of the price series.
The early return on a short series agrees with the main path because the main
path leaves the same bars empty.
-/

namespace StandardTools.Indicators
open StandardTools.Core Lib

variable {K : Type} [Double K]

def noneBar (bar : OHLCV K) : IndicatorValue K := ⟨bar.date, none⟩

omit [Double K] in
theorem noneValues_dates (series : List (OHLCV K)) :
    noneValues (datesFromSeries series) = series.map noneBar := by
  simp only [noneValues, datesFromSeries, List.map_map]
  rfl

omit [Double K] in
theorem closesOf_append (xs ys : List (OHLCV K)) :
    closesOf (xs ++ ys) = closesOf xs ++ closesOf ys := List.map_append

omit [Double K] in
theorem closesOf_singleton (bar : OHLCV K) : closesOf [bar] = [bar.close] := rfl

omit [Double K] in
theorem take_closesOf_append (xs ys : List (OHLCV K)) {n : ℕ} (h : n ≤ xs.length) :
    (closesOf (xs ++ ys)).take n = (closesOf xs).take n := by
  rw [closesOf_append, List.take_append_of_le_length]
  simpa only [closesOf, List.length_map] using h

/-! ### Window averages -/

omit [Double K] in
theorem closeWindow_append (xs ys : List (OHLCV K)) (period : ℕ) {i : ℕ} (hi : i < xs.length) :
    closeWindow (xs ++ ys) period i = closeWindow xs period i := by
  rw [closeWindow, closeWindow, List.take_append_of_le_length (by omega)]

omit [Double K] in
theorem closeWindow_ne_nil {series : List (OHLCV K)} {period i : ℕ} (hp : 0 < period)
    (hi : i < series.length) : closeWindow series period i ≠ [] := by
  refine List.ne_nil_of_length_pos ?_
  rw [closeWindow, closesOf, List.length_map, List.length_drop, List.length_take]
  omega

omit [Double K] in
/-- Series which evaluate the window of the last `period` closes at every bar. -/
theorem causal_windowed (c : Prop) [Decidable c] (period : ℕ) (v : List K → K) :
    Causal (fun series : List (OHLCV K) =>
      if c ∨ series.length < period then series.map noneBar
      else series.mapIdx fun i bar =>
        ⟨bar.date, if i + 1 < period then none
          else some (v (closeWindow series period i))⟩) := by
  have hmap : Causal (fun series : List (OHLCV K) => series.mapIdx fun i bar =>
      (⟨bar.date, if i + 1 < period then none
        else some (v (closeWindow series period i))⟩ : IndicatorValue K)) :=
    Causal.mapIdx (fun xs ys i x hi => by rw [closeWindow_append xs ys period hi])
  refine Causal.guard_of_eq hmap (fun xs hshort => ?_)
  refine List.ext_getElem (by simp) (fun i hi _ => ?_)
  rw [List.length_mapIdx] at hi
  have hwarm : i + 1 < period := by omega
  simp only [List.getElem_mapIdx, List.getElem_map, hwarm, if_true, noneBar]

theorem causal_smaValues (period : ℕ) :
    Causal (fun series : List (OHLCV K) => smaValues series period) := by
  have h := causal_windowed (K := K) (period = 0) period mean
  simpa only [smaValues, noneValues_dates] using h

theorem causal_bollingerSeries (period stdDevCount : ℕ) (band : K → K → K) :
    Causal (fun series : List (OHLCV K) => bollingerSeries series period stdDevCount band) := by
  have h := causal_windowed (period = 0) period
    (fun window => band (mean window) ((stdDevCount : K) * sampleStdDev window))
  simpa only [bollingerSeries, noneValues_dates] using h

/-! ### Relative strength -/

theorem take_closeDiffs (series : List (OHLCV K)) (n : ℕ) :
    (closeDiffs series).take n = closeDiffs (series.take (n + 1)) := by
  rw [closeDiffs, take_zipWith_tail, closeDiffs, closesOf, closesOf, List.map_take]

theorem closeDiffs_take_append (xs ys : List (OHLCV K)) {n : ℕ} (h : n + 1 ≤ xs.length) :
    (closeDiffs (xs ++ ys)).take n = (closeDiffs xs).take n := by
  rw [take_closeDiffs, take_closeDiffs, List.take_append_of_le_length h]

def rsiSeeds (series : List (OHLCV K)) (period : ℕ) : K × K :=
  let seeds := ((closeDiffs series).take period).map gainLoss
  (mean (seeds.map (·.1)), mean (seeds.map (·.2)))

theorem rsiSeeds_append (xs ys : List (OHLCV K)) {period : ℕ} (h : period + 1 ≤ xs.length) :
    rsiSeeds (xs ++ ys) period = rsiSeeds xs period := by
  simp only [rsiSeeds, closeDiffs_take_append xs ys h]

def rsiTail (period : ℕ) (seeds : K × K) : List (OHLCV K) → List (IndicatorValue K)
  | [] => []
  | bar :: rest =>
    ⟨bar.date, some (rsiValue seeds.1 seeds.2)⟩ ::
      scanLoop (rsiStep period) (seeds.1, seeds.2, bar.close) rest

theorem causal_rsiTail (period : ℕ) (seeds : K × K) : Causal (rsiTail (K := K) period seeds) := by
  have h : rsiTail period seeds = seededLoop
      (fun bar : OHLCV K => ⟨bar.date, some (rsiValue seeds.1 seeds.2)⟩)
      (fun bar => (seeds.1, seeds.2, bar.close)) (rsiStep period) := by
    funext series
    cases series with
    | nil => rfl
    | cons bar rest => rfl
  rw [h]
  exact causal_seededLoop _ _ _

theorem rsiValues_eq (series : List (OHLCV K)) (period : ℕ) :
    rsiValues series period =
      if period = 0 ∨ series.length < period + 1 then series.map noneBar
      else (series.take period).map noneBar ++
        rsiTail period (rsiSeeds series period) (series.drop period) := by
  simp only [rsiValues, noneValues_dates, rsiSeeds]
  split_ifs with h
  · rfl
  · cases hd : series.drop period with
    | nil => rfl
    | cons bar rest => rfl

theorem causal_rsiValues (period : ℕ) :
    Causal (fun series : List (OHLCV K) => rsiValues series period) := by
  simp only [rsiValues_eq]
  exact Causal.warmup (causal_rsiTail period)
    (fun xs ys hxs => rsiSeeds_append xs ys hxs)

/-! ### Exponential averages and MACD -/

theorem scanLoop_emaStep_warmup (period : ℕ) (multiplier seed : K) (i : ℕ) (ema : K)
    (l : List (Date × K)) (h : i + l.length < period) :
    scanLoop (emaStep period multiplier seed) (i, ema) l = l.map fun x => ⟨x.1, none⟩ := by
  induction l generalizing i with
  | nil => rfl
  | cons x l ih =>
    rw [List.length_cons] at h
    have hi : i + 1 < period := by omega
    simp only [scanLoop, emaStep, hi, if_true, List.map_cons]
    rw [ih (i + 1) (by omega)]

omit [Double K] in
theorem zip_dates_closes (series : List (OHLCV K)) :
    (datesFromSeries series).zip (closesOf series) =
      series.map fun bar => (bar.date, bar.close) := by
  simp only [datesFromSeries, closesOf, List.zip_map']

theorem emaSeriesStep_eq (series : List (OHLCV K)) (period : ℕ) (multiplier : K) (s : ℕ × K)
    (bar : OHLCV K) :
    emaSeriesStep series period multiplier s bar =
      emaStep period multiplier (mean ((closesOf series).take period)) s
        (bar.date, bar.close) := by
  have hwindow : closesOf (series.take period) = (closesOf series).take period := List.map_take
  unfold emaSeriesStep emaStep
  split_ifs with hwarm hseed
  · rfl
  · rw [hseed, hwindow]
  · rfl

/-- The loop of `CalculateEMA` on the bars and the loop of `EmaValues` on their
closes push the same values. -/
theorem emaSeries_eq (series : List (OHLCV K)) (period : ℕ) :
    emaSeries series period = emaValues (closesOf series) (datesFromSeries series) period := by
  have hlen : (closesOf series).length = series.length := List.length_map _
  have hloop : ∀ (s : ℕ × K) (bars : List (OHLCV K)),
      scanLoop (emaSeriesStep series period (emaMultiplier period)) s bars =
        scanLoop (emaStep period (emaMultiplier period) (mean ((closesOf series).take period))) s
          (bars.map fun bar => (bar.date, bar.close)) := by
    intro s bars
    induction bars generalizing s with
    | nil => rfl
    | cons bar rest ih => simp only [List.map_cons, scanLoop, emaSeriesStep_eq, ih]
  rw [emaSeries, emaValues, hlen, zip_dates_closes, hloop]

theorem causal_emaValues (period : ℕ) :
    Causal (fun series : List (OHLCV K) =>
      emaValues (closesOf series) (datesFromSeries series) period) := by
  have hlen (series : List (OHLCV K)) : (closesOf series).length = series.length :=
    List.length_map _
  simp only [emaValues, noneValues_dates, zip_dates_closes, hlen]
  refine Causal.guard ?_ ?_ ?_
  · intro xs _
    rw [length_scanLoop, List.length_map]
  · intro xs ys hxs
    rw [take_closesOf_append xs ys hxs, List.map_append, scanLoop_append]
    exact List.prefix_append _ _
  · intro xs ys hxs _
    rw [List.map_append, scanLoop_append, scanLoop_emaStep_warmup]
    · simp only [List.map_map, Function.comp_def]
      exact List.prefix_append _ _
    · rw [List.length_map]
      omega

theorem causal_emaOfOptions (period : ℕ) :
    Causal (fun values : List (IndicatorValue K) => emaOfOptions values period) := by
  by_cases hp : period = 0
  · simp only [emaOfOptions, hp, if_true, noneValues, List.map_map]
    exact Causal.map _
  · simp only [emaOfOptions, hp, if_false]
    exact causal_scanLoop _ _

theorem emaValues_short (series : List (OHLCV K)) {period : ℕ} (h : series.length < period) :
    emaValues (closesOf series) (datesFromSeries series) period = series.map noneBar := by
  have hlen : (closesOf series).length < period := by
    rw [closesOf, List.length_map]
    exact h
  rw [emaValues, if_pos (Or.inr hlen), noneValues_dates]

theorem emaOfOptions_none (series : List (OHLCV K)) (period : ℕ) :
    emaOfOptions (series.map noneBar) period = series.map (noneBar (K := K)) := by
  by_cases hp : period = 0
  · simp only [emaOfOptions, hp, if_true, noneValues, List.map_map]
    rfl
  · simp only [emaOfOptions, hp, if_false]
    induction series with
    | nil => rfl
    | cons bar rest ih => simp only [List.map_cons, scanLoop, emaOfOptionsStep, noneBar, ih]

def macdLine (fast slow : ℕ) (series : List (OHLCV K)) : List (IndicatorValue K) :=
  List.zipWith (fun d v => ⟨d, v⟩) (datesFromSeries series)
    (List.zipWith valueDiff (emaValues (closesOf series) (datesFromSeries series) fast)
      (emaValues (closesOf series) (datesFromSeries series) slow))

theorem causal_macdLine (fast slow : ℕ) : Causal (macdLine (K := K) fast slow) :=
  Causal.zipWith _ (Causal.map _)
    (Causal.zipWith _ (causal_emaValues fast) (causal_emaValues slow))

theorem macdLine_short (series : List (OHLCV K)) (fast : ℕ) {slow : ℕ}
    (h : series.length < slow) : macdLine fast slow series = series.map noneBar := by
  have hlen := (causal_emaValues (K := K) fast).length_eq series
  rw [macdLine, emaValues_short series h]
  generalize emaValues (closesOf series) (datesFromSeries series) fast = ema at hlen
  refine List.ext_getElem (by simp [datesFromSeries, hlen]) (fun i hi _ => ?_)
  simp [datesFromSeries, valueDiff, noneBar]

theorem macdSeries_eq (series : List (OHLCV K)) (fast slow signal : ℕ) :
    macdSeries series fast slow signal =
      if (fast = 0 ∨ slow = 0 ∨ signal = 0) ∨ series.length < slow then
        (series.map noneBar, series.map noneBar, series.map noneBar)
      else
        (macdLine fast slow series, emaOfOptions (macdLine fast slow series) signal,
          List.zipWith (fun d v => ⟨d, v⟩) (datesFromSeries series)
            (List.zipWith valueDiff (macdLine fast slow series)
              (emaOfOptions (macdLine fast slow series) signal))) := by
  simp only [macdSeries, noneValues_dates, or_assoc, macdLine]

theorem causal_macdSeries_line (fast slow signal : ℕ) :
    Causal (fun series : List (OHLCV K) => (macdSeries series fast slow signal).1) := by
  simp only [macdSeries_eq, apply_ite Prod.fst]
  exact Causal.guard_of_eq (causal_macdLine fast slow)
    (fun xs h => macdLine_short xs fast h)

theorem causal_macdSeries_signal (fast slow signal : ℕ) :
    Causal (fun series : List (OHLCV K) => (macdSeries series fast slow signal).2.1) := by
  simp only [macdSeries_eq, apply_ite Prod.snd, apply_ite Prod.fst]
  refine Causal.guard_of_eq
    (Causal.comp (causal_emaOfOptions signal) (causal_macdLine fast slow)) (fun xs h => ?_)
  rw [macdLine_short xs fast h, emaOfOptions_none]

theorem valueDiff_none_left (bar : OHLCV K) (b : IndicatorValue K) :
    valueDiff (noneBar bar) b = none := rfl

theorem causal_macdSeries_histogram (fast slow signal : ℕ) :
    Causal (fun series : List (OHLCV K) => (macdSeries series fast slow signal).2.2) := by
  simp only [macdSeries_eq, apply_ite Prod.snd]
  have hsignal := Causal.comp (causal_emaOfOptions signal) (causal_macdLine (K := K) fast slow)
  refine Causal.guard_of_eq
    (Causal.zipWith _ (Causal.map _) (Causal.zipWith _ (causal_macdLine fast slow) hsignal))
    (fun xs h => ?_)
  -- below the slow period the line has no value, and a difference with no value is none
  rw [macdLine_short xs fast h, emaOfOptions_none]
  refine List.ext_getElem (by simp [datesFromSeries]) (fun i hi _ => ?_)
  simp only [datesFromSeries, List.getElem_zipWith, List.getElem_map, valueDiff_none_left]
  rfl

/-! ### True range, balance and average price -/

def trueRanges (series : List (OHLCV K)) : List K := List.zipWith trueRange series.tail series

theorem take_trueRanges (series : List (OHLCV K)) (n : ℕ) :
    (trueRanges series).take n = trueRanges (series.take (n + 1)) :=
  take_zipWith_tail trueRange series n

def atrSeed (series : List (OHLCV K)) (period : ℕ) : K := mean ((trueRanges series).take period)

theorem atrSeed_append (xs ys : List (OHLCV K)) {period : ℕ} (h : period + 1 ≤ xs.length) :
    atrSeed (xs ++ ys) period = atrSeed xs period := by
  rw [atrSeed, atrSeed, take_trueRanges, take_trueRanges, List.take_append_of_le_length h]

def atrTail (period : ℕ) (atr : K) : List (OHLCV K) → List (IndicatorValue K) :=
  seededLoop (fun bar => ⟨bar.date, some atr⟩) (fun bar => (atr, bar)) (atrStep period)

theorem atrValues_eq (series : List (OHLCV K)) (period : ℕ) :
    atrValues series period =
      if period = 0 ∨ series.length < period + 1 then series.map noneBar
      else (series.take period).map noneBar ++
        atrTail period (atrSeed series period) (series.drop period) := by
  simp only [atrValues, noneValues_dates, atrSeed, trueRanges]
  split_ifs with h
  · rfl
  · cases hd : series.drop period with
    | nil => rfl
    | cons bar rest => rfl

theorem causal_atrValues (period : ℕ) :
    Causal (fun series : List (OHLCV K) => atrValues series period) := by
  simp only [atrValues_eq]
  exact Causal.warmup (fun atr => causal_seededLoop _ _ _)
    (fun xs ys hxs => atrSeed_append xs ys hxs)

def obvValues : List (OHLCV K) → List (IndicatorValue K) :=
  seededLoop (fun bar => ⟨bar.date, some (volumeOf bar)⟩)
    (fun bar => (volumeOf bar, bar.close)) obvStep

theorem calculateOBV_eq (series : List (OHLCV K)) (params : ParamMap K) :
    calculateOBV series params = .ok ⟨"obv", params, obvValues series, []⟩ := by
  cases series with
  | nil => rfl
  | cons bar rest => rfl

/-! ### The results of the calculators -/

/-- `r'` was computed on `n` bars and more, `r` on the first `n` of them: each
series of `r'` starts with the series of `r` under the same key. -/
structure IndicatorResult.Extends (n : ℕ) (r r' : IndicatorResult K) : Prop where
  length_values : r.values.length = n
  values : r'.values.take n = r.values
  extraSeries : r'.extraSeries.map (fun e => (e.1, e.2.take n)) = r.extraSeries

def CausalCalculator (compute : List (OHLCV K) → Except Error (IndicatorResult K)) : Prop :=
  ∀ s t r r', compute s = .ok r → compute (s ++ t) = .ok r' → r.Extends s.length r'

omit [Double K] in
theorem CausalCalculator.ok (name : String) (params : ParamMap K)
    {values : List (OHLCV K) → List (IndicatorValue K)}
    {extras : List (String × (List (OHLCV K) → List (IndicatorValue K)))}
    (hvalues : Causal values) (hextras : ∀ e ∈ extras, Causal e.2) :
    CausalCalculator (fun series =>
      .ok ⟨name, params, values series, extras.map fun e => (e.1, e.2 series)⟩) := by
  intro s t r r' hs hst
  cases hs
  cases hst
  constructor
  case length_values => exact hvalues.length_eq s
  case values => exact hvalues.take_length s t
  case extraSeries =>
    rw [List.map_map]
    refine List.map_congr_left (fun e he => ?_)
    rw [Function.comp_apply, (hextras e he).take_length s t]

omit [Double K] in
theorem CausalCalculator.bind {α : Type} {x : Except Error α}
    {f : α → List (OHLCV K) → Except Error (IndicatorResult K)}
    (hf : ∀ a, CausalCalculator (f a)) : CausalCalculator (fun series => x >>= fun a => f a series) := by
  intro s t r r' hs hst
  obtain ⟨a, ha, hr⟩ := bind_eq_ok.mp hs
  obtain ⟨a', ha', hr'⟩ := bind_eq_ok.mp hst
  rw [ha] at ha'
  cases ha'
  exact hf a s t r r' hr hr'

omit [Double K] in
theorem CausalCalculator.single (name : String) (params : ParamMap K)
    {values : List (OHLCV K) → List (IndicatorValue K)} (hvalues : Causal values) :
    CausalCalculator (fun series => .ok ⟨name, params, values series, []⟩) :=
  @CausalCalculator.ok K name params values [] hvalues (fun _ he => absurd he List.not_mem_nil)

omit [Double K] in
theorem CausalCalculator.double (name : String) (params : ParamMap K) {key key' : String}
    {values extra extra' : List (OHLCV K) → List (IndicatorValue K)} (hvalues : Causal values)
    (hextra : Causal extra) (hextra' : Causal extra') :
    CausalCalculator (fun series =>
      .ok ⟨name, params, values series, [(key, extra series), (key', extra' series)]⟩) := by
  refine @CausalCalculator.ok K name params values [(key, extra), (key', extra')] hvalues ?_
  intro e he
  rcases List.mem_cons.mp he with rfl | he
  · exact hextra
  · rw [List.mem_singleton.mp he]
    exact hextra'

theorem causal_calculateSMA (params : ParamMap K) :
    CausalCalculator (fun series => calculateSMA series params) :=
  .bind (fun period => .single "sma" _ (causal_smaValues period))

theorem causal_calculateEMA (params : ParamMap K) :
    CausalCalculator (fun series => calculateEMA series params) := by
  simp only [calculateEMA, emaSeries_eq]
  exact .bind (fun period => .single "ema" _ (causal_emaValues period))

theorem causal_calculateRSI (params : ParamMap K) :
    CausalCalculator (fun series => calculateRSI series params) :=
  .bind (fun period => .single "rsi" _ (causal_rsiValues period))

theorem causal_calculateMACD (params : ParamMap K) :
    CausalCalculator (fun series => calculateMACD series params) :=
  .bind (fun fast => .bind (fun slow => .bind (fun signal =>
    .double "macd" _ (causal_macdSeries_line fast slow signal)
      (causal_macdSeries_signal fast slow signal) (causal_macdSeries_histogram fast slow signal))))

theorem causal_calculateBollinger (params : ParamMap K) :
    CausalCalculator (fun series => calculateBollinger series params) :=
  .bind (fun period => .bind (fun stdDevCount =>
    .double "bollinger_bands" _ (causal_bollingerSeries period stdDevCount _)
      (causal_bollingerSeries period stdDevCount _) (causal_bollingerSeries period stdDevCount _)))

theorem causal_calculateATR (params : ParamMap K) :
    CausalCalculator (fun series => calculateATR series params) :=
  .bind (fun period => .single "atr" _ (causal_atrValues period))

theorem causal_calculateOBV (params : ParamMap K) :
    CausalCalculator (fun series => calculateOBV series params) := by
  simp only [calculateOBV_eq]
  exact .single "obv" params (causal_seededLoop _ _ _)

theorem causal_calculateVWAP (params : ParamMap K) :
    CausalCalculator (fun series => calculateVWAP series params) :=
  .single "vwap" params (causal_scanLoop _ _)

/-- The bars appended to a series change nothing which an indicator says of the
bars before them, whichever indicator and parameters. -/
theorem calculate_causal (name : String) (params : ParamMap K) (s t : List (OHLCV K))
    (r r' : IndicatorResult K) (hs : calculate name s params = .ok r)
    (hst : calculate name (s ++ t) params = .ok r') : r.Extends s.length r' := by
  unfold calculate at hs hst
  split_ifs at hs hst
  · exact causal_calculateSMA params s t r r' hs hst
  · exact causal_calculateEMA params s t r r' hs hst
  · exact causal_calculateRSI params s t r r' hs hst
  · exact causal_calculateMACD params s t r r' hs hst
  · exact causal_calculateBollinger params s t r r' hs hst
  · exact causal_calculateATR params s t r r' hs hst
  · exact causal_calculateOBV params s t r r' hs hst
  · exact causal_calculateVWAP params s t r r' hs hst

/-- The slow period of `crossingParams` ends on the second bar. -/
def crossingBars : List (OHLCV ℚ) :=
  [⟨0, 10, 10, 10, 10, 1⟩, ⟨1, 12, 12, 12, 12, 1⟩, ⟨2, 9, 9, 9, 9, 1⟩]

def crossingParams : ParamMap ℚ := .ofList [("fast", 1), ("slow", 2), ("signal", 1)]

theorem calculate_causal_crossing :
    ∃ r r', calculate "macd" (crossingBars.take 2) crossingParams = .ok r ∧
      r.values[1]? = some ⟨1, some 1⟩ ∧
      calculate "macd" (crossingBars.take 2 ++ crossingBars.drop 2) crossingParams = .ok r' ∧
      r.Extends 2 r' := by
  have hvalue : (macdSeries (crossingBars.take 2) 1 2 1).1[1]? = some ⟨1, some 1⟩ := by
    norm_num [macdSeries, crossingBars, closesOf, datesFromSeries, emaValues, scanLoop, emaStep,
      emaMultiplier, mean, valueDiff]
  exact ⟨_, _, rfl, hvalue, rfl, calculate_causal "macd" crossingParams (crossingBars.take 2)
    (crossingBars.drop 2) _ _ rfl rfl⟩

end StandardTools.Indicators
