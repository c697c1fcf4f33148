import StandardTools.Core.ValueObjects
import StandardTools.Lib.Causal

/-!
# Technical indicators (`indicators/calculator.cpp`)

Every calculator reads its parameters, returns a series of empty values when
the series is shorter than its warm-up, and otherwise pushes one value per bar.
A loop which carries locals from bar to bar is a `scanLoop` whose step is the
loop body.
-/

namespace StandardTools.Indicators
open StandardTools.Core Lib

variable {K : Type}

structure IndicatorValue (K : Type) where
  date : Date
  value : Option K

structure IndicatorResult (K : Type) where
  name : String
  params : ParamMap K
  values : List (IndicatorValue K)
  extraSeries : List (String × List (IndicatorValue K))

def IndicatorResult.extra (r : IndicatorResult K) (key : String) :
    Option (List (IndicatorValue K)) :=
  r.extraSeries.lookup key

def noneValues (dates : List Date) : List (IndicatorValue K) := dates.map fun d => ⟨d, none⟩

def datesFromSeries (series : List (OHLCV K)) : List Date := series.map (·.date)

def closesOf (series : List (OHLCV K)) : List K := series.map (·.close)

variable [Double K]

/-- Positive integral parameters (`calculator.cpp:15-29`). -/
def paramAsSize (params : ParamMap K) (key : String) (default : ℕ) : Except Error ℕ :=
  match params key with
  | none => .ok default
  | some value =>
    if value ≤ 0 || Double.floor value != value then
      .error (.invalidCommand ("invalid value for " ++ key ++ ": " ++ Double.toStr value))
    else .ok (Double.toSize value)

theorem paramAsSize_error {params : ParamMap K} {key : String} {default : ℕ} {e : Error}
    (h : paramAsSize params key default = .error e) : ∃ msg, e = .invalidCommand msg := by
  unfold paramAsSize at h
  cases hvalue : params key with
  | none =>
    rw [hvalue] at h
    cases h
  | some value =>
    rw [hvalue] at h
    simp only at h
    split_ifs at h
    cases h
    exact ⟨_, rfl⟩

def mean (values : List K) : K := values.foldl (· + ·) 0 / (values.length : K)

def sampleStdDev (values : List K) : K :=
  if values.length < 2 then 0
  else
    let m := mean values
    let variance := values.foldl (fun acc v => acc + (v - m) * (v - m)) 0
    Double.sqrt (variance / ((values.length - 1 : ℕ) : K))

def trueRange (bar prev : OHLCV K) : K :=
  stdMax (bar.high - bar.low)
    (stdMax (Double.abs (bar.high - prev.close)) (Double.abs (bar.low - prev.close)))

def closeWindow (series : List (OHLCV K)) (period i : ℕ) : List K :=
  closesOf ((series.take (i + 1)).drop (i + 1 - period))

/-! ### Exponential averages -/

/-- Body of the loop of `EmaValues`: the locals are the index and `ema`, and
`seed` is the mean which starts the average at `i + 1 == period`
(`calculator.cpp:92-102`). -/
def emaStep (period : ℕ) (multiplier seed : K) (s : ℕ × K) (x : Date × K) :
    IndicatorValue K × (ℕ × K) :=
  if s.1 + 1 < period then (⟨x.1, none⟩, (s.1 + 1, s.2))
  else if s.1 + 1 = period then (⟨x.1, some seed⟩, (s.1 + 1, seed))
  else
    let ema := (x.2 - s.2) * multiplier + s.2
    (⟨x.1, some ema⟩, (s.1 + 1, ema))

def emaMultiplier (period : ℕ) : K := ((2 : ℕ) : K) / ((period + 1 : ℕ) : K)

def emaValues (closes : List K) (dates : List Date) (period : ℕ) : List (IndicatorValue K) :=
  if period = 0 ∨ closes.length < period then noneValues dates
  else
    scanLoop (emaStep period (emaMultiplier period) (mean (closes.take period))) (0, 0)
      (dates.zip closes)

/-- Body of the loop of `EmaOfOptions`: the locals are `ema`, `seen` and
`seed_values` (`calculator.cpp:126-144`). -/
def emaOfOptionsStep (period : ℕ) (multiplier : K) (s : Option K × ℕ × List K)
    (iv : IndicatorValue K) : IndicatorValue K × (Option K × ℕ × List K) :=
  match iv.value, s.1 with
  | some v, none =>
    let seen := s.2.1 + 1
    let seedValues := s.2.2 ++ [v]
    if seen = period then
      let seed := mean seedValues
      (⟨iv.date, some seed⟩, (some seed, seen, seedValues))
    else (⟨iv.date, none⟩, (none, seen, seedValues))
  | some v, some ema =>
    let next := (v - ema) * multiplier + ema
    (⟨iv.date, some next⟩, (some next, s.2.1, s.2.2))
  | none, _ => (⟨iv.date, none⟩, s)

def emaOfOptions (series : List (IndicatorValue K)) (period : ℕ) : List (IndicatorValue K) :=
  if period = 0 then noneValues (series.map (·.date))
  else scanLoop (emaOfOptionsStep period (emaMultiplier period)) (none, 0, []) series

/-! ### The calculators -/

def smaValues (series : List (OHLCV K)) (period : ℕ) : List (IndicatorValue K) :=
  if period = 0 ∨ series.length < period then noneValues (datesFromSeries series)
  else series.mapIdx fun i bar =>
    ⟨bar.date, if i + 1 < period then none else some (mean (closeWindow series period i))⟩

def calculateSMA (series : List (OHLCV K)) (params : ParamMap K) :
    Except Error (IndicatorResult K) := do
  let period ← paramAsSize params "period" 20
  return ⟨"sma", .ofList [("period", (period : K))], smaValues series period, []⟩

/-- Body of the loop of `CalculateEMA`: the locals are the index and `ema`, and
the window of the first average is read off the bars up to the index
(`calculator.cpp:217-232`). -/
def emaSeriesStep (series : List (OHLCV K)) (period : ℕ) (multiplier : K) (s : ℕ × K)
    (bar : OHLCV K) : IndicatorValue K × (ℕ × K) :=
  if s.1 + 1 < period then (⟨bar.date, none⟩, (s.1 + 1, s.2))
  else if s.1 + 1 = period then
    let window := closesOf (series.take (s.1 + 1))
    let ema := mean window
    (⟨bar.date, some ema⟩, (s.1 + 1, ema))
  else
    let ema := (bar.close - s.2) * multiplier + s.2
    (⟨bar.date, some ema⟩, (s.1 + 1, ema))

def emaSeries (series : List (OHLCV K)) (period : ℕ) : List (IndicatorValue K) :=
  if period = 0 ∨ series.length < period then noneValues (datesFromSeries series)
  else scanLoop (emaSeriesStep series period (emaMultiplier period)) (0, 0) series

def calculateEMA (series : List (OHLCV K)) (params : ParamMap K) :
    Except Error (IndicatorResult K) := do
  let period ← paramAsSize params "period" 20
  return ⟨"ema", .ofList [("period", (period : K))], emaSeries series period, []⟩

def rsiValue (avgGain avgLoss : K) : K :=
  if avgLoss == 0 then ((100 : ℕ) : K)
  else
    let rs := avgGain / avgLoss
    ((100 : ℕ) : K) - ((100 : ℕ) : K) / (1 + rs)

/-- Gain and loss of one price difference (`calculator.cpp:266-272`, `289-290`). -/
def gainLoss (diff : K) : K × K := if 0 ≤ diff then (diff, 0) else (0, -diff)

def closeDiffs (series : List (OHLCV K)) : List K :=
  List.zipWith (fun next prev => next - prev) (closesOf series).tail (closesOf series)

/-- Body of the smoothing loop of `CalculateRSI`: the locals are the two
averages and the previous close (`calculator.cpp:287-297`). -/
def rsiStep (period : ℕ) (s : K × K × K) (bar : OHLCV K) : IndicatorValue K × (K × K × K) :=
  let gl := gainLoss (bar.close - s.2.2)
  let avgGain := (s.1 * ((period - 1 : ℕ) : K) + gl.1) / (period : K)
  let avgLoss := (s.2.1 * ((period - 1 : ℕ) : K) + gl.2) / (period : K)
  (⟨bar.date, some (rsiValue avgGain avgLoss)⟩, (avgGain, avgLoss, bar.close))

def rsiValues (series : List (OHLCV K)) (period : ℕ) : List (IndicatorValue K) :=
  if period = 0 ∨ series.length < period + 1 then noneValues (datesFromSeries series)
  else
    let seeds := ((closeDiffs series).take period).map gainLoss
    let avgGain := mean (seeds.map (·.1))
    let avgLoss := mean (seeds.map (·.2))
    noneValues (datesFromSeries (series.take period)) ++
      match series.drop period with
      | [] => []
      | bar :: rest =>
        ⟨bar.date, some (rsiValue avgGain avgLoss)⟩ ::
          scanLoop (rsiStep period) (avgGain, avgLoss, bar.close) rest

def calculateRSI (series : List (OHLCV K)) (params : ParamMap K) :
    Except Error (IndicatorResult K) := do
  let period ← paramAsSize params "period" 14
  return ⟨"rsi", .ofList [("period", (period : K))], rsiValues series period, []⟩

def valueDiff (a b : IndicatorValue K) : Option K :=
  match a.value, b.value with
  | some x, some y => some (x - y)
  | _, _ => none

/-- The MACD line, its signal line and the histogram (`calculator.cpp:345-370`). -/
def macdSeries (series : List (OHLCV K)) (fast slow signal : ℕ) :
    List (IndicatorValue K) × List (IndicatorValue K) × List (IndicatorValue K) :=
  let dates := datesFromSeries series
  if fast = 0 ∨ slow = 0 ∨ signal = 0 ∨ series.length < slow then
    (noneValues dates, noneValues dates, noneValues dates)
  else
    let fastEma := emaValues (closesOf series) dates fast
    let slowEma := emaValues (closesOf series) dates slow
    let line := List.zipWith (fun d v => ⟨d, v⟩) dates (List.zipWith valueDiff fastEma slowEma)
    let signalEma := emaOfOptions line signal
    (line, signalEma,
      List.zipWith (fun d v => ⟨d, v⟩) dates (List.zipWith valueDiff line signalEma))

def calculateMACD (series : List (OHLCV K)) (params : ParamMap K) :
    Except Error (IndicatorResult K) := do
  let fast ← paramAsSize params "fast" 12
  let slow ← paramAsSize params "slow" 26
  let signal ← paramAsSize params "signal" 9
  let r := macdSeries series fast slow signal
  return ⟨"macd", .ofList [("fast", (fast : K)), ("slow", (slow : K)), ("signal", (signal : K))],
    r.1, [("signal", r.2.1), ("histogram", r.2.2)]⟩

def bollingerSeries (series : List (OHLCV K)) (period stdDevCount : ℕ) (band : K → K → K) :
    List (IndicatorValue K) :=
  if period = 0 ∨ series.length < period then noneValues (datesFromSeries series)
  else series.mapIdx fun i bar =>
    ⟨bar.date,
      if i + 1 < period then none
      else
        let window := closeWindow series period i
        some (band (mean window) ((stdDevCount : K) * sampleStdDev window))⟩

def calculateBollinger (series : List (OHLCV K)) (params : ParamMap K) :
    Except Error (IndicatorResult K) := do
  let period ← paramAsSize params "period" 20
  let stdDevCount ← paramAsSize params "std_dev" 2
  return ⟨"bollinger_bands",
    .ofList [("period", (period : K)), ("std_dev", (stdDevCount : K))],
    bollingerSeries series period stdDevCount (fun middle _ => middle),
    [("upper", bollingerSeries series period stdDevCount (fun middle width => middle + width)),
      ("lower", bollingerSeries series period stdDevCount (fun middle width => middle - width))]⟩

/-- Body of the smoothing loop of `CalculateATR`: the locals are `atr` and the
previous bar (`calculator.cpp:480-484`). -/
def atrStep (period : ℕ) (s : K × OHLCV K) (bar : OHLCV K) : IndicatorValue K × (K × OHLCV K) :=
  let atr := (s.1 * ((period - 1 : ℕ) : K) + trueRange bar s.2) / (period : K)
  (⟨bar.date, some atr⟩, (atr, bar))

def atrValues (series : List (OHLCV K)) (period : ℕ) : List (IndicatorValue K) :=
  if period = 0 ∨ series.length < period + 1 then noneValues (datesFromSeries series)
  else
    let atr := mean ((List.zipWith trueRange series.tail series).take period)
    noneValues (datesFromSeries (series.take period)) ++
      match series.drop period with
      | [] => []
      | bar :: rest => ⟨bar.date, some atr⟩ :: scanLoop (atrStep period) (atr, bar) rest

def calculateATR (series : List (OHLCV K)) (params : ParamMap K) :
    Except Error (IndicatorResult K) := do
  let period ← paramAsSize params "period" 14
  return ⟨"atr", .ofList [("period", (period : K))], atrValues series period, []⟩

def volumeOf (bar : OHLCV K) : K := (bar.volume.toInt : K)

/-- Body of the loop of `CalculateOBV` (`calculator.cpp:510-522`). -/
def obvStep (s : K × K) (bar : OHLCV K) : IndicatorValue K × (K × K) :=
  let obv :=
    if s.2 < bar.close then s.1 + volumeOf bar
    else if bar.close < s.2 then s.1 - volumeOf bar
    else s.1
  (⟨bar.date, some obv⟩, (obv, bar.close))

def calculateOBV (series : List (OHLCV K)) (params : ParamMap K) :
    Except Error (IndicatorResult K) :=
  match series with
  | [] => .ok ⟨"obv", params, [], []⟩
  | bar :: rest =>
    .ok ⟨"obv", params,
      ⟨bar.date, some (volumeOf bar)⟩ :: scanLoop obvStep (volumeOf bar, bar.close) rest, []⟩

/-- Body of the loop of `CalculateVWAP` (`calculator.cpp:540-552`). -/
def vwapStep (s : K × K) (bar : OHLCV K) : IndicatorValue K × (K × K) :=
  let typicalPrice := (bar.high + bar.low + bar.close) / ((3 : ℕ) : K)
  let tpVolume := s.1 + typicalPrice * volumeOf bar
  let volume := s.2 + volumeOf bar
  (⟨bar.date, if volume != 0 then some (tpVolume / volume) else none⟩, (tpVolume, volume))

def calculateVWAP (series : List (OHLCV K)) (params : ParamMap K) :
    Except Error (IndicatorResult K) :=
  .ok ⟨"vwap", params, scanLoop vwapStep (0, 0) series, []⟩

def calculate (name : String) (series : List (OHLCV K)) (params : ParamMap K) :
    Except Error (IndicatorResult K) :=
  if name = "sma" then calculateSMA series params
  else if name = "ema" then calculateEMA series params
  else if name = "rsi" then calculateRSI series params
  else if name = "macd" then calculateMACD series params
  else if name = "bollinger_bands" then calculateBollinger series params
  else if name = "atr" then calculateATR series params
  else if name = "obv" then calculateOBV series params
  else if name = "vwap" then calculateVWAP series params
  else .error (.invalidCommand ("unknown indicator: " ++ name))

section Named
variable (series : List (OHLCV K)) (params : ParamMap K)

theorem calculate_sma :
    calculate "sma" series params = calculateSMA series params := rfl

theorem calculate_ema :
    calculate "ema" series params = calculateEMA series params := rfl

theorem calculate_rsi :
    calculate "rsi" series params = calculateRSI series params := rfl

theorem calculate_macd :
    calculate "macd" series params = calculateMACD series params := rfl

theorem calculate_bollinger :
    calculate "bollinger_bands" series params = calculateBollinger series params := rfl

theorem calculate_atr :
    calculate "atr" series params = calculateATR series params := rfl

theorem calculate_obv :
    calculate "obv" series params = calculateOBV series params := rfl

theorem calculate_vwap :
    calculate "vwap" series params = calculateVWAP series params := rfl

end Named

end StandardTools.Indicators
