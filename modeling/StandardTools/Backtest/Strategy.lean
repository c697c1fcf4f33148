import StandardTools.Indicators.Calculator

/-!
# Signals and the built-in strategies (`backtest/signal.hpp`, `backtest/strategy.cpp`)

A strategy produces one signal per bar. The five built-in strategies read the
indicators of `Indicators.Calculator`; the engine also accepts any other
`Strategy`.
-/

namespace StandardTools.Backtest
open StandardTools.Core Indicators

inductive Signal where
  | hold
  | buy
  | sell
  deriving DecidableEq, Repr

structure SignalResult where
  date : Date
  signal : Signal
  deriving DecidableEq

structure Strategy (K : Type) where
  name : String
  signals : List (OHLCV K) → ParamMap K → Except Error (List SignalResult)

variable {K : Type}

def Strategy.custom (signals : List Signal) : Strategy K where
  name := "custom"
  signals series _ := .ok (List.zipWith (fun bar signal => ⟨bar.date, signal⟩) series signals)

def paramOrDefault (params : ParamMap K) (key : String) (default : K) : K :=
  (params key).getD default

def valueAt (values : List (IndicatorValue K)) (i : ℕ) : Option K :=
  values[i]?.bind (·.value)

variable [Double K]

/- One round of `CrossoverSignals` (`strategy.cpp:50-71`): at bar 0 the side of
the fast line decides, later only a crossing since the previous bar does. The
negated comparisons are those of the source: they hold when a value is NaN. -/
def crossoverSignal (fast slow : List (IndicatorValue K)) (i : ℕ) : Signal :=
  match valueAt fast i, valueAt slow i with
  | some f, some sl =>
    if i = 0 then
      if sl < f then .buy else if f < sl then .sell else .hold
    else
      match valueAt fast (i - 1), valueAt slow (i - 1) with
      | some pf, some ps =>
        if sl < f ∧ ¬ps < pf then .buy
        else if f < sl ∧ ¬pf < ps then .sell
        else .hold
      | _, _ => .hold
  | _, _ => .hold

def crossoverSignals (series : List (OHLCV K)) (fast slow : List (IndicatorValue K)) :
    List SignalResult :=
  series.mapIdx fun i bar => ⟨bar.date, crossoverSignal fast slow i⟩

omit [Double K] in
def buyAndHoldSignals (series : List (OHLCV K)) : List SignalResult :=
  series.mapIdx fun i bar => ⟨bar.date, if i = 0 then .buy else .hold⟩

omit [Double K] in
def buyAndHold : Strategy K where
  name := "buy_and_hold"
  signals series _ := .ok (buyAndHoldSignals series)

def smaCrossover : Strategy K where
  name := "sma_crossover"
  signals series params := do
    let fastParams := params.set "period" (paramOrDefault params "fast" ((10 : ℕ) : K))
    let slowParams := params.set "period" (paramOrDefault params "slow" ((30 : ℕ) : K))
    let fastResult ← calculate "sma" series fastParams
    let slowResult ← calculate "sma" series slowParams
    return crossoverSignals series fastResult.values slowResult.values

/- One round of `RsiThreshold::Signals` (`strategy.cpp:131-139`). -/
def thresholdSignal (values : List (IndicatorValue K)) (oversold overbought : K) (i : ℕ) :
    Signal :=
  match valueAt values i with
  | some v =>
    if 0 < i then
      if v < oversold then .buy else if overbought < v then .sell else .hold
    else .hold
  | none => .hold

def thresholdSignals (series : List (OHLCV K)) (values : List (IndicatorValue K))
    (oversold overbought : K) : List SignalResult :=
  series.mapIdx fun i bar => ⟨bar.date, thresholdSignal values oversold overbought i⟩

def rsiThreshold : Strategy K where
  name := "rsi_threshold"
  signals series params := do
    let rsiResult ← calculate "rsi" series params
    return thresholdSignals series rsiResult.values
      (paramOrDefault params "oversold" ((30 : ℕ) : K))
      (paramOrDefault params "overbought" ((70 : ℕ) : K))

/- One round of `BollingerReversion::Signals` (`strategy.cpp:162-174`). -/
def reversionSignal (upper lower : List (IndicatorValue K)) (close : K) (i : ℕ) : Signal :=
  match upper[i]?, lower[i]? with
  | some u, some l =>
    if ∃ x ∈ u.value, x < close then .sell
    else if ∃ x ∈ l.value, close < x then .buy
    else .hold
  | _, _ => .hold

def reversionSignals (series : List (OHLCV K)) (upper lower : List (IndicatorValue K)) :
    List SignalResult :=
  series.mapIdx fun i bar => ⟨bar.date, reversionSignal upper lower bar.close i⟩

def bollingerReversion : Strategy K where
  name := "bollinger_bands_reversion"
  signals series params := do
    let bbResult ← calculate "bollinger_bands" series params
    return match bbResult.extra "upper", bbResult.extra "lower" with
      | some upper, some lower => reversionSignals series upper lower
      | _, _ => series.map fun bar => ⟨bar.date, .hold⟩

def macdCrossover : Strategy K where
  name := "macd_crossover"
  signals series params := do
    let macdResult ← calculate "macd" series params
    return match macdResult.extra "signal" with
      | some signal => crossoverSignals series macdResult.values signal
      | none => List.replicate series.length ⟨0, .hold⟩

/- `BuiltinStrategy`: `none` for an unknown name (`strategy.cpp:203-220`). -/
def builtinStrategy (name : String) : Option (Strategy K) :=
  if name = "buy_and_hold" then some buyAndHold
  else if name = "sma_crossover" then some smaCrossover
  else if name = "rsi_threshold" then some rsiThreshold
  else if name = "bollinger_bands_reversion" then some bollingerReversion
  else if name = "macd_crossover" then some macdCrossover
  else none

end StandardTools.Backtest
