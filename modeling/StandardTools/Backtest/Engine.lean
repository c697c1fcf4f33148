import StandardTools.Backtest.Strategy

/-!
# The backtest engine (`backtest/engine.cpp`, `backtest/result.hpp`)

A run plays the bars in order. The signal of bar `i - 1` is executed at the
open of bar `i`, then the account is marked to market at the close of bar `i`;
after the last bar an open position is closed at the last close. `RunState`
holds the locals of `BacktestEngine::Run`.
-/

namespace StandardTools.Backtest
open StandardTools.Core Indicators

inductive TradeSide where
  | long
  | short
  deriving DecidableEq, Repr

structure EquityPoint (K : Type) where
  date : Date
  equity : K

structure Trade (K : Type) where
  entryDate : Date
  exitDate : Date
  entryPrice : K
  exitPrice : K
  quantity : K
  side : TradeSide
  pnl : K

structure Metrics (K : Type) where
  maxDrawdown : K
  sharpe : Option K
  winRate : K
  tradeCount : ℕ

structure BacktestResult (K : Type) where
  finalEquity : K
  totalReturn : K
  equityCurve : List (EquityPoint K)
  trades : List (Trade K)
  metrics : Metrics K

structure BacktestConfig (K : Type) where
  initialCapital : K
  commissionRate : K
  periodsPerYear : ℕ
  riskFreeRate : K

structure Position (K : Type) where
  side : TradeSide
  entryPrice : K
  quantity : K
  entryDate : Date

variable {K : Type} [Double K]

instance : Inhabited (BacktestConfig K) := ⟨⟨((100000 : ℕ) : K), 0, 252, 0⟩⟩

/-! ### Opening, closing and valuing a position -/

/- `OpenLong` and `OpenShort` differ in the side and in the sign of the
proceeds (`engine.cpp:21-53`). -/
def openPosition (side : TradeSide) (price cash commission : K) (date : Date) :
    Position K × K :=
  let quantity := if price != 0 then cash / (price * (1 + commission)) else 0
  let comm := quantity * price * commission
  (⟨side, price, quantity, date⟩,
    match side with
    | .long => cash - quantity * price - comm
    | .short => cash + quantity * price - comm)

def openLong (price cash commission : K) (date : Date) : Position K × K :=
  openPosition .long price cash commission date

def openShort (price cash commission : K) (date : Date) : Position K × K :=
  openPosition .short price cash commission date

def closePosition (pos : Position K) (price commission : K) (date : Date) (cash : K) :
    Trade K × K :=
  let entryComm := pos.quantity * pos.entryPrice * commission
  let exitComm := pos.quantity * price * commission
  match pos.side with
  | .long =>
    let pnl := pos.quantity * (price - pos.entryPrice) - entryComm - exitComm
    (⟨pos.entryDate, date, pos.entryPrice, price, pos.quantity, pos.side, pnl⟩,
      cash + pos.quantity * price - exitComm)
  | .short =>
    let pnl := pos.quantity * (pos.entryPrice - price) - entryComm - exitComm
    (⟨pos.entryDate, date, pos.entryPrice, price, pos.quantity, pos.side, pnl⟩,
      cash - pos.quantity * price - exitComm)

def positionMarketValue (pos : Position K) (price : K) : K :=
  match pos.side with
  | .long => pos.quantity * price
  | .short => -pos.quantity * price

/-! ### Metrics -/

/-- Loop body of `ComputeMaxDrawdown`: the locals are `peak` and `max_dd`. -/
def drawdownStep (s : K × K) (p : EquityPoint K) : K × K :=
  let peak := if s.1 < p.equity then p.equity else s.1
  if 0 < peak then
    let dd := (peak - p.equity) / peak
    (peak, if s.2 < dd then dd else s.2)
  else (peak, s.2)

def computeMaxDrawdown (curve : List (EquityPoint K)) : K :=
  -(curve.foldl drawdownStep (0, 0)).2

def computeSharpe (returns : List K) (riskFreeRate : K) (periodsPerYear : ℕ) : Option K :=
  if returns = [] ∨ periodsPerYear = 0 then none
  else
    let mean := returns.foldl (· + ·) 0 / (returns.length : K)
    let variance :=
      returns.foldl (fun acc r => acc + (r - mean) * (r - mean)) 0 / (returns.length : K)
    let std := Double.sqrt variance
    if std == 0 || Double.isNaN std then none
    else
      let periodicRf := riskFreeRate / (periodsPerYear : K)
      let sharpe := (mean - periodicRf) / std * Double.sqrt (periodsPerYear : K)
      if Double.isNaN sharpe then none else some sharpe

def equityReturns (curve : List (EquityPoint K)) : List K :=
  List.zipWith (fun prev curr =>
    if prev.equity == 0 then 0 else curr.equity / prev.equity - 1) curve curve.tail

structure ComputedMetrics (K : Type) where
  totalReturn : K
  maxDrawdown : K
  sharpe : Option K

def computeMetrics (curve : List (EquityPoint K)) (config : BacktestConfig K) :
    ComputedMetrics K :=
  match curve.head?, curve.getLast? with
  | some front, some back =>
    { totalReturn := if front.equity != 0 then back.equity / front.equity - 1 else 0
      maxDrawdown := computeMaxDrawdown curve
      sharpe := computeSharpe (equityReturns curve) config.riskFreeRate config.periodsPerYear }
  | _, _ => ⟨0, 0, none⟩

/-- The share of the trades with a positive result (`engine.cpp:282-291`). -/
def winRateOf (trades : List (Trade K)) : K :=
  if trades = [] then 0
  else ((trades.countP fun t => decide (0 < t.pnl) : ℕ) : K) / (trades.length : K)

/-! ### The run -/

structure RunState (K : Type) where
  cash : K
  position : Option (Position K)
  trades : List (Trade K)
  equityCurve : List (EquityPoint K)

namespace RunState

def close (commission price : K) (date : Date) (s : RunState K) : RunState K :=
  match s.position with
  | none => s
  | some pos =>
    let r := closePosition pos price commission date s.cash
    { s with cash := r.2, position := none, trades := s.trades ++ [r.1] }

def openAt (side : TradeSide) (commission price : K) (date : Date) (s : RunState K) : RunState K :=
  let r := openPosition side price s.cash commission date
  { s with cash := r.2, position := some r.1 }

/- The `Buy` and `Sell` cases of the switch (`engine.cpp:228-255`): nothing when
a position of that side is open, else close what is open and open anew. -/
def enter (side : TradeSide) (commission : K) (bar : OHLCV K) (s : RunState K) : RunState K :=
  if s.position.map (·.side) = some side then s
  else (s.close commission bar.open_ bar.date).openAt side commission bar.open_ bar.date

def execute (commission : K) (bar : OHLCV K) (s : RunState K) : Signal → RunState K
  | .buy => s.enter .long commission bar
  | .sell => s.enter .short commission bar
  | .hold => s

/-- The first half of a round: `x.1` is the signal to execute, none at bar 0. -/
def settle (commission : K) (s : RunState K) (x : Option Signal × OHLCV K) : RunState K :=
  match x.1 with
  | none => s
  | some signal => s.execute commission x.2 signal

def equityAt (price : K) (s : RunState K) : K :=
  match s.position with
  | none => s.cash
  | some pos => s.cash + positionMarketValue pos price

def mark (bar : OHLCV K) (s : RunState K) : RunState K :=
  { s with equityCurve := s.equityCurve ++ [⟨bar.date, s.equityAt bar.close⟩] }

def playBar (commission : K) (s : RunState K) (x : Option Signal × OHLCV K) : RunState K :=
  (s.settle commission x).mark x.2

def play (commission : K) (s : RunState K) (bars : List (Option Signal × OHLCV K)) : RunState K :=
  bars.foldl (playBar commission) s

def setBackEquity (value : K) (curve : List (EquityPoint K)) : List (EquityPoint K) :=
  curve.dropLast ++ (curve.getLast?.map fun p => { p with equity := value }).toList

/-- The forced close at the last close (`engine.cpp:270-279`). -/
def liquidate (commission : K) (last : OHLCV K) (s : RunState K) : RunState K :=
  match s.position with
  | none => s
  | some _ =>
    let closed := s.close commission last.close last.date
    { closed with equityCurve := setBackEquity closed.cash closed.equityCurve }

end RunState

/-- Bar `i` beside the signal which is executed at its open, `signals[i - 1]`.
The signal of the last bar has no bar and is dropped. -/
def schedule (signals : List SignalResult) (series : List (OHLCV K)) :
    List (Option Signal × OHLCV K) :=
  (none :: signals.map fun s => some s.signal).zip series

def BacktestConfig.start (config : BacktestConfig K) : RunState K :=
  ⟨config.initialCapital, none, [], []⟩

def BacktestConfig.stateAfter (config : BacktestConfig K) (series : List (OHLCV K))
    (signals : List SignalResult) (k : ℕ) : RunState K :=
  config.start.play config.commissionRate ((schedule signals series).take k)

/-- The state which the result is read from: all bars played, position closed. -/
def BacktestConfig.finalState (config : BacktestConfig K) (series : List (OHLCV K))
    (signals : List SignalResult) : RunState K :=
  let played := config.start.play config.commissionRate (schedule signals series)
  match series.getLast? with
  | none => played
  | some last => played.liquidate config.commissionRate last

def BacktestConfig.simulate (config : BacktestConfig K) (series : List (OHLCV K))
    (signals : List SignalResult) : BacktestResult K :=
  let s := config.finalState series signals
  let metrics := computeMetrics s.equityCurve config
  { finalEquity := (s.equityCurve.getLast?.map (·.equity)).getD config.initialCapital
    totalReturn := metrics.totalReturn
    equityCurve := s.equityCurve
    trades := s.trades
    metrics := ⟨metrics.maxDrawdown, metrics.sharpe, winRateOf s.trades, s.trades.length⟩ }

structure BacktestEngine (K : Type) where
  strategy : Strategy K
  config : BacktestConfig K

def BacktestEngine.ofName (strategyName : String) (config : BacktestConfig K) :
    Except Error (BacktestEngine K) :=
  match builtinStrategy strategyName with
  | some strategy => .ok ⟨strategy, config⟩
  | none => .error (.invalidCommand ("unknown strategy: " ++ strategyName))

def maxBacktestBars : ℕ := 50000

def BacktestEngine.run (engine : BacktestEngine K) (series : List (OHLCV K))
    (params : ParamMap K) : Except Error (BacktestResult K) :=
  if series = [] then
    .error (.invalidCommand "backtest requires a non-empty price series")
  else if maxBacktestBars < series.length then
    .error (.invalidCommand
      ("backtest series exceeds maximum of " ++ toString maxBacktestBars ++ " bars"))
  else do
    let signals ← engine.strategy.signals series params
    if signals.length ≠ series.length then
      .error (.dataQuality "strategy signal count does not match series length")
    else .ok (engine.config.simulate series signals)

end StandardTools.Backtest
