import StandardTools.Backtest.Engine
import StandardTools.Lib.StdAlgorithm

/-!
# Monte Carlo resampling (`backtest/monte_carlo.cpp`)

The returns are shuffled as often as asked, each shuffle is compounded from the
initial capital, and the percentiles of the final equities and of the drawdowns
are reported. The generator, how it is seeded and the order in which a shuffle
leaves the returns are parameters.
-/

namespace StandardTools.Backtest
open StandardTools.Core StandardTools.Lib

/-- `std::mt19937_64`, `MakeRNG` and `std::shuffle`, which permutes the range and
advances the generator. -/
structure StdShuffle (α : Type) where
  Rng : Type
  makeRng : Option UInt64 → Rng
  run : List α → Rng → List α × Rng
  perm : ∀ l rng, (run l rng).1.Perm l

/-- A shuffle which happens to keep the order. -/
def StdShuffle.keep {α : Type} : StdShuffle α where
  Rng := Unit
  makeRng _ := ()
  run l rng := (l, rng)
  perm l _ := List.Perm.refl l

variable {K : Type} [Double K]

structure ConfidenceInterval (K : Type) where
  lower : K
  upper : K

structure MonteCarloResult (K : Type) where
  simulations : ℕ
  finalEquityCi : ConfidenceInterval K
  maxDrawdownCi : ConfidenceInterval K
  initialCapital : K

/-! ### One path -/

/-- The locals of the loop of `SimulatePath`. -/
structure PathState (K : Type) where
  equity : K
  peak : K
  maxDd : K

def pathStep (s : PathState K) (r : K) : PathState K :=
  let equity := s.equity * (1 + r)
  let peak := if s.peak < equity then equity else s.peak
  if 0 < peak then
    let dd := (peak - equity) / peak
    ⟨equity, peak, if s.maxDd < dd then dd else s.maxDd⟩
  else ⟨equity, peak, s.maxDd⟩

theorem pathStep_equity (s : PathState K) (r : K) : (pathStep s r).equity = s.equity * (1 + r) := by
  unfold pathStep
  simp only [apply_ite PathState.equity, ite_self]

/-- The final equity and the drawdown. -/
def simulatePath (returns : List K) (initial : K) : K × K :=
  let s := returns.foldl pathStep ⟨initial, initial, 0⟩
  (s.equity, -s.maxDd)

def percentile (values : List K) (quantile : K) : K :=
  if values = [] then 0
  else
    let index := Double.toSize (quantile * ((values.length - 1 : ℕ) : K) + 1 / ((2 : ℕ) : K))
    values.getD (if values.length ≤ index then values.length - 1 else index) 0

noncomputable def numberSort : StdSort ℝ (· < ·) := StdSort.mergeBy id

def percentileInterval (sort : StdSort K (· < ·)) (values : List K) : ConfidenceInterval K :=
  let sorted := sort.run values
  { lower := percentile sorted (((5 : ℕ) : K) / ((100 : ℕ) : K))
    upper := percentile sorted (((95 : ℕ) : K) / ((100 : ℕ) : K)) }

/-! ### The simulator -/

def maxMonteCarloSimulations : ℕ := 100000

structure MonteCarloSimulator where
  simulations : ℕ
  seed : Option UInt64
  simulations_le : simulations ≤ maxMonteCarloSimulations

def MonteCarloSimulator.make (simulations : ℤ) (seed : Option UInt64) : MonteCarloSimulator where
  simulations := min (if simulations < 0 then 0 else simulations.toNat) maxMonteCarloSimulations
  seed := seed
  simulations_le := min_le_right _ _

/-- The final equities and the drawdowns of the shuffles, one after the other. -/
def simulatePaths (shuffle : StdShuffle K) (returns : List K) (initial : K) :
    ℕ → shuffle.Rng → List (K × K)
  | 0, _ => []
  | simulations + 1, rng =>
    let shuffled := shuffle.run returns rng
    simulatePath shuffled.1 initial ::
      simulatePaths shuffle returns initial simulations shuffled.2

namespace MonteCarloSimulator
variable (simulator : MonteCarloSimulator)

def fromReturns (shuffle : StdShuffle K) (sort : StdSort K (· < ·)) (returns : List K)
    (initialCapital : K) : MonteCarloResult K :=
  if returns = [] ∨ simulator.simulations = 0 then
    { simulations := simulator.simulations
      finalEquityCi := ⟨initialCapital, initialCapital⟩
      maxDrawdownCi := ⟨0, 0⟩
      initialCapital := initialCapital }
  else
    let paths := simulatePaths shuffle returns initialCapital simulator.simulations
      (shuffle.makeRng simulator.seed)
    { simulations := simulator.simulations
      finalEquityCi := percentileInterval sort (paths.map Prod.fst)
      maxDrawdownCi := percentileInterval sort (paths.map Prod.snd)
      initialCapital := initialCapital }

end MonteCarloSimulator

def tradeReturn (t : Trade K) : K :=
  let cost := t.entryPrice * t.quantity
  if cost == 0 then 0 else t.pnl / cost

def MonteCarloSimulator.fromTrades (simulator : MonteCarloSimulator) (shuffle : StdShuffle K)
    (sort : StdSort K (· < ·)) (trades : List (Trade K)) (initialCapital : K) :
    MonteCarloResult K :=
  simulator.fromReturns shuffle sort (trades.map tradeReturn) initialCapital

end StandardTools.Backtest
