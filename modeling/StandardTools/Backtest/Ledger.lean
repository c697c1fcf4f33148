import Mathlib.Tactic.Linarith
import Mathlib.Tactic.Ring
import StandardTools.Backtest.Run

/-!
# The ledger of a run balances

In exact real arithmetic the equity of every state is the initial capital, plus
the results of the closed trades, plus the result of the open position so far.
The balance does not depend on how the quantity of a position was chosen, so it
survives every signal in every state.
-/

namespace StandardTools.Backtest
open StandardTools.Core

def realised (trades : List (Trade ℝ)) : ℝ := (trades.map (·.pnl)).sum

def openResult (commission price : ℝ) : Option (Position ℝ) → ℝ
  | none => 0
  | some pos =>
    (match pos.side with
      | .long => pos.quantity * (price - pos.entryPrice)
      | .short => pos.quantity * (pos.entryPrice - price)) -
      pos.quantity * pos.entryPrice * commission

namespace RunState

/-- The ledger invariant, at every price at which the account may be valued. -/
def Balanced (initial commission : ℝ) (s : RunState ℝ) : Prop :=
  ∀ price, s.equityAt price = initial + realised s.trades + openResult commission price s.position

variable {initial commission : ℝ} {s : RunState ℝ}

theorem Balanced.close (h : s.Balanced initial commission) (price : ℝ) (date : Date) :
    (s.close commission price date).Balanced initial commission := by
  have hp := h price
  intro price'
  unfold RunState.close
  cases hpos : s.position with
  | none =>
    have hp' := h price'
    simpa only [hpos] using hp'
  | some pos =>
    simp only [equityAt, hpos, openResult] at hp
    simp only [equityAt, openResult, realised, List.map_append, List.sum_append, List.map_cons,
      List.map_nil, List.sum_cons, List.sum_nil]
    simp only [realised] at hp
    cases hside : pos.side with
    | long | short =>
      simp only [positionMarketValue, hside] at hp
      simp only [closePosition, hside]
      linarith

theorem Balanced.openAt (h : s.Balanced initial commission) (hnone : s.position = none)
    (side : TradeSide) (price : ℝ) (date : Date) :
    (s.openAt side commission price date).Balanced initial commission := by
  have hcash := h price
  simp only [equityAt, hnone, openResult, add_zero] at hcash
  intro price'
  cases side with
  | long | short =>
    simp only [RunState.openAt, openPosition, equityAt, positionMarketValue, openResult, hcash]
    ring

theorem Balanced.play (h : s.Balanced initial commission)
    (bars : List (Option Signal × OHLCV ℝ)) :
    (s.play commission bars).Balanced initial commission :=
  play_invariant commission (fun _ price date hs => hs.close price date)
    (fun _ side price date hnone hs => hs.openAt hnone side price date)
    (fun _ _ hs => hs) bars s h

end RunState

namespace BacktestConfig
variable (config : BacktestConfig ℝ) (series : List (OHLCV ℝ)) (signals : List SignalResult)

theorem start_balanced :
    config.start.Balanced config.initialCapital config.commissionRate := by
  intro price
  simp [start, RunState.equityAt, realised, openResult]

theorem stateAfter_balanced (k : ℕ) :
    (config.stateAfter series signals k).Balanced config.initialCapital config.commissionRate :=
  config.start_balanced.play _

theorem finalState_back (hne : series ≠ []) (h : signals.length = series.length) :
    (config.finalState series signals).equityCurve.getLast?.map (·.equity) =
      some (config.initialCapital + realised (config.finalState series signals).trades) := by
  obtain ⟨last, hlast⟩ := Option.ne_none_iff_exists'.mp
    (fun hn => hne (List.getLast?_eq_none_iff.mp hn) : series.getLast? ≠ none)
  have hbal := (config.start_balanced.play (schedule signals series)).close last.close last.date 0
  simp only [RunState.equityAt, RunState.close_position, openResult, add_zero] at hbal
  rw [config.finalState_equityCurve_back series signals h hlast, hbal,
    config.finalState_trades series signals hlast]

end BacktestConfig

/-- Before the last bar every equity point is the initial capital, plus the
results of the trades closed so far, plus the result of the open position less
its entry commission; the last point is the final equity, the initial capital
plus the results of all trades. -/
theorem ledger_conservation (strategy : Strategy ℝ) (config : BacktestConfig ℝ)
    (series : List (OHLCV ℝ)) (params : ParamMap ℝ) (signals : List SignalResult)
    (hsignals : strategy.signals series params = .ok signals) (hne : series ≠ [])
    (hmax : series.length ≤ maxBacktestBars) (hlen : signals.length = series.length) :
    ∃ r, (BacktestEngine.mk strategy config).run series params = .ok r ∧
      r.equityCurve.length = series.length ∧
      (∀ i (hi : i + 1 < series.length),
        (config.stateAfter series signals (i + 1)).trades <+: r.trades ∧
        r.equityCurve[i]? = some ⟨series[i].date,
          config.initialCapital + realised (config.stateAfter series signals (i + 1)).trades +
            openResult config.commissionRate series[i].close
              (config.stateAfter series signals (i + 1)).position⟩) ∧
      r.equityCurve.getLast?.map (·.equity) = some r.finalEquity ∧
      r.finalEquity = config.initialCapital + realised r.trades := by
  have hback := config.finalState_back series signals hne hlen
  refine ⟨config.simulate series signals, ?_, ?_, ?_, ?_, ?_⟩
  · exact BacktestEngine.run_eq_ok.mpr ⟨hne, hmax, signals, hsignals, hlen, rfl⟩
  · exact config.finalState_equityCurve_length series signals hlen
  · intro i hi
    refine ⟨config.stateAfter_trades_prefix series signals (i + 1), ?_⟩
    have hpoint := config.finalState_equityCurve_getElem series signals hlen hi
    rw [config.stateAfter_balanced series signals (i + 1) series[i].close] at hpoint
    exact hpoint
  · simp only [BacktestConfig.simulate, hback, Option.getD_some]
  · simp only [BacktestConfig.simulate, hback, Option.getD_some]

theorem ledger_conservation_short_sale :
    ∃ r, (BacktestEngine.mk (Strategy.custom [.sell, .sell]) ⟨100000, 0, 252, 0⟩).run
        [⟨0, 100, 100, 99, 99, 1⟩, ⟨1, 99, 99, 98, 98, 1⟩] ParamMap.empty = .ok r ∧
      r.finalEquity = 100000 + realised r.trades := by
  obtain ⟨r, hrun, -, -, -, hfinal⟩ := ledger_conservation (Strategy.custom [.sell, .sell])
    ⟨100000, 0, 252, 0⟩ [⟨0, 100, 100, 99, 99, 1⟩, ⟨1, 99, 99, 98, 98, 1⟩] ParamMap.empty
    [⟨0, .sell⟩, ⟨1, .sell⟩] rfl (by simp) (by simp [maxBacktestBars]) rfl
  exact ⟨r, hrun, hfinal⟩

end StandardTools.Backtest
