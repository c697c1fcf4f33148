import Mathlib.Tactic.FieldSimp
import Mathlib.Tactic.Ring
import StandardTools.Backtest.Run
import StandardTools.Indicators.PriceUnit

/-!
# A run in other units

Signals and prices decide when a position is opened and closed; the capital
only decides how large it is. In exact real arithmetic every amount of a run is
therefore proportional to the initial capital, also for a capital which is zero
or negative. And where every price is multiplied by a factor, the same signals
trade that many times fewer units for the same amounts.
-/

namespace StandardTools.Backtest
open StandardTools.Core

def EquityPoint.scale (c : ℝ) (p : EquityPoint ℝ) : EquityPoint ℝ := ⟨p.date, p.equity * c⟩

def Position.scale (c : ℝ) (pos : Position ℝ) : Position ℝ :=
  { pos with quantity := pos.quantity * c }

def Trade.scale (c : ℝ) (t : Trade ℝ) : Trade ℝ :=
  { t with quantity := t.quantity * c, pnl := t.pnl * c }

/-- Prices times `a`, amounts times `c`. -/
noncomputable def Position.rescale (a c : ℝ) (pos : Position ℝ) : Position ℝ :=
  { pos with entryPrice := a * pos.entryPrice, quantity := pos.quantity * c / a }

noncomputable def Trade.rescale (a c : ℝ) (t : Trade ℝ) : Trade ℝ :=
  { t with
    entryPrice := a * t.entryPrice
    exitPrice := a * t.exitPrice
    quantity := t.quantity * c / a
    pnl := t.pnl * c }

theorem Position.rescale_one (c : ℝ) : Position.rescale 1 c = Position.scale c := by
  funext pos
  simp only [rescale, scale, one_mul, div_one]

theorem Trade.rescale_one (c : ℝ) : Trade.rescale 1 c = Trade.scale c := by
  funext t
  simp only [rescale, scale, one_mul, div_one]

namespace RunState

def scale (c : ℝ) (s : RunState ℝ) : RunState ℝ where
  cash := s.cash * c
  position := s.position.map (Position.scale c)
  trades := s.trades.map (Trade.scale c)
  equityCurve := s.equityCurve.map (EquityPoint.scale c)

noncomputable def rescale (a c : ℝ) (s : RunState ℝ) : RunState ℝ where
  cash := s.cash * c
  position := s.position.map (Position.rescale a c)
  trades := s.trades.map (Trade.rescale a c)
  equityCurve := s.equityCurve.map (EquityPoint.scale c)

theorem rescale_one (c : ℝ) : rescale 1 c = scale c := by
  funext s
  simp only [rescale, scale, Position.rescale_one, Trade.rescale_one]

variable {a : ℝ} (c commission price : ℝ) (date : Date) (s : RunState ℝ)

/-- Amounts are products of a quantity and a price. -/
theorem amount_rescale (ha : a ≠ 0) (quantity price : ℝ) :
    quantity * c / a * (a * price) = quantity * price * c := by
  field_simp

theorem closePosition_rescale (ha : a ≠ 0) (pos : Position ℝ) (cash : ℝ) :
    closePosition (pos.rescale a c) (a * price) commission date (cash * c) =
      ((closePosition pos price commission date cash).1.rescale a c,
        (closePosition pos price commission date cash).2 * c) := by
  obtain ⟨side, entryPrice, quantity, entryDate⟩ := pos
  have hamount := amount_rescale c ha quantity
  cases side with
  | long =>
    have hpnl : quantity * (price - entryPrice) * c - quantity * entryPrice * c * commission -
          quantity * price * c * commission =
        (quantity * (price - entryPrice) - quantity * entryPrice * commission -
          quantity * price * commission) * c := by ring
    have hcash : cash * c + quantity * price * c - quantity * price * c * commission =
        (cash + quantity * price - quantity * price * commission) * c := by ring
    simp only [closePosition, Position.rescale, Trade.rescale, ← mul_sub, hamount, hpnl, hcash]
  | short =>
    have hpnl : quantity * (entryPrice - price) * c - quantity * entryPrice * c * commission -
          quantity * price * c * commission =
        (quantity * (entryPrice - price) - quantity * entryPrice * commission -
          quantity * price * commission) * c := by ring
    have hcash : cash * c - quantity * price * c - quantity * price * c * commission =
        (cash - quantity * price - quantity * price * commission) * c := by ring
    simp only [closePosition, Position.rescale, Trade.rescale, ← mul_sub, hamount, hpnl, hcash]

theorem close_rescale (ha : a ≠ 0) :
    (s.rescale a c).close commission (a * price) date =
      (s.close commission price date).rescale a c := by
  cases hpos : s.position with
  | none => simp only [close, rescale, hpos, Option.map_none]
  | some pos =>
    simp only [close, rescale, hpos, Option.map_some, closePosition_rescale c _ _ _ ha,
      List.map_append, List.map_singleton, Option.map_none]

theorem openAt_rescale (ha : a ≠ 0) (side : TradeSide) :
    (s.rescale a c).openAt side commission (a * price) date =
      (s.openAt side commission price date).rescale a c := by
  have hquantity : (if a * price != 0 then s.cash * c / (a * price * (1 + commission)) else 0) =
      (if price != 0 then s.cash / (price * (1 + commission)) else 0) * c / a := by
    by_cases hprice : price = 0
    · simp [hprice]
    · rw [if_pos (bne_iff_ne.mpr (mul_ne_zero ha hprice)), if_pos (bne_iff_ne.mpr hprice),
        mul_assoc a, mul_comm a, ← div_div, mul_div_right_comm]
  have hamount := amount_rescale c ha
  cases side with
  | long | short =>
    simp only [openAt, openPosition, rescale, hquantity, hamount, Option.map_some,
      Position.rescale]
    congr 1
    ring

theorem rescale_side : (s.rescale a c).position.map (·.side) = s.position.map (·.side) := by
  unfold rescale
  cases s.position <;> rfl

theorem enter_rescale (ha : a ≠ 0) (side : TradeSide) (bar : OHLCV ℝ) :
    (s.rescale a c).enter side commission (bar.repriced a) =
      (s.enter side commission bar).rescale a c := by
  unfold enter
  simp only [OHLCV.repriced, rescale_side, close_rescale c _ _ _ _ ha, openAt_rescale c _ _ _ _ ha]
  split_ifs <;> rfl

theorem settle_rescale (ha : a ≠ 0) (signal : Option Signal) (bar : OHLCV ℝ) :
    (s.rescale a c).settle commission (signal, bar.repriced a) =
      (s.settle commission (signal, bar)).rescale a c := by
  cases signal with
  | none => rfl
  | some signal =>
    cases signal with
    | hold => rfl
    | buy => exact enter_rescale c commission s ha .long bar
    | sell => exact enter_rescale c commission s ha .short bar

theorem equityAt_rescale (ha : a ≠ 0) :
    (s.rescale a c).equityAt (a * price) = s.equityAt price * c := by
  unfold equityAt rescale
  cases s.position with
  | none => rfl
  | some pos =>
    obtain ⟨side, entryPrice, quantity, entryDate⟩ := pos
    have hamount := amount_rescale c ha quantity price
    cases side with
    | long =>
      simp only [Option.map_some, Position.rescale, positionMarketValue, hamount]
      ring
    | short =>
      simp only [Option.map_some, Position.rescale, positionMarketValue, neg_mul, hamount]
      ring

theorem playBar_rescale (ha : a ≠ 0) (x : Option Signal × OHLCV ℝ) :
    (s.rescale a c).playBar commission (x.1, x.2.repriced a) =
      (s.playBar commission x).rescale a c := by
  unfold playBar
  rw [settle_rescale c commission s ha]
  generalize s.settle commission x = s'
  have hequity := equityAt_rescale c x.2.close s' ha
  simp only [mark, OHLCV.repriced, hequity]
  simp only [rescale, List.map_append, List.map_cons, List.map_nil, EquityPoint.scale]

theorem play_rescale (ha : a ≠ 0) (bars : List (Option Signal × OHLCV ℝ)) :
    (s.rescale a c).play commission (bars.map fun x => (x.1, x.2.repriced a)) =
      (s.play commission bars).rescale a c := by
  induction bars generalizing s with
  | nil => rfl
  | cons x bars ih =>
    have hstep := ih (s.playBar commission x)
    rw [← playBar_rescale c commission s ha] at hstep
    exact hstep

theorem setBackEquity_scale (value : ℝ) (curve : List (EquityPoint ℝ)) :
    setBackEquity (value * c) (curve.map (EquityPoint.scale c)) =
      (setBackEquity value curve).map (EquityPoint.scale c) := by
  cases curve using List.reverseRecOn with
  | nil => rfl
  | append_singleton points p =>
    simp [setBackEquity, EquityPoint.scale, List.dropLast_append_of_ne_nil]

theorem liquidate_rescale (ha : a ≠ 0) (last : OHLCV ℝ) :
    (s.rescale a c).liquidate commission (last.repriced a) =
      (s.liquidate commission last).rescale a c := by
  have hclose := close_rescale c commission last.close last.date s ha
  unfold liquidate
  cases hpos : s.position with
  | none => simp only [rescale, hpos, Option.map_none]
  | some pos =>
    have hrescaled : (s.rescale a c).position = some (pos.rescale a c) := by
      simp only [rescale, hpos, Option.map_some]
    simp only [hrescaled, OHLCV.repriced, hclose]
    generalize s.close commission last.close last.date = s'
    simp only [rescale, setBackEquity_scale]

end RunState

theorem schedule_repriced (a : ℝ) (signals : List SignalResult) (series : List (OHLCV ℝ)) :
    schedule signals (series.map (OHLCV.repriced a)) =
      (schedule signals series).map fun x => (x.1, x.2.repriced a) := by
  rw [schedule, List.zip_map_right]
  rfl

namespace BacktestConfig
variable (config : BacktestConfig ℝ) (series : List (OHLCV ℝ)) (signals : List SignalResult)

def withCapital (capital : ℝ) : BacktestConfig ℝ := { config with initialCapital := capital }

theorem finalState_rescale {a : ℝ} (ha : a ≠ 0) (c : ℝ) :
    (config.withCapital (config.initialCapital * c)).finalState
        (series.map (OHLCV.repriced a)) signals =
      (config.finalState series signals).rescale a c := by
  have hstart : (config.withCapital (config.initialCapital * c)).start =
      config.start.rescale a c := rfl
  have hplay := RunState.play_rescale c config.commissionRate config.start ha
    (schedule signals series)
  rw [← schedule_repriced] at hplay
  unfold finalState
  rw [hstart, List.getLast?_map]
  simp only [withCapital, hplay]
  cases series.getLast? with
  | none => rfl
  | some last => exact RunState.liquidate_rescale c config.commissionRate _ ha last

theorem finalState_withCapital (c : ℝ) :
    (config.withCapital (config.initialCapital * c)).finalState series signals =
      (config.finalState series signals).scale c := by
  have hrescale := config.finalState_rescale series signals one_ne_zero c
  have hsame : OHLCV.repriced (1 : ℝ) = id := by
    funext bar
    simp only [OHLCV.repriced, one_mul]
    rfl
  rwa [hsame, List.map_id, RunState.rescale_one] at hrescale

/-! ### The first point and the final equity -/

theorem finalState_head (hlen : signals.length = series.length) {bar : OHLCV ℝ}
    (hbar : series.head? = some bar) :
    (config.finalState series signals).equityCurve.head? =
      some ⟨bar.date, config.initialCapital⟩ := by
  cases series with
  | nil => cases hbar
  | cons first rest =>
    obtain rfl : first = bar := Option.some.inj hbar
    cases rest with
    | nil =>
      have hschedule : schedule signals [first] = [(none, first)] := by
        simp only [schedule, List.zip_cons_cons, List.zip_nil_right]
      simp only [finalState, List.getLast?_singleton, hschedule]
      rfl
    | cons second rest =>
      have hpoint := config.finalState_equityCurve_getElem (first :: second :: rest) signals hlen
        (i := 0) (by simp)
      rw [List.head?_eq_getElem?, hpoint]
      rfl

theorem finalState_scale_zero (h : config.initialCapital = 0) :
    config.finalState series signals = (config.finalState series signals).scale 0 := by
  have hscale := config.finalState_withCapital series signals 0
  have hsame : config.withCapital (config.initialCapital * 0) = config := by
    rw [mul_zero, ← h]
    rfl
  rw [hsame] at hscale
  exact hscale

theorem finalState_of_capital_eq_zero (h : config.initialCapital = 0) :
    ∀ p ∈ (config.finalState series signals).equityCurve, p.equity = 0 := by
  intro p hp
  rw [config.finalState_scale_zero series signals h] at hp
  obtain ⟨q, -, rfl⟩ := List.mem_map.mp hp
  exact mul_zero q.equity

theorem simulate_finalEquity (hne : series ≠ []) (hlen : signals.length = series.length) :
    (config.simulate series signals).finalEquity =
      config.initialCapital * (1 + (config.simulate series signals).totalReturn) := by
  obtain ⟨bar, hbar⟩ := Option.ne_none_iff_exists'.mp
    (fun hn => hne (List.head?_eq_none_iff.mp hn) : series.head? ≠ none)
  have hhead := config.finalState_head series signals hlen hbar
  have hcurve : (config.finalState series signals).equityCurve ≠ [] := by
    intro hnil
    rw [hnil] at hhead
    cases hhead
  have hlast := List.getLast?_eq_some_getLast hcurve
  simp only [simulate, computeMetrics, hhead, hlast, Option.map_some, Option.getD_some]
  by_cases hzero : config.initialCapital = 0
  · rw [hzero, zero_mul]
    exact config.finalState_of_capital_eq_zero series signals hzero _ (List.getLast_mem hcurve)
  · have hbne : (config.initialCapital != 0) = true := bne_iff_ne.mpr hzero
    rw [if_pos hbne]
    field_simp
    ring

end BacktestConfig

end StandardTools.Backtest
