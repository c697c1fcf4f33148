import StandardTools.Backtest.Engine

/-!
# What a round of the engine can do

Lemmas about the loop of `BacktestEngine::Run` which hold in any arithmetic:
the effect of each action on each part of the state, the curve and the trades
as append-only logs, and where the points of the returned curve come from.
-/

namespace StandardTools.Backtest
open StandardTools.Core

variable {K : Type} [Double K]

def Signal.side : Signal → Option TradeSide
  | .buy => some .long
  | .sell => some .short
  | .hold => none

/-- The side which a signal asks for and the account does not hold. -/
def wanted (held : Option TradeSide) (signal : Option Signal) : Option TradeSide :=
  (signal.bind Signal.side).filter fun side => held ≠ some side

theorem wanted_ne {held : Option TradeSide} {signal : Option Signal} {side : TradeSide}
    (h : wanted held signal = some side) : held ≠ some side :=
  of_decide_eq_true (Option.filter_eq_some_iff.mp h).2

namespace RunState
variable (commission price : K) (date : Date) (side : TradeSide) (bar : OHLCV K) (s : RunState K)

@[simp] theorem close_position : (s.close commission price date).position = none := by
  unfold close
  cases h : s.position with
  | none => exact h
  | some pos => rfl

@[simp] theorem close_equityCurve :
    (s.close commission price date).equityCurve = s.equityCurve := by
  unfold close
  cases s.position <;> rfl

theorem close_trades : s.trades <+: (s.close commission price date).trades := by
  unfold close
  cases s.position with
  | none => exact List.prefix_refl _
  | some pos => exact List.prefix_append _ _

@[simp] theorem openAt_trades : (s.openAt side commission price date).trades = s.trades := rfl
@[simp] theorem openAt_equityCurve :
    (s.openAt side commission price date).equityCurve = s.equityCurve := rfl

theorem settle_of_wanted_none {x : Option Signal × OHLCV K}
    (h : wanted (s.position.map (·.side)) x.1 = none) : s.settle commission x = s := by
  obtain ⟨signal, bar⟩ := x
  have henter : ∀ side, (some side).filter (fun side => s.position.map (·.side) ≠ some side) =
      none → s.enter side commission bar = s := by
    intro side hside
    have heq : s.position.map (·.side) = some side := by simpa using hside
    simp only [enter, heq, if_true]
  cases signal with
  | none => rfl
  | some signal =>
    cases signal with
    | hold => rfl
    | buy => exact henter .long h
    | sell => exact henter .short h

theorem settle_of_wanted {x : Option Signal × OHLCV K} {side : TradeSide}
    (h : wanted (s.position.map (·.side)) x.1 = some side) :
    s.settle commission x =
      (s.close commission x.2.open_ x.2.date).openAt side commission x.2.open_ x.2.date := by
  obtain ⟨signal, bar⟩ := x
  have henter : ∀ asked, (some asked).filter (fun side => s.position.map (·.side) ≠ some side) =
      some side → s.enter asked commission bar =
        (s.close commission bar.open_ bar.date).openAt side commission bar.open_ bar.date := by
    intro asked hasked
    obtain ⟨heq, hne⟩ := Option.filter_eq_some_iff.mp hasked
    obtain rfl := Option.some.inj heq
    have hside : s.position.map (·.side) ≠ some asked := of_decide_eq_true hne
    simp only [enter, hside, if_false]
  cases signal with
  | none => cases h
  | some signal =>
    cases signal with
    | hold => cases h
    | buy => exact henter .long h
    | sell => exact henter .short h

/-- Executing a signal leaves the state alone, or closes what is open and opens
a position of another side at the bar's open. -/
theorem settle_cases (x : Option Signal × OHLCV K) :
    s.settle commission x = s ∨
      ∃ side, s.position.map (·.side) ≠ some side ∧ s.settle commission x =
        (s.close commission x.2.open_ x.2.date).openAt side commission x.2.open_ x.2.date := by
  cases h : wanted (s.position.map (·.side)) x.1 with
  | none => exact Or.inl (settle_of_wanted_none commission s h)
  | some side =>
    exact Or.inr ⟨side, wanted_ne h, settle_of_wanted commission s h⟩

theorem settle_equityCurve (x : Option Signal × OHLCV K) :
    (s.settle commission x).equityCurve = s.equityCurve := by
  rcases settle_cases commission s x with h | ⟨side, -, h⟩
  · rw [h]
  · rw [h, openAt_equityCurve, close_equityCurve]

theorem settle_trades (x : Option Signal × OHLCV K) :
    s.trades <+: (s.settle commission x).trades := by
  rcases settle_cases commission s x with h | ⟨side, -, h⟩
  · rw [h]
  · rw [h, openAt_trades]
    exact close_trades _ _ _ _

@[simp] theorem mark_trades : (s.mark bar).trades = s.trades := rfl
@[simp] theorem equityAt_mark : (s.mark bar).equityAt price = s.equityAt price := rfl

/-! ### Induction over the bars -/

theorem play_append (xs ys : List (Option Signal × OHLCV K)) :
    s.play commission (xs ++ ys) = (s.play commission xs).play commission ys :=
  List.foldl_append

theorem play_take_succ (bars : List (Option Signal × OHLCV K)) {i : ℕ} (h : i < bars.length) :
    s.play commission (bars.take (i + 1)) =
      (s.play commission (bars.take i)).playBar commission bars[i] := by
  rw [List.take_succ_eq_append_getElem h, play_append]
  rfl

/-- What closing and opening at the open of a bar preserve, and marking at its
close, holds after any number of such bars. -/
theorem play_invariant_on {P : RunState K → Prop} {Q : OHLCV K → Prop}
    (hclose : ∀ s bar, Q bar → P s → P (s.close commission bar.open_ bar.date))
    (hopen : ∀ s side bar, Q bar → s.position = none → P s →
      P (s.openAt side commission bar.open_ bar.date))
    (hmark : ∀ s bar, P s → P (s.mark bar))
    (bars : List (Option Signal × OHLCV K)) (hbars : ∀ x ∈ bars, Q x.2) (s : RunState K)
    (hs : P s) : P (s.play commission bars) := by
  induction bars generalizing s with
  | nil => exact hs
  | cons x xs ih =>
    have hx := hbars x List.mem_cons_self
    refine ih (fun y hy => hbars y (List.mem_cons_of_mem _ hy)) _ (hmark _ _ ?_)
    rcases settle_cases commission s x with h | ⟨side, -, h⟩
    · rw [h]
      exact hs
    · rw [h]
      exact hopen _ _ _ hx (close_position _ _ _ _) (hclose _ _ hx hs)

theorem play_invariant {P : RunState K → Prop}
    (hclose : ∀ s price date, P s → P (s.close commission price date))
    (hopen : ∀ s side price date, s.position = none → P s →
      P (s.openAt side commission price date))
    (hmark : ∀ s bar, P s → P (s.mark bar))
    (bars : List (Option Signal × OHLCV K)) (s : RunState K) (hs : P s) :
    P (s.play commission bars) :=
  play_invariant_on commission (Q := fun _ => True) (fun s bar _ => hclose s bar.open_ bar.date)
    (fun s side bar _ => hopen s side bar.open_ bar.date) hmark bars (fun _ _ => trivial) s hs

theorem play_trades (bars : List (Option Signal × OHLCV K)) :
    s.trades <+: (s.play commission bars).trades := by
  induction bars generalizing s with
  | nil => exact List.prefix_refl _
  | cons x xs ih => exact (settle_trades commission s x).trans (ih (s.playBar commission x))

theorem playBar_equityCurve (x : Option Signal × OHLCV K) :
    (s.playBar commission x).equityCurve =
      s.equityCurve ++ [⟨x.2.date, (s.playBar commission x).equityAt x.2.close⟩] := by
  rw [playBar, equityAt_mark, mark, settle_equityCurve]

theorem play_equityCurve_dates (bars : List (Option Signal × OHLCV K)) :
    (s.play commission bars).equityCurve.map (·.date) =
      s.equityCurve.map (·.date) ++ bars.map (·.2.date) := by
  induction bars generalizing s with
  | nil => exact (List.append_nil _).symm
  | cons x xs ih =>
    have h := ih (s.playBar commission x)
    rw [playBar_equityCurve, List.map_append, List.append_assoc] at h
    exact h

theorem play_equityCurve_length (bars : List (Option Signal × OHLCV K)) :
    (s.play commission bars).equityCurve.length = s.equityCurve.length + bars.length := by
  have h := congrArg List.length (play_equityCurve_dates commission s bars)
  simpa only [List.length_map, List.length_append] using h

theorem play_equityCurve_prefix (bars : List (Option Signal × OHLCV K)) :
    s.equityCurve <+: (s.play commission bars).equityCurve := by
  induction bars generalizing s with
  | nil => exact List.prefix_refl _
  | cons x xs ih =>
    refine List.IsPrefix.trans ?_ (ih (s.playBar commission x))
    rw [playBar_equityCurve]
    exact List.prefix_append _ _

theorem play_equityCurve_getElem (bars : List (Option Signal × OHLCV K))
    (hs : s.equityCurve = []) {i : ℕ} (h : i < bars.length) :
    (s.play commission bars).equityCurve[i]? =
      some ⟨bars[i].2.date,
        (s.play commission (bars.take (i + 1))).equityAt bars[i].2.close⟩ := by
  have hsplit : s.play commission bars =
      (s.play commission (bars.take (i + 1))).play commission (bars.drop (i + 1)) := by
    rw [← play_append, List.take_append_drop]
  obtain ⟨rest, hrest⟩ :=
    play_equityCurve_prefix commission (s.play commission (bars.take (i + 1))) (bars.drop (i + 1))
  have hlen : (s.play commission (bars.take i)).equityCurve.length = i := by
    rw [play_equityCurve_length, hs, List.length_take]
    simp only [List.length_nil]
    omega
  rw [hsplit, ← hrest, play_take_succ commission s bars h, playBar_equityCurve, List.append_assoc,
    List.getElem?_append_right (by omega), hlen, Nat.sub_self]
  rfl

/-! ### The forced close -/

omit [Double K] in
theorem setBackEquity_dates (value : K) (curve : List (EquityPoint K)) :
    (setBackEquity value curve).map (·.date) = curve.map (·.date) := by
  cases curve using List.reverseRecOn with
  | nil => rfl
  | append_singleton points p => simp [setBackEquity]

omit [Double K] in
theorem setBackEquity_getElem (value : K) (curve : List (EquityPoint K)) {i : ℕ}
    (h : i + 1 < curve.length) : (setBackEquity value curve)[i]? = curve[i]? := by
  have hdrop : i < curve.dropLast.length := by
    rw [List.length_dropLast]
    omega
  rw [setBackEquity, List.getElem?_append_left hdrop, List.getElem?_dropLast]
  simp only [ite_eq_left_iff]
  omega

omit [Double K] in
theorem setBackEquity_getLast (value : K) {curve : List (EquityPoint K)} (h : curve ≠ []) :
    ((setBackEquity value curve).getLast?.map (·.equity)) = some value := by
  cases curve using List.reverseRecOn with
  | nil => exact absurd rfl h
  | append_singleton points p => simp [setBackEquity]

theorem liquidate_equityCurve_dates :
    (s.liquidate commission bar).equityCurve.map (·.date) = s.equityCurve.map (·.date) := by
  unfold liquidate
  cases s.position with
  | none => rfl
  | some pos => exact (setBackEquity_dates _ _).trans (by rw [close_equityCurve])

theorem liquidate_equityCurve_getElem {i : ℕ} (h : i + 1 < s.equityCurve.length) :
    (s.liquidate commission bar).equityCurve[i]? = s.equityCurve[i]? := by
  unfold liquidate
  cases s.position with
  | none => rfl
  | some pos =>
    show (setBackEquity _ (s.close commission bar.close bar.date).equityCurve)[i]? = _
    rw [close_equityCurve]
    exact setBackEquity_getElem _ _ h

theorem liquidate_trades : s.trades <+: (s.liquidate commission bar).trades := by
  unfold liquidate
  cases s.position with
  | none => exact List.prefix_refl _
  | some pos => exact close_trades _ _ _ _

end RunState

/-! ### The returned result -/

omit [Double K] in
theorem length_schedule (signals : List SignalResult) (series : List (OHLCV K))
    (h : signals.length = series.length) : (schedule signals series).length = series.length := by
  simp only [schedule, List.length_zip, List.length_cons, List.length_map]
  omega

omit [Double K] in
theorem schedule_getElem_bar (signals : List SignalResult) (series : List (OHLCV K)) {i : ℕ}
    (h : i < (schedule signals series).length) (hi : i < series.length) :
    (schedule signals series)[i].2 = series[i] := by
  simp only [schedule, List.getElem_zip]

namespace BacktestConfig
variable (config : BacktestConfig K) (series : List (OHLCV K)) (signals : List SignalResult)

theorem finalState_equityCurve_dates (h : signals.length = series.length) :
    (config.finalState series signals).equityCurve.map (·.date) = series.map (·.date) := by
  have hlen := length_schedule signals series h
  have hbars : (schedule signals series).map (·.2) = series := by
    unfold schedule at hlen ⊢
    exact List.map_snd_zip (by rw [List.length_cons, List.length_map]; omega)
  have hplay : (config.start.play config.commissionRate
      (schedule signals series)).equityCurve.map (·.date) = series.map (·.date) := by
    have hdates := RunState.play_equityCurve_dates config.commissionRate config.start
      (schedule signals series)
    have hcomp : (schedule signals series).map (·.2.date) = series.map (·.date) := by
      rw [← congrArg (List.map (·.date)) hbars, List.map_map]
      rfl
    rw [hdates, hcomp]
    rfl
  unfold finalState
  cases series.getLast? with
  | none => exact hplay
  | some last => exact (RunState.liquidate_equityCurve_dates _ _ _).trans hplay

theorem finalState_equityCurve_length (h : signals.length = series.length) :
    (config.finalState series signals).equityCurve.length = series.length := by
  have hdates := congrArg List.length (config.finalState_equityCurve_dates series signals h)
  simpa only [List.length_map] using hdates

theorem finalState_equityCurve_getElem (h : signals.length = series.length) {i : ℕ}
    (hi : i + 1 < series.length) :
    (config.finalState series signals).equityCurve[i]? =
      some ⟨series[i].date,
        (config.stateAfter series signals (i + 1)).equityAt series[i].close⟩ := by
  have hlen := length_schedule signals series h
  have hbar : i < (schedule signals series).length := by omega
  have hplay := RunState.play_equityCurve_getElem config.commissionRate config.start
    (schedule signals series) rfl hbar
  rw [schedule_getElem_bar signals series hbar (by omega)] at hplay
  unfold finalState
  cases series.getLast? with
  | none => exact hplay
  | some last =>
    have hcurve := RunState.play_equityCurve_length config.commissionRate config.start
      (schedule signals series)
    have hstart : config.start.equityCurve.length = 0 := rfl
    exact (RunState.liquidate_equityCurve_getElem _ _ _ (by omega)).trans hplay

theorem finalState_trades {last : OHLCV K} (hlast : series.getLast? = some last) :
    (config.finalState series signals).trades =
      ((config.start.play config.commissionRate (schedule signals series)).close
        config.commissionRate last.close last.date).trades := by
  simp only [finalState, hlast, RunState.liquidate]
  cases hp : (config.start.play config.commissionRate (schedule signals series)).position with
  | none => simp only [RunState.close, hp]
  | some pos => rfl

theorem finalState_equityCurve_back (h : signals.length = series.length) {last : OHLCV K}
    (hlast : series.getLast? = some last) :
    (config.finalState series signals).equityCurve.getLast?.map (·.equity) =
      some ((config.start.play config.commissionRate (schedule signals series)).close
        config.commissionRate last.close last.date).cash := by
  have hlen := length_schedule signals series h
  have hpos : 0 < series.length := by
    cases series with
    | nil => cases hlast
    | cons bar bars => exact Nat.succ_pos _
  have hi : series.length - 1 < (schedule signals series).length := by omega
  have hback := RunState.play_equityCurve_getElem config.commissionRate config.start
    (schedule signals series) rfl hi
  rw [List.take_of_length_le (by omega)] at hback
  have hcurve := RunState.play_equityCurve_length config.commissionRate config.start
    (schedule signals series)
  have hstart : config.start.equityCurve.length = 0 := rfl
  simp only [finalState, hlast]
  generalize config.start.play config.commissionRate (schedule signals series) = s at *
  cases hp : s.position with
  | none =>
    have hsize : s.equityCurve.length - 1 = series.length - 1 := by omega
    simp only [RunState.liquidate, RunState.close, hp]
    rw [List.getLast?_eq_getElem?, hsize, hback]
    simp only [RunState.equityAt, hp, Option.map_some]
  | some pos =>
    have hne : s.equityCurve ≠ [] := by
      intro hnil
      rw [hnil, List.length_nil] at hcurve
      omega
    simp only [RunState.liquidate, hp, RunState.close_equityCurve]
    exact RunState.setBackEquity_getLast _ hne

theorem stateAfter_trades_prefix (k : ℕ) :
    (config.stateAfter series signals k).trades <+: (config.finalState series signals).trades := by
  have hplay : (config.stateAfter series signals k).trades <+:
      (config.start.play config.commissionRate (schedule signals series)).trades := by
    have h := RunState.play_trades config.commissionRate (config.stateAfter series signals k)
      ((schedule signals series).drop k)
    rwa [stateAfter, ← RunState.play_append, List.take_append_drop] at h
  unfold finalState
  cases series.getLast? with
  | none => exact hplay
  | some last => exact hplay.trans (RunState.liquidate_trades _ _ _)

end BacktestConfig

theorem BacktestEngine.ofName_eq_ok {name : String} {config : BacktestConfig K}
    {engine : BacktestEngine K} :
    BacktestEngine.ofName name config = .ok engine ↔
      builtinStrategy name = some engine.strategy ∧ engine.config = config := by
  obtain ⟨strategy, config'⟩ := engine
  unfold BacktestEngine.ofName
  cases builtinStrategy (K := K) name with
  | none => simp
  | some found => simp [eq_comm]

theorem BacktestEngine.run_eq_ok {engine : BacktestEngine K} {series : List (OHLCV K)}
    {params : ParamMap K} {r : BacktestResult K} :
    engine.run series params = .ok r ↔
      series ≠ [] ∧ series.length ≤ maxBacktestBars ∧
        ∃ signals, engine.strategy.signals series params = .ok signals ∧
          signals.length = series.length ∧ engine.config.simulate series signals = r := by
  unfold BacktestEngine.run
  by_cases hne : series = []
  · simp [hne]
  · by_cases hmax : maxBacktestBars < series.length
    · simp only [hne, hmax, if_true, if_false]
      constructor
      · intro h
        cases h
      · rintro ⟨-, hle, -⟩
        omega
    · simp only [hne, hmax, if_false]
      cases hs : engine.strategy.signals series params with
      | error e => simp [bind, Except.bind]
      | ok signals =>
        by_cases hlen : signals.length = series.length
        · simp [bind, Except.bind, hlen, Nat.not_lt.mp hmax, hne]
        · simp [bind, Except.bind, hlen]

/-- Buy and hold at a price which doubles. -/
theorem doubling_run :
    ∃ bt, (BacktestEngine.mk buyAndHold ⟨110, 1 / 10, 252, 0⟩).run
        [⟨0, 100, 100, 100, 100, 1⟩, ⟨1, 100, 200, 100, 200, 1⟩] ParamMap.empty = .ok bt ∧
      bt.finalEquity = 180 ∧ bt.trades = [⟨1, 1, 100, 200, (1 : ℝ), .long, 70⟩] := by
  refine ⟨_, rfl, ?_⟩
  simp [BacktestConfig.simulate, BacktestConfig.finalState, BacktestConfig.start, schedule,
    buyAndHoldSignals, RunState.play, RunState.playBar, RunState.settle, RunState.execute,
    RunState.enter, RunState.close, RunState.openAt, RunState.equityAt, RunState.mark,
    RunState.liquidate, RunState.setBackEquity, openPosition, closePosition, positionMarketValue]
  norm_num

end StandardTools.Backtest
