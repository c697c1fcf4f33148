import StandardTools.Backtest.Compounding

/-!
# The combined trades (`backtest/walk_forward.cpp:108-137`)

`CombineResults` scales the result of a trade and leaves its quantity alone, so a
trade adds up again exactly where the scale is one or nothing was earned.
-/

namespace StandardTools.Backtest
open StandardTools.Core StandardTools.Lib

/-! ### Trades of the engine -/

/-- The result of the trade is what its prices and its quantity say. -/
def Trade.Consistent (commission : ℝ) (t : Trade ℝ) : Prop :=
  t.pnl = (match t.side with
    | .long => t.quantity * (t.exitPrice - t.entryPrice)
    | .short => t.quantity * (t.entryPrice - t.exitPrice)) -
      commission * t.quantity * (t.entryPrice + t.exitPrice)

theorem closePosition_consistent (pos : Position ℝ) (price commission : ℝ) (date : Date) (cash : ℝ) :
    (closePosition pos price commission date cash).1.Consistent commission := by
  unfold closePosition Trade.Consistent
  cases hside : pos.side with
  | long | short =>
    simp only
    ring

def RunState.Consistent (commission : ℝ) (s : RunState ℝ) : Prop :=
  ∀ t ∈ s.trades, t.Consistent commission

theorem RunState.close_consistent {commission : ℝ} {s : RunState ℝ} (h : s.Consistent commission)
    (price : ℝ) (date : Date) : (s.close commission price date).Consistent commission := by
  intro t ht
  unfold RunState.close at ht
  cases hpos : s.position with
  | none =>
    simp only [hpos] at ht
    exact h t ht
  | some pos =>
    simp only [hpos] at ht
    rcases List.mem_append.mp ht with ht | ht
    · exact h t ht
    · rw [List.mem_singleton.mp ht]
      exact closePosition_consistent _ _ _ _ _

variable {name : String} {config : BacktestConfig ℝ}

theorem runNamed_consistent {bars : List (OHLCV ℝ)} {params : ParamMap ℝ} {r : BacktestResult ℝ}
    (h : runNamed name config bars params = .ok r) :
    ∀ t ∈ r.trades, t.Consistent config.commissionRate := by
  obtain ⟨strategy, -, hne, -, signals, -, hlen, rfl⟩ := runNamed_eq_ok.mp h
  obtain ⟨last, hlast⟩ := Option.ne_none_iff_exists'.mp
    (fun hn => hne (List.getLast?_eq_none_iff.mp hn) : bars.getLast? ≠ none)
  have hstart : config.start.Consistent config.commissionRate := by
    intro t ht
    cases ht
  have hplayed := RunState.play_invariant config.commissionRate
    (P := RunState.Consistent config.commissionRate)
    (fun s price date hs => RunState.close_consistent hs price date)
    (fun _ _ _ _ _ hs => hs) (fun _ _ hs => hs) (schedule signals bars) config.start hstart
  show ∀ t ∈ (config.finalState bars signals).trades, t.Consistent config.commissionRate
  rw [config.finalState_trades bars signals hlast]
  exact RunState.close_consistent hplayed _ _

theorem Trade.consistent_pnl_mul_iff {commission c : ℝ} {t : Trade ℝ}
    (h : t.Consistent commission) :
    Trade.Consistent commission { t with pnl := t.pnl * c } ↔ c = 1 ∨ t.pnl = 0 := by
  unfold Trade.Consistent at h ⊢
  simp only
  rw [← h]
  constructor
  · intro hscaled
    by_cases hzero : t.pnl = 0
    · exact Or.inr hzero
    · exact Or.inl (mul_left_cancel₀ hzero (hscaled.trans (mul_one _).symm))
  · rintro (rfl | hzero)
    · exact mul_one _
    · rw [hzero, zero_mul]

/-! ### Scaled trades -/

/-- What `CombineResults` makes of the trades of the windows, the first of which
begins with `c` times the configured capital. -/
def carriedTrades : ℝ → List (BacktestResult ℝ) → List (Trade ℝ)
  | _, [] => []
  | c, r :: rest =>
    r.trades.map (fun t => { t with pnl := t.pnl * c }) ++
      carriedTrades (c * (1 + r.totalReturn)) rest

theorem stitchStep_capital (s : Stitch ℝ) (i : ℕ) {params : ParamMap ℝ} {bars : List (OHLCV ℝ)}
    {r : BacktestResult ℝ} (h : runNamed name config bars params = .ok r) :
    (stitchStep config s (r, i)).cumulativeCapital =
      r.finalEquity * (s.carried config i / config.initialCapital) := by
  obtain ⟨-, hback⟩ := stitchStep_eq s i (runNamed_head h)
  obtain ⟨p, hp, hlast⟩ := Option.map_eq_some_iff.mp (runNamed_back h)
  rw [List.getLast?_map, hp, Option.map_some, Option.map_some] at hback
  rw [← hlast]
  exact (Option.some.inj hback).symm

theorem stitch_foldl_trades (hcapital : config.initialCapital ≠ 0)
    {results : List (BacktestResult ℝ)}
    (h : ∀ r ∈ results, ∃ bars params, runNamed name config bars params = .ok r)
    (s : Stitch ℝ) (i : ℕ) {c : ℝ} (hc : s.carried config i = c * config.initialCapital) :
    ((results.zipIdx i).foldl (stitchStep config) s).trades =
      s.trades ++ carriedTrades c results := by
  induction results generalizing s i c with
  | nil => exact (List.append_nil _).symm
  | cons r results ih =>
    obtain ⟨bars, params, hrun⟩ := h r List.mem_cons_self
    have hscale : s.carried config i / config.initialCapital = c := by
      rw [hc, mul_div_cancel_right₀ c hcapital]
    have htrades := stitchStep_trades s i (runNamed_head hrun)
    have hnext : (stitchStep config s (r, i)).carried config (i + 1) =
        c * (1 + r.totalReturn) * config.initialCapital := by
      show (stitchStep config s (r, i)).cumulativeCapital = _
      rw [stitchStep_capital s i hrun, hscale, runNamed_finalEquity hrun]
      ring
    rw [hscale] at htrades
    rw [List.zipIdx_cons, List.foldl_cons,
      ih (fun r' hr' => h r' (List.mem_cons_of_mem _ hr')) _ _ hnext, htrades, carriedTrades,
      List.append_assoc]

/-! ### Capital zero -/

theorem runNamed_pnl_of_capital_eq_zero (hcapital : config.initialCapital = 0)
    {bars : List (OHLCV ℝ)} {params : ParamMap ℝ} {r : BacktestResult ℝ}
    (h : runNamed name config bars params = .ok r) : ∀ t ∈ r.trades, t.pnl = 0 := by
  obtain ⟨strategy, -, -, -, signals, -, -, rfl⟩ := runNamed_eq_ok.mp h
  have hscale := config.finalState_scale_zero bars signals hcapital
  intro t ht
  change t ∈ (config.finalState bars signals).trades at ht
  rw [hscale] at ht
  obtain ⟨t, -, rfl⟩ := List.mem_map.mp ht
  exact mul_zero t.pnl

theorem stitch_foldl_mem_trades {results : List (BacktestResult ℝ)} (s : Stitch ℝ) (i : ℕ)
    {t : Trade ℝ} (ht : t ∈ ((results.zipIdx i).foldl (stitchStep config) s).trades) :
    t ∈ s.trades ∨ ∃ r ∈ results, ∃ u ∈ r.trades, ∃ c, t = { u with pnl := u.pnl * c } := by
  induction results generalizing s i with
  | nil => exact Or.inl ht
  | cons r results ih =>
    rw [List.zipIdx_cons, List.foldl_cons] at ht
    rcases ih _ _ ht with ht | ⟨r', hr', hscaled⟩
    · rcases List.mem_append.mp ht with ht | ht
      · exact Or.inl ht
      · obtain ⟨u, hu, rfl⟩ := List.mem_map.mp ht
        exact Or.inr ⟨r, List.mem_cons_self, u, hu, _, rfl⟩
    · exact Or.inr ⟨r', List.mem_cons_of_mem _ hr', hscaled⟩

/-! ### Where the trades are consistent -/

theorem carriedTrades_consistent_iff {commission : ℝ} {results : List (BacktestResult ℝ)}
    (h : ∀ r ∈ results, ∀ t ∈ r.trades, t.Consistent commission) (c : ℝ) :
    (∀ t ∈ carriedTrades c results, t.Consistent commission) ↔
      ∀ k r, results[k]? = some r →
        c * ((results.take k).map fun r => 1 + r.totalReturn).prod = 1 ∨ ∀ t ∈ r.trades, t.pnl = 0 := by
  induction results generalizing c with
  | nil => simp [carriedTrades]
  | cons r results ih =>
    have hhead : (∀ t ∈ r.trades.map (fun t => { t with pnl := t.pnl * c }),
        t.Consistent commission) ↔ c = 1 ∨ ∀ t ∈ r.trades, t.pnl = 0 := by
      rw [List.forall_mem_map]
      simp only [← forall_or_left]
      exact forall₂_congr fun t ht =>
        Trade.consistent_pnl_mul_iff (h r List.mem_cons_self t ht)
    rw [carriedTrades, List.forall_mem_append, hhead,
      ih (fun r' hr' => h r' (List.mem_cons_of_mem _ hr'))]
    constructor
    · rintro ⟨hfirst, hrest⟩ k r' hr'
      cases k with
      | zero =>
        cases hr'
        rw [List.take_zero, List.map_nil, List.prod_nil, mul_one]
        exact hfirst
      | succ k =>
        rw [List.take_succ_cons, List.map_cons, List.prod_cons, ← mul_assoc]
        exact hrest k r' hr'
    · intro hall
      refine ⟨?_, fun k r' hr' => ?_⟩
      · have hfirst := hall 0 r rfl
        rwa [List.take_zero, List.map_nil, List.prod_nil, mul_one] at hfirst
      · have hrest := hall (k + 1) r' hr'
        rwa [List.take_succ_cons, List.map_cons, List.prod_cons, ← mul_assoc] at hrest

theorem stitch_consistent_iff {results : List (BacktestResult ℝ)}
    (hruns : ∀ r ∈ results, ∃ bars params, runNamed name config bars params = .ok r) :
    (∀ t ∈ (stitch config results).trades, t.Consistent config.commissionRate) ↔
      ∀ k r, results[k]? = some r →
        ((results.take k).map fun r => 1 + r.totalReturn).prod = 1 ∨ ∀ t ∈ r.trades, t.pnl = 0 := by
  have hconsistent : ∀ r ∈ results, ∀ t ∈ r.trades, t.Consistent config.commissionRate := by
    intro r hr
    obtain ⟨bars, params, hrun⟩ := hruns r hr
    exact runNamed_consistent hrun
  by_cases hcapital : config.initialCapital = 0
  · have hpnl : ∀ r ∈ results, ∀ t ∈ r.trades, t.pnl = 0 := by
      intro r hr
      obtain ⟨bars, params, hrun⟩ := hruns r hr
      exact runNamed_pnl_of_capital_eq_zero hcapital hrun
    constructor
    · intro _ k r hr
      exact Or.inr (hpnl r (List.mem_of_getElem? hr))
    · intro _ t ht
      rcases stitch_foldl_mem_trades _ _ ht with ht | ⟨r, hr, u, hu, c, rfl⟩
      · cases ht
      · exact (Trade.consistent_pnl_mul_iff (hconsistent r hr u hu)).mpr (Or.inr (hpnl r hr u hu))
  · have htrades := stitch_foldl_trades hcapital hruns ⟨[], [], 0⟩ 0 (c := 1) (one_mul _).symm
    have hiff := carriedTrades_consistent_iff hconsistent 1
    simp only [one_mul] at hiff
    rw [← hiff]
    unfold stitch
    rw [htrades, List.nil_append]

theorem combineResults_trades {sort : DateSort ℝ} {results : List (BacktestResult ℝ)}
    {selected : List (ParamWindow ℝ)} {result : WalkForwardResult ℝ}
    (h : combineResults sort results selected config = .ok result) :
    result.trades = (stitch config results).trades := by
  have hresults := combineResults_ne_nil h
  unfold combineResults at h
  rw [if_neg hresults] at h
  cases h
  rfl

theorem WalkForwardOptimizer.outOfSample_consistent_iff {w : WalkForwardOptimizer ℝ}
    {tests : List (Tested ℝ)} (h : w.outOfSample = .ok tests) :
    (∀ t ∈ (stitch w.config (tests.map (·.result))).trades, t.Consistent w.config.commissionRate) ↔
      ∀ k test, tests[k]? = some test →
        ((tests.take k).map fun t => 1 + t.result.totalReturn).prod = 1 ∨
          ∀ t ∈ test.result.trades, t.pnl = 0 := by
  obtain ⟨combinations, -, -, htests⟩ := outOfSample_eq_ok.mp h
  have hruns : ∀ r ∈ tests.map (·.result), ∃ bars params,
      runNamed w.strategy w.config bars params = .ok r := by
    intro r hr
    obtain ⟨t, ht, rfl⟩ := List.mem_map.mp hr
    obtain ⟨k, hk, rfl⟩ := List.mem_iff_getElem.mp ht
    exact ⟨_, _, (w.tested_eq_ok.mp (htests k hk)).2⟩
  rw [stitch_consistent_iff hruns]
  simp only [List.getElem?_map, ← List.map_take, List.map_map, Option.map_eq_some_iff,
    forall_exists_index, and_imp]
  constructor
  · intro hall k test htest
    exact hall k _ test htest rfl
  · rintro hall k _ test htest rfl
    exact hall k test htest

theorem runNamed_twoBars {b₀ b₁ : OHLCV ℝ} {params : ParamMap ℝ} {r : BacktestResult ℝ}
    (hopen : b₁.open_ = 1)
    (h : runNamed "buy_and_hold" twoWindows.config [b₀, b₁] params = .ok r) :
    r.equityCurve = [⟨b₀.date, 1⟩, ⟨b₁.date, b₁.close⟩] ∧
      r.trades = [⟨b₁.date, b₁.date, 1, b₁.close, 1, .long, b₁.close - 1⟩] := by
  obtain ⟨strategy, hstrategy, -, -, signals, hsignals, -, rfl⟩ := runNamed_eq_ok.mp h
  cases hstrategy
  cases hsignals
  have hstate : twoWindows.config.finalState [b₀, b₁] (buyAndHoldSignals [b₀, b₁]) =
      ⟨b₁.close, none, [⟨b₁.date, b₁.date, 1, b₁.close, 1, .long, b₁.close - 1⟩],
        [⟨b₀.date, 1⟩, ⟨b₁.date, b₁.close⟩]⟩ := by
    simp [BacktestConfig.finalState, BacktestConfig.start, buyAndHoldSignals, schedule,
      RunState.play, RunState.playBar, RunState.settle, RunState.execute, RunState.enter,
      RunState.openAt, RunState.close, RunState.mark, RunState.equityAt, RunState.liquidate,
      RunState.setBackEquity, openPosition, closePosition, positionMarketValue, twoWindows, hopen]
  simp only [BacktestConfig.simulate, hstate, and_self]

theorem runNamed_twoBars_return {b₀ b₁ : OHLCV ℝ} {params : ParamMap ℝ} {r : BacktestResult ℝ}
    (hopen : b₁.open_ = 1)
    (h : runNamed "buy_and_hold" twoWindows.config [b₀, b₁] params = .ok r) :
    1 + r.totalReturn = b₁.close := by
  have hfinal := runNamed_finalEquity h
  have hback := runNamed_back h
  rw [(runNamed_twoBars hopen h).1] at hback
  rw [← Option.some.inj hback] at hfinal
  simpa [twoWindows] using hfinal.symm

theorem twoWindowsTo_tests {last : ℝ} {tests : List (Tested ℝ)}
    (h : (twoWindowsTo last).outOfSample = .ok tests) :
    ∃ first second, tests = [first, second] ∧
      (first.result.equityCurve = [⟨1, 1⟩, ⟨2, 1 + 1⟩] ∧ 1 + first.result.totalReturn = 1 + 1) ∧
      second.result.equityCurve = [⟨3, 1⟩, ⟨4, last⟩] ∧
        second.result.trades = [⟨4, 4, 1, last, 1, .long, last - 1⟩] := by
  obtain ⟨combinations, -, hcount, htests⟩ := WalkForwardOptimizer.outOfSample_eq_ok.mp h
  have hwindows : (twoWindowsTo last).windowCount = 2 := by
    simp [WalkForwardOptimizer.windowCount, twoWindowsTo, twoWindows]
  obtain ⟨first, second, rfl⟩ := List.length_eq_two.mp (hcount.trans hwindows)
  have hfirst := ((twoWindowsTo last).tested_eq_ok.mp (htests 0 Nat.zero_lt_two)).2
  have hsecond := ((twoWindowsTo last).tested_eq_ok.mp (htests 1 Nat.one_lt_two)).2
  have hcurve := (runNamed_twoBars rfl hfirst).1
  exact ⟨first, second, rfl, ⟨hcurve, runNamed_twoBars_return rfl hfirst⟩,
    runNamed_twoBars rfl hsecond⟩

/-- Exactly the runs in which every window that earns something on a trade begins
with the configured capital have trades which add up. -/
theorem walk_forward_trades_iff (w : WalkForwardOptimizer ℝ) (sort : DateSort ℝ)
    (result : WalkForwardResult ℝ) (tests : List (Tested ℝ)) (hrun : w.run sort = .ok result)
    (htests : w.outOfSample = .ok tests) :
    (∀ t ∈ result.trades, t.Consistent w.config.commissionRate) ↔
      ∀ k test, tests[k]? = some test →
        ((tests.take k).map fun t => 1 + t.result.totalReturn).prod = 1 ∨
          ∀ t ∈ test.result.trades, t.pnl = 0 := by
  obtain ⟨tests', htests', hcombine⟩ := WalkForwardOptimizer.run_eq_ok hrun
  obtain rfl : tests = tests' := Except.ok.inj (htests.symm.trans htests')
  rw [combineResults_trades hcombine]
  exact WalkForwardOptimizer.outOfSample_consistent_iff htests

/-- The second window begins with two, bought one unit of its own capital at
one, and is said to have earned two on a rise to two. -/
theorem second_window_trade_inconsistent :
    ∃ result, twoWindows.run DateSort.merge = .ok result ∧
      ∃ t ∈ result.trades, ¬t.Consistent twoWindows.config.commissionRate := by
  obtain ⟨-, -, result, -, -, hrun, -⟩ := twoWindowsTo_run (1 + 1)
  obtain ⟨tests, htests, hcombine⟩ := WalkForwardOptimizer.run_eq_ok hrun
  obtain ⟨first, second, rfl, ⟨-, hreturn⟩, -, htrades⟩ := twoWindowsTo_tests htests
  refine ⟨result, hrun, ?_⟩
  by_contra hall
  push Not at hall
  rw [combineResults_trades hcombine] at hall
  rcases (WalkForwardOptimizer.outOfSample_consistent_iff htests).mp hall 1 second rfl with
    hone | hpnl
  · have htwo : (1 + first.result.totalReturn) * 1 = 1 := hone
    rw [hreturn] at htwo
    norm_num at htwo
  · rw [htrades] at hpnl
    have hearned : (1 + 1 - 1 : ℝ) = 0 := hpnl _ (List.mem_singleton.mpr rfl)
    norm_num at hearned

/-- With a last close of one the second window earns nothing. -/
theorem walk_forward_trades_flat :
    ∃ result, (twoWindowsTo 1).run DateSort.merge = .ok result ∧
      ∀ t ∈ result.trades, t.Consistent (twoWindowsTo 1).config.commissionRate := by
  obtain ⟨-, -, result, -, -, hrun, -⟩ := twoWindowsTo_run 1
  obtain ⟨tests, htests, -⟩ := WalkForwardOptimizer.run_eq_ok hrun
  refine ⟨result, hrun, (walk_forward_trades_iff _ _ result tests hrun htests).mpr ?_⟩
  obtain ⟨first, second, rfl, -, -, htrades⟩ := twoWindowsTo_tests htests
  have hflat : ∀ t ∈ second.result.trades, t.pnl = 0 := by
    intro t ht
    rw [htrades] at ht
    rw [List.mem_singleton.mp ht]
    exact sub_self 1
  intro k test htest
  match k, htest with
  | 0, _ => exact Or.inl rfl
  | 1, rfl => exact Or.inr hflat

end StandardTools.Backtest
