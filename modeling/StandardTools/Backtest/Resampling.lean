import StandardTools.Backtest.MonteCarlo
import StandardTools.Backtest.Solvency

/-!
# Compounding the trades of a backtest (`monte_carlo.cpp:64-118`, `engine.cpp:21-86`)

The engine puts all its cash into each trade, `cash / (1 + commission)` of it into
the position. The simulator divides the result of a trade by the position alone,
so it overstates every gain and every loss by the commission.
-/

namespace StandardTools.Backtest
open StandardTools.Core StandardTools.Lib

/-! ### The paths -/

theorem simulatePath_equity (returns : List ℝ) (initial : ℝ) :
    (simulatePath returns initial).1 = initial * (returns.map (1 + ·)).prod := by
  have hrun : ∀ (s : PathState ℝ), (returns.foldl pathStep s).equity =
      s.equity * (returns.map (1 + ·)).prod := by
    induction returns with
    | nil => exact fun s => (mul_one _).symm
    | cons r returns ih =>
      intro s
      rw [List.foldl_cons, ih, pathStep_equity, List.map_cons, List.prod_cons, mul_assoc]
  exact hrun ⟨initial, initial, 0⟩

theorem simulatePath_perm {returns shuffled : List ℝ} (h : shuffled.Perm returns) (initial : ℝ) :
    (simulatePath shuffled initial).1 = (simulatePath returns initial).1 := by
  rw [simulatePath_equity, simulatePath_equity, (h.map _).prod_eq]

theorem simulatePaths_equity (shuffle : StdShuffle ℝ) (returns : List ℝ) (initial : ℝ)
    (simulations : ℕ) (rng : shuffle.Rng) :
    (simulatePaths shuffle returns initial simulations rng).map Prod.fst =
      List.replicate simulations (simulatePath returns initial).1 := by
  induction simulations generalizing rng with
  | zero => rfl
  | succ simulations ih =>
    rw [simulatePaths, List.map_cons, ih, List.replicate_succ,
      simulatePath_perm (shuffle.perm returns rng)]

theorem percentile_replicate {n : ℕ} (hn : n ≠ 0) (v quantile : ℝ) :
    percentile (List.replicate n v) quantile = v := by
  have hne : List.replicate n v ≠ [] := by simp [hn]
  unfold percentile
  rw [if_neg hne, List.length_replicate]
  simp only
  rw [List.getD_eq_getElem?_getD, List.getElem?_replicate_of_lt, Option.getD_some]
  split
  · omega
  · omega

theorem fromReturns_equity (simulator : MonteCarloSimulator) (shuffle : StdShuffle ℝ)
    (sort : StdSort ℝ (· < ·)) (returns : List ℝ) (initial : ℝ)
    (hsimulations : simulator.simulations ≠ 0) :
    (simulator.fromReturns shuffle sort returns initial).finalEquityCi =
      ⟨initial * (returns.map (1 + ·)).prod, initial * (returns.map (1 + ·)).prod⟩ := by
  unfold MonteCarloSimulator.fromReturns
  by_cases hreturns : returns = []
  · rw [if_pos (Or.inl hreturns), hreturns]
    simp
  · have hsorted : ∀ v, sort.run (List.replicate simulator.simulations v) =
        List.replicate simulator.simulations v :=
      fun v => List.perm_replicate.mp (sort.perm _)
    rw [if_neg (by simp [hreturns, hsimulations])]
    simp only [percentileInterval, simulatePaths_equity, hsorted,
      percentile_replicate hsimulations, simulatePath_equity]

/-! ### What a trade does to the capital -/

/-- The factor by which a fully invested trade changes the capital: both commissions
are paid from the cash that is put in. -/
noncomputable def tradeGrowth (commission : ℝ) (t : Trade ℝ) : ℝ :=
  match t.side with
  | .long => t.exitPrice / t.entryPrice * ((1 - commission) / (1 + commission))
  | .short => (1 + 1) / (1 + commission) - t.exitPrice / t.entryPrice

noncomputable def growthOf (commission : ℝ) (trades : List (Trade ℝ)) : ℝ :=
  ((trades.filter fun t => t.quantity ≠ 0).map (tradeGrowth commission)).prod

theorem growthOf_append (commission : ℝ) (trades : List (Trade ℝ)) (t : Trade ℝ) :
    growthOf commission (trades ++ [t]) =
      growthOf commission trades * if t.quantity = 0 then 1 else tradeGrowth commission t := by
  unfold growthOf
  rw [List.filter_append, List.map_append, List.prod_append]
  by_cases hquantity : t.quantity = 0
  · simp [hquantity]
  · simp [hquantity]

namespace RunState

/-- The cash which is in the account, or was before it went into the position. -/
def capital (commission : ℝ) (s : RunState ℝ) : ℝ :=
  match s.position with
  | none => s.cash
  | some pos => pos.quantity * pos.entryPrice * (1 + commission)

/-- The capital is the initial one, compounded by the trades so far. -/
structure Compounded (initial commission : ℝ) (s : RunState ℝ) : Prop where
  funded : s.Funded
  entry : ∀ pos ∈ s.position, 0 < pos.entryPrice
  capital : s.capital commission = initial * growthOf commission s.trades
  trades : ∀ t ∈ s.trades, 0 < t.entryPrice ∧
    t.pnl = t.quantity * t.entryPrice * (1 + commission) * (tradeGrowth commission t - 1)

variable {initial commission : ℝ} {s : RunState ℝ}

/-- A closed position leaves its stake times its growth. -/
theorem closePosition_growth {pos : Position ℝ} (hc : 0 ≤ commission) (hentry : 0 < pos.entryPrice)
    (price : ℝ) (date : Date) (cash : ℝ) (hcash : cash = match pos.side with
      | .long => 0
      | .short => pos.quantity * (pos.entryPrice + pos.entryPrice)) :
    let r := closePosition pos price commission date cash
    r.2 = pos.quantity * pos.entryPrice * (1 + commission) * tradeGrowth commission r.1 ∧
      r.1.pnl = pos.quantity * pos.entryPrice * (1 + commission) *
        (tradeGrowth commission r.1 - 1) := by
  have hc1 : 1 + commission ≠ 0 := by linarith
  have hentry0 := hentry.ne'
  cases hside : pos.side with
  | long | short =>
    simp only [hside] at hcash
    simp only [closePosition, hside, tradeGrowth, hcash]
    constructor
    · field_simp
      ring
    · field_simp
      ring

theorem closePosition_quantity (pos : Position ℝ) (price : ℝ) (date : Date) (cash : ℝ) :
    (closePosition pos price commission date cash).1.quantity = pos.quantity := by
  cases hside : pos.side with
  | long | short => simp only [closePosition, hside]

theorem closePosition_entryPrice (pos : Position ℝ) (price : ℝ) (date : Date) (cash : ℝ) :
    (closePosition pos price commission date cash).1.entryPrice = pos.entryPrice := by
  cases hside : pos.side with
  | long | short => simp only [closePosition, hside]

theorem Compounded.close (h : s.Compounded initial commission) (hc : 0 ≤ commission) (price : ℝ)
    (date : Date) : (s.close commission price date).Compounded initial commission := by
  obtain ⟨hfunded, hentry, hcapital, htrades⟩ := h
  unfold RunState.close
  cases hpos : s.position with
  | none => exact ⟨hfunded, hentry, hcapital, htrades⟩
  | some pos =>
    have hentry := hentry pos hpos
    obtain ⟨hcash, hpnl⟩ := closePosition_growth hc hentry price date s.cash (hfunded pos hpos)
    simp only [RunState.capital, hpos] at hcapital
    refine ⟨fun _ hnone => (by cases hnone), fun _ hnone => (by cases hnone), ?_, ?_⟩
    · simp only [RunState.capital, growthOf_append, closePosition_quantity]
      rw [hcash, hcapital, mul_assoc]
      by_cases hquantity : pos.quantity = 0
      · rw [hquantity, zero_mul, zero_mul] at hcapital
        rw [if_pos hquantity, ← mul_assoc, ← hcapital, zero_mul, ← mul_assoc, ← hcapital, zero_mul]
      · rw [if_neg hquantity]
    · intro t ht
      rcases List.mem_append.mp ht with ht | ht
      · exact htrades t ht
      · rw [List.mem_singleton.mp ht, closePosition_quantity, closePosition_entryPrice]
        exact ⟨hentry, hpnl⟩

theorem openAt_capital (hc : 0 ≤ commission) (side : TradeSide) {price : ℝ} (hprice : 0 < price)
    (date : Date) : (s.openAt side commission price date).capital commission = s.cash := by
  have hc1 : 1 + commission ≠ 0 := by linarith
  have hne : (price != 0) = true := bne_iff_ne.mpr hprice.ne'
  have hprice0 := hprice.ne'
  simp only [RunState.capital, RunState.openAt, openPosition, hne, if_true]
  field_simp

theorem Compounded.openAt (h : s.Compounded initial commission) (hc : 0 ≤ commission)
    (hnone : s.position = none) (side : TradeSide) {price : ℝ} (hprice : 0 < price) (date : Date) :
    (s.openAt side commission price date).Compounded initial commission := by
  have hcapital := h.capital
  simp only [RunState.capital, hnone] at hcapital
  refine ⟨openAt_funded side date hc hprice, ?_, ?_, h.trades⟩
  · intro pos hpos
    simp only [RunState.openAt, openPosition, Option.mem_def, Option.some.injEq] at hpos
    rw [← hpos]
    exact hprice
  · rw [openAt_trades, ← hcapital]
    exact openAt_capital hc side hprice date

theorem Compounded.play (h : s.Compounded initial commission) (hc : 0 ≤ commission)
    (bars : List (Option Signal × OHLCV ℝ)) (hopens : ∀ x ∈ bars, 0 < x.2.open_) :
    (s.play commission bars).Compounded initial commission :=
  play_invariant_on commission (Q := fun bar => 0 < bar.open_)
    (fun _ bar _ hs => hs.close hc bar.open_ bar.date)
    (fun _ side bar hopen hnone hs => hs.openAt hc hnone side hopen bar.date)
    (fun _ _ hs => ⟨hs.funded, hs.entry, hs.capital, hs.trades⟩) bars hopens s h

end RunState

/-! ### The result -/

variable {config : BacktestConfig ℝ} {series : List (OHLCV ℝ)}

theorem BacktestConfig.start_compounded (config : BacktestConfig ℝ) :
    config.start.Compounded config.initialCapital config.commissionRate := by
  refine ⟨fun pos hpos => (by cases hpos), fun pos hpos => (by cases hpos), ?_, ?_⟩
  · exact (mul_one _).symm
  · intro t ht
    cases ht

/-- The final equity is the initial capital, compounded by all trades. -/
theorem finalEquity_growth {engine : BacktestEngine ℝ} {params : ParamMap ℝ}
    {bt : BacktestResult ℝ} (hrun : engine.run series params = .ok bt)
    (hopens : ∀ bar ∈ series, 0 < bar.open_) (hc : 0 ≤ engine.config.commissionRate) :
    bt.finalEquity =
        engine.config.initialCapital * growthOf engine.config.commissionRate bt.trades ∧
      ∀ t ∈ bt.trades, 0 < t.entryPrice ∧ t.pnl = t.quantity * t.entryPrice *
        (1 + engine.config.commissionRate) *
          (tradeGrowth engine.config.commissionRate t - 1) := by
  obtain ⟨hne, -, signals, -, hlen, rfl⟩ := BacktestEngine.run_eq_ok.mp hrun
  have hlast := List.getLast?_eq_some_getLast hne
  have hplayed := engine.config.start_compounded.play hc (schedule signals series)
    (fun x hx => hopens x.2 (List.of_mem_zip hx).2)
  have hclosed := hplayed.close hc (series.getLast hne).close (series.getLast hne).date
  have hback := engine.config.finalState_equityCurve_back series signals hlen hlast
  have htrades := engine.config.finalState_trades series signals hlast
  have hcapital := hclosed.capital
  simp only [RunState.capital, RunState.close_position] at hcapital
  simp only [BacktestConfig.simulate, hback, Option.getD_some, htrades]
  exact ⟨hcapital, hclosed.trades⟩

/-- What the simulator compounds instead: the change of the capital as a share of
the position. -/
theorem prod_tradeReturn {commission : ℝ} (hc : 0 ≤ commission) {trades : List (Trade ℝ)}
    (h : ∀ t ∈ trades, 0 < t.entryPrice ∧ t.pnl = t.quantity * t.entryPrice * (1 + commission) *
      (tradeGrowth commission t - 1)) :
    ((trades.map tradeReturn).map (1 + ·)).prod =
      ((trades.filter fun t => t.quantity ≠ 0).map fun t =>
        1 + (1 + commission) * (tradeGrowth commission t - 1)).prod := by
  induction trades with
  | nil => rfl
  | cons t trades ih =>
    obtain ⟨hentry, hpnl⟩ := h t List.mem_cons_self
    rw [List.map_cons, List.map_cons, List.prod_cons,
      ih fun u hu => h u (List.mem_cons_of_mem _ hu)]
    by_cases hquantity : t.quantity = 0
    · have hzero : tradeReturn t = 0 := by
        unfold tradeReturn
        rw [hquantity, mul_zero]
        exact if_pos (beq_self_eq_true 0)
      rw [hzero, List.filter_cons_of_neg (by simp [hquantity]), add_zero, one_mul]
    · have hcost : t.entryPrice * t.quantity ≠ 0 := mul_ne_zero hentry.ne' hquantity
      have hreturn : tradeReturn t = (1 + commission) * (tradeGrowth commission t - 1) := by
        have hbeq : ¬(t.entryPrice * t.quantity == 0) = true := fun hb => hcost (beq_iff_eq.mp hb)
        unfold tradeReturn
        simp only [if_neg hbeq]
        rw [hpnl]
        field_simp
      rw [hreturn, List.filter_cons_of_pos (by simp [hquantity]), List.map_cons, List.prod_cons]

theorem fromTrades_equity (simulator : MonteCarloSimulator) (shuffle : StdShuffle ℝ)
    (sort : StdSort ℝ (· < ·)) {trades : List (Trade ℝ)} (initial : ℝ) {commission : ℝ}
    (hsimulations : simulator.simulations ≠ 0) (hc : 0 ≤ commission)
    (h : ∀ t ∈ trades, 0 < t.entryPrice ∧ t.pnl = t.quantity * t.entryPrice * (1 + commission) *
      (tradeGrowth commission t - 1)) :
    (simulator.fromTrades shuffle sort trades initial).finalEquityCi =
      ⟨initial * ((trades.filter fun t => t.quantity ≠ 0).map fun t =>
          1 + (1 + commission) * (tradeGrowth commission t - 1)).prod,
        initial * ((trades.filter fun t => t.quantity ≠ 0).map fun t =>
          1 + (1 + commission) * (tradeGrowth commission t - 1)).prod⟩ := by
  unfold MonteCarloSimulator.fromTrades
  rw [fromReturns_equity simulator shuffle sort _ _ hsimulations, prod_tradeReturn hc h]

theorem make_simulations {simulations : ℤ} (h : 1 ≤ simulations) (seed : Option UInt64) :
    (MonteCarloSimulator.make simulations seed).simulations ≠ 0 := by
  unfold MonteCarloSimulator.make maxMonteCarloSimulations
  simp only
  rw [if_neg (by omega)]
  omega

/-- The simulator reproduces the backtest where its growth factors have the product
of the engine's. -/
theorem fromTrades_reproduces_iff (shuffle : StdShuffle ℝ) (sort : StdSort ℝ (· < ·))
    {simulations : ℤ} (seed : Option UInt64) {engine : BacktestEngine ℝ} {params : ParamMap ℝ}
    {bt : BacktestResult ℝ} (hrun : engine.run series params = .ok bt)
    (hprices : ∀ bar ∈ series, 0 < bar.open_ ∧ 0 < bar.close)
    (hcapital : 0 < engine.config.initialCapital)
    (hcommission : 0 ≤ engine.config.commissionRate ∧ engine.config.commissionRate < 1)
    (hsimulations : 1 ≤ simulations) :
    ((MonteCarloSimulator.make simulations seed).fromTrades shuffle sort bt.trades
      engine.config.initialCapital).finalEquityCi = ⟨bt.finalEquity, bt.finalEquity⟩ ↔
    ((bt.trades.filter fun t => t.quantity ≠ 0).map fun t =>
        1 + (1 + engine.config.commissionRate) *
          (tradeGrowth engine.config.commissionRate t - 1)).prod =
      ((bt.trades.filter fun t => t.quantity ≠ 0).map
        (tradeGrowth engine.config.commissionRate)).prod := by
  have hc := hcommission.1
  obtain ⟨hfinal, htrades⟩ := finalEquity_growth hrun (fun bar hbar => (hprices bar hbar).1) hc
  have hmc := fromTrades_equity (MonteCarloSimulator.make simulations seed) shuffle sort
    engine.config.initialCapital (make_simulations hsimulations seed) hc htrades
  rw [hmc, hfinal, ConfidenceInterval.mk.injEq, and_self_iff]
  exact mul_right_inj' hcapital.ne'

/-- Without commissions the two products are the same. -/
theorem fromTrades_reproduces_iff_free :
    ∃ bt, (BacktestEngine.mk buyAndHold ⟨100, 0, 252, 0⟩).run
        [⟨0, 100, 100, 100, 100, 1⟩, ⟨1, 100, 200, 100, 200, 1⟩] ParamMap.empty = .ok bt ∧
      ((MonteCarloSimulator.make 1 none).fromTrades StdShuffle.keep numberSort bt.trades
        (100 : ℝ)).finalEquityCi = ⟨bt.finalEquity, bt.finalEquity⟩ := by
  obtain ⟨bt, hrun⟩ : ∃ bt, (BacktestEngine.mk buyAndHold ⟨100, 0, 252, 0⟩).run
      [⟨0, 100, 100, 100, 100, 1⟩, ⟨1, 100, 200, 100, 200, 1⟩] ParamMap.empty =
        .ok (bt : BacktestResult ℝ) := ⟨_, rfl⟩
  refine ⟨bt, hrun, (fromTrades_reproduces_iff StdShuffle.keep numberSort none hrun ?_ ?_ ?_
    (le_refl 1)).mpr ?_⟩
  · simp
  · norm_num
  · norm_num
  · simp

/-! ### Buy and hold at a doubling price -/

/-- The share bought for 100 and sold for 200 has earned 70 on a capital of 110. The
simulator takes the 70 for a return of 70 per cent. -/
theorem doubling_not_reproduced :
    ∃ engine bt, BacktestEngine.ofName "buy_and_hold" ⟨110, 1 / 10, 252, 0⟩ = .ok engine ∧
      engine.run [⟨0, 100, 100, 100, 100, 1⟩, ⟨1, 100, 200, 100, 200, 1⟩] ParamMap.empty = .ok bt ∧
      bt.finalEquity = 180 ∧ ∀ shuffle sort,
        ((MonteCarloSimulator.make 1 none).fromTrades shuffle sort bt.trades
          (110 : ℝ)).finalEquityCi = ⟨187, 187⟩ := by
  obtain ⟨bt, hrun, hfinal, htrades⟩ := doubling_run
  have hengine : BacktestEngine.ofName "buy_and_hold" ⟨(110 : ℝ), 1 / 10, 252, 0⟩ =
      .ok ⟨buyAndHold, ⟨110, 1 / 10, 252, 0⟩⟩ := by
    unfold BacktestEngine.ofName builtinStrategy
    rw [if_pos rfl]
  refine ⟨_, bt, hengine, hrun, hfinal, fun shuffle sort => ?_⟩
  unfold MonteCarloSimulator.fromTrades
  rw [fromReturns_equity _ shuffle sort _ _ (make_simulations (le_refl 1) none), htrades]
  norm_num [tradeReturn]

/-! ### The interval of the final equity -/

/-- A shuffle which moves the first return to the end. -/
def StdShuffle.rotateOne {α : Type} : StdShuffle α where
  Rng := Unit
  makeRng _ := ()
  run l rng := (l.rotate 1, rng)
  perm l _ := List.rotate_perm l 1

theorem percentile_singleton (v quantile : ℝ) : percentile [v] quantile = v :=
  percentile_replicate one_ne_zero v quantile

theorem fromReturns_one_drawdown (shuffle : StdShuffle ℝ) (sort : StdSort ℝ (· < ·))
    {returns : List ℝ} (hreturns : returns ≠ []) (initial : ℝ) (seed : Option UInt64) :
    let drawdown := (simulatePath (shuffle.run returns (shuffle.makeRng seed)).1 initial).2
    ((MonteCarloSimulator.make 1 seed).fromReturns shuffle sort returns initial).maxDrawdownCi =
      ⟨drawdown, drawdown⟩ := by
  have hone : (MonteCarloSimulator.make 1 seed).simulations = 1 := rfl
  have hsorted : ∀ v, sort.run [v] = [v] := fun v => List.perm_singleton.mp (sort.perm [v])
  unfold MonteCarloSimulator.fromReturns
  rw [if_neg (by simp [hreturns, hone]), hone]
  simp only [simulatePaths, List.map_cons, List.map_nil, percentileInterval, hsorted,
    percentile_singleton]
  rfl

/-- Two losses in a row cost three quarters, and half when the gain comes between them. -/
theorem drawdown_varies (sort : StdSort ℝ (· < ·)) :
    ((MonteCarloSimulator.make 1 none).fromReturns StdShuffle.keep sort
        [-(1 / 2), -(1 / 2), 1] 1).maxDrawdownCi ≠
      ((MonteCarloSimulator.make 1 none).fromReturns StdShuffle.rotateOne sort
        [-(1 / 2), -(1 / 2), 1] 1).maxDrawdownCi := by
  rw [fromReturns_one_drawdown _ _ (by simp), fromReturns_one_drawdown _ _ (by simp)]
  simp only [StdShuffle.keep, StdShuffle.rotateOne, simulatePath]
  norm_num [List.rotate, pathStep]

/-- A product does not depend on the order of its factors: every path ends at the same
equity, and every percentile of the paths is that equity. -/
theorem finalEquity_single_point (shuffle : StdShuffle ℝ) (sort : StdSort ℝ (· < ·))
    (returns : List ℝ) (initial : ℝ) {simulations : ℤ} (seed : Option UInt64)
    (hsimulations : 1 ≤ simulations) :
    let result := (MonteCarloSimulator.make simulations seed).fromReturns shuffle sort returns initial
    result.finalEquityCi =
        ⟨initial * (returns.map (1 + ·)).prod, initial * (returns.map (1 + ·)).prod⟩ ∧
      ∀ (shuffle' : StdShuffle ℝ) (sort' : StdSort ℝ (· < ·)) (seed' : Option UInt64),
        let other :=
          (MonteCarloSimulator.make simulations seed').fromReturns shuffle' sort' returns initial
        other = { result with maxDrawdownCi := other.maxDrawdownCi } := by
  have hpoint : ∀ (shuffle : StdShuffle ℝ) (sort : StdSort ℝ (· < ·)) (seed : Option UInt64),
      ((MonteCarloSimulator.make simulations seed).fromReturns shuffle sort
          returns initial).finalEquityCi =
        ⟨initial * (returns.map (1 + ·)).prod, initial * (returns.map (1 + ·)).prod⟩ :=
    fun shuffle sort seed => fromReturns_equity _ shuffle sort returns initial
      (make_simulations hsimulations seed)
  have hfields : ∀ (shuffle : StdShuffle ℝ) (sort : StdSort ℝ (· < ·)) (seed : Option UInt64),
      let r := (MonteCarloSimulator.make simulations seed).fromReturns shuffle sort returns initial
      r.simulations = (MonteCarloSimulator.make simulations seed).simulations ∧
        r.initialCapital = initial := by
    intro shuffle sort seed
    unfold MonteCarloSimulator.fromReturns
    split_ifs
    · exact ⟨rfl, rfl⟩
    · exact ⟨rfl, rfl⟩
  have hext : ∀ r r' : MonteCarloResult ℝ, r'.simulations = r.simulations →
      r'.finalEquityCi = r.finalEquityCi → r'.initialCapital = r.initialCapital →
        r' = { r with maxDrawdownCi := r'.maxDrawdownCi } := by
    rintro ⟨_, _, _, _⟩ ⟨_, _, _, _⟩ rfl rfl rfl
    rfl
  refine ⟨hpoint shuffle sort seed, fun shuffle' sort' seed' => hext _ _ ?_ ?_ ?_⟩
  · exact (hfields shuffle' sort' seed').1.trans (hfields shuffle sort seed).1.symm
  · exact (hpoint shuffle' sort' seed').trans (hpoint shuffle sort seed).symm
  · exact (hfields shuffle' sort' seed').2.trans (hfields shuffle sort seed).2.symm

theorem finalEquity_single_point_half :
    ((MonteCarloSimulator.make 1 none).fromReturns StdShuffle.keep numberSort
      [(1 : ℝ), -(1 / 2)] 100).finalEquityCi = ⟨100, 100⟩ := by
  have hpoint := (finalEquity_single_point StdShuffle.keep numberSort [(1 : ℝ), -(1 / 2)] 100 none
    (le_refl 1)).1
  rw [hpoint]
  norm_num

end StandardTools.Backtest
