import StandardTools.Backtest.Exposure
import StandardTools.Backtest.Resampling

/-!
# What the commission costs (`engine.cpp:21-86`, `215-308`)

The commission decides no trade: which positions are opened and closed, and at
which prices, is read off the signals and the bars. It lowers the factor by which
each trade multiplies the cash, so as long as these factors are positive the
dearer account is behind after every trade.
-/

namespace StandardTools.Backtest
open StandardTools.Core StandardTools.Lib

/-! ### The trades and the balances behind them -/

section
variable {K : Type} [Double K]

namespace RunState

/-- What closing the open position brings in: the trade and the cash right after it. -/
def closing (commission price : K) (date : Date) (s : RunState K) : List (Trade K × K) :=
  (s.position.map fun pos => closePosition pos price commission date s.cash).toList

/-- The same for every position which is closed from a state on, at the opens of
the bars and at the last close. -/
def closings (commission : K) (last : OHLCV K) :
    RunState K → List (Option Signal × OHLCV K) → List (Trade K × K)
  | s, [] => s.closing commission last.close last.date
  | s, x :: bars =>
    (match wanted (s.position.map (·.side)) x.1 with
      | none => []
      | some _ => s.closing commission x.2.open_ x.2.date) ++
      closings commission last (s.playBar commission x) bars

theorem close_trades_eq (commission price : K) (date : Date) (s : RunState K) :
    (s.close commission price date).trades =
      s.trades ++ (s.closing commission price date).map Prod.fst := by
  unfold close closing
  cases s.position with
  | none => exact (List.append_nil _).symm
  | some pos => rfl

/-- They are the trades of the run, each with its balance. -/
theorem closings_trades (commission : K) (last : OHLCV K) (s : RunState K)
    (bars : List (Option Signal × OHLCV K)) :
    s.trades ++ (s.closings commission last bars).map Prod.fst =
      ((s.play commission bars).close commission last.close last.date).trades := by
  induction bars generalizing s with
  | nil => exact (close_trades_eq commission last.close last.date s).symm
  | cons x bars ih =>
    refine Eq.trans ?_ (ih (s.playBar commission x))
    rw [closings, List.map_append, ← List.append_assoc]
    congr 1
    cases hwanted : wanted (s.position.map (·.side)) x.1 with
    | none =>
      rw [playBar, settle_of_wanted_none commission s hwanted]
      exact List.append_nil _
    | some side =>
      rw [playBar, settle_of_wanted commission s hwanted]
      exact (close_trades_eq commission x.2.open_ x.2.date s).symm

end RunState

/-- The trades of a run, each with the cash balance right after it. -/
def BacktestConfig.closings (config : BacktestConfig K) (series : List (OHLCV K))
    (signals : List SignalResult) : List (Trade K × K) :=
  match series.getLast? with
  | none => []
  | some last => config.start.closings config.commissionRate last (schedule signals series)

theorem BacktestConfig.closings_trades (config : BacktestConfig K) (series : List (OHLCV K))
    (signals : List SignalResult) (hne : series ≠ []) :
    (config.closings series signals).map Prod.fst = (config.finalState series signals).trades := by
  have hlast := List.getLast?_eq_some_getLast hne
  have hclosings := config.start.closings_trades config.commissionRate (series.getLast hne)
    (schedule signals series)
  rw [config.finalState_trades series signals hlast, ← hclosings, BacktestConfig.closings, hlast]
  rfl

end

/-! ### The factor of a trade -/

/-- By how much a fully invested trade multiplies the cash. -/
noncomputable def spanGrowth (commission : ℝ) (span : Span ℝ) : ℝ :=
  match span.entry.side with
  | .long => span.exitPrice / span.entry.price * ((1 - commission) / (1 + commission))
  | .short => (1 + 1) / (1 + commission) - span.exitPrice / span.entry.price

theorem tradeGrowth_span (commission : ℝ) (t : Trade ℝ) :
    tradeGrowth commission t = spanGrowth commission t.span := rfl

/-- The balances which the trades leave behind, one after the other. -/
noncomputable def balances (commission : ℝ) : ℝ → List (Span ℝ) → List ℝ
  | _, [] => []
  | cash, span :: spans =>
    cash * spanGrowth commission span ::
      balances commission (cash * spanGrowth commission span) spans

noncomputable def compounded (commission cash : ℝ) (spans : List (Span ℝ)) : ℝ :=
  spans.foldl (fun cash span => cash * spanGrowth commission span) cash

theorem spanGrowth_anti {commission dearer : ℝ} (hc : 0 ≤ commission) (hle : commission ≤ dearer)
    {span : Span ℝ} (hentry : 0 < span.entry.price) (hexit : 0 < span.exitPrice) :
    spanGrowth dearer span ≤ spanGrowth commission span := by
  have hcheap : 0 < 1 + commission := by linarith
  have hdear : 0 < 1 + dearer := by linarith
  unfold spanGrowth
  cases span.entry.side with
  | long =>
    have hkept : (1 - dearer) / (1 + dearer) ≤ (1 - commission) / (1 + commission) := by
      rw [div_le_div_iff₀ hdear hcheap]
      linarith
    exact mul_le_mul_of_nonneg_left hkept (div_pos hexit hentry).le
  | short =>
    have hproceeds : (1 + 1) / (1 + dearer) ≤ (1 + 1) / (1 + commission) :=
      div_le_div_of_nonneg_left (add_pos one_pos one_pos).le hcheap (by linarith)
    exact sub_le_sub_right hproceeds _

/-- By induction on the trades; a positive balance behind a trade makes its factor
positive, which carries the comparison on. -/
theorem compounded_anti {commission dearer : ℝ} (hc : 0 ≤ commission) (hle : commission ≤ dearer)
    {spans : List (Span ℝ)} (hprices : ∀ span ∈ spans, 0 < span.entry.price ∧ 0 < span.exitPrice)
    {cash cash' : ℝ} (hcash' : 0 < cash') (hcash : cash' ≤ cash)
    (hbalances : ∀ balance ∈ balances dearer cash' spans, 0 < balance) :
    compounded dearer cash' spans ≤ compounded commission cash spans := by
  induction spans generalizing cash cash' with
  | nil => exact hcash
  | cons span spans ih =>
    have hspan := hprices span List.mem_cons_self
    have hafter := hbalances _ List.mem_cons_self
    have hgrowth : 0 < spanGrowth dearer span := pos_of_mul_pos_right hafter hcash'.le
    refine ih (fun other hother => hprices other (List.mem_cons_of_mem _ hother)) hafter ?_
      (fun balance hbalance => hbalances balance (List.mem_cons_of_mem _ hbalance))
    exact mul_le_mul hcash (spanGrowth_anti hc hle hspan.1 hspan.2) hgrowth.le
      (hcash'.le.trans hcash)

theorem balances_append (commission cash : ℝ) (spans spans' : List (Span ℝ)) :
    balances commission cash (spans ++ spans') = balances commission cash spans ++
      balances commission (compounded commission cash spans) spans' := by
  induction spans generalizing cash with
  | nil => rfl
  | cons span spans ih =>
    rw [List.cons_append, balances, balances, List.cons_append, ih]
    rfl

/-! ### Balances and factors -/

namespace RunState
variable {initial commission : ℝ} {s : RunState ℝ}

/-- The balances behind some trades and the cash behind them all are those which the
factors of the trades make of the capital. -/
def Follows (commission capital : ℝ) (closings : List (Trade ℝ × ℝ)) (cash : ℝ) : Prop :=
  closings.map Prod.snd = balances commission capital (closings.map fun closing => closing.1.span) ∧
    cash = compounded commission capital (closings.map fun closing => closing.1.span)

theorem Follows.append {capital cash cash' : ℝ} {closings closings' : List (Trade ℝ × ℝ)}
    (h : Follows commission capital closings cash) (h' : Follows commission cash closings' cash') :
    Follows commission capital (closings ++ closings') cash' := by
  obtain ⟨hbalances, hcash⟩ := h
  obtain ⟨hbalances', hcash'⟩ := h'
  rw [hcash] at hbalances' hcash'
  constructor
  · rw [List.map_append, List.map_append, balances_append, hbalances, hbalances']
  · rw [List.map_append, hcash']
    exact List.foldl_append.symm

theorem closing_follows (h : s.Compounded initial commission) (hc : 0 ≤ commission) (price : ℝ)
    (date : Date) : Follows commission (s.capital commission) (s.closing commission price date)
      (s.close commission price date).cash := by
  unfold Follows closing close capital
  cases hpos : s.position with
  | none => exact ⟨rfl, rfl⟩
  | some pos =>
    obtain ⟨hcash, -⟩ := closePosition_growth hc (h.entry pos hpos) price date s.cash
      (h.funded pos hpos)
    rw [tradeGrowth_span] at hcash
    exact ⟨congrArg (· :: []) hcash, hcash⟩

/-- By induction on the bars; a bar which flips closes first, and what it opens is
worth the cash which the close left. -/
theorem closings_follows (h : s.Compounded initial commission) (hc : 0 ≤ commission)
    (last : OHLCV ℝ) (bars : List (Option Signal × OHLCV ℝ)) (hopens : ∀ x ∈ bars, 0 < x.2.open_) :
    Follows commission (s.capital commission) (s.closings commission last bars)
      ((s.play commission bars).close commission last.close last.date).cash := by
  induction bars generalizing s with
  | nil => exact closing_follows h hc last.close last.date
  | cons x bars ih =>
    have hopen := hopens x List.mem_cons_self
    have hrest := ih (h.play hc [x] (by simpa using hopen))
      (fun y hy => hopens y (List.mem_cons_of_mem _ hy))
    have hplay : s.play commission [x] = s.playBar commission x := rfl
    rw [hplay] at hrest
    rw [closings]
    cases hwanted : wanted (s.position.map (·.side)) x.1 with
    | none =>
      have hsame : (s.playBar commission x).capital commission = s.capital commission := by
        rw [playBar, settle_of_wanted_none commission s hwanted]
        rfl
      rw [hsame] at hrest
      exact hrest
    | some side =>
      have hnext : (s.playBar commission x).capital commission =
          (s.close commission x.2.open_ x.2.date).cash := by
        rw [playBar, settle_of_wanted commission s hwanted]
        exact openAt_capital hc side hopen x.2.date
      rw [hnext] at hrest
      exact (closing_follows h hc x.2.open_ x.2.date).append hrest

end RunState

/-! ### Two rates -/

variable {config : BacktestConfig ℝ} {series : List (OHLCV ℝ)} {signals : List SignalResult}

theorem closings_spans (hne : series ≠ []) :
    (config.closings series signals).map (fun closing => closing.1.span) =
      tile (series.getLast hne).date (series.getLast hne).close
        (entries none (schedule signals series)) := by
  rw [← config.finalState_spans series signals (List.getLast?_eq_some_getLast hne),
    ← config.closings_trades series signals hne, List.map_map]
  rfl

theorem closings_balances (hne : series ≠ []) (hlen : signals.length = series.length)
    (hopens : ∀ bar ∈ series, 0 < bar.open_) (hc : 0 ≤ config.commissionRate) :
    (config.closings series signals).map Prod.snd =
        balances config.commissionRate config.initialCapital
          (tile (series.getLast hne).date (series.getLast hne).close
            (entries none (schedule signals series))) ∧
      (config.simulate series signals).finalEquity =
        compounded config.commissionRate config.initialCapital
          (tile (series.getLast hne).date (series.getLast hne).close
            (entries none (schedule signals series))) := by
  have hlast := List.getLast?_eq_some_getLast hne
  have hback := config.finalState_equityCurve_back series signals hlen hlast
  obtain ⟨hbalances, hcash⟩ := RunState.closings_follows config.start_compounded hc
    (series.getLast hne) (schedule signals series) fun x hx => hopens x.2 (List.of_mem_zip hx).2
  have hclosings : config.closings series signals = config.start.closings config.commissionRate
      (series.getLast hne) (schedule signals series) := by
    rw [BacktestConfig.closings, hlast]
  rw [← hclosings, closings_spans hne] at hbalances hcash
  refine ⟨hbalances, ?_⟩
  simp only [BacktestConfig.simulate, hback, Option.getD_some]
  exact hcash

/-- The dearer of two runs makes the same trades and, while none of them takes all
its cash, ends with no more than the other. -/
theorem commission_never_helps (strategy : Strategy ℝ) (config : BacktestConfig ℝ) (dearer : ℝ)
    (series : List (OHLCV ℝ)) (params : ParamMap ℝ) (signals : List SignalResult)
    (hsignals : strategy.signals series params = .ok signals)
    (hlen : signals.length = series.length) (hne : series ≠ [])
    (hmax : series.length ≤ maxBacktestBars)
    (hprices : ∀ bar ∈ series, 0 < bar.open_ ∧ 0 < bar.close)
    (hcapital : 0 < config.initialCapital) (hc : 0 ≤ config.commissionRate)
    (hle : config.commissionRate ≤ dearer)
    (hcash : ∀ closing ∈ BacktestConfig.closings { config with commissionRate := dearer } series
      signals, 0 < closing.2) :
    ∃ r r', (BacktestEngine.mk strategy config).run series params = .ok r ∧
      (BacktestEngine.mk strategy { config with commissionRate := dearer }).run series params =
        .ok r' ∧
      r'.trades.map Trade.span = r.trades.map Trade.span ∧ r'.finalEquity ≤ r.finalEquity := by
  have hopens : ∀ bar ∈ series, 0 < bar.open_ := fun bar hbar => (hprices bar hbar).1
  have hlast := List.getLast?_eq_some_getLast hne
  have hspans : ∀ span ∈ tile (series.getLast hne).date (series.getLast hne).close
      (entries none (schedule signals series)), 0 < span.entry.price ∧ 0 < span.exitPrice := by
    refine tile_prices (P := fun price => 0 < price) (hprices _ (List.getLast_mem hne)).2 ?_
    intro entry hentry
    obtain ⟨x, hx, -, hprice⟩ := mem_entries hentry
    rw [hprice]
    exact hopens x.2 (List.of_mem_zip hx).2
  obtain ⟨-, hcheap⟩ := @closings_balances config series signals hne hlen hopens hc
  obtain ⟨hbalances, hdear⟩ := @closings_balances { config with commissionRate := dearer } series
    signals hne hlen hopens (hc.trans hle)
  refine ⟨_, _, BacktestEngine.run_eq_ok.mpr ⟨hne, hmax, signals, hsignals, hlen, rfl⟩,
    BacktestEngine.run_eq_ok.mpr ⟨hne, hmax, signals, hsignals, hlen, rfl⟩, ?_, ?_⟩
  · exact (BacktestConfig.finalState_spans _ series signals hlast).trans
      (config.finalState_spans series signals hlast).symm
  · rw [hcheap, hdear]
    refine compounded_anti hc hle hspans hcapital (le_refl _) fun balance hbalance => ?_
    rw [← hbalances] at hbalance
    obtain ⟨closing, hclosing, rfl⟩ := List.mem_map.mp hbalance
    exact hcash closing hclosing

theorem commission_never_helps_long :
    ∃ r r', (BacktestEngine.mk (Strategy.custom [.buy, .hold]) ⟨1, 0, 252, 0⟩).run
        [⟨0, 1, 1, 1, 1, 1⟩, ⟨1, 1, 1, 1, (1 : ℝ), 1⟩] ParamMap.empty = .ok r ∧
      (BacktestEngine.mk (Strategy.custom [.buy, .hold]) ⟨1, 1 / 2, 252, 0⟩).run
        [⟨0, 1, 1, 1, 1, 1⟩, ⟨1, 1, 1, 1, (1 : ℝ), 1⟩] ParamMap.empty = .ok r' ∧
      r'.finalEquity ≤ r.finalEquity := by
  have hcash : ∀ closing ∈ BacktestConfig.closings ⟨1, 1 / 2, 252, 0⟩
      [⟨0, 1, 1, 1, 1, 1⟩, ⟨1, 1, 1, 1, (1 : ℝ), 1⟩] [⟨0, .buy⟩, ⟨1, .hold⟩], 0 < closing.2 := by
    have hbalances : (BacktestConfig.closings ⟨1, 1 / 2, 252, 0⟩
        [⟨0, 1, 1, 1, 1, 1⟩, ⟨1, 1, 1, 1, (1 : ℝ), 1⟩] [⟨0, .buy⟩, ⟨1, .hold⟩]).map Prod.snd =
          [1 * spanGrowth (1 / 2) ⟨⟨.long, 1, 1⟩, 1, 1⟩] :=
      (closings_balances (List.cons_ne_nil _ _) rfl (by simp) (by norm_num)).1
    intro closing hclosing
    have hmem := List.mem_map_of_mem (f := Prod.snd) hclosing
    rw [hbalances, List.mem_singleton] at hmem
    rw [hmem]
    norm_num [spanGrowth]
  obtain ⟨r, r', hrun, hrun', -, hle⟩ := commission_never_helps (Strategy.custom [.buy, .hold])
    ⟨1, 0, 252, 0⟩ (1 / 2) [⟨0, 1, 1, 1, 1, 1⟩, ⟨1, 1, 1, 1, 1, 1⟩] ParamMap.empty
    [⟨0, .buy⟩, ⟨1, .hold⟩] rfl rfl (List.cons_ne_nil _ _) (by simp [maxBacktestBars]) (by simp)
    one_pos (le_refl 0) (by norm_num) hcash
  exact ⟨r, r', hrun, hrun', hle⟩

end StandardTools.Backtest
