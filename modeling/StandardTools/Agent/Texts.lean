import StandardTools.Agent.Answers
import StandardTools.Api.Encoding
import StandardTools.Screener.Universe

/-!
# The texts of an output (`agent/dispatcher.cpp`, `to_json` of the `result.hpp` files)

What a tool returns is made of the words of the program, of dates, and of texts out of
the arguments. So it is UTF-8 where the arguments are, which every parsed body is.
-/

namespace StandardTools.Agent
open StandardTools.Core StandardTools.Lib Api

/-- `P` holds of whatever the dispatcher adds to the texts of the arguments. -/
structure Dispatcher.Writes (d : Dispatcher) (P : String → Prop) : Prop where
  ascii : ∀ s, isAscii s → P s
  isoDay : ∀ day, P (d.isoDay day)
  fundamentals : ∀ ticker data, d.fundamentals ticker = .ok data → P data.ticker

theorem Dispatcher.writes_started {P : String → Prop} (hascii : ∀ s, isAscii s → P s)
    (libm : Libm) {isoDay : ℤ → String} (hday : ∀ day, P (isoDay day))
    (parseDay : String → Option ℤ) : (started libm isoDay parseDay).Writes P where
  ascii := hascii
  isoDay := hday
  fundamentals ticker data h := by
    obtain ⟨hticker, huniverse⟩ := Screener.hardcoded_entry h
    have hall : ["AAPL", "MSFT", "GOOGL", "AMZN", "TSLA"].all isAscii = true := by decide
    rw [hticker]
    exact hascii ticker (List.all_eq_true.mp hall ticker huniverse)

/-! ### Reading -/

section Reading
variable {α : Type} {P : String → Prop} {Q : α → Prop} {get : Json → Except Stopped α}

/-- What is read out of texts with `P` has `Q`. -/
def Reads (P : String → Prop) (get : Json → Except Stopped α) (Q : α → Prop) : Prop :=
  ∀ j x, j.AllStrings P → get j = .ok x → Q x

theorem reads_getString : Reads P getString P := by
  intro j s hj h
  cases j with
  | string t =>
    cases mapError_eq_ok.mp h
    exact Json.allStrings_string.mp hj
  | null | boolean | integer | float | array | object => cases mapError_eq_ok.mp h

theorem Reads.array (hget : Reads P get Q) : Reads P (getArray get) fun xs => ∀ x ∈ xs, Q x := by
  intro j xs hj h
  cases hj with
  | array hitems =>
    intro x hx
    obtain ⟨item, hitem, hvalue⟩ := exists_of_mem_mapM h x hx
    exact hget item x (hitems item hitem) hvalue
  | null | boolean | integer | float | string | object => cases h

theorem reads_keys : Reads P (getMap get) fun m => ∀ key ∈ m.keys, P key := by
  intro j m hj h
  cases hj with
  | object hkeys hvalues =>
    obtain ⟨pairs, hpairs, h⟩ := bind_eq_ok.mp h
    cases h
    intro key hkey
    obtain ⟨pair, hpair, rfl⟩ := List.mem_map.mp hkey
    rcases StdMap.mem_assign hpair with hempty | hpair
    · exact absurd hempty List.not_mem_nil
    · obtain ⟨entry, hentry, hvalue⟩ := exists_of_mem_mapM hpairs pair hpair
      obtain ⟨value, -, rfl⟩ := map_eq_ok.mp hvalue
      exact hkeys entry hentry
  | null | boolean | integer | float | string | array => cases h

theorem Reads.valueOr (hget : Reads P get Q) (key : String) {default : α} (hdefault : Q default) :
    Reads P (fun j => Api.valueOr get j key default) Q := by
  intro j x hj h
  cases hfield : j.field? key with
  | none =>
    simp only [Api.valueOr, hfield] at h
    cases h
    exact hdefault
  | some field =>
    simp only [Api.valueOr, hfield] at h
    exact hget field x (hj.field hfield) h

theorem Reads.value (hget : Reads P get Q) (key : String) {default : α} (hdefault : Q default) :
    Reads P (fun j => Agent.value get j key default) Q := by
  intro j x hj h
  cases j with
  | object entries => exact hget.valueOr key hdefault _ x hj h
  | null | boolean | integer | float | string | array => cases h

theorem Reads.of_true (get : Json → Except Stopped α) : Reads P get fun _ => True :=
  fun _ _ _ _ => trivial

theorem reads_const {x : Except Stopped α} (hx : ∀ a, x = .ok a → Q a) : Reads P (fun _ => x) Q :=
  fun _ a _ h => hx a h

theorem reads_ok {a : α} (ha : Q a) : Reads P (fun _ => .ok a) Q := by
  intro _ b _ h
  cases h
  exact ha

theorem Reads.bind {β : Type} {R : β → Prop} {f : Json → Except Stopped β}
    {g : β → Json → Except Stopped α} (hf : Reads P f R) (hg : ∀ b, R b → Reads P (g b) Q) :
    Reads P (fun j => f j >>= fun b => g b j) Q := by
  intro j x hj h
  obtain ⟨b, hb, hx⟩ := bind_eq_ok.mp h
  exact hg b (hf j b hj hb) j x hj hx

/-- Numbers, say, which have nothing to do with texts. -/
theorem Reads.then {β : Type} {f : Json → Except Stopped β} {g : β → Json → Except Stopped α}
    (hg : ∀ b, Reads P (g b) Q) : Reads P (fun j => f j >>= fun b => g b j) Q :=
  (Reads.of_true f).bind fun b _ => hg b

theorem Reads.ite {c : Prop} [Decidable c] {f g : Json → Except Stopped α} (hf : Reads P f Q)
    (hg : Reads P g Q) : Reads P (fun j => if c then f j else g j) Q := by
  intro j x hj h
  replace h : (if c then f j else g j) = .ok x := h
  split_ifs at h
  · exact hf j x hj h
  · exact hg j x hj h

theorem reads_valueJson (key : String) :
    Reads P (fun j => valueJson j key) (Json.AllStrings P) := by
  refine Reads.value ?_ key (Json.allStrings_object.mpr nofun)
  intro j x hj h
  cases h
  exact hj

/-! ### Requests -/

variable (conv : Conversions)

theorem keys_empty {V : Type} : ∀ key ∈ (StdMap.empty : StdMap V).keys, P key := nofun

theorem reads_analysisRequest (operation : String) :
    Reads P (analysisRequest conv operation) fun request =>
      ∀ key ∈ request.returnsMap.keys, P key := by
  unfold analysisRequest
  refine .ite (.then fun _ => .then fun _ => reads_ok keys_empty) ?_
  refine .ite (.then fun _ => .then fun _ => reads_ok keys_empty) ?_
  refine .ite (.then fun _ => .then fun _ => reads_ok keys_empty) ?_
  refine .ite (.then fun _ => .then fun _ => reads_ok keys_empty) ?_
  refine .ite ((reads_keys.valueOr "returns_map" keys_empty).bind fun _ hkeys => reads_ok hkeys) ?_
  exact .ite (.then fun _ => reads_ok keys_empty) (reads_ok keys_empty)

theorem reads_labels (key : String) :
    Reads P (fun j => value (getArray getString) j key []) fun labels => ∀ s ∈ labels, P s :=
  reads_getString.array.value key nofun

theorem reads_meanVarianceRequest :
    Reads P (meanVarianceRequest conv) fun request => ∀ s ∈ request.labels, P s := by
  unfold meanVarianceRequest
  refine .then fun _ => (reads_labels "labels").bind fun _ hlabels => ?_
  exact .then fun _ => .then fun _ => .then fun _ => .then fun _ => reads_ok hlabels

theorem reads_riskParityRequest :
    Reads P (riskParityRequest conv) fun request => ∀ s ∈ request.labels, P s :=
  .then fun _ => (reads_labels "labels").bind fun _ hlabels => reads_ok hlabels

theorem reads_blackLittermanRequest :
    Reads P (blackLittermanRequest conv) fun request => ∀ s ∈ request.labels, P s := by
  unfold blackLittermanRequest
  refine .then fun _ => (reads_labels "labels").bind fun _ hlabels => ?_
  exact .then fun _ => .then fun _ => .then fun _ => .then fun _ => reads_ok hlabels

theorem reads_screenTickers : Reads P screenTickers fun tickers => ∀ s ∈ tickers, P s := by
  intro j tickers hj h
  unfold screenTickers at h
  split at h
  · next items hitems => exact reads_getString.array _ tickers (hj.field hitems) h
  · cases h
    exact nofun

end Reading

/-! ### Calculating -/

section Calculating
variable {K : Type} [Double K] {P : String → Prop}

theorem labels_mem {returns : List (List K)} {labels : List String}
    {m : Portfolio.ReturnMatrix K} (h : Portfolio.validateReturnMatrix returns labels = .ok m)
    (i : Fin m.assets) : m.labels i ∈ labels := by
  unfold Portfolio.validateReturnMatrix at h
  simp only at h
  split_ifs at h
  · split at h
    · cases h
    · cases h
  split at h
  · cases h
  obtain ⟨-, -, h⟩ := bind_eq_ok.mp h
  cases h
  exact List.get_mem _ _

theorem keys_assign {V : Type} {n : ℕ} {labels : Fin n → String} {value : Fin n → V}
    (h : ∀ i, P (labels i)) :
    ∀ key ∈ (StdMap.empty.assign ((List.finRange n).map fun i => (labels i, value i))).keys,
      P key := by
  intro key hkey
  obtain ⟨pair, hpair, rfl⟩ := List.mem_map.mp hkey
  rcases StdMap.mem_assign hpair with hempty | hpair
  · exact absurd hempty List.not_mem_nil
  · obtain ⟨i, -, rfl⟩ := List.mem_map.mp hpair
    exact h i

theorem keys_buildResult {n : ℕ} {weights : Fin n → K} {labels : Fin n → String}
    {figures : Portfolio.PortfolioFigures K} {r : Portfolio.PortfolioResult K}
    (hlabels : ∀ i, P (labels i)) (h : Portfolio.buildResult weights labels figures = .ok r) :
    ∀ key ∈ r.weights.keys, P key := by
  obtain ⟨-, -, h⟩ := bind_eq_ok.mp h
  cases h
  exact keys_assign hlabels

theorem keys_meanVariance {request : Portfolio.MeanVarianceRequest K}
    {r : Portfolio.PortfolioResult K} (hlabels : ∀ s ∈ request.labels, P s)
    (h : Portfolio.meanVariance request = .ok r) : ∀ key ∈ r.weights.keys, P key := by
  unfold Portfolio.meanVariance at h
  dsimp only at h
  split_ifs at h
  · cases h
  · obtain ⟨m, hm, h⟩ := bind_eq_ok.mp h
    obtain ⟨objective, -, h⟩ := bind_eq_ok.mp h
    obtain ⟨weights, -, h⟩ := bind_eq_ok.mp h
    exact keys_buildResult (fun i => hlabels _ (labels_mem hm i)) h

theorem keys_riskParity {request : Portfolio.RiskParityRequest K}
    {r : Portfolio.PortfolioResult K} (hlabels : ∀ s ∈ request.labels, P s)
    (h : Portfolio.riskParity request = .ok r) : ∀ key ∈ r.weights.keys, P key := by
  unfold Portfolio.riskParity at h
  obtain ⟨m, hm, h⟩ := bind_eq_ok.mp h
  dsimp only at h
  split_ifs at h
  · cases h
  · exact keys_buildResult (fun i => hlabels _ (labels_mem hm i)) h

theorem market_of_validate {request : Portfolio.BlackLittermanRequest K}
    {p : Portfolio.ViewedMarket K} (h : Portfolio.validateBlackLittermanRequest request = .ok p) :
    Portfolio.validateReturnMatrix request.returns request.labels = .ok p.market := by
  unfold Portfolio.validateBlackLittermanRequest at h
  split at h
  · cases h
  split at h
  · cases h
  obtain ⟨market, hmarket, h⟩ := bind_eq_ok.mp h
  dsimp only at h
  split at h
  · cases h
  split at h
  · cases h
  split at h
  · cases h
  split at h
  · cases h
  obtain ⟨-, -, h⟩ := bind_eq_ok.mp h
  cases h
  exact hmarket

theorem labels_expand {request : Portfolio.BlackLittermanSimplifiedRequest K}
    {full : Portfolio.BlackLittermanRequest K} (h : request.expand = .ok full) :
    full.labels = request.labels := by
  unfold Portfolio.BlackLittermanSimplifiedRequest.expand at h
  split_ifs at h
  obtain ⟨caps, -, h⟩ := bind_eq_ok.mp h
  obtain ⟨rows, -, h⟩ := bind_eq_ok.mp h
  cases h
  rfl

theorem keys_blackLittermanSimplified {request : Portfolio.BlackLittermanSimplifiedRequest K}
    {r : Portfolio.BlackLittermanResult K} (hlabels : ∀ s ∈ request.labels, P s)
    (h : Portfolio.blackLittermanSimplified request = .ok r) :
    (∀ key ∈ r.portfolio.weights.keys, P key) ∧ ∀ key ∈ r.expectedReturns.keys, P key := by
  obtain ⟨full, hfull, h⟩ := bind_eq_ok.mp h
  unfold Portfolio.blackLitterman at h
  obtain ⟨p, hp, h⟩ := bind_eq_ok.mp h
  obtain ⟨posterior, -, h⟩ := bind_eq_ok.mp h
  obtain ⟨w, -, h⟩ := bind_eq_ok.mp h
  obtain ⟨portfolio, hportfolio, h⟩ := bind_eq_ok.mp h
  cases h
  have hmarket : ∀ i, P (p.market.labels i) := fun i =>
    hlabels _ (labels_expand hfull ▸ labels_mem (market_of_validate hp) i)
  exact ⟨keys_buildResult hmarket hportfolio, keys_assign hmarket⟩

/-- The names of the series which an indicator has beside its values. -/
def extraNames : List (List String) := [[], ["signal", "histogram"], ["upper", "lower"]]

theorem names_indicator {name : String} {series : List (OHLCV K)} {params : ParamMap K}
    {r : Indicators.IndicatorResult K} (h : Indicators.calculate name series params = .ok r) :
    r.name = name ∧ r.extraSeries.map (·.1) ∈ extraNames := by
  have hperiod {default : ℕ} {f : ℕ → Indicators.IndicatorResult K}
      (hf : ∀ n, (f n).name = name ∧ (f n).extraSeries = [])
      (h : (do return f (← Indicators.paramAsSize params "period" default)) = Except.ok r) :
      r.name = name ∧ r.extraSeries.map (·.1) ∈ extraNames := by
    obtain ⟨n, -, h⟩ := bind_eq_ok.mp h
    cases h
    rw [(hf n).2]
    exact ⟨(hf n).1, List.mem_cons_self⟩
  unfold Indicators.calculate at h
  split_ifs at h with hsma hema hrsi hmacd hbollinger hatr hobv hvwap
  · exact hperiod (fun _ => ⟨hsma.symm, rfl⟩) h
  · exact hperiod (fun _ => ⟨hema.symm, rfl⟩) h
  · exact hperiod (fun _ => ⟨hrsi.symm, rfl⟩) h
  · obtain ⟨fast, -, h⟩ := bind_eq_ok.mp h
    obtain ⟨slow, -, h⟩ := bind_eq_ok.mp h
    obtain ⟨signal, -, h⟩ := bind_eq_ok.mp h
    cases h
    exact ⟨hmacd.symm, List.mem_cons_of_mem _ List.mem_cons_self⟩
  · obtain ⟨period, -, h⟩ := bind_eq_ok.mp h
    obtain ⟨deviations, -, h⟩ := bind_eq_ok.mp h
    cases h
    exact ⟨hbollinger.symm, List.mem_cons_of_mem _ (List.mem_cons_of_mem _ List.mem_cons_self)⟩
  · exact hperiod (fun _ => ⟨hatr.symm, rfl⟩) h
  · unfold Indicators.calculateOBV at h
    split at h
    · cases h
      exact ⟨hobv.symm, List.mem_cons_self⟩
    · cases h
      exact ⟨hobv.symm, List.mem_cons_self⟩
  · cases h
    exact ⟨hvwap.symm, List.mem_cons_self⟩

theorem extraNames_ascii (hascii : ∀ s, isAscii s → P s) {names : List String}
    (h : names ∈ extraNames) : ∀ s ∈ names, P s := by
  have hnames : extraNames.all (·.all isAscii) = true := by decide
  exact fun s hs => hascii s (List.all_eq_true.mp (List.all_eq_true.mp hnames names h) s hs)

end Calculating

section Analyses
variable {K : Type} [Cmath K] {P : String → Prop}

theorem labels_pca {sort : Analysis.IndexSort K} {returns : List (List K)} {count : ℤ}
    {r : Analysis.PCAResult K} (hascii : ∀ s, isAscii s → P s)
    (h : Analysis.pca sort returns count = .ok r) : ∀ s ∈ r.labels, P s := by
  unfold Analysis.pca at h
  obtain ⟨-, -, h⟩ := bind_eq_ok.mp h
  cases h
  intro s hs
  obtain ⟨i, -, rfl⟩ := List.mem_map.mp hs
  refine hascii _ ?_
  rw [Server.isAscii_append, Server.isAscii_toString]
  rfl

theorem labels_correlation {sort : StdSort String (· < ·)} {returnsMap : StdMap (List K)}
    {r : Analysis.CorrelationResult K} (hkeys : ∀ key ∈ returnsMap.keys, P key)
    (h : Analysis.correlation sort returnsMap = .ok r) : ∀ s ∈ r.labels, P s := by
  unfold Analysis.correlation at h
  split_ifs at h
  obtain ⟨-, -, h⟩ := bind_eq_ok.mp h
  obtain ⟨-, -, h⟩ := bind_eq_ok.mp h
  cases h
  exact fun s hs => hkeys s ((sort.perm _).mem_iff.mp hs)

theorem interpretation_hurst {prices : List K} {maxLag : Option ℤ} {r : Analysis.HurstResult K}
    (hascii : ∀ s, isAscii s → P s) (h : Analysis.hurst prices maxLag = .ok r) :
    P r.interpretation := by
  have hinterpret : ∀ exponent : K, P (Analysis.interpretHurst exponent) := by
    intro exponent
    unfold Analysis.interpretHurst
    split_ifs <;> exact hascii _ rfl
  unfold Analysis.hurst at h
  obtain ⟨-, -, h⟩ := bind_eq_ok.mp h
  split at h
  · cases h
  split at h
  · cases h
  dsimp only at h
  split at h
  · cases h
  split at h
  · cases h
  cases h
  exact hinterpret _

end Analyses

/-! ### Writing -/

section Values
variable {P : String → Prop}

theorem allStrings_map {α : Type} {f : α → Json} {xs : List α}
    (h : ∀ x ∈ xs, (f x).AllStrings P) : (Json.array (xs.map f)).AllStrings P := by
  refine .array fun j hj => ?_
  obtain ⟨x, hx, rfl⟩ := List.mem_map.mp hj
  exact h x hx

/-- An object under words of the program. -/
theorem allStrings_words (hascii : ∀ s, isAscii s → P s) {fields : List (String × Json)}
    (h : ∀ e ∈ fields, isAscii e.1 ∧ e.2.AllStrings P) : (Json.ofFields fields).AllStrings P :=
  .ofFields fun e he => ⟨hascii _ (h e he).1, (h e he).2⟩

@[simp] theorem allStrings_number (x : Binary64) : (number x).AllStrings P := .float _

@[simp] theorem allStrings_optional (x : Option Binary64) : (optional x).AllStrings P := by
  cases x with
  | none => exact .null
  | some x => exact .float _

@[simp] theorem allStrings_ratio (x : Option Binary64) : (ratio x).AllStrings P := by
  cases x with
  | none => exact .float _
  | some x => exact .float _

@[simp] theorem allStrings_extended (x : Analysis.Extended Binary64) :
    (extended x).AllStrings P := by
  match x with
  | none => exact .float _
  | some none => exact .float _
  | some (some x) => exact .float _

@[simp] theorem allStrings_numbers (xs : List Binary64) : (numbers xs).AllStrings P :=
  allStrings_map fun x _ => allStrings_number x

@[simp] theorem allStrings_matrix (rows : List (List Binary64)) : (matrix rows).AllStrings P :=
  allStrings_map fun row _ => allStrings_numbers row

theorem allStrings_strings {texts : List String} (h : ∀ s ∈ texts, P s) :
    (strings texts).AllStrings P :=
  allStrings_map fun s hs => .string (h s hs)

theorem allStrings_mapJson {m : StdMap Binary64} (h : ∀ key ∈ m.keys, P key) :
    (mapJson m).AllStrings P := by
  refine Json.allStrings_object.mpr fun e he => ?_
  obtain ⟨entry, hentry, rfl⟩ := List.mem_map.mp he
  exact ⟨h _ (List.mem_map_of_mem hentry), allStrings_number _⟩

theorem allStrings_paramsJson {keys : List String} (h : ∀ key ∈ keys, P key)
    (params : ParamMap Binary64) : (paramsJson keys params).AllStrings P := by
  refine .ofFields fun e he => ?_
  obtain ⟨key, hkey, hentry⟩ := List.mem_filterMap.mp he
  obtain ⟨x, -, rfl⟩ := Option.map_eq_some_iff.mp hentry
  exact ⟨h key hkey, allStrings_number x⟩

end Values

section Results
variable {P : String → Prop} {isoDay : ℤ → String} (hascii : ∀ s, isAscii s → P s)
  (hday : ∀ day, P (isoDay day))

include hascii

theorem allStrings_returnMetricsJson (m : Metrics.ReturnMetrics Binary64) :
    (returnMetricsJson m).AllStrings P :=
  allStrings_words hascii (by simp +decide)

theorem allStrings_riskMetricsJson (m : Metrics.RiskMetrics Binary64) :
    (riskMetricsJson m).AllStrings P :=
  allStrings_words hascii (by simp +decide)

theorem allStrings_portfolioJson {r : Portfolio.PortfolioResult Binary64}
    (h : ∀ key ∈ r.weights.keys, P key) : (portfolioJson r).AllStrings P :=
  allStrings_words hascii (by simp +decide [allStrings_mapJson h])

theorem allStrings_blackLittermanJson {r : Portfolio.BlackLittermanResult Binary64}
    (h : ∀ key ∈ r.portfolio.weights.keys, P key) (hreturns : ∀ key ∈ r.expectedReturns.keys, P key) :
    (blackLittermanJson r).AllStrings P :=
  allStrings_words hascii
    (by simp +decide [allStrings_mapJson hreturns, allStrings_portfolioJson hascii h])

theorem allStrings_fundamentalJson {data : Screener.FundamentalData Binary64} (h : P data.ticker) :
    (fundamentalJson data).AllStrings P :=
  allStrings_words hascii (by simp +decide [h])

theorem allStrings_screenJson {r : Screener.ScreenResult Binary64}
    (hmatches : ∀ data ∈ r.matches_, P data.ticker) (hfailed : ∀ s ∈ r.failed, P s) :
    (screenJson r).AllStrings P := by
  have hrows : (Json.array (r.matches_.map fundamentalJson)).AllStrings P :=
    allStrings_map fun data hdata => allStrings_fundamentalJson hascii (hmatches data hdata)
  exact allStrings_words hascii (by simp +decide [hrows, allStrings_strings hfailed])

include hday

omit hascii in
theorem allStrings_date (d : Date) : (date isoDay d).AllStrings P := .string (hday _)

theorem allStrings_ohlcvJson (bar : OHLCV Binary64) : (ohlcvJson isoDay bar).AllStrings P :=
  allStrings_words hascii (by simp +decide [allStrings_date hday])

theorem allStrings_indicatorJson {keys : List String} (hkeys : ∀ key ∈ keys, P key)
    {r : Indicators.IndicatorResult Binary64} (hname : P r.name)
    (hextra : ∀ key ∈ r.extraSeries.map (·.1), P key) :
    (indicatorJson isoDay keys r).AllStrings P := by
  have hvalue : ∀ v : Indicators.IndicatorValue Binary64,
      (indicatorValueJson isoDay v).AllStrings P :=
    fun v => allStrings_words hascii (by simp +decide [allStrings_date hday])
  have hseries : ∀ values : List (Indicators.IndicatorValue Binary64),
      (Json.array (values.map (indicatorValueJson isoDay))).AllStrings P :=
    fun values => allStrings_map fun v _ => hvalue v
  have hfurther : (Json.ofFields (r.extraSeries.map fun e =>
      (e.1, Json.array (e.2.map (indicatorValueJson isoDay))))).AllStrings P := by
    refine .ofFields fun e he => ?_
    obtain ⟨entry, hentry, rfl⟩ := List.mem_map.mp he
    exact ⟨hextra _ (List.mem_map_of_mem hentry), hseries entry.2⟩
  exact allStrings_words hascii
    (by simp +decide [hname, hseries, hfurther, allStrings_paramsJson hkeys])

theorem allStrings_tradeJson (t : Backtest.Trade Binary64) : (tradeJson isoDay t).AllStrings P := by
  have hside : (sideJson t.side).AllStrings P := by
    cases t.side with
    | long => exact .string (hascii _ (by decide))
    | short => exact .string (hascii _ (by decide))
  exact allStrings_words hascii (by simp +decide [allStrings_date hday, hside])

theorem allStrings_backtestJson (r : Backtest.BacktestResult Binary64) :
    (backtestJson isoDay r).AllStrings P := by
  have hpoint : ∀ p, (equityPointJson isoDay p).AllStrings P :=
    fun p => allStrings_words hascii (by simp +decide [allStrings_date hday])
  have hcurve : (Json.array (r.equityCurve.map (equityPointJson isoDay))).AllStrings P :=
    allStrings_map fun p _ => hpoint p
  have htrades : (Json.array (r.trades.map (tradeJson isoDay))).AllStrings P :=
    allStrings_map fun t _ => allStrings_tradeJson hascii hday t
  have hmetrics : (backtestMetricsJson r.metrics).AllStrings P :=
    allStrings_words hascii (by simp +decide)
  exact allStrings_words hascii (by simp +decide [hcurve, htrades, hmetrics])

end Results

/-! ### Tools -/

/-- Whatever is returned consists of texts with `P`. -/
def Plan.Writes (P : String → Prop) : Plan → Prop
  | .done x => ∀ output, x = .ok output → output.AllStrings P
  | .fetch _ finish => ∀ series output, finish series = .ok output → output.AllStrings P

theorem Plan.Writes.output {P : String → Prop} {plan : Plan} (h : plan.Writes P)
    {isoDay : ℤ → String} {s : MarketData.Service Binary64} {output : Json}
    (hrun : (plan.run isoDay s).1 = .ok output) : output.AllStrings P := by
  cases plan with
  | done x => exact h output hrun
  | fetch request finish =>
    rw [Plan.run_fetch] at hrun
    obtain ⟨series, -, hfinish⟩ := bind_eq_ok.mp hrun
    exact h series output hfinish

theorem Plan.Writes.ite {P : String → Prop} {c : Prop} [Decidable c] {p q : Plan}
    (hp : p.Writes P) (hq : q.Writes P) : (if c then p else q).Writes P := by
  split_ifs
  · exact hp
  · exact hq

namespace Dispatcher
variable {d : Dispatcher} {P : String → Prop} (hd : d.Writes P)
include hd

theorem Writes.analysis {request : Analysis.Request Binary64}
    (hkeys : ∀ key ∈ request.returnsMap.keys, P key) {output : Json}
    (h : d.analysisOf request = .ok output) : output.AllStrings P := by
  let := d.libm.cmath
  obtain ⟨result, hresult, rfl⟩ := map_eq_ok.mp h
  replace hresult := mapError_eq_ok.mp hresult
  unfold Analysis.calculate at hresult
  split_ifs at hresult
  · obtain ⟨r, -, rfl⟩ := map_eq_ok.mp hresult
    exact allStrings_words hd.ascii (by simp +decide)
  · obtain ⟨r, -, rfl⟩ := map_eq_ok.mp hresult
    exact allStrings_words hd.ascii (by simp +decide)
  · obtain ⟨r, hr, rfl⟩ := map_eq_ok.mp hresult
    have hinterpretation := interpretation_hurst hd.ascii hr
    exact allStrings_words hd.ascii (by simp +decide [hinterpretation])
  · obtain ⟨r, hr, rfl⟩ := map_eq_ok.mp hresult
    have hlabels := labels_pca hd.ascii hr
    exact allStrings_words hd.ascii (by simp +decide [allStrings_strings hlabels])
  · obtain ⟨r, hr, rfl⟩ := map_eq_ok.mp hresult
    have hlabels := labels_correlation hkeys hr
    exact allStrings_words hd.ascii (by simp +decide [allStrings_strings hlabels])
  · obtain ⟨r, -, rfl⟩ := map_eq_ok.mp hresult
    exact allStrings_words hd.ascii (by simp +decide)

theorem Writes.indicator {indicator : String} (hindicator : P indicator) {params : Json}
    (hparams : params.AllStrings P) {series : List (OHLCV Binary64)} {output : Json}
    (h : d.indicatorOf indicator params series = .ok output) : output.AllStrings P := by
  obtain ⟨map, -, h⟩ := bind_eq_ok.mp h
  obtain ⟨result, hresult, h⟩ := bind_eq_ok.mp h
  cases h
  obtain ⟨hname, hextra⟩ := names_indicator (mapError_eq_ok.mp hresult)
  refine allStrings_indicatorJson hd.ascii hd.isoDay (fun key hkey => ?_) (hname ▸ hindicator)
    (extraNames_ascii hd.ascii hextra)
  rcases List.mem_append.mp hkey with hsize | hkey
  · have hsizes : sizeKeys.all isAscii = true := by decide
    exact hd.ascii key (List.all_eq_true.mp hsizes key hsize)
  · cases hparams with
    | object hkeys hvalues =>
      obtain ⟨entry, hentry, rfl⟩ := List.mem_map.mp hkey
      exact hkeys entry hentry
    | null | boolean | integer | float | string | array => exact absurd hkey List.not_mem_nil

theorem Writes.screen {tickers : List String} (htickers : ∀ s ∈ tickers, P s)
    {criteria : Screener.ScreenCriteria Binary64} {output : Json}
    (h : d.screenOf tickers criteria = .ok output) : output.AllStrings P := by
  obtain ⟨result, hresult, rfl⟩ := map_eq_ok.mp h
  replace hresult := mapError_eq_ok.mp hresult
  have hlength : tickers.length ≤ 500 := by
    by_contra hmany
    have hmax : Screener.maxScreenTickers < tickers.length := not_le.mp hmany
    rw [Screener.screen, if_pos hmax] at hresult
    cases hresult
  have hscreened := Screener.screen_screened hlength hresult
  refine allStrings_screenJson hd.ascii ?_ fun s hs => htickers s (hscreened.mem_of_mem_dropped hs)
  intro data hdata
  obtain ⟨ticker, -, hfetched, -⟩ := hscreened.exists_of_mem_kept hdata
  exact hd.fundamentals ticker data hfetched

theorem Writes.text (key : String) : Reads P (fun args => required args key) P := by
  refine (reads_getString.value key (hd.ascii "" (by decide))).bind fun text htext => ?_
  exact .ite (reads_const nofun) (reads_ok htext)

theorem Writes.runAnalysis : Reads P d.runAnalysis (Json.AllStrings P) := by
  refine (hd.text "operation").bind fun operation _ => ?_
  refine (reads_valueJson "request").bind fun inputs hinputs => reads_const fun output h => ?_
  obtain ⟨request, hrequest, h⟩ := bind_eq_ok.mp h
  exact hd.analysis (reads_analysisRequest d.conv operation inputs request hinputs hrequest) h

theorem Writes.optimizePortfolio : Reads P d.optimizePortfolio (Json.AllStrings P) := by
  refine (reads_valueJson "request").bind fun inputs hinputs => reads_const fun output h => ?_
  obtain ⟨request, hrequest, h⟩ := bind_eq_ok.mp h
  obtain ⟨r, hr, h⟩ := bind_eq_ok.mp h
  cases h
  have hlabels := reads_meanVarianceRequest d.conv inputs request hinputs hrequest
  exact allStrings_portfolioJson hd.ascii (keys_meanVariance hlabels (mapError_eq_ok.mp hr))

theorem Writes.riskParityPortfolio : Reads P d.riskParityPortfolio (Json.AllStrings P) := by
  refine (reads_valueJson "request").bind fun inputs hinputs => reads_const fun output h => ?_
  obtain ⟨request, hrequest, h⟩ := bind_eq_ok.mp h
  obtain ⟨r, hr, h⟩ := bind_eq_ok.mp h
  cases h
  have hlabels := reads_riskParityRequest d.conv inputs request hinputs hrequest
  exact allStrings_portfolioJson hd.ascii (keys_riskParity hlabels (mapError_eq_ok.mp hr))

theorem Writes.blackLittermanPortfolio :
    Reads P d.blackLittermanPortfolio (Json.AllStrings P) := by
  refine (reads_valueJson "request").bind fun inputs hinputs => reads_const fun output h => ?_
  obtain ⟨request, hrequest, h⟩ := bind_eq_ok.mp h
  obtain ⟨r, hr, h⟩ := bind_eq_ok.mp h
  cases h
  have hlabels := reads_blackLittermanRequest d.conv inputs request hinputs hrequest
  obtain ⟨hweights, hreturns⟩ := keys_blackLittermanSimplified hlabels (mapError_eq_ok.mp hr)
  exact allStrings_blackLittermanJson hd.ascii hweights hreturns

theorem Writes.screenStocks : Reads P d.screenStocks (Json.AllStrings P) := by
  refine reads_screenTickers.bind fun tickers htickers => .then fun criteria => ?_
  exact .then fun criteria => reads_const fun output h => hd.screen htickers h

omit hd in
theorem writes_seriesPlan {args : Json} {finish : List (OHLCV Binary64) → Except Stopped Json}
    (h : ∀ series output, finish series = .ok output → output.AllStrings P) :
    (d.seriesPlan args finish).Writes P := by
  unfold seriesPlan Plan.ofRequest
  cases seriesRequest d.parseDay args with
  | error e => exact nofun
  | ok request => exact h

theorem Writes.fetchOhlcv {series : List (OHLCV Binary64)} :
    (Json.array (series.map (ohlcvJson d.isoDay))).AllStrings P :=
  allStrings_map fun bar _ => allStrings_ohlcvJson hd.ascii hd.isoDay bar

theorem Writes.calculateIndicator {args : Json} (hargs : args.AllStrings P) :
    (Plan.checked (required args "indicator") fun indicator => d.seriesPlan args fun series => do
      d.indicatorOf indicator (← valueJson args "params") series).Writes P := by
  cases hindicator : required args "indicator" with
  | error e => exact nofun
  | ok indicator =>
    refine writes_seriesPlan fun series output h => ?_
    obtain ⟨params, hparams, h⟩ := bind_eq_ok.mp h
    exact hd.indicator (hd.text "indicator" args indicator hargs hindicator)
      (reads_valueJson "params" args params hargs hparams) h

theorem Writes.returnMetrics {riskFreeRate : Except Stopped Binary64}
    {series : List (OHLCV Binary64)} {output : Json}
    (h : (do d.returnMetricsOf (← riskFreeRate) series) = .ok output) : output.AllStrings P := by
  obtain ⟨rate, -, h⟩ := bind_eq_ok.mp h
  obtain ⟨m, -, rfl⟩ := map_eq_ok.mp h
  exact allStrings_returnMetricsJson hd.ascii m

theorem Writes.riskMetrics {riskFreeRate : Except Stopped Binary64}
    {series : List (OHLCV Binary64)} {output : Json}
    (h : (do d.riskMetricsOf (← riskFreeRate) series) = .ok output) : output.AllStrings P := by
  obtain ⟨rate, -, h⟩ := bind_eq_ok.mp h
  obtain ⟨m, -, rfl⟩ := map_eq_ok.mp h
  exact allStrings_riskMetricsJson hd.ascii m

theorem Writes.backtest {strategy : String} {params config : Json}
    {series : List (OHLCV Binary64)} {output : Json}
    (h : d.backtestOf strategy params config series = .ok output) : output.AllStrings P := by
  obtain ⟨r, -, rfl⟩ := map_eq_ok.mp h
  exact allStrings_backtestJson hd.ascii hd.isoDay r

theorem Writes.runBacktest (args : Json) :
    (Plan.checked (required args "strategy") fun strategy => d.seriesPlan args fun series => do
      d.backtestOf strategy (← valueJson args "params") (← valueJson args "config")
        series).Writes P := by
  cases required args "strategy" with
  | error e => exact nofun
  | ok strategy =>
    refine writes_seriesPlan fun series output h => ?_
    obtain ⟨params, -, h⟩ := bind_eq_ok.mp h
    obtain ⟨config, -, h⟩ := bind_eq_ok.mp h
    exact hd.backtest h

theorem Writes.names : (strings (listTools.map (·.name))).AllStrings P := by
  have hall : (listTools.map (·.name)).all isAscii = true := by decide
  exact allStrings_strings fun s hs => hd.ascii s (List.all_eq_true.mp hall s hs)

theorem Writes.plan {call : ToolCall} (hargs : call.arguments.AllStrings P) :
    (d.plan call).Writes P := by
  have hdone {tool : Json → Except Stopped Json} (h : Reads P tool (Json.AllStrings P)) :
      (Plan.done (tool call.arguments)).Writes P := fun output => h _ output hargs
  have hconst {output : Json} (h : output.AllStrings P) : (Plan.done (.ok output)).Writes P := by
    rintro _ ⟨⟩
    exact h
  have hunknown : (Plan.done (invalidCommand ("unknown tool " ++ call.name))).Writes P := nofun
  unfold Dispatcher.plan
  refine .ite hunknown ?_
  refine .ite (hconst (allStrings_words hd.ascii (by simp +decide [hd.ascii "ok" (by decide)]))) ?_
  refine .ite (hconst hd.names) ?_
  refine .ite (writes_seriesPlan fun series output h => Except.ok.inj h ▸ hd.fetchOhlcv) ?_
  refine .ite (hd.calculateIndicator hargs) ?_
  refine .ite (writes_seriesPlan fun series output h => hd.returnMetrics h) ?_
  refine .ite (writes_seriesPlan fun series output h => hd.riskMetrics h) ?_
  refine .ite (hdone hd.runAnalysis) ?_
  refine .ite (hd.runBacktest call.arguments) ?_
  refine .ite (hdone hd.optimizePortfolio) ?_
  refine .ite (hdone hd.riskParityPortfolio) ?_
  refine .ite (hdone hd.blackLittermanPortfolio) ?_
  exact .ite (hdone hd.screenStocks) hunknown

end Dispatcher

end StandardTools.Agent
