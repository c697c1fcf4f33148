import StandardTools.Indicators.Causality

/-!
# The three exponential averages

`EmaValues` reads closes, `CalculateEMA` reads bars and `EmaOfOptions` reads
values some of which are absent. They find the window of the first average by
an index, by a slice and by a counter. The equalities hold in any arithmetic:
each loop computes the same expressions in the same order.
-/

namespace StandardTools.Indicators
open StandardTools.Core Lib

variable {K : Type}

/-- The close of every bar as a present value. -/
def presentCloses (series : List (OHLCV K)) : List (IndicatorValue K) :=
  series.map fun bar => ⟨bar.date, some bar.close⟩

variable [Double K]

/-! ### The average over optional values -/

/-- Absent values leave the locals of the loop as they are. -/
theorem emaOfOptionsLoop_absent (period : ℕ) (multiplier : K) (s : Option K × ℕ × List K)
    (absent : List Date) (values : List (IndicatorValue K)) :
    scanLoop (emaOfOptionsStep period multiplier) s (noneValues absent ++ values) =
      noneValues absent ++ scanLoop (emaOfOptionsStep period multiplier) s values := by
  induction absent with
  | nil => rfl
  | cons date rest ih =>
    simp only [noneValues, List.map_cons, List.cons_append, scanLoop, emaOfOptionsStep] at ih ⊢
    rw [ih]

/-- Behind the first average the counter is not read, and both loops smooth. -/
theorem emaOfOptionsLoop_started (period : ℕ) (multiplier seed ema : K) (c : ℕ × List K) (i : ℕ)
    (hi : period ≤ i) (series : List (OHLCV K)) :
    scanLoop (emaOfOptionsStep period multiplier) (some ema, c) (presentCloses series) =
      scanLoop (emaStep period multiplier seed) (i, ema)
        (series.map fun bar => (bar.date, bar.close)) := by
  induction series generalizing ema i with
  | nil => rfl
  | cons bar rest ih =>
    have hwarm : ¬i + 1 < period := by omega
    have hseed : ¬i + 1 = period := by omega
    simp only [presentCloses, List.map_cons, scanLoop, emaOfOptionsStep, emaStep, hwarm, hseed,
      if_false]
    exact congrArg _ (ih _ (i + 1) (by omega))

/-- Before the first average the counter is the index and the seed values are the
closes so far, so that both loops start the average on the same bar. -/
theorem emaOfOptionsLoop_present (period : ℕ) (multiplier seed ema : K)
    (seen rest : List (OHLCV K)) (hseen : seen.length < period)
    (hseed : seed = mean ((closesOf (seen ++ rest)).take period)) :
    scanLoop (emaOfOptionsStep period multiplier) (none, seen.length, closesOf seen)
        (presentCloses rest) =
      scanLoop (emaStep period multiplier seed) (seen.length, ema)
        (rest.map fun bar => (bar.date, bar.close)) := by
  induction rest generalizing seen with
  | nil => rfl
  | cons bar rest ih =>
    have hnext : closesOf seen ++ [bar.close] = closesOf (seen ++ [bar]) := by
      rw [closesOf_append]
      rfl
    have hlen : (seen ++ [bar]).length = seen.length + 1 := List.length_append
    by_cases hlast : seen.length + 1 = period
    · have hwindow : (closesOf (seen ++ bar :: rest)).take period = closesOf (seen ++ [bar]) := by
        rw [List.append_cons, closesOf_append, List.take_left']
        rw [closesOf, List.length_map, hlen, hlast]
      simp only [presentCloses, List.map_cons, scanLoop, emaOfOptionsStep, emaStep, hlast,
        lt_irrefl, if_true, if_false, hnext, hseed, hwindow]
      exact congrArg _ (emaOfOptionsLoop_started period multiplier _ _ _ period le_rfl rest)
    · have hwarm : seen.length + 1 < period := by omega
      simp only [presentCloses, List.map_cons, scanLoop, emaOfOptionsStep, emaStep, hwarm, hlast,
        if_true, if_false, hnext]
      have htail := ih (seen ++ [bar]) (by omega) (by rwa [← List.append_cons])
      rw [hlen] at htail
      exact congrArg _ htail

theorem emaOfOptions_presentCloses (series : List (OHLCV K)) (period : ℕ) :
    emaOfOptions (presentCloses series) period =
      emaValues (closesOf series) (datesFromSeries series) period := by
  have hlen : (closesOf series).length = series.length := List.length_map _
  by_cases hzero : period = 0
  · simp only [emaOfOptions, emaValues, hzero, if_true, true_or, presentCloses, List.map_map]
    rfl
  have hloop := emaOfOptionsLoop_present period (emaMultiplier period)
    (mean ((closesOf series).take period)) 0 [] series (Nat.pos_of_ne_zero hzero) rfl
  rw [emaOfOptions, if_neg hzero, emaValues, hlen]
  by_cases hshort : series.length < period
  · rw [if_pos (Or.inr hshort)]
    refine hloop.trans ?_
    rw [scanLoop_emaStep_warmup, List.map_map, noneValues_dates]
    · rfl
    · simpa using hshort
  · rw [if_neg (by omega), zip_dates_closes]
    exact hloop

theorem emaOfOptions_absent (absent : List Date) (values : List (IndicatorValue K))
    (period : ℕ) :
    emaOfOptions (noneValues absent ++ values) period =
      noneValues absent ++ emaOfOptions values period := by
  unfold emaOfOptions
  split_ifs with hzero
  · simp only [noneValues, List.map_append, List.map_map]
    rfl
  · exact emaOfOptionsLoop_absent period _ _ absent values

/-! ### The agreement -/

/-- The three implementations give one average, also when the closes are too few
for a first value or stand behind values which are absent. -/
theorem ema_implementations_agree (series : List (OHLCV K)) (period : ℕ) :
    (∀ params : ParamMap K, paramAsSize params "period" 20 = .ok period →
      (calculateEMA series params).map (·.values) =
        .ok (emaValues (closesOf series) (datesFromSeries series) period)) ∧
    (∀ absent : List Date, emaOfOptions (noneValues absent ++ presentCloses series) period =
      noneValues absent ++ emaValues (closesOf series) (datesFromSeries series) period) ∧
    (series.length < period → ∀ absent : List Date,
      emaOfOptions (noneValues absent ++ presentCloses series) period =
        noneValues (absent ++ datesFromSeries series)) := by
  have hoptions : ∀ absent : List Date,
      emaOfOptions (noneValues absent ++ presentCloses series) period =
        noneValues absent ++ emaValues (closesOf series) (datesFromSeries series) period := by
    intro absent
    rw [emaOfOptions_absent, emaOfOptions_presentCloses]
  refine ⟨fun params hperiod => ?_, hoptions, fun hshort absent => ?_⟩
  · rw [calculateEMA, hperiod, ← emaSeries_eq]
    rfl
  · rw [hoptions absent, emaValues_short series hshort, ← noneValues_dates]
    simp only [noneValues, List.map_append]

/-- Three bars, which start an average over two closes and none over four. -/
theorem ema_implementations_agree_crossing :
    (calculateEMA crossingBars (.ofList [("period", 2)])).map (·.values) =
        .ok (emaValues (closesOf crossingBars) (datesFromSeries crossingBars) 2) ∧
      emaOfOptions (noneValues [7, 8] ++ presentCloses crossingBars) 4 =
        noneValues ([7, 8] ++ datesFromSeries crossingBars) :=
  ⟨(ema_implementations_agree crossingBars 2).1 _ rfl,
    (ema_implementations_agree crossingBars 4).2.2 (by decide) [7, 8]⟩

end StandardTools.Indicators
