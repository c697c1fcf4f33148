import StandardTools.Indicators.Affine
import StandardTools.Lib.Between

/-!
# Ranges of the indicator values

A window average lies in the range of its window, a smoothed average in the range
of all values which it has seen, and the strength index is a percentage. The
loops carry these bounds in their invariants: each round mixes the average so
far and one new value.
-/

namespace StandardTools.Indicators
open StandardTools.Core Lib

variable {K : Type}

/-- The series has the value `x` at the index `i`. -/
def HasValue (values : List (IndicatorValue K)) (i : ℕ) (x : K) : Prop :=
  ∃ date, values[i]? = some ⟨date, some x⟩

theorem not_hasValue_noneBar (series : List (OHLCV K)) (i : ℕ) (x : K) :
    ¬HasValue (series.map noneBar) i x := by
  rintro ⟨date, h⟩
  rw [List.getElem?_map, Option.map_eq_some_iff] at h
  obtain ⟨bar, -, hbar⟩ := h
  cases hbar

/-- Behind the empty bars of a warm-up the index counts from the end of it. -/
theorem hasValue_warmup {series : List (OHLCV K)} {period : ℕ} (hlen : period ≤ series.length)
    {values : List (IndicatorValue K)} {i : ℕ} {x : K}
    (h : HasValue ((series.take period).map noneBar ++ values) i x) :
    ∃ j, i = period + j ∧ HasValue values j x := by
  have htake : ((series.take period).map (noneBar (K := K))).length = period := by
    rw [List.length_map, List.length_take_of_le hlen]
  rcases Nat.lt_or_ge i period with hlt | hge
  · refine absurd ?_ (not_hasValue_noneBar (series.take period) i x)
    obtain ⟨date, h⟩ := h
    rw [List.getElem?_append_left (htake.symm ▸ hlt)] at h
    exact ⟨date, h⟩
  · obtain ⟨date, h⟩ := h
    rw [List.getElem?_append_right (htake.symm ▸ hge), htake] at h
    exact ⟨i - period, (Nat.add_sub_cancel' hge).symm, date, h⟩

theorem hasValue_window {series : List (OHLCV K)} {period i : ℕ} {value : ℕ → K} {x : K} :
    HasValue (series.mapIdx fun i bar =>
        ⟨bar.date, if i + 1 < period then none else some (value i)⟩) i x ↔
      i < series.length ∧ period ≤ i + 1 ∧ value i = x := by
  unfold HasValue
  rw [List.getElem?_mapIdx]
  rcases Nat.lt_or_ge i series.length with hi | hi
  · rw [List.getElem?_eq_getElem hi]
    by_cases hwarm : i + 1 < period
    · simp [hwarm]
    · simp [hwarm, hi, Nat.not_lt.mp hwarm]
  · rw [List.getElem?_eq_none hi]
    simp [Nat.not_lt.mpr hi]

/-! ### Window averages and bands -/

theorem mean_between {values : List ℝ} (hne : values ≠ []) : Between values (mean values) := by
  rw [mean_eq]
  exact .mean hne

theorem smaValues_between {series : List (OHLCV ℝ)} {period i : ℕ} {x : ℝ}
    (h : HasValue (smaValues series period) i x) : Between (closeWindow series period i) x := by
  rw [smaValues, noneValues_dates] at h
  split_ifs at h with hshort
  · exact absurd h (not_hasValue_noneBar series i x)
  · obtain ⟨hi, -, rfl⟩ := hasValue_window.mp h
    exact mean_between (closeWindow_ne_nil (by omega) hi)

theorem sampleStdDev_nonneg (values : List ℝ) : 0 ≤ sampleStdDev values := by
  unfold sampleStdDev
  split_ifs with hlen
  · exact le_rfl
  · exact Real.sqrt_nonneg _

theorem bollingerSeries_ordered {series : List (OHLCV ℝ)} {period stdDevCount i : ℕ} {m : ℝ}
    (h : HasValue (bollingerSeries series period stdDevCount fun middle _ => middle) i m) :
    ∃ l u,
      HasValue (bollingerSeries series period stdDevCount fun middle width => middle - width) i l ∧
      HasValue (bollingerSeries series period stdDevCount fun middle width => middle + width) i u ∧
      l ≤ m ∧ m ≤ u := by
  simp only [bollingerSeries, noneValues_dates] at h ⊢
  split_ifs at h ⊢ with hshort
  · exact absurd h (not_hasValue_noneBar series i m)
  · obtain ⟨hi, hwarm, rfl⟩ := hasValue_window.mp h
    have hwidth : 0 ≤ (stdDevCount : ℝ) * sampleStdDev (closeWindow series period i) :=
      mul_nonneg (Nat.cast_nonneg stdDevCount) (sampleStdDev_nonneg _)
    refine ⟨_, _, hasValue_window.mpr ⟨hi, hwarm, rfl⟩, hasValue_window.mpr ⟨hi, hwarm, rfl⟩,
      ?_, ?_⟩
    · exact sub_le_self _ hwidth
    · exact le_add_of_nonneg_right hwidth

/-! ### The exponential average -/

theorem emaMultiplier_bounds {period : ℕ} (hp : 0 < period) :
    0 ≤ emaMultiplier (K := ℝ) period ∧ emaMultiplier (K := ℝ) period ≤ 1 := by
  have hpos : (0 : ℝ) < ((period + 1 : ℕ) : ℝ) := Nat.cast_pos.mpr (Nat.succ_pos period)
  constructor
  · exact div_nonneg (Nat.cast_nonneg 2) hpos.le
  · rw [emaMultiplier, div_le_one hpos]
    exact Nat.cast_le.mpr (Nat.succ_le_succ hp)

/-- The loop has read `seen`; once the average has started it lies in the range of
the closes read. -/
structure EmaInvariant (period : ℕ) (seen : List (OHLCV ℝ)) (s : ℕ × ℝ) : Prop where
  index_eq : s.1 = seen.length
  between : period ≤ seen.length → Between (closesOf seen) s.2

theorem emaSeriesStep_between {series seen rest : List (OHLCV ℝ)} {bar : OHLCV ℝ} {period : ℕ}
    (hp : 0 < period) (hseries : series = seen ++ bar :: rest) {s : ℕ × ℝ}
    (hs : EmaInvariant period seen s) :
    (∀ x, (emaSeriesStep series period (emaMultiplier period) s bar).1.value = some x →
      Between (closesOf (seen ++ [bar])) x) ∧
    EmaInvariant period (seen ++ [bar])
      (emaSeriesStep series period (emaMultiplier period) s bar).2 := by
  have hlen : (seen ++ [bar]).length = seen.length + 1 := List.length_append
  have hindex := hs.index_eq
  unfold emaSeriesStep
  split_ifs with hwarm hseed
  · refine ⟨nofun, by rw [hlen, hindex], fun hstarted => ?_⟩
    omega
  · have hwindow : series.take (s.1 + 1) = seen ++ [bar] := by
      rw [hseries, List.append_cons, hindex, ← hlen, List.take_left]
    have hmean : Between (closesOf (seen ++ [bar])) (mean (closesOf (seen ++ [bar]))) :=
      mean_between (by simp [closesOf])
    simp only [hwindow]
    refine ⟨fun x hx => ?_, by rw [hlen, hindex], fun _ => hmean⟩
    cases hx
    exact hmean
  · have hstarted : period ≤ seen.length := by omega
    obtain ⟨h0, h1⟩ := emaMultiplier_bounds hp
    have hnext : Between (closesOf (seen ++ [bar]))
        ((bar.close - s.2) * emaMultiplier period + s.2) := by
      have hsmooth := (hs.between hstarted).smooth bar.close h0 h1
      rwa [mul_comm, add_comm, ← closesOf_singleton, ← closesOf_append] at hsmooth
    refine ⟨fun x hx => ?_, by rw [hlen, hindex], fun _ => hnext⟩
    cases hx
    exact hnext

theorem emaSeries_between {series : List (OHLCV ℝ)} {period i : ℕ} {x : ℝ}
    (h : HasValue (emaSeries series period) i x) :
    Between (closesOf (series.take (i + 1))) x := by
  rw [emaSeries, noneValues_dates] at h
  split_ifs at h with hshort
  · exact absurd h (not_hasValue_noneBar series i x)
  · have hp : 0 < period := by omega
    obtain ⟨date, h⟩ := h
    have hinit : EmaInvariant period [] (0, 0) :=
      ⟨rfl, fun hzero => absurd hzero (Nat.not_le.mpr hp)⟩
    have hloop := scanLoop_invariant (I := EmaInvariant period)
      (P := fun seen iv => ∀ x, iv.value = some x → Between (closesOf seen) x)
      (fun _ _ _ _ hseries hs => emaSeriesStep_between hp hseries hs)
      (List.nil_append series).symm hinit i _ h
    rw [List.length_nil, Nat.zero_add] at hloop
    exact hloop x rfl

/-! ### Relative strength -/

theorem rsiValue_bounds {gain loss : ℝ} (hgain : 0 ≤ gain) (hloss : 0 ≤ loss) :
    0 ≤ rsiValue gain loss ∧ rsiValue gain loss ≤ 100 := by
  unfold rsiValue
  split_ifs with hzero
  · norm_num
  · have hrs : 0 ≤ gain / loss := div_nonneg hgain hloss
    have hle : 100 / (1 + gain / loss) ≤ 100 := div_le_self (by norm_num) (by linarith)
    have hnonneg : 0 ≤ 100 / (1 + gain / loss) := by positivity
    push_cast
    constructor <;> linarith

theorem gainLoss_nonneg (diff : ℝ) : 0 ≤ (gainLoss diff).1 ∧ 0 ≤ (gainLoss diff).2 := by
  unfold gainLoss
  split_ifs with hdiff
  · exact ⟨hdiff, le_rfl⟩
  · exact ⟨le_rfl, neg_nonneg.mpr (not_le.mp hdiff).le⟩

theorem mean_nonneg {values : List ℝ} (h : ∀ v ∈ values, 0 ≤ v) : 0 ≤ mean values := by
  rw [mean_eq]
  exact div_nonneg (List.sum_nonneg h) (Nat.cast_nonneg _)

theorem rsiSeeds_nonneg (series : List (OHLCV ℝ)) (period : ℕ) :
    0 ≤ (rsiSeeds series period).1 ∧ 0 ≤ (rsiSeeds series period).2 := by
  constructor
  all_goals
    refine mean_nonneg fun v hv => ?_
    rw [List.map_map, List.mem_map] at hv
    obtain ⟨diff, -, rfl⟩ := hv
  · exact (gainLoss_nonneg diff).1
  · exact (gainLoss_nonneg diff).2

/-- Both averages stay non-negative, so that each of them is a share of their sum. -/
theorem rsiStep_bounds (period : ℕ) {s : ℝ × ℝ × ℝ} (hs : 0 ≤ s.1 ∧ 0 ≤ s.2.1) (bar : OHLCV ℝ) :
    (∀ x, (rsiStep period s bar).1.value = some x → 0 ≤ x ∧ x ≤ 100) ∧
      0 ≤ (rsiStep period s bar).2.1 ∧ 0 ≤ (rsiStep period s bar).2.2.1 := by
  have hsmooth : ∀ {avg g : ℝ}, 0 ≤ avg → 0 ≤ g →
      0 ≤ (avg * ((period - 1 : ℕ) : ℝ) + g) / (period : ℝ) := by
    intro avg g havg hg
    exact div_nonneg (add_nonneg (mul_nonneg havg (Nat.cast_nonneg _)) hg) (Nat.cast_nonneg _)
  obtain ⟨hgain, hloss⟩ := gainLoss_nonneg (bar.close - s.2.2)
  refine ⟨fun x hx => ?_, hsmooth hs.1 hgain, hsmooth hs.2 hloss⟩
  cases hx
  exact rsiValue_bounds (hsmooth hs.1 hgain) (hsmooth hs.2 hloss)

theorem rsiTail_bounds {period : ℕ} {seeds : ℝ × ℝ} (hseeds : 0 ≤ seeds.1 ∧ 0 ≤ seeds.2)
    {series : List (OHLCV ℝ)} {i : ℕ} {x : ℝ} (h : HasValue (rsiTail period seeds series) i x) :
    0 ≤ x ∧ x ≤ 100 := by
  obtain ⟨date, h⟩ := h
  cases series with
  | nil => cases h
  | cons bar rest =>
    cases i with
    | zero =>
      cases h
      exact rsiValue_bounds hseeds.1 hseeds.2
    | succ i =>
      exact scanLoop_invariant (I := fun _ s => 0 ≤ s.1 ∧ 0 ≤ s.2.1)
        (P := fun _ iv => ∀ x, iv.value = some x → 0 ≤ x ∧ x ≤ 100)
        (fun _ bar _ s _ hs => rsiStep_bounds period hs bar) (List.nil_append rest).symm hseeds i
        _ h x rfl

theorem rsiValues_bounds {series : List (OHLCV ℝ)} {period i : ℕ} {x : ℝ}
    (h : HasValue (rsiValues series period) i x) : 0 ≤ x ∧ x ≤ 100 := by
  rw [rsiValues_eq] at h
  split_ifs at h with hshort
  · exact absurd h (not_hasValue_noneBar series i x)
  · obtain ⟨j, -, hj⟩ := hasValue_warmup (by omega) h
    exact rsiTail_bounds (rsiSeeds_nonneg series period) hj

/-! ### True range -/

theorem trueRange_nonneg (bar prev : OHLCV ℝ) : 0 ≤ trueRange bar prev := by
  rw [trueRange, stdMax_real, stdMax_real]
  exact le_max_of_le_right (le_max_of_le_left (abs_nonneg _))

theorem trueRanges_cons (first second : OHLCV ℝ) (rest : List (OHLCV ℝ)) :
    trueRanges (first :: second :: rest) =
      trueRange second first :: trueRanges (second :: rest) := rfl

theorem trueRanges_nonneg (series : List (OHLCV ℝ)) : ∀ r ∈ trueRanges series, 0 ≤ r := by
  induction series with
  | nil => exact fun r hr => absurd hr List.not_mem_nil
  | cons first rest ih =>
    cases rest with
    | nil => exact fun r hr => absurd hr List.not_mem_nil
    | cons second rest =>
      rw [trueRanges_cons]
      exact List.forall_mem_cons.mpr ⟨trueRange_nonneg second first, ih⟩

theorem trueRanges_append (bars : List (OHLCV ℝ)) (prev bar : OHLCV ℝ) :
    trueRanges (bars ++ [prev] ++ [bar]) = trueRanges (bars ++ [prev]) ++ [trueRange bar prev] :=
  zipWith_tail_append trueRange bars prev bar

/-- The loop has read `seen`, whose last bar is the previous one. -/
structure AtrInvariant (seen : List (OHLCV ℝ)) (s : ℝ × OHLCV ℝ) : Prop where
  last : ∃ bars, seen = bars ++ [s.2]
  between : Between (trueRanges seen) s.1

theorem atrStep_between {period : ℕ} (hp : 0 < period) {seen : List (OHLCV ℝ)} {s : ℝ × OHLCV ℝ}
    (hs : AtrInvariant seen s) (bar : OHLCV ℝ) :
    (∀ x, (atrStep period s bar).1.value = some x → Between (trueRanges (seen ++ [bar])) x) ∧
      AtrInvariant (seen ++ [bar]) (atrStep period s bar).2 := by
  obtain ⟨bars, hseen⟩ := hs.last
  have hpos : (0 : ℝ) < (period : ℝ) := Nat.cast_pos.mpr hp
  have hone : (1 : ℝ) ≤ (period : ℝ) := Nat.one_le_cast.mpr hp
  have hsmooth : (s.1 * ((period - 1 : ℕ) : ℝ) + trueRange bar s.2) / (period : ℝ) =
      s.1 + 1 / (period : ℝ) * (trueRange bar s.2 - s.1) := by
    rw [Nat.cast_sub hp, Nat.cast_one]
    field_simp
    ring
  have hnext : Between (trueRanges (seen ++ [bar]))
      ((s.1 * ((period - 1 : ℕ) : ℝ) + trueRange bar s.2) / (period : ℝ)) := by
    rw [hsmooth, hseen, trueRanges_append, ← hseen]
    exact hs.between.smooth _ (by positivity) ((div_le_one hpos).mpr hone)
  refine ⟨fun x hx => ?_, ⟨seen, rfl⟩, hnext⟩
  cases hx
  exact hnext

theorem atrValues_between {series : List (OHLCV ℝ)} {period i : ℕ} {x : ℝ}
    (h : HasValue (atrValues series period) i x) :
    Between (trueRanges (series.take (i + 1))) x := by
  rw [atrValues_eq] at h
  split_ifs at h with hshort
  · exact absurd h (not_hasValue_noneBar series i x)
  · have hp : 0 < period := by omega
    have hlt : period < series.length := by omega
    obtain ⟨j, rfl, date, hj⟩ := hasValue_warmup hlt.le h
    have htake : series.take (period + 1) = series.take period ++ [series[period]] :=
      (List.take_append_getElem hlt).symm
    have hseed : Between (trueRanges (series.take period ++ [series[period]]))
        (atrSeed series period) := by
      rw [atrSeed, take_trueRanges, htake]
      refine mean_between (List.ne_nil_of_length_pos ?_)
      rw [trueRanges, List.length_zipWith, List.length_tail, List.length_append,
        List.length_take_of_le hlt.le]
      simpa using hp
    rw [List.drop_eq_getElem_cons hlt] at hj
    cases j with
    | zero =>
      cases hj
      rw [Nat.add_zero, htake]
      exact hseed
    | succ j =>
      have hsplit : series = (series.take period ++ [series[period]]) ++ series.drop (period + 1) := by
        rw [← htake, List.take_append_drop]
      have hlen : (series.take period ++ [series[period]]).length + j + 1 = period + (j + 1) + 1 := by
        rw [List.length_append, List.length_take_of_le hlt.le, List.length_singleton]
        omega
      have hinit : AtrInvariant (series.take period ++ [series[period]])
          (atrSeed series period, series[period]) := ⟨⟨_, rfl⟩, hseed⟩
      have hloop := scanLoop_invariant (I := AtrInvariant)
        (P := fun seen iv => ∀ x, iv.value = some x → Between (trueRanges seen) x)
        (fun _ bar _ _ _ hs => atrStep_between hp hs bar) hsplit hinit j _ hj
      rw [hlen] at hloop
      exact hloop x rfl

/-! ### The average price -/

/-- The price of a bar which `CalculateVWAP` weights by the volume. -/
def typicalPrice [Double K] (bar : OHLCV K) : K := (bar.high + bar.low + bar.close) / ((3 : ℕ) : K)

/-- The weighted sum obeys the bounds of the prices, each times the volume so far. -/
structure VwapInvariant (seen : List (OHLCV ℝ)) (s : ℝ × ℝ) : Prop where
  volume_nonneg : 0 ≤ s.2
  bounds : ∀ lo hi, (∀ p ∈ seen.map typicalPrice, lo ≤ p ∧ p ≤ hi) →
    lo * s.2 ≤ s.1 ∧ s.1 ≤ hi * s.2

theorem vwapStep_between {seen : List (OHLCV ℝ)} {s : ℝ × ℝ} (hs : VwapInvariant seen s)
    {bar : OHLCV ℝ} (hbar : 0 ≤ volumeOf bar) :
    (∀ x, (vwapStep s bar).1.value = some x → Between ((seen ++ [bar]).map typicalPrice) x) ∧
      VwapInvariant (seen ++ [bar]) (vwapStep s bar).2 := by
  have hnext : VwapInvariant (seen ++ [bar])
      (s.1 + typicalPrice bar * volumeOf bar, s.2 + volumeOf bar) := by
    refine ⟨add_nonneg hs.volume_nonneg hbar, fun lo hi hl => ?_⟩
    rw [List.map_append, List.forall_mem_append] at hl
    obtain ⟨hlo, hhi⟩ := hs.bounds lo hi hl.1
    obtain ⟨hplo, hphi⟩ := hl.2 (typicalPrice bar) (List.mem_singleton_self _)
    rw [mul_add, mul_add]
    exact ⟨add_le_add hlo (mul_le_mul_of_nonneg_right hplo hbar),
      add_le_add hhi (mul_le_mul_of_nonneg_right hphi hbar)⟩
  refine ⟨fun x hx => ?_, hnext⟩
  change (if s.2 + volumeOf bar != 0 then
    some ((s.1 + typicalPrice bar * volumeOf bar) / (s.2 + volumeOf bar)) else none) = some x at hx
  split_ifs at hx with hzero
  have hpos : 0 < s.2 + volumeOf bar :=
    lt_of_le_of_ne hnext.volume_nonneg (Ne.symm (bne_iff_ne.mp hzero))
  cases hx
  refine between_of_bounds (by simp) fun lo hi hl => ?_
  obtain ⟨hlo, hhi⟩ := hnext.bounds lo hi hl
  exact ⟨(le_div_iff₀ hpos).mpr hlo, (div_le_iff₀ hpos).mpr hhi⟩

theorem vwapValues_between {series : List (OHLCV ℝ)} (hvolume : ∀ bar ∈ series, 0 ≤ volumeOf bar)
    {i : ℕ} {x : ℝ} (h : HasValue (scanLoop vwapStep (0, 0) series) i x) :
    Between ((series.take (i + 1)).map typicalPrice) x := by
  obtain ⟨date, h⟩ := h
  have hinit : VwapInvariant [] (0, 0) := ⟨le_rfl, fun _ _ _ => by simp⟩
  have hstep : ∀ seen bar rest s, series = seen ++ bar :: rest → VwapInvariant seen s →
      (∀ x, (vwapStep s bar).1.value = some x → Between ((seen ++ [bar]).map typicalPrice) x) ∧
        VwapInvariant (seen ++ [bar]) (vwapStep s bar).2 := by
    intro seen bar rest s hseries hs
    exact vwapStep_between hs (hvolume bar (hseries ▸ List.mem_append_right _ List.mem_cons_self))
  have hloop := scanLoop_invariant (I := VwapInvariant)
    (P := fun seen iv => ∀ x, iv.value = some x → Between (seen.map typicalPrice) x)
    hstep (List.nil_append series).symm hinit i _ h
  rw [List.length_nil, Nat.zero_add] at hloop
  exact hloop x rfl

/-! ### The results of the calculators -/

/-- Every value of every indicator is in its range, whatever the bars and the
parameters; only the average price asks for volumes which are not negative. -/
theorem calculate_ranges (series : List (OHLCV ℝ)) (params : ParamMap ℝ) :
    (∀ r, calculate "sma" series params = .ok r →
      ∃ period, paramAsSize params "period" 20 = .ok period ∧
        ∀ i x, HasValue r.values i x → Between (closeWindow series period i) x) ∧
    (∀ r, calculate "ema" series params = .ok r →
      ∀ i x, HasValue r.values i x → Between (closesOf (series.take (i + 1))) x) ∧
    (∀ r, calculate "rsi" series params = .ok r →
      ∀ i x, HasValue r.values i x → 0 ≤ x ∧ x ≤ 100) ∧
    (∀ r, calculate "atr" series params = .ok r →
      ∀ i x, HasValue r.values i x → Between (trueRanges (series.take (i + 1))) x ∧ 0 ≤ x) ∧
    (∀ r, calculate "bollinger_bands" series params = .ok r →
      ∃ lower upper, r.extra "lower" = some lower ∧ r.extra "upper" = some upper ∧
        ∀ i m, HasValue r.values i m →
          ∃ l u, HasValue lower i l ∧ HasValue upper i u ∧ l ≤ m ∧ m ≤ u) ∧
    ((∀ bar ∈ series, 0 ≤ bar.volume.toInt) → ∀ r, calculate "vwap" series params = .ok r →
      ∀ i x, HasValue r.values i x → Between ((series.take (i + 1)).map typicalPrice) x) := by
  refine ⟨fun r hr => ?_, fun r hr i x hx => ?_, fun r hr i x hx => ?_, fun r hr i x hx => ?_,
    fun r hr => ?_, fun hvolume r hr i x hx => ?_⟩
  · rw [calculate_sma, calculateSMA] at hr
    obtain ⟨period, hperiod, hr⟩ := bind_eq_ok.mp hr
    cases hr
    exact ⟨period, hperiod, fun i x hx => smaValues_between hx⟩
  · rw [calculate_ema, calculateEMA] at hr
    obtain ⟨period, -, hr⟩ := bind_eq_ok.mp hr
    cases hr
    exact emaSeries_between hx
  · rw [calculate_rsi, calculateRSI] at hr
    obtain ⟨period, -, hr⟩ := bind_eq_ok.mp hr
    cases hr
    exact rsiValues_bounds hx
  · rw [calculate_atr, calculateATR] at hr
    obtain ⟨period, -, hr⟩ := bind_eq_ok.mp hr
    cases hr
    have hbetween := atrValues_between hx
    refine ⟨hbetween, ?_⟩
    obtain ⟨lo, hi, hleast, -, hlo, -⟩ := hbetween
    exact (trueRanges_nonneg _ lo hleast.1).trans hlo
  · rw [calculate_bollinger, calculateBollinger] at hr
    obtain ⟨period, -, hr⟩ := bind_eq_ok.mp hr
    obtain ⟨stdDevCount, -, hr⟩ := bind_eq_ok.mp hr
    cases hr
    exact ⟨_, _, rfl, rfl, fun i m hm => bollingerSeries_ordered hm⟩
  · rw [calculate_vwap] at hr
    cases hr
    exact vwapValues_between (fun bar hbar => Int.cast_nonneg (hvolume bar hbar)) hx

theorem calculate_ranges_turning :
    (∃ r x, calculate "sma" turningBars turningParams = .ok r ∧ HasValue r.values 2 x ∧
      Between [0, 1] x) ∧
    (∃ r x, calculate "rsi" turningBars turningParams = .ok r ∧ HasValue r.values 2 x ∧
      0 ≤ x ∧ x ≤ 100) ∧
    (∃ r x, calculate "vwap" turningBars turningParams = .ok r ∧ HasValue r.values 2 x ∧
      Between (turningBars.map typicalPrice) x) := by
  obtain ⟨hsma, -, hrsi, -, -, hvwap⟩ := calculate_ranges turningBars turningParams
  obtain ⟨sma, date, x, hr, hx⟩ := (yields_sma turningBars (usesParam_turning 20)).value
    (i := 2) (by decide) (by decide)
  obtain ⟨rsi, date', y, hr', hy⟩ := (yields_rsi turningBars (usesParam_turning 14)).value
    (i := 2) (by decide) (by decide)
  have htraded : (cumulativeVolume (turningBars.take (2 + 1)) != (0 : ℝ)) = true := by
    have hfive : Int64.toInt 5 = 5 := by decide
    norm_num [cumulativeVolume, volumeOf, turningBars, hfive]
  obtain ⟨vwap, date'', z, hr'', hz⟩ := (@yields_vwap ℝ _ turningBars turningParams).value
    (i := 2) (by decide) htraded
  obtain ⟨period, hperiod, hwindow⟩ := hsma sma hr
  obtain rfl : period = 2 :=
    (Except.ok.inj ((usesParam_turning 20).paramAsSize_eq.symm.trans hperiod)).symm
  exact ⟨⟨sma, x, hr, ⟨date, hx⟩, hwindow 2 x ⟨date, hx⟩⟩,
    ⟨rsi, y, hr', ⟨date', hy⟩, hrsi rsi hr' 2 y ⟨date', hy⟩⟩,
    ⟨vwap, z, hr'', ⟨date'', hz⟩, hvwap (by decide) vwap hr'' 2 z ⟨date'', hz⟩⟩⟩

end StandardTools.Indicators
