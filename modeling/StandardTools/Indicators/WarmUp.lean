import StandardTools.Indicators.Causality

/-!
# Alignment and warm-up (`indicators/calculator.cpp:78-559`)

Every series of an indicator carries one value per bar under the date of the
bar. Whether the value is there depends on the index alone, but for the average
price, whose divisor is the volume so far. The loops are followed bar by bar:
the index, or the number of values still to be seen, is in their state.
-/

namespace StandardTools.Indicators
open StandardTools.Core Lib

variable {K : Type}

/-- One value per bar, dated as the bar, and there exactly where `present` says. -/
structure Aligned (series : List (OHLCV K)) (values : List (IndicatorValue K))
    (present : ℕ → Prop) : Prop where
  length_eq : values.length = series.length
  dates_eq : values.map (·.date) = datesFromSeries series
  isSome_iff : ∀ i iv, values[i]? = some iv → (iv.value.isSome ↔ present i)

namespace Aligned
variable {series rest : List (OHLCV K)} {values values' : List (IndicatorValue K)}
  {present present' : ℕ → Prop}

theorem nil : Aligned ([] : List (OHLCV K)) [] present := ⟨rfl, rfl, by simp⟩

theorem cons {bar : OHLCV K} {o : Option K} (ho : o.isSome ↔ present 0)
    (h : Aligned rest values fun i => present (i + 1)) :
    Aligned (bar :: rest) (⟨bar.date, o⟩ :: values) present where
  length_eq := congrArg (· + 1) h.length_eq
  dates_eq := congrArg (bar.date :: ·) h.dates_eq
  isSome_iff i iv hi := by
    cases i with
    | zero =>
      cases hi
      exact ho
    | succ i => exact h.isSome_iff i iv hi

theorem tail {bar : OHLCV K} {v : IndicatorValue K}
    (h : Aligned (bar :: rest) (v :: values) present) :
    Aligned rest values fun i => present (i + 1) where
  length_eq := Nat.succ.inj h.length_eq
  dates_eq := (List.cons.inj h.dates_eq).2
  isSome_iff i iv hi := h.isSome_iff (i + 1) iv hi

theorem congr (h : Aligned series values present)
    (hiff : ∀ i < series.length, (present i ↔ present' i)) : Aligned series values present' where
  length_eq := h.length_eq
  dates_eq := h.dates_eq
  isSome_iff i iv hi := by
    have hlt : i < values.length := (List.getElem?_eq_some_iff.mp hi).1
    rw [h.isSome_iff i iv hi]
    exact hiff i (h.length_eq ▸ hlt)

theorem append (h : Aligned series values present)
    (h' : Aligned rest values' fun i => present (series.length + i)) :
    Aligned (series ++ rest) (values ++ values') present where
  length_eq := by rw [List.length_append, List.length_append, h.length_eq, h'.length_eq]
  dates_eq := by
    rw [List.map_append, h.dates_eq, h'.dates_eq, datesFromSeries, datesFromSeries,
      datesFromSeries, List.map_append]
  isSome_iff i iv hi := by
    rcases Nat.lt_or_ge i values.length with hlt | hge
    · rw [List.getElem?_append_left hlt] at hi
      exact h.isSome_iff i iv hi
    · rw [List.getElem?_append_right hge] at hi
      have hindex : series.length + (i - values.length) = i := by
        rw [← h.length_eq]
        omega
      have hiff := h'.isSome_iff _ iv hi
      rwa [hindex] at hiff

theorem map_noneBar (series : List (OHLCV K)) (h : ∀ i < series.length, ¬present i) :
    Aligned series (series.map noneBar) present := by
  induction series generalizing present with
  | nil => exact nil
  | cons bar rest ih =>
    refine cons ?_ (ih fun i hi => h (i + 1) (Nat.succ_lt_succ hi))
    simpa using h 0 (Nat.succ_pos _)

theorem mapIdx {g : ℕ → OHLCV K → Option K} (series : List (OHLCV K))
    (h : ∀ i bar, (g i bar).isSome ↔ present i) :
    Aligned series (series.mapIdx fun i bar => ⟨bar.date, g i bar⟩) present := by
  induction series generalizing present g with
  | nil => exact nil
  | cons bar rest ih =>
    rw [List.mapIdx_cons]
    exact cons (h 0 bar) (ih fun i bar => h (i + 1) bar)

/-- The value lists combined bar by bar, as the MACD line and its histogram are. -/
theorem zipWith [Double K] (h : Aligned series values present)
    (h' : Aligned series values' present') :
    Aligned series (List.zipWith (fun d v => ⟨d, v⟩) (datesFromSeries series)
      (List.zipWith valueDiff values values')) fun i => present i ∧ present' i := by
  induction series generalizing values values' present present' with
  | nil =>
    have hnil : values = [] := List.eq_nil_of_length_eq_zero h.length_eq
    rw [hnil]
    exact nil
  | cons bar rest ih =>
    obtain ⟨v, vs, rfl⟩ := List.exists_cons_of_length_eq_add_one h.length_eq
    obtain ⟨v', vs', rfl⟩ := List.exists_cons_of_length_eq_add_one h'.length_eq
    refine cons ?_ (ih h.tail h'.tail)
    rw [← h.isSome_iff 0 v rfl, ← h'.isSome_iff 0 v' rfl]
    unfold valueDiff
    cases v.value <;> cases v'.value <;> simp

end Aligned

variable [Double K]

/-! ### The window averages -/

omit [Double K] in
/-- A value from the first full window on. -/
theorem aligned_window (series : List (OHLCV K)) (period : ℕ) (value : ℕ → K) :
    Aligned series (series.mapIdx fun i bar =>
      ⟨bar.date, if i + 1 < period then none else some (value i)⟩) fun i => period ≤ i + 1 := by
  refine .mapIdx series fun i bar => ?_
  split_ifs with hi
  · simp
    omega
  · simp
    omega

theorem aligned_smaValues (series : List (OHLCV K)) {period : ℕ} (hp : 0 < period) :
    Aligned series (smaValues series period) fun i => period ≤ i + 1 := by
  rw [smaValues, noneValues_dates]
  split_ifs with hshort
  · exact .map_noneBar series fun i hi => by omega
  · exact aligned_window series period fun i => mean (closeWindow series period i)

theorem aligned_bollingerSeries (series : List (OHLCV K)) {period : ℕ} (hp : 0 < period)
    (stdDevCount : ℕ) (band : K → K → K) :
    Aligned series (bollingerSeries series period stdDevCount band) fun i => period ≤ i + 1 := by
  rw [bollingerSeries, noneValues_dates]
  split_ifs with hshort
  · exact .map_noneBar series fun i hi => by omega
  · exact aligned_window series period fun i => band (mean (closeWindow series period i))
      ((stdDevCount : K) * sampleStdDev (closeWindow series period i))

/-! ### The exponential averages -/

theorem emaStep_eq (period : ℕ) (multiplier seed ema : K) (i : ℕ) (x : Date × K) :
    ∃ o ema', emaStep period multiplier seed (i, ema) x = (⟨x.1, o⟩, (i + 1, ema')) ∧
      (o.isSome ↔ period ≤ i + 1) := by
  unfold emaStep
  split_ifs with hlt heq
  · exact ⟨none, ema, rfl, by simp; omega⟩
  · exact ⟨some seed, seed, rfl, by simp; omega⟩
  · exact ⟨some ((x.2 - ema) * multiplier + ema), _, rfl, by simp; omega⟩

theorem aligned_emaLoop (period : ℕ) (multiplier seed ema : K) (i : ℕ)
    (series : List (OHLCV K)) :
    Aligned series (scanLoop (emaStep period multiplier seed) (i, ema)
      (series.map fun bar => (bar.date, bar.close))) fun j => period ≤ i + j + 1 := by
  induction series generalizing i ema with
  | nil => exact .nil
  | cons bar rest ih =>
    obtain ⟨o, ema', hstep, ho⟩ := emaStep_eq period multiplier seed ema i (bar.date, bar.close)
    rw [List.map_cons, scanLoop, hstep]
    exact .cons ho ((ih ema' (i + 1)).congr fun j _ => by omega)

theorem aligned_emaValues (series : List (OHLCV K)) {period : ℕ} (hp : 0 < period) :
    Aligned series (emaValues (closesOf series) (datesFromSeries series) period)
      fun i => period ≤ i + 1 := by
  have hlen : (closesOf series).length = series.length := List.length_map _
  rw [emaValues, noneValues_dates, zip_dates_closes, hlen]
  split_ifs with hshort
  · exact .map_noneBar series fun i hi => by omega
  · exact (aligned_emaLoop period _ _ 0 0 series).congr fun i _ => by omega

/-- An average which has started has a value wherever its input has one. -/
theorem aligned_emaOfOptionsLoop_started (period : ℕ) (multiplier : K) (s : ℕ × List K) (ema : K)
    {series : List (OHLCV K)} {values : List (IndicatorValue K)} {present : ℕ → Prop}
    (h : Aligned series values present) :
    Aligned series (scanLoop (emaOfOptionsStep period multiplier) (some ema, s) values)
      present := by
  induction series generalizing values present ema with
  | nil =>
    rw [List.eq_nil_of_length_eq_zero h.length_eq]
    exact .nil
  | cons bar rest ih =>
    obtain ⟨⟨date, o⟩, vs, rfl⟩ := List.exists_cons_of_length_eq_add_one h.length_eq
    obtain rfl : date = bar.date := (List.cons.inj h.dates_eq).1
    have ho := h.isSome_iff 0 _ rfl
    cases o with
    | none => exact .cons ho (ih ema h.tail)
    | some v => exact .cons ho (ih _ h.tail)

/-- The `wait` bars without a value are passed over, and of the rest the average
waits for `period - seen` more. -/
theorem aligned_emaOfOptionsLoop (period : ℕ) (multiplier : K) (seen wait : ℕ) (seeds : List K)
    {series : List (OHLCV K)} {values : List (IndicatorValue K)}
    (h : Aligned series values fun i => wait ≤ i) (hseen : seen < period) :
    Aligned series (scanLoop (emaOfOptionsStep period multiplier) (none, seen, seeds) values)
      fun i => wait + period ≤ i + 1 + seen := by
  induction series generalizing values seen wait seeds with
  | nil =>
    rw [List.eq_nil_of_length_eq_zero h.length_eq]
    exact .nil
  | cons bar rest ih =>
    obtain ⟨⟨date, o⟩, vs, rfl⟩ := List.exists_cons_of_length_eq_add_one h.length_eq
    obtain rfl : date = bar.date := (List.cons.inj h.dates_eq).1
    have ho := h.isSome_iff 0 _ rfl
    cases o with
    | none =>
      have hwait : 0 < wait := by simpa [Nat.pos_iff_ne_zero] using ho
      have htail : Aligned rest vs fun i => wait - 1 ≤ i := h.tail.congr fun i _ => by omega
      refine .cons ?_ ((ih seen (wait - 1) seeds htail hseen).congr fun i _ => by omega)
      simp
      omega
    | some v =>
      have hwait : wait = 0 := by simpa using ho
      have htail : Aligned rest vs fun i => 0 ≤ i := h.tail.congr fun i _ => by omega
      by_cases hlast : seen + 1 = period
      · simp only [scanLoop, emaOfOptionsStep, hlast, if_true]
        refine .cons (by simp; omega)
          ((aligned_emaOfOptionsLoop_started period multiplier _ _ htail).congr
            fun i _ => by omega)
      · simp only [scanLoop, emaOfOptionsStep, hlast, if_false]
        refine .cons (by simp; omega)
          ((ih (seen + 1) 0 _ htail (by omega)).congr fun i _ => by omega)

theorem aligned_emaOfOptions {series : List (OHLCV K)} {values : List (IndicatorValue K)}
    {wait period : ℕ} (hp : 0 < period) (h : Aligned series values fun i => wait ≤ i) :
    Aligned series (emaOfOptions values period) fun i => wait + period ≤ i + 1 := by
  rw [emaOfOptions, if_neg (by omega)]
  exact aligned_emaOfOptionsLoop period _ 0 wait [] h hp

/-! ### MACD -/

theorem aligned_macdLine (series : List (OHLCV K)) {fast slow : ℕ} (hfast : 0 < fast)
    (hslow : 0 < slow) :
    Aligned series (macdLine fast slow series) fun i => max fast slow ≤ i + 1 :=
  (Aligned.zipWith (aligned_emaValues series hfast) (aligned_emaValues series hslow)).congr
    fun i _ => by omega

/-- A series below the slow length is below the longer of the two as well. -/
theorem aligned_macdSeries (series : List (OHLCV K)) {fast slow signal : ℕ} (hfast : 0 < fast)
    (hslow : 0 < slow) (hsignal : 0 < signal) :
    Aligned series (macdSeries series fast slow signal).1 (fun i => max fast slow ≤ i + 1) ∧
      Aligned series (macdSeries series fast slow signal).2.1
        (fun i => max fast slow + signal ≤ i + 2) ∧
      Aligned series (macdSeries series fast slow signal).2.2
        (fun i => max fast slow + signal ≤ i + 2) := by
  rw [macdSeries_eq]
  split_ifs with hshort
  · exact ⟨.map_noneBar series fun i hi => by omega, .map_noneBar series fun i hi => by omega,
      .map_noneBar series fun i hi => by omega⟩
  · have hline := aligned_macdLine series hfast hslow
    have hwait : Aligned series (macdLine fast slow series) fun i => max fast slow - 1 ≤ i :=
      hline.congr fun i _ => by omega
    have haverage := aligned_emaOfOptions hsignal hwait
    exact ⟨hline, haverage.congr fun i _ => by omega,
      (hline.zipWith haverage).congr fun i _ => by omega⟩

/-! ### Relative strength and true range -/

omit [Double K] in
theorem aligned_scanLoop {σ : Type} {step : σ → OHLCV K → IndicatorValue K × σ}
    (hstep : ∀ s bar, ∃ v, (step s bar).1 = ⟨bar.date, some v⟩) (s : σ)
    (series : List (OHLCV K)) : Aligned series (scanLoop step s series) fun _ => True := by
  induction series generalizing s with
  | nil => exact .nil
  | cons bar rest ih =>
    obtain ⟨v, hv⟩ := hstep s bar
    rw [scanLoop, hv]
    exact .cons (by simp) (ih _)

omit [Double K] in
/-- The empty bars of the warm-up, then a value at every bar. -/
theorem aligned_warmup (series : List (OHLCV K)) {period : ℕ} (hlen : period ≤ series.length)
    {values : List (IndicatorValue K)} (h : Aligned (series.drop period) values fun _ => True) :
    Aligned series ((series.take period).map noneBar ++ values) fun i => period ≤ i := by
  have htake : (series.take period).length = period := List.length_take_of_le hlen
  have hwarm : Aligned (series.take period) ((series.take period).map noneBar)
      fun i => period ≤ i := .map_noneBar _ fun i hi => by omega
  have htail : Aligned (series.drop period) values
      fun i => period ≤ (series.take period).length + i :=
    h.congr fun i _ => iff_of_true trivial (htake.symm ▸ Nat.le_add_right period i)
  have happend := hwarm.append htail
  rwa [List.take_append_drop] at happend

theorem aligned_rsiTail (period : ℕ) (seeds : K × K) (series : List (OHLCV K)) :
    Aligned series (rsiTail period seeds series) fun _ => True := by
  cases series with
  | nil => exact .nil
  | cons bar rest => exact .cons (by simp) (aligned_scanLoop (fun s bar => ⟨_, rfl⟩) _ rest)

theorem aligned_rsiValues (series : List (OHLCV K)) {period : ℕ} (hp : 0 < period) :
    Aligned series (rsiValues series period) fun i => period ≤ i := by
  rw [rsiValues_eq]
  split_ifs with hshort
  · exact .map_noneBar series fun i hi => by omega
  · exact aligned_warmup series (by omega) (aligned_rsiTail _ _ _)

omit [Double K] in
theorem aligned_seededLoop {σ : Type} {first : OHLCV K → IndicatorValue K} {seed : OHLCV K → σ}
    {step : σ → OHLCV K → IndicatorValue K × σ}
    (hfirst : ∀ bar, ∃ v, first bar = ⟨bar.date, some v⟩)
    (hstep : ∀ s bar, ∃ v, (step s bar).1 = ⟨bar.date, some v⟩) (series : List (OHLCV K)) :
    Aligned series (seededLoop first seed step series) fun _ => True := by
  cases series with
  | nil => exact .nil
  | cons bar rest =>
    obtain ⟨v, hv⟩ := hfirst bar
    rw [seededLoop, hv]
    exact .cons (by simp) (aligned_scanLoop hstep _ rest)

theorem aligned_atrValues (series : List (OHLCV K)) {period : ℕ} (hp : 0 < period) :
    Aligned series (atrValues series period) fun i => period ≤ i := by
  rw [atrValues_eq]
  split_ifs with hshort
  · exact .map_noneBar series fun i hi => by omega
  · exact aligned_warmup series (by omega)
      (aligned_seededLoop (fun bar => ⟨_, rfl⟩) (fun s bar => ⟨_, rfl⟩) _)

/-! ### Balance and average price -/

theorem aligned_obvValues (series : List (OHLCV K)) :
    Aligned series (obvValues series) fun _ => True :=
  aligned_seededLoop (fun _ => ⟨_, rfl⟩) (fun _ _ => ⟨_, rfl⟩) series

/-- The running sum of `CalculateVWAP` behind the first bars of the series. -/
def cumulativeVolume (bars : List (OHLCV K)) : K :=
  bars.foldl (fun volume bar => volume + volumeOf bar) 0

theorem aligned_vwapLoop (s : K × K) (series : List (OHLCV K)) :
    Aligned series (scanLoop vwapStep s series) fun i =>
      (((series.take (i + 1)).foldl (fun volume bar => volume + volumeOf bar) s.2) != 0) = true := by
  induction series generalizing s with
  | nil => exact .nil
  | cons bar rest ih =>
    refine .cons ?_ (ih _)
    simp only [List.take_succ_cons, List.take_zero, List.foldl_cons, List.foldl_nil]
    split_ifs with h <;> simp [h]

/-! ### The calculators -/

/-- The parameter is absent, or a positive integer, which the cast takes to `size`. -/
def UsesParam (params : ParamMap K) (key : String) (default size : ℕ) : Prop :=
  match params key with
  | none => size = default
  | some v => 0 < size ∧ ¬v ≤ 0 ∧ (Double.floor v == v) = true ∧ Double.toSize v = size

theorem UsesParam.paramAsSize_eq {params : ParamMap K} {key : String} {default size : ℕ}
    (h : UsesParam params key default size) : paramAsSize params key default = .ok size := by
  unfold UsesParam at h
  unfold paramAsSize
  cases hvalue : params key with
  | none =>
    rw [hvalue] at h
    rw [h]
  | some v =>
    rw [hvalue] at h
    obtain ⟨-, hpos, hfloor, hsize⟩ := h
    have haccepted : ¬(v ≤ 0 || Double.floor v != v) = true := by simp [hpos, hfloor, bne]
    simp only [if_neg haccepted, hsize]

theorem UsesParam.pos {params : ParamMap K} {key : String} {default size : ℕ}
    (h : UsesParam params key default size) (hdefault : 0 < default) : 0 < size := by
  unfold UsesParam at h
  cases hvalue : params key with
  | none =>
    rw [hvalue] at h
    exact h ▸ hdefault
  | some v =>
    rw [hvalue] at h
    exact h.1

theorem usesParam_real {params : ParamMap ℝ} {key : String} {default size : ℕ} :
    UsesParam params key default size ↔
      params key = none ∧ size = default ∨ params key = some (size : ℝ) ∧ 0 < size := by
  unfold UsesParam
  cases hvalue : params key with
  | none => simp
  | some v =>
    simp only [reduceCtorEq, false_and, false_or, Option.some.injEq]
    constructor
    · rintro ⟨hsize, hpos, hfloor, hcast⟩
      have hv : (⌊v⌋ : ℝ) = v := beq_iff_eq.mp hfloor
      have hnat : (⌊v⌋₊ : ℝ) = v :=
        (natCast_floor_eq_intCast_floor (not_le.mp hpos).le).trans hv
      exact ⟨hnat.symm.trans (congrArg Nat.cast hcast), hsize⟩
    · rintro ⟨rfl, hsize⟩
      refine ⟨hsize, not_le.mpr (Nat.cast_pos.mpr hsize), beq_iff_eq.mpr ?_, Nat.floor_natCast size⟩
      exact congrArg Int.cast (Int.floor_natCast size)

/-- What the parser accepts is a positive integer. -/
theorem usesParam_of_ok {params : ParamMap ℝ} {key : String} {default size : ℕ}
    (h : paramAsSize params key default = .ok size) : UsesParam params key default size := by
  unfold paramAsSize at h
  unfold UsesParam
  cases hvalue : params key with
  | none =>
    rw [hvalue] at h
    exact (Except.ok.inj h).symm
  | some v =>
    rw [hvalue] at h
    simp only at h
    split_ifs at h with hbad
    rw [Bool.or_eq_true, decide_eq_true_eq, bne_iff_ne, not_or, not_not] at hbad
    have hv : (⌊v⌋ : ℝ) = v := hbad.2
    have hsize : ⌊v⌋₊ = size := Except.ok.inj h
    have hpos : (0 : ℝ) < ⌊v⌋ := hv.symm ▸ not_le.mp hbad.1
    refine ⟨?_, hbad.1, beq_iff_eq.mpr hv, hsize⟩
    rw [← hsize, Nat.floor_pos, ← hv]
    exact_mod_cast Int.add_one_le_iff.mpr (Int.cast_pos.mp hpos)

/-- The indicator returns, its values are `present` as told, and its extra series
are those of `extras`, each under its key. -/
def Yields (name : String) (series : List (OHLCV K)) (params : ParamMap K) (present : ℕ → Prop)
    (extras : List (String × (ℕ → Prop))) : Prop :=
  ∃ r, calculate name series params = .ok r ∧ Aligned series r.values present ∧
    List.Forall₂ (fun e x => e.1 = x.1 ∧ Aligned series e.2 x.2) r.extraSeries extras

theorem Yields.value {name : String} {series : List (OHLCV K)} {params : ParamMap K}
    {present : ℕ → Prop} {extras : List (String × (ℕ → Prop))}
    (h : Yields name series params present extras) {i : ℕ} (hi : i < series.length)
    (hpresent : present i) :
    ∃ r date x, calculate name series params = .ok r ∧ r.values[i]? = some ⟨date, some x⟩ := by
  obtain ⟨r, hr, haligned, -⟩ := h
  have hlt : i < r.values.length := haligned.length_eq ▸ hi
  have hget := List.getElem?_eq_getElem hlt
  have hsome := (haligned.isSome_iff i _ hget).mpr hpresent
  obtain ⟨x, hx⟩ := Option.isSome_iff_exists.mp hsome
  refine ⟨r, r.values[i].date, x, hr, ?_⟩
  rw [hget, ← hx]

section Calculators
variable (series : List (OHLCV K)) {params : ParamMap K}

theorem Yields.of_period {name : String} {default period : ℕ} {values : ℕ → List (IndicatorValue K)}
    {present : ℕ → Prop} (h : UsesParam params "period" default period)
    (hcall : calculate name series params = do
      let period ← paramAsSize params "period" default
      return ⟨name, .ofList [("period", (period : K))], values period, []⟩)
    (hvalues : Aligned series (values period) present) :
    Yields name series params present [] := by
  rw [h.paramAsSize_eq] at hcall
  exact ⟨_, hcall, hvalues, .nil⟩

theorem yields_sma {period : ℕ} (h : UsesParam params "period" 20 period) :
    Yields "sma" series params (fun i => period ≤ i + 1) [] :=
  .of_period series h (calculate_sma series params) (aligned_smaValues series (h.pos (by decide)))

theorem yields_ema {period : ℕ} (h : UsesParam params "period" 20 period) :
    Yields "ema" series params (fun i => period ≤ i + 1) [] := by
  have hvalues := aligned_emaValues series (h.pos (by decide))
  rw [← emaSeries_eq] at hvalues
  exact .of_period series h (calculate_ema series params) hvalues

theorem yields_rsi {period : ℕ} (h : UsesParam params "period" 14 period) :
    Yields "rsi" series params (fun i => period ≤ i) [] :=
  .of_period series h (calculate_rsi series params) (aligned_rsiValues series (h.pos (by decide)))

theorem yields_atr {period : ℕ} (h : UsesParam params "period" 14 period) :
    Yields "atr" series params (fun i => period ≤ i) [] :=
  .of_period series h (calculate_atr series params) (aligned_atrValues series (h.pos (by decide)))

theorem yields_macd {fast slow signal : ℕ} (hfast : UsesParam params "fast" 12 fast)
    (hslow : UsesParam params "slow" 26 slow) (hsignal : UsesParam params "signal" 9 signal) :
    Yields "macd" series params (fun i => max fast slow ≤ i + 1)
      [("signal", fun i => max fast slow + signal ≤ i + 2),
        ("histogram", fun i => max fast slow + signal ≤ i + 2)] := by
  have hcall : calculateMACD series params = .ok ⟨"macd",
      .ofList [("fast", (fast : K)), ("slow", (slow : K)), ("signal", (signal : K))],
      (macdSeries series fast slow signal).1,
      [("signal", (macdSeries series fast slow signal).2.1),
        ("histogram", (macdSeries series fast slow signal).2.2)]⟩ := by
    rw [calculateMACD, hfast.paramAsSize_eq, hslow.paramAsSize_eq, hsignal.paramAsSize_eq]
    rfl
  obtain ⟨hline, haverage, hhistogram⟩ := aligned_macdSeries series (hfast.pos (by decide))
    (hslow.pos (by decide)) (hsignal.pos (by decide))
  exact ⟨_, (calculate_macd series params).trans hcall, hline,
    .cons ⟨rfl, haverage⟩ (.cons ⟨rfl, hhistogram⟩ .nil)⟩

theorem yields_bollinger {period stdDev : ℕ} (hperiod : UsesParam params "period" 20 period)
    (hstdDev : UsesParam params "std_dev" 2 stdDev) :
    Yields "bollinger_bands" series params (fun i => period ≤ i + 1)
      [("upper", fun i => period ≤ i + 1), ("lower", fun i => period ≤ i + 1)] := by
  have hcall : calculateBollinger series params = .ok ⟨"bollinger_bands",
      .ofList [("period", (period : K)), ("std_dev", (stdDev : K))],
      bollingerSeries series period stdDev (fun middle _ => middle),
      [("upper", bollingerSeries series period stdDev (fun middle width => middle + width)),
        ("lower", bollingerSeries series period stdDev (fun middle width => middle - width))]⟩ := by
    rw [calculateBollinger, hperiod.paramAsSize_eq, hstdDev.paramAsSize_eq]
    rfl
  have hbands := aligned_bollingerSeries series (hperiod.pos (by decide)) stdDev
  exact ⟨_, (calculate_bollinger series params).trans hcall, hbands (fun middle _ => middle),
    .cons ⟨rfl, hbands (fun middle width => middle + width)⟩
      (.cons ⟨rfl, hbands (fun middle width => middle - width)⟩ .nil)⟩

theorem yields_obv : Yields "obv" series params (fun _ => True) [] :=
  ⟨_, (calculate_obv series params).trans (calculateOBV_eq series params),
    aligned_obvValues series, .nil⟩

theorem yields_vwap : Yields "vwap" series params
    (fun i => (cumulativeVolume (series.take (i + 1)) != (0 : K)) = true) [] := by
  have hcall : calculateVWAP series params =
      .ok ⟨"vwap", params, scanLoop vwapStep (0, 0) series, []⟩ := rfl
  exact ⟨_, (calculate_vwap series params).trans hcall, aligned_vwapLoop (0, 0) series, .nil⟩

end Calculators

/-- Averages of two bars have values from the second bar on. -/
def turningBars : List (OHLCV ℝ) := [⟨0, 1, 1, 0, 1, 5⟩, ⟨1, 1, 1, 0, 0, 5⟩, ⟨2, 0, 1, 0, 1, 5⟩]

def turningParams : ParamMap ℝ := .ofList [("period", ((2 : ℕ) : ℝ))]

theorem usesParam_turning (default : ℕ) : UsesParam turningParams "period" default 2 :=
  usesParam_real.mpr (Or.inr ⟨rfl, Nat.two_pos⟩)

/-- Every indicator on every series: the dates of the bars in order, and a value
from the end of the warm-up on. -/
theorem calculate_aligned (series : List (OHLCV K)) (params : ParamMap K) :
    (∀ period, UsesParam params "period" 20 period →
      Yields "sma" series params (fun i => period ≤ i + 1) [] ∧
      Yields "ema" series params (fun i => period ≤ i + 1) []) ∧
    (∀ period, UsesParam params "period" 14 period →
      Yields "rsi" series params (fun i => period ≤ i) [] ∧
      Yields "atr" series params (fun i => period ≤ i) []) ∧
    (∀ fast slow signal, UsesParam params "fast" 12 fast → UsesParam params "slow" 26 slow →
      UsesParam params "signal" 9 signal →
      Yields "macd" series params (fun i => max fast slow ≤ i + 1)
        [("signal", fun i => max fast slow + signal ≤ i + 2),
          ("histogram", fun i => max fast slow + signal ≤ i + 2)]) ∧
    (∀ period stdDev, UsesParam params "period" 20 period → UsesParam params "std_dev" 2 stdDev →
      Yields "bollinger_bands" series params (fun i => period ≤ i + 1)
        [("upper", fun i => period ≤ i + 1), ("lower", fun i => period ≤ i + 1)]) ∧
    Yields "obv" series params (fun _ => True) [] ∧
    Yields "vwap" series params
      (fun i => (cumulativeVolume (series.take (i + 1)) != (0 : K)) = true) [] := by
  refine ⟨fun period h => ⟨yields_sma series h, yields_ema series h⟩,
    fun period h => ⟨yields_rsi series h, yields_atr series h⟩,
    fun fast slow signal hfast hslow hsignal => yields_macd series hfast hslow hsignal,
    fun period stdDev hperiod hstdDev => yields_bollinger series hperiod hstdDev,
    yields_obv series, yields_vwap series⟩

/-- Three bars, one of them before the line of `crossingParams` starts. -/
theorem calculate_aligned_crossing :
    ∃ r, calculate "macd" crossingBars crossingParams = .ok r ∧
      Aligned crossingBars r.values (fun i => max 1 2 ≤ i + 1) ∧
      List.Forall₂ (fun e x => e.1 = x.1 ∧ Aligned crossingBars e.2 x.2) r.extraSeries
        [("signal", fun i => max 1 2 + 1 ≤ i + 2), ("histogram", fun i => max 1 2 + 1 ≤ i + 2)] :=
  (calculate_aligned crossingBars crossingParams).2.2.1 1 2 1
    ⟨by decide, by decide +kernel, by decide +kernel, by decide +kernel⟩
    ⟨by decide, by decide +kernel, by decide +kernel, by decide +kernel⟩
    ⟨by decide, by decide +kernel, by decide +kernel, by decide +kernel⟩

end StandardTools.Indicators
