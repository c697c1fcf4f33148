import StandardTools.Audit.Record

/-!
# The synthetic provider (`marketdata/synthetic.cpp`)

One bar for each day of the range, from a price which rises by one a day. The
loop steps a 64-bit count of nanoseconds past the end of the range before it
tests it, and the step wraps. `none` stands for a loop which has not ended within
the given number of tests.
-/

namespace StandardTools.MarketData
open StandardTools.Core

variable {K : Type} [Double K]

/-- `d + std::chrono::days(days)`, modulo `2^64`. -/
def addDays (d : Date) (days : Int) : Date := d + Int64.ofInt (days * Audit.dayLength)

def syntheticBar (d : Date) (price : K) : OHLCV K :=
  let open_ := price
  let close := price + 1
  { date := d
    open_ := open_
    high := stdMax open_ close + 1 / ((2 : ℕ) : K)
    low := stdMin open_ close - 1 / ((2 : ℕ) : K)
    close := close
    volume := 1000000 }

/-- `for (d; d <= stop; d = AddDays(d, 1))` -/
def syntheticLoop (stop : Date) : ℕ → Date → K → Option (List (OHLCV K))
  | 0, _, _ => none
  | fuel + 1, d, price =>
    if d ≤ stop then do
      let bars ← syntheticLoop stop fuel (addDays d 1) (price + 1)
      return syntheticBar d price :: bars
    else some []

def syntheticFetch (fuel : ℕ) (_ : Ticker) (_ : BarInterval) (range : DateRange) :
    Option (List (OHLCV K)) :=
  syntheticLoop range.stop fuel range.start ((100 : ℕ) : K)

theorem dayLength_pos : 0 < Audit.dayLength := by
  unfold Audit.dayLength
  norm_num

/-! ### One round -/

variable {stop d : Date} {price : K} {fuel : ℕ} {bars : List (OHLCV K)}

theorem syntheticLoop_of_le (h : d ≤ stop) (price : K) :
    syntheticLoop stop (fuel + 1) d price =
      (syntheticLoop stop fuel (addDays d 1) (price + 1)).map (syntheticBar d price :: ·) := by
  rw [syntheticLoop, if_pos h]
  cases syntheticLoop stop fuel (addDays d 1) (price + 1) <;> rfl

theorem syntheticLoop_of_lt (h : stop < d) (price : K) :
    syntheticLoop stop (fuel + 1) d price = some [] := by
  rw [syntheticLoop, if_neg (Int64.not_le.mpr h)]

theorem toInt_addDays (d : Date) :
    (addDays d 1).toInt = (d.toInt + Audit.dayLength).bmod (2 ^ 64) := by
  have hday : (Int64.ofInt (1 * Audit.dayLength)).toInt = Audit.dayLength := by decide +kernel
  rw [addDays, Int64.toInt_add, hday]

theorem addDays_exact (h : d.toInt + Audit.dayLength < 2 ^ 63) :
    (addDays d 1).toInt = d.toInt + Audit.dayLength := by
  have hlow := d.le_toInt
  have hday : Audit.dayLength = 86400000000000 := rfl
  rw [toInt_addDays]
  exact Int.bmod_eq_of_le (by omega) (by omega)

/-- Past the top of the clock the count starts again at the bottom. -/
theorem addDays_wraps (h : 2 ^ 63 ≤ d.toInt + Audit.dayLength) :
    (addDays d 1).toInt = d.toInt + Audit.dayLength - 2 ^ 64 := by
  have hhigh := d.toInt_lt
  have hday : Audit.dayLength = 86400000000000 := rfl
  rw [toInt_addDays, Int.bmod_eq_iff (by decide)]
  refine ⟨by omega, by omega, ?_⟩
  exact ⟨-1, by omega⟩

/-! ### A whole run -/

/-- What the loop has stored after so many rounds. -/
def syntheticBars : ℕ → Date → K → List (OHLCV K)
  | 0, _, _ => []
  | rounds + 1, d, price => syntheticBar d price :: syntheticBars rounds (addDays d 1) (price + 1)

theorem dates_syntheticBars (rounds : ℕ) (price : K)
    (h : d.toInt + rounds * Audit.dayLength < 2 ^ 63) :
    (syntheticBars rounds d price).map (·.date.toInt) =
      (List.range rounds).map fun i : ℕ => d.toInt + i * Audit.dayLength := by
  induction rounds generalizing d price with
  | zero => rfl
  | succ rounds ih =>
    simp only [Audit.dayLength] at h ih ⊢
    have hnext : (addDays d 1).toInt = d.toInt + 86400000000000 :=
      addDays_exact (by simp only [Audit.dayLength]; omega)
    rw [syntheticBars, List.map_cons, ih _ (by omega), List.range_succ_eq_map, List.map_cons,
      List.map_map]
    refine congrArg₂ List.cons ?_ (List.map_congr_left fun i _ => ?_)
    · show d.toInt = d.toInt + (0 : ℕ) * 86400000000000
      omega
    · show (addDays d 1).toInt + i * 86400000000000 = d.toInt + (i + 1 : ℕ) * 86400000000000
      omega

theorem length_syntheticBars (rounds : ℕ) (d : Date) (price : K) :
    (syntheticBars rounds d price).length = rounds := by
  induction rounds generalizing d price with
  | zero => rfl
  | succ rounds ih => rw [syntheticBars, List.length_cons, ih]

/-- The loop ends after its rounds where the last step does not wrap. -/
theorem syntheticLoop_ends (rounds : ℕ) (price : K)
    (hin : ∀ i : ℕ, i < rounds → d.toInt + i * Audit.dayLength ≤ stop.toInt)
    (hout : stop.toInt < d.toInt + rounds * Audit.dayLength)
    (hclock : d.toInt + rounds * Audit.dayLength < 2 ^ 63) :
    syntheticLoop stop (rounds + 1) d price = some (syntheticBars rounds d price) := by
  induction rounds generalizing d price with
  | zero =>
    apply syntheticLoop_of_lt
    rw [Int64.lt_iff_toInt_lt]
    omega
  | succ rounds ih =>
    simp only [Audit.dayLength] at hin hout hclock ih
    have hnext : (addDays d 1).toInt = d.toInt + 86400000000000 :=
      addDays_exact (by simp only [Audit.dayLength]; omega)
    have hle : d ≤ stop := by
      have h := hin 0 (Nat.succ_pos rounds)
      rw [Int64.le_iff_toInt_le]
      omega
    have hin' : ∀ i : ℕ, i < rounds → (addDays d 1).toInt + i * 86400000000000 ≤ stop.toInt := by
      intro i hi
      have h := hin (i + 1) (by omega)
      omega
    rw [syntheticLoop_of_le hle, ih _ hin' (by omega) (by omega)]
    rfl

/-- A loop which has ended has stored a bar in each round that found the day in
the range. -/
theorem syntheticLoop_rounds {rounds : ℕ}
    (hin : ∀ i : ℕ, i < rounds → d.toInt + i * Audit.dayLength ≤ stop.toInt)
    (h : syntheticLoop stop fuel d price = some bars) :
    ∃ (fuel' : ℕ) (price' : K) (rest : List (OHLCV K)),
      syntheticLoop stop fuel' ((addDays · 1)^[rounds] d) price' = some rest ∧
      bars.length = rounds + rest.length := by
  induction rounds generalizing d price fuel bars with
  | zero => exact ⟨fuel, price, bars, h, (Nat.zero_add _).symm⟩
  | succ rounds ih =>
    simp only [Audit.dayLength] at hin ih
    have hle : d ≤ stop := by
      have h := hin 0 (Nat.succ_pos rounds)
      rw [Int64.le_iff_toInt_le]
      omega
    cases fuel with
    | zero => cases h
    | succ fuel =>
      rw [syntheticLoop_of_le hle] at h
      obtain ⟨tail, htail, rfl⟩ := Option.map_eq_some_iff.mp h
      have hin' : ∀ i : ℕ, i < rounds →
          (addDays d 1).toInt + i * 86400000000000 ≤ stop.toInt := by
        intro i hi
        have h := hin (i + 1) (by omega)
        have hstop := stop.toInt_lt
        have hnext : (addDays d 1).toInt = d.toInt + 86400000000000 :=
          addDays_exact (by simp only [Audit.dayLength]; omega)
        omega
      obtain ⟨fuel', price', rest, hrest, hlength⟩ := ih hin' htail
      refine ⟨fuel', price', rest, ?_, ?_⟩
      · rw [Function.iterate_succ_apply]
        exact hrest
      · rw [List.length_cons]
        omega

theorem toInt_iterate {rounds : ℕ} (h : d.toInt + rounds * Audit.dayLength < 2 ^ 63) :
    ((addDays · 1)^[rounds] d).toInt = d.toInt + rounds * Audit.dayLength := by
  induction rounds generalizing d with
  | zero => simp
  | succ rounds ih =>
    simp only [Audit.dayLength] at h ih ⊢
    have hnext : (addDays d 1).toInt = d.toInt + 86400000000000 :=
      addDays_exact (by simp only [Audit.dayLength]; omega)
    rw [Function.iterate_succ_apply, ih (by omega)]
    omega

/-- Nothing is past the last time point of the clock. -/
theorem syntheticLoop_endless (fuel : ℕ) (d : Date) (price : K) :
    syntheticLoop Int64.maxValue fuel d price = none := by
  induction fuel generalizing d price with
  | zero => rfl
  | succ fuel ih => rw [syntheticLoop_of_le d.le_maxValue, ih, Option.map_none]

/-! ### The days of a range -/

/-- A bar for each day of the range, in order. -/
structure DailyBars (range : DateRange) (bars : List (OHLCV K)) : Prop where
  length : (bars.length : ℤ) = (range.stop.toInt - range.start.toInt) / Audit.dayLength + 1
  dates : bars.map (·.date.toInt) =
    (List.range bars.length).map fun i : ℕ => range.start.toInt + i * Audit.dayLength
  increasing : (bars.map (·.date)).Pairwise (· < ·)
  within : ∀ bar ∈ bars, range.start ≤ bar.date ∧ bar.date ≤ range.stop

variable {range : DateRange}

omit [Double K] in
/-- Dates a day apart which stay below the end of the range are in order. -/
theorem DailyBars.of_dates
    (hlength : (bars.length : ℤ) = (range.stop.toInt - range.start.toInt) / Audit.dayLength + 1)
    (hdates : bars.map (·.date.toInt) =
      (List.range bars.length).map fun i : ℕ => range.start.toInt + i * Audit.dayLength) :
    DailyBars range bars := by
  have hday : Audit.dayLength = 86400000000000 := rfl
  refine ⟨hlength, hdates, ?_, ?_⟩
  · have hpairwise : (bars.map (·.date.toInt)).Pairwise (· < ·) := by
      rw [hdates, List.pairwise_map]
      refine List.pairwise_lt_range.imp fun {i j} hij => ?_
      rw [hday]
      omega
    rw [List.pairwise_map] at hpairwise ⊢
    exact hpairwise.imp fun h => Int64.lt_iff_toInt_lt.mpr h
  · intro bar hbar
    have hmem := List.mem_map_of_mem (f := fun b : OHLCV K => b.date.toInt) hbar
    rw [hdates] at hmem
    obtain ⟨i, hi, hdate⟩ := List.mem_map.mp hmem
    have hi' := List.mem_range.mp hi
    rw [hday] at hdate hlength
    rw [Int64.le_iff_toInt_le, Int64.le_iff_toInt_le]
    omega

theorem days_of_range (range : DateRange) :
    ∃ days : ℕ, (range.stop.toInt - range.start.toInt) / Audit.dayLength = days ∧
      range.stop.toInt < range.start.toInt + (days + 1) * Audit.dayLength ∧
      ∀ i : ℕ, i < days + 1 → range.start.toInt + i * Audit.dayLength ≤ range.stop.toInt := by
  have hordered : ¬range.stop.toInt < range.start.toInt :=
    mt Int64.lt_iff_toInt_lt.mpr range.ordered
  obtain ⟨days, hdays⟩ := Int.eq_ofNat_of_zero_le
    (Int.ediv_nonneg (sub_nonneg.mpr (not_lt.mp hordered)) dayLength_pos.le)
  refine ⟨days, hdays, ?_⟩
  simp only [Audit.dayLength] at hdays ⊢
  exact ⟨by omega, fun i hi => by omega⟩

/-- Where the clock wraps, one more bar follows those of the range. -/
theorem clock_of_dailyBars {ticker : Ticker} {interval : BarInterval}
    (hfetch : syntheticFetch fuel ticker interval range = some bars)
    (hbars : DailyBars range bars) :
    range.start.toInt +
      ((range.stop.toInt - range.start.toInt) / Audit.dayLength + 1) * Audit.dayLength < 2 ^ 63 := by
  obtain ⟨days, hdays, hout, hin⟩ := days_of_range range
  have hexact := hbars.length
  rw [hdays] at hexact ⊢
  by_contra hwrap
  obtain ⟨fuel', price, rest, hrest, hlength⟩ := syntheticLoop_rounds hin hfetch
  have hclock := range.stop.toInt_lt
  have hinside := hin days (Nat.lt_succ_self days)
  simp only [Audit.dayLength] at hwrap hout hinside
  have hlast : ((addDays · 1)^[days] range.start).toInt =
      range.start.toInt + days * 86400000000000 :=
    toInt_iterate (by simp only [Audit.dayLength]; omega)
  have hnext : ((addDays · 1)^[days + 1] range.start).toInt =
      range.start.toInt + days * 86400000000000 + 86400000000000 - 2 ^ 64 := by
    rw [Function.iterate_succ_apply', addDays_wraps (by simp only [Audit.dayLength]; omega), hlast]
    rfl
  have hagain : ∀ i : ℕ, i < 1 → ((addDays · 1)^[days + 1] range.start).toInt +
      i * Audit.dayLength ≤ range.stop.toInt := by
    intro i hi
    simp only [Audit.dayLength]
    omega
  obtain ⟨_, _, _, _, hmore⟩ := syntheticLoop_rounds hagain hrest
  omega

theorem syntheticFetch_daily_iff (ticker : Ticker) (interval : BarInterval) (range : DateRange) :
    (∃ fuel, ∃ bars : List (OHLCV K), syntheticFetch fuel ticker interval range = some bars ∧
      DailyBars range bars) ↔
    range.start.toInt +
      ((range.stop.toInt - range.start.toInt) / Audit.dayLength + 1) * Audit.dayLength < 2 ^ 63 := by
  constructor
  · intro h
    obtain ⟨fuel, bars, hfetch, hbars⟩ := h
    exact clock_of_dailyBars hfetch hbars
  · intro h
    obtain ⟨days, hdays, hout, hin⟩ := days_of_range range
    rw [hdays] at h
    have hloop := syntheticLoop_ends (days + 1) ((100 : ℕ) : K) hin
      (by push_cast; exact hout) (by push_cast; exact h)
    refine ⟨days + 2, _, hloop, DailyBars.of_dates ?_ ?_⟩
    · rw [length_syntheticBars, hdays]
      push_cast
      rfl
    · rw [length_syntheticBars]
      exact dates_syntheticBars _ _ (by push_cast; exact h)

/-! ### The last day of the clock -/

/-- `2262-04-11`, the last day which starts on the clock. -/
def lastDay : DateRange where
  start := Int64.ofInt 9223286400000000000
  stop := Int64.ofInt 9223286400000000000
  ordered := by decide +kernel

def testTicker : Ticker where
  symbol := "TEST"
  exchange := ""
  symbol_trimmed := by decide +kernel
  symbol_nonempty := by decide +kernel

/-- A second bar follows the only day of the range; up to the last time point of
the clock the loop does not end at all. -/
theorem lastDay_not_daily :
    (¬∃ fuel, ∃ bars : List (OHLCV ℝ),
      syntheticFetch fuel testTicker .daily lastDay = some bars ∧ DailyBars lastDay bars) ∧
    ∀ (range : DateRange) (fuel : ℕ), range.stop = Int64.maxValue →
      syntheticFetch (K := ℝ) fuel testTicker .daily range = none := by
  constructor
  · intro h
    obtain ⟨fuel, bars, hfetch, hbars⟩ := h
    have hclock := clock_of_dailyBars hfetch hbars
    have hstart : lastDay.start.toInt = 9223286400000000000 := by decide +kernel
    have hstop : lastDay.stop.toInt = 9223286400000000000 := by decide +kernel
    rw [hstart, hstop] at hclock
    simp only [Audit.dayLength] at hclock
    omega
  · intro range fuel hstop
    unfold syntheticFetch
    rw [hstop]
    exact syntheticLoop_endless fuel range.start _

end StandardTools.MarketData
