import Mathlib.Data.Nat.Init
import StandardTools.Backtest.Strategy
import StandardTools.Indicators.WarmUp

/-!
# Crossover signals (`backtest/strategy.cpp:43-113`, `181-199`)

A signal compares two consecutive pairs, the first strictly and the second by a
negated strict comparison. Between two signals the fast line may touch the slow
one as often as it likes; as soon as it passes to the other side, the previous
pair was not there yet, so the signal is repeated or turned.
-/

namespace StandardTools.Backtest
open StandardTools.Core StandardTools.Lib Indicators

variable {K : Type}

/-- The last signal up to bar `i` which is not `hold`. -/
def LastSignal (signals : List SignalResult) (i : ℕ) (s : Signal) : Prop :=
  s ≠ .hold ∧ ∃ j ≤ i, signals[j]?.map (·.signal) = some s ∧
    ∀ k, j < k → k ≤ i → signals[k]?.map (·.signal) = some .hold

/-- From the first bar on at which both lines have a value, both always have one. -/
def StartsOnce (n : ℕ) (fast slow : List (IndicatorValue K)) : Prop :=
  ∀ i j, i ≤ j → j < n → (valueAt fast i).isSome ∧ (valueAt slow i).isSome →
    (valueAt fast j).isSome ∧ (valueAt slow j).isSome

section Signals
variable [Double K] {fast slow : List (IndicatorValue K)} {i : ℕ}

/-! ### One signal -/

theorem crossoverSignal_buy (h : crossoverSignal fast slow i = .buy) :
    ∃ f sl, valueAt fast i = some f ∧ valueAt slow i = some sl ∧ sl < f := by
  unfold crossoverSignal at h
  split at h
  · next f sl hf hsl =>
    refine ⟨f, sl, hf, hsl, ?_⟩
    split_ifs at h with h0 hlt
    · exact hlt
    · split at h
      · split_ifs at h with hcross
        exact hcross.1
      · cases h
  · cases h

theorem crossoverSignal_sell (h : crossoverSignal fast slow i = .sell) :
    ∃ f sl, valueAt fast i = some f ∧ valueAt slow i = some sl ∧ f < sl := by
  unfold crossoverSignal at h
  split at h
  · next f sl hf hsl =>
    refine ⟨f, sl, hf, hsl, ?_⟩
    split_ifs at h with h0 hlt hgt
    · exact hgt
    · split at h
      · split_ifs at h with hcross hcross'
        exact hcross'.1
      · cases h
  · cases h

/-- Where nothing is signalled, no side is entered. -/
theorem crossoverSignal_hold {pf ps f sl : K} (hpf : valueAt fast i = some pf)
    (hps : valueAt slow i = some ps) (hf : valueAt fast (i + 1) = some f)
    (hsl : valueAt slow (i + 1) = some sl) (h : crossoverSignal fast slow (i + 1) = .hold) :
    (sl < f → ps < pf) ∧ (f < sl → pf < ps) := by
  unfold crossoverSignal at h
  rw [hf, hsl, Nat.add_sub_cancel, hpf, hps] at h
  simp only [Nat.succ_ne_zero, if_false] at h
  split_ifs at h with hbuy hsell
  exact ⟨fun hlt => by_contra fun hn => hbuy ⟨hlt, hn⟩,
    fun hlt => by_contra fun hn => hsell ⟨hlt, hn⟩⟩

/-! ### The signals of a series -/

theorem signal_eq {series : List (OHLCV K)} {s : Signal}
    (h : (crossoverSignals series fast slow)[i]?.map (·.signal) = some s) :
    i < series.length ∧ crossoverSignal fast slow i = s := by
  rw [crossoverSignals, List.getElem?_mapIdx, Option.map_map] at h
  obtain ⟨bar, hbar, hs⟩ := Option.map_eq_some_iff.mp h
  exact ⟨(List.getElem?_eq_some_iff.mp hbar).1, hs⟩

/-- Both values are there and the fast one has not gone below the slow one. -/
def NotBelow (fast slow : List (IndicatorValue K)) (i : ℕ) : Prop :=
  ∃ f sl, valueAt fast i = some f ∧ valueAt slow i = some sl ∧ ¬f < sl

/-- Both values are there and the fast one has not gone above the slow one. -/
def NotAbove (fast slow : List (IndicatorValue K)) (i : ℕ) : Prop :=
  ∃ f sl, valueAt fast i = some f ∧ valueAt slow i = some sl ∧ ¬sl < f

/-- A round without a signal keeps either. -/
theorem keeps_side {series : List (OHLCV K)} (hshape : StartsOnce series.length fast slow)
    (h : (crossoverSignals series fast slow)[i + 1]?.map (·.signal) = some .hold) :
    (NotBelow fast slow i → NotBelow fast slow (i + 1)) ∧
      (NotAbove fast slow i → NotAbove fast slow (i + 1)) := by
  obtain ⟨hlt, hhold⟩ := signal_eq h
  have hnext {pf ps : K} (hpf : valueAt fast i = some pf) (hps : valueAt slow i = some ps) :
      ∃ f sl, valueAt fast (i + 1) = some f ∧ valueAt slow (i + 1) = some sl := by
    obtain ⟨hf, hsl⟩ := hshape i (i + 1) (Nat.le_succ i) hlt (by simp [hpf, hps])
    obtain ⟨f, hf⟩ := Option.isSome_iff_exists.mp hf
    obtain ⟨sl, hsl⟩ := Option.isSome_iff_exists.mp hsl
    exact ⟨f, sl, hf, hsl⟩
  constructor
  · rintro ⟨pf, ps, hpf, hps, hside⟩
    obtain ⟨f, sl, hf, hsl⟩ := hnext hpf hps
    exact ⟨f, sl, hf, hsl, mt (crossoverSignal_hold hpf hps hf hsl hhold).2 hside⟩
  · rintro ⟨pf, ps, hpf, hps, hside⟩
    obtain ⟨f, sl, hf, hsl⟩ := hnext hpf hps
    exact ⟨f, sl, hf, hsl, mt (crossoverSignal_hold hpf hps hf hsl hhold).1 hside⟩

/-- NaNs included: it is enough that no number is both below and above another. -/
theorem lastSignal_side {series : List (OHLCV K)} (hasymm : ∀ a b : K, a < b → ¬b < a)
    (hshape : StartsOnce series.length fast slow) {s : Signal}
    (h : LastSignal (crossoverSignals series fast slow) i s) :
    (s = .buy → NotBelow fast slow i) ∧ (s = .sell → NotAbove fast slow i) := by
  obtain ⟨-, j, hji, hs, hhold⟩ := h
  induction i, hji using Nat.le_induction with
  | base =>
    obtain ⟨-, hs⟩ := signal_eq hs
    constructor
    · rintro rfl
      obtain ⟨f, sl, hf, hsl, hlt⟩ := crossoverSignal_buy hs
      exact ⟨f, sl, hf, hsl, hasymm sl f hlt⟩
    · rintro rfl
      obtain ⟨f, sl, hf, hsl, hlt⟩ := crossoverSignal_sell hs
      exact ⟨f, sl, hf, hsl, hasymm f sl hlt⟩
  | succ i hji ih =>
    have hside := ih fun k hjk hki => hhold k hjk (Nat.le_succ_of_le hki)
    have hkeeps := keeps_side hshape (hhold (i + 1) (Nat.lt_succ_of_le hji) le_rfl)
    exact ⟨fun hbuy => hkeeps.1 (hside.1 hbuy), fun hsell => hkeeps.2 (hside.2 hsell)⟩

end Signals

/-! ### The two strategies -/

/-- Lines which start at some bar and go on to the end of the series. -/
theorem startsOnce_of_aligned {series : List (OHLCV K)} {fast slow : List (IndicatorValue K)}
    {p q : ℕ} (hfast : Aligned series fast fun i => p ≤ i)
    (hslow : Aligned series slow fun i => q ≤ i) : StartsOnce series.length fast slow := by
  have hiff {values : List (IndicatorValue K)} {p i : ℕ}
      (h : Aligned series values fun i => p ≤ i) (hi : i < series.length) :
      (valueAt values i).isSome ↔ p ≤ i := by
    have hlt : i < values.length := by
      rw [h.length_eq]
      exact hi
    rw [valueAt, List.getElem?_eq_getElem hlt, Option.bind_some]
    exact h.isSome_iff i _ (List.getElem?_eq_getElem hlt)
  intro i j hij hj hi
  rw [hiff hfast (by omega), hiff hslow (by omega)] at hi
  rw [hiff hfast hj, hiff hslow hj]
  omega

theorem sma_aligned {series : List (OHLCV ℝ)} {params : ParamMap ℝ} {r : IndicatorResult ℝ}
    (h : calculate "sma" series params = .ok r) :
    ∃ p, Aligned series r.values fun i => p ≤ i := by
  have hcall := h
  rw [calculate_sma, calculateSMA] at hcall
  obtain ⟨period, hperiod, -⟩ := bind_eq_ok.mp hcall
  obtain ⟨r', hr', haligned, -⟩ := yields_sma series (usesParam_of_ok hperiod)
  obtain rfl : r = r' := Except.ok.inj (h.symm.trans hr')
  exact ⟨period - 1, haligned.congr fun i _ => by omega⟩

theorem macd_aligned {series : List (OHLCV ℝ)} {params : ParamMap ℝ} {r : IndicatorResult ℝ}
    (h : calculate "macd" series params = .ok r) :
    ∃ line p q, r.extra "signal" = some line ∧ (Aligned series r.values fun i => p ≤ i) ∧
      Aligned series line fun i => q ≤ i := by
  rw [calculate_macd, calculateMACD] at h
  obtain ⟨fast, hfast, h⟩ := bind_eq_ok.mp h
  obtain ⟨slow, hslow, h⟩ := bind_eq_ok.mp h
  obtain ⟨signal, hsignal, h⟩ := bind_eq_ok.mp h
  cases h
  obtain ⟨hline, haverage, -⟩ := aligned_macdSeries series
    ((usesParam_of_ok hfast).pos (by decide)) ((usesParam_of_ok hslow).pos (by decide))
    ((usesParam_of_ok hsignal).pos (by decide))
  refine ⟨(macdSeries series fast slow signal).2.1, max fast slow - 1,
    max fast slow + signal - 2, by simp [IndicatorResult.extra], ?_, ?_⟩
  · exact hline.congr fun i _ => by omega
  · exact haverage.congr fun i _ => by omega

/-- The last signal names a side which the fast line has not left since. -/
def Tracks (signals : List SignalResult) (fast slow : List (IndicatorValue ℝ)) : Prop :=
  ∀ i s, LastSignal signals i s → ∃ f sl, valueAt fast i = some f ∧ valueAt slow i = some sl ∧
    (s = .buy → sl ≤ f) ∧ (s = .sell → f ≤ sl)

theorem tracks_of_startsOnce {series : List (OHLCV ℝ)} {fast slow : List (IndicatorValue ℝ)}
    (hshape : StartsOnce series.length fast slow) :
    Tracks (crossoverSignals series fast slow) fast slow := by
  intro i s h
  have hside := lastSignal_side (fun _ _ => lt_asymm) hshape h
  obtain ⟨hs, -⟩ := h
  cases s with
  | hold => exact absurd rfl hs
  | buy =>
    obtain ⟨f, sl, hf, hsl, hlt⟩ := hside.1 rfl
    exact ⟨f, sl, hf, hsl, fun _ => not_lt.mp hlt, nofun⟩
  | sell =>
    obtain ⟨f, sl, hf, hsl, hlt⟩ := hside.2 rfl
    exact ⟨f, sl, hf, hsl, nofun, fun _ => not_lt.mp hlt⟩

/-- The signals track the side of the fast line, for any two lines which start
once, and so for those of the two strategies. -/
theorem crossover_tracks (series : List (OHLCV ℝ)) :
    (∀ fast slow : List (IndicatorValue ℝ), StartsOnce series.length fast slow →
      Tracks (crossoverSignals series fast slow) fast slow) ∧
    (∀ params signals, smaCrossover.signals series params = .ok signals →
      ∃ fast slow, calculate "sma" series
          (params.set "period" (paramOrDefault params "fast" ((10 : ℕ) : ℝ))) = .ok fast ∧
        calculate "sma" series
          (params.set "period" (paramOrDefault params "slow" ((30 : ℕ) : ℝ))) = .ok slow ∧
        Tracks signals fast.values slow.values) ∧
    (∀ params signals, macdCrossover.signals series params = .ok signals →
      ∃ r line, calculate "macd" series params = .ok r ∧ r.extra "signal" = some line ∧
        Tracks signals r.values line) := by
  refine ⟨fun fast slow => tracks_of_startsOnce, fun params signals h => ?_,
    fun params signals h => ?_⟩
  · obtain ⟨fast, hfast, h⟩ := bind_eq_ok.mp h
    obtain ⟨slow, hslow, h⟩ := bind_eq_ok.mp h
    cases h
    obtain ⟨p, hp⟩ := sma_aligned hfast
    obtain ⟨q, hq⟩ := sma_aligned hslow
    exact ⟨fast, slow, hfast, hslow, tracks_of_startsOnce (startsOnce_of_aligned hp hq)⟩
  · obtain ⟨r, hr, h⟩ := bind_eq_ok.mp h
    obtain ⟨line, p, q, hline, hp, hq⟩ := macd_aligned hr
    rw [hline] at h
    cases h
    exact ⟨r, line, hr, hline, tracks_of_startsOnce (startsOnce_of_aligned hp hq)⟩

/-- Above, touching and above again on three bars: the second signal repeats the first. -/
theorem crossover_tracks_touching :
    Tracks (crossoverSignals (List.replicate 3 (⟨0, 1, 1, 1, 1, 1⟩ : OHLCV ℝ))
      [⟨0, some 2⟩, ⟨0, some 1⟩, ⟨0, some 2⟩] (List.replicate 3 ⟨0, some 1⟩))
      [⟨0, some 2⟩, ⟨0, some 1⟩, ⟨0, some 2⟩] (List.replicate 3 ⟨0, some 1⟩) := by
  refine (crossover_tracks _).1 _ _ fun i j hij hj _ => ?_
  match j, hj with
  | 0, _ => exact ⟨rfl, rfl⟩
  | 1, _ => exact ⟨rfl, rfl⟩
  | 2, _ => exact ⟨rfl, rfl⟩

end StandardTools.Backtest
