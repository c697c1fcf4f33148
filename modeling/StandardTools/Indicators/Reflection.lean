import StandardTools.Indicators.Ranges
import StandardTools.Indicators.WarmUp
import StandardTools.Lib.Smoothing

/-!
# The strength index of reflected closes

Behind the loop of `CalculateRSI` stand two Wilder averages, of the gains and of
the losses so far. Reflecting the closes turns every gain into a loss, so that
the averages change places. The index is then the complement of what it was,
except where both averages are zero: `RsiValue` answers 100 whenever the average
loss is zero.
-/

namespace StandardTools.Core

def OHLCV.reflected (k : ℝ) (bar : OHLCV ℝ) : OHLCV ℝ := { bar with close := k - bar.close }

end StandardTools.Core

namespace StandardTools.Indicators
open StandardTools.Core Lib

/-! ### The index from the gains and losses so far -/

def gainsOf {K : Type} [Double K] (bars : List (OHLCV K)) : List K :=
  (closeDiffs bars).map fun diff => (gainLoss diff).1

def lossesOf {K : Type} [Double K] (bars : List (OHLCV K)) : List K :=
  (closeDiffs bars).map fun diff => (gainLoss diff).2

/-- The index on the last of the bars. -/
noncomputable def rsiAt (period : ℕ) (bars : List (OHLCV ℝ)) : ℝ :=
  rsiValue (wilder period (gainsOf bars)) (wilder period (lossesOf bars))

theorem gainsOf_nonneg (bars : List (OHLCV ℝ)) : ∀ g ∈ gainsOf bars, 0 ≤ g :=
  List.forall_mem_map.mpr fun diff _ => (gainLoss_nonneg diff).1

theorem lossesOf_nonneg (bars : List (OHLCV ℝ)) : ∀ g ∈ lossesOf bars, 0 ≤ g :=
  List.forall_mem_map.mpr fun diff _ => (gainLoss_nonneg diff).2

theorem length_closeDiffs (bars : List (OHLCV ℝ)) : (closeDiffs bars).length = bars.length - 1 := by
  rw [closeDiffs, List.length_zipWith, List.length_tail, closesOf, List.length_map]
  omega

theorem closeDiffs_append (bars : List (OHLCV ℝ)) (prev bar : OHLCV ℝ) :
    closeDiffs (bars ++ [prev] ++ [bar]) =
      closeDiffs (bars ++ [prev]) ++ [bar.close - prev.close] := by
  have happend := zipWith_tail_append (fun next prev : ℝ => next - prev) (closesOf bars)
    prev.close bar.close
  simpa only [closeDiffs, closesOf, List.map_append, List.map_cons, List.map_nil] using happend

/-- The loop has read `seen`, whose last bar has the previous close. -/
structure RsiInvariant (period : ℕ) (seen : List (OHLCV ℝ)) (s : ℝ × ℝ × ℝ) : Prop where
  started : period + 1 ≤ seen.length
  last : ∃ bars prev, seen = bars ++ [prev] ∧ s.2.2 = prev.close
  gain_eq : s.1 = wilder period (gainsOf seen)
  loss_eq : s.2.1 = wilder period (lossesOf seen)

theorem rsiStep_eq {period : ℕ} {seen : List (OHLCV ℝ)} {s : ℝ × ℝ × ℝ}
    (hs : RsiInvariant period seen s) (bar : OHLCV ℝ) :
    (rsiStep period s bar).1.value = some (rsiAt period (seen ++ [bar])) ∧
      RsiInvariant period (seen ++ [bar]) (rsiStep period s bar).2 := by
  obtain ⟨bars, prev, hseen, hprev⟩ := hs.last
  have hstarted := hs.started
  have hdiffs : closeDiffs (seen ++ [bar]) = closeDiffs seen ++ [bar.close - s.2.2] := by
    rw [hseen, closeDiffs_append, hprev]
  have hlen : period ≤ (closeDiffs seen).length := by
    rw [length_closeDiffs]
    omega
  have hgain : wilder period (gainsOf (seen ++ [bar])) = (rsiStep period s bar).2.1 := by
    rw [gainsOf, hdiffs, List.map_append, List.map_singleton,
      wilder_append (by rwa [List.length_map]), ← gainsOf, ← hs.gain_eq]
    rfl
  have hloss : wilder period (lossesOf (seen ++ [bar])) = (rsiStep period s bar).2.2.1 := by
    rw [lossesOf, hdiffs, List.map_append, List.map_singleton,
      wilder_append (by rwa [List.length_map]), ← lossesOf, ← hs.loss_eq]
    rfl
  constructor
  · rw [rsiAt, hgain, hloss]
    rfl
  · refine ⟨?_, ⟨seen, bar, rfl, rfl⟩, hgain.symm, hloss.symm⟩
    rw [List.length_append]
    omega

theorem rsiSeeds_eq {series : List (OHLCV ℝ)} {period : ℕ} (h : period + 1 ≤ series.length) :
    rsiSeeds series period =
      (wilder period (gainsOf (series.take (period + 1))),
        wilder period (lossesOf (series.take (period + 1)))) := by
  have hlen : (closeDiffs (series.take (period + 1))).length = period := by
    rw [length_closeDiffs, List.length_take_of_le h]
    rfl
  have hgains : (gainsOf (series.take (period + 1))).length = period := by
    rw [gainsOf, List.length_map, hlen]
  have hlosses : (lossesOf (series.take (period + 1))).length = period := by
    rw [lossesOf, List.length_map, hlen]
  rw [rsiSeeds, take_closeDiffs, wilder_of_length_eq hgains, wilder_of_length_eq hlosses, ← mean_eq,
    ← mean_eq]
  simp only [gainsOf, lossesOf, List.map_map]
  rfl

theorem rsiValues_value {series : List (OHLCV ℝ)} {period i : ℕ} {x : ℝ}
    (h : HasValue (rsiValues series period) i x) :
    0 < period ∧ period ≤ i ∧ i < series.length ∧ x = rsiAt period (series.take (i + 1)) := by
  have hi : i < series.length := by
    obtain ⟨date, h⟩ := h
    rw [← (causal_rsiValues period).length_eq series]
    exact (List.getElem?_eq_some_iff.mp h).1
  rw [rsiValues_eq] at h
  split_ifs at h with hshort
  · exact absurd h (not_hasValue_noneBar series i x)
  · have hlt : period < series.length := by omega
    obtain ⟨j, rfl, date, hj⟩ := hasValue_warmup hlt.le h
    refine ⟨by omega, Nat.le_add_right period j, hi, ?_⟩
    have htake : series.take (period + 1) = series.take period ++ [series[period]] :=
      (List.take_append_getElem hlt).symm
    have hinit : RsiInvariant period (series.take (period + 1))
        ((rsiSeeds series period).1, (rsiSeeds series period).2, series[period].close) := by
      rw [rsiSeeds_eq hlt]
      refine ⟨?_, ⟨_, _, htake, rfl⟩, rfl, rfl⟩
      rw [List.length_take_of_le hlt]
    rw [List.drop_eq_getElem_cons hlt] at hj
    cases j with
    | zero =>
      cases hj
      rw [rsiAt, ← hinit.gain_eq, ← hinit.loss_eq]
    | succ j =>
      have hlen : (series.take (period + 1)).length + j + 1 = period + (j + 1) + 1 := by
        rw [List.length_take_of_le hlt]
        omega
      have hloop := scanLoop_invariant (I := RsiInvariant period)
        (P := fun seen iv => iv.value = some (rsiAt period seen))
        (fun _ bar _ _ _ hs => rsiStep_eq hs bar) (List.take_append_drop (period + 1) series).symm
        hinit j _ hj
      rw [hlen] at hloop
      exact Option.some.inj hloop

/-! ### Gains and losses change places -/

section Reflected
variable (k : ℝ)

theorem closeDiffs_reflected (bars : List (OHLCV ℝ)) :
    closeDiffs (bars.map (OHLCV.reflected k)) = (closeDiffs bars).map fun diff => -diff := by
  have hcloses : closesOf (bars.map (OHLCV.reflected k)) =
      (closesOf bars).map fun close => k - close := by
    simp only [closesOf, List.map_map, Function.comp_def, OHLCV.reflected]
  have hneg : ∀ next prev : ℝ, k - next - (k - prev) = -(next - prev) := fun next prev => by ring
  rw [closeDiffs, closeDiffs, hcloses]
  exact zipWith_tail_map (fun next prev : ℝ => next - prev) hneg (closesOf bars)

theorem gainLoss_neg (diff : ℝ) : gainLoss (-diff) = ((gainLoss diff).2, (gainLoss diff).1) := by
  unfold gainLoss
  rcases lt_trichotomy diff 0 with hneg | rfl | hpos
  · rw [if_pos (neg_nonneg.mpr hneg.le), if_neg (not_le.mpr hneg)]
  · simp
  · rw [if_neg (not_le.mpr (neg_neg_of_pos hpos)), if_pos hpos.le, neg_neg]

theorem gainsOf_reflected (bars : List (OHLCV ℝ)) :
    gainsOf (bars.map (OHLCV.reflected k)) = lossesOf bars := by
  rw [gainsOf, closeDiffs_reflected, List.map_map, lossesOf]
  exact List.map_congr_left fun diff _ => congrArg Prod.fst (gainLoss_neg diff)

theorem lossesOf_reflected (bars : List (OHLCV ℝ)) :
    lossesOf (bars.map (OHLCV.reflected k)) = gainsOf bars := by
  rw [lossesOf, closeDiffs_reflected, List.map_map, gainsOf]
  exact List.map_congr_left fun diff _ => congrArg Prod.snd (gainLoss_neg diff)

theorem rsiAt_reflected (period : ℕ) (bars : List (OHLCV ℝ)) :
    rsiAt period (bars.map (OHLCV.reflected k)) =
      rsiValue (wilder period (lossesOf bars)) (wilder period (gainsOf bars)) := by
  rw [rsiAt, gainsOf_reflected, lossesOf_reflected]

end Reflected

theorem rsiValue_zero_loss (gain : ℝ) : rsiValue gain 0 = 100 := by
  rw [rsiValue, if_pos (beq_self_eq_true 0)]
  norm_num

/-- The share of the gains in percent, if there is anything to share. -/
theorem rsiValue_eq {gain loss : ℝ} (hgain : 0 ≤ gain) (hloss : 0 ≤ loss)
    (hmove : ¬(gain = 0 ∧ loss = 0)) : rsiValue gain loss = 100 * gain / (gain + loss) := by
  by_cases hzero : loss = 0
  · have hne : gain ≠ 0 := fun h => hmove ⟨h, hzero⟩
    rw [hzero, rsiValue_zero_loss, add_zero, mul_div_assoc, div_self hne, mul_one]
  · have hpos : 0 < loss := lt_of_le_of_ne hloss (Ne.symm hzero)
    have hsum : gain + loss ≠ 0 := by positivity
    have hsum' : loss + gain ≠ 0 := by positivity
    rw [rsiValue, if_neg (by simpa using hzero)]
    push_cast
    field_simp
    ring

theorem rsiValue_swap {gain loss : ℝ} (hgain : 0 ≤ gain) (hloss : 0 ≤ loss)
    (hmove : ¬(gain = 0 ∧ loss = 0)) : rsiValue loss gain = 100 - rsiValue gain loss := by
  have hsum : gain + loss ≠ 0 := by
    intro h
    exact hmove ((add_eq_zero_iff_of_nonneg hgain hloss).mp h)
  rw [rsiValue_eq hgain hloss hmove, rsiValue_eq hloss hgain (fun h => hmove h.symm),
    add_comm loss gain]
  field_simp
  ring

/-! ### The bars on which nothing is left to compare -/

/-- The moves which the averages of the length `period` remember. -/
def rememberedMoves {K : Type} [Double K] (period : ℕ) (bars : List (OHLCV K)) : List K :=
  if period = 1 then (closeDiffs bars).drop (bars.length - 2) else closeDiffs bars

/-- No close which the averages remember differs from the close before it. -/
def Still (period : ℕ) (bars : List (OHLCV ℝ)) : Prop :=
  ∀ diff ∈ rememberedMoves period bars, diff = 0

theorem gainLoss_eq_zero_iff (diff : ℝ) :
    (gainLoss diff).1 = 0 ∧ (gainLoss diff).2 = 0 ↔ diff = 0 := by
  unfold gainLoss
  split_ifs with hdiff
  · exact and_iff_left rfl
  · rw [neg_eq_zero]
    exact and_iff_right rfl

theorem averages_eq_zero_iff {period : ℕ} (hp : 0 < period) {bars : List (OHLCV ℝ)}
    (hlen : period + 1 ≤ bars.length) :
    wilder period (gainsOf bars) = 0 ∧ wilder period (lossesOf bars) = 0 ↔ Still period bars := by
  have hdiffs := length_closeDiffs bars
  by_cases hone : period = 1
  · obtain ⟨diffs, diff, hsplit⟩ : ∃ diffs diff, closeDiffs bars = diffs ++ [diff] :=
      (List.eq_nil_or_concat' (closeDiffs bars)).resolve_left fun hnil => by
        rw [hnil, List.length_nil] at hdiffs
        omega
    have hdrop : rememberedMoves period bars = [diff] := by
      have hrest : bars.length - 2 = diffs.length := by
        rw [hsplit, List.length_append, List.length_singleton] at hdiffs
        omega
      rw [rememberedMoves, if_pos hone, hsplit, hrest, List.drop_left]
    simp only [gainsOf, lossesOf, hsplit, List.map_append, List.map_singleton, hone, wilder_one]
    rw [Still, ← hone, hdrop, List.forall_mem_singleton, gainLoss_eq_zero_iff]
  · have htwo : 2 ≤ period := by omega
    have hgains : period ≤ (gainsOf bars).length := by
      rw [gainsOf, List.length_map]
      omega
    have hlosses : period ≤ (lossesOf bars).length := by
      rw [lossesOf, List.length_map]
      omega
    rw [wilder_eq_zero_iff htwo hgains (gainsOf_nonneg bars),
      wilder_eq_zero_iff htwo hlosses (lossesOf_nonneg bars), Still, rememberedMoves, if_neg hone,
      gainsOf, lossesOf, List.forall_mem_map, List.forall_mem_map, ← forall₂_and]
    exact forall₂_congr fun diff _ => gainLoss_eq_zero_iff diff

/-! ### The index of the reflected series -/

theorem rsiAt_complement (k : ℝ) {period : ℕ} (hp : 0 < period) {bars : List (OHLCV ℝ)}
    (hlen : period + 1 ≤ bars.length) (hmoved : ¬Still period bars) :
    rsiAt period (bars.map (OHLCV.reflected k)) = 100 - rsiAt period bars := by
  have hgains : period ≤ (gainsOf bars).length := by
    rw [gainsOf, List.length_map, length_closeDiffs]
    omega
  have hlosses : period ≤ (lossesOf bars).length := by
    rw [lossesOf, List.length_map, length_closeDiffs]
    omega
  rw [← averages_eq_zero_iff hp hlen] at hmoved
  rw [rsiAt_reflected, rsiAt]
  exact rsiValue_swap (wilder_nonneg hgains (gainsOf_nonneg bars))
    (wilder_nonneg hlosses (lossesOf_nonneg bars)) hmoved

theorem rsiAt_still (k : ℝ) {period : ℕ} (hp : 0 < period) {bars : List (OHLCV ℝ)}
    (hlen : period + 1 ≤ bars.length) (hstill : Still period bars) :
    rsiAt period bars = 100 ∧ rsiAt period (bars.map (OHLCV.reflected k)) = 100 := by
  obtain ⟨hgain, hloss⟩ := (averages_eq_zero_iff hp hlen).mpr hstill
  rw [rsiAt_reflected, rsiAt, hgain, hloss]
  exact ⟨rsiValue_zero_loss 0, rsiValue_zero_loss 0⟩

end StandardTools.Indicators
