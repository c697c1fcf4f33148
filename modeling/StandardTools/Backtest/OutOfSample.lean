import StandardTools.Backtest.Compounding

/-!
# Selection is out of sample (`backtest/walk_forward.cpp:64-246`)

Two runs which differ in the series alone, and there only behind the first `m`
bars, cannot tell a window within these bars apart: they tune it to the same
parameters, and they draw the same equity for it in the combined curve.
-/

namespace StandardTools.Backtest
open StandardTools.Core StandardTools.Lib

theorem slice_congr {α : Type} {l l' : List α} {m start n : ℕ} (h : l.take m = l'.take m)
    (hle : start + n ≤ m) : (l.drop start).take n = (l'.drop start).take n := by
  have hslice : ∀ l : List α, (l.drop start).take n = ((l.take m).drop start).take n := by
    intro l
    rw [List.drop_take, List.take_take, Nat.min_eq_left (by omega)]
  rw [hslice l, hslice l', h]

variable {K : Type} [Double K]

namespace WalkForwardOptimizer

/-- The same request, but for the series behind bar `m`. -/
structure AgreeUpTo (m : ℕ) (w w' : WalkForwardOptimizer K) : Prop where
  request : w'.toWalkForwardRequest = { w.toWalkForwardRequest with series := w'.series }
  series : w.series.take m = w'.series.take m

variable {m : ℕ} {w w' : WalkForwardOptimizer K}

theorem AgreeUpTo.optimize_eq (h : AgreeUpTo m w w') (combinations : List (ParamMap K))
    {start : ℕ} (hm : start + w.trainSize ≤ m) :
    optimize w'.strategy (w'.trainBars start) combinations w'.config w'.metric =
      optimize w.strategy (w.trainBars start) combinations w.config w.metric := by
  rw [trainBars, trainBars, slice_congr h.series hm, h.request]

theorem AgreeUpTo.tested_eq (h : AgreeUpTo m w w') (combinations : List (ParamMap K))
    {start : ℕ} (hm : start + w.trainSize + w.testSize ≤ m) :
    w'.tested combinations start = w.tested combinations start := by
  unfold tested
  rw [h.optimize_eq combinations (by omega), testBars, testBars, slice_congr h.series hm, h.request]

theorem curve_length {combinations : List (ParamMap K)} {k : ℕ} (hk : k < w.windowCount)
    {t : Tested K} (ht : w.tested combinations (k * w.testSize) = .ok t) :
    t.result.equityCurve.length = w.testSize := by
  have hdates := congrArg List.length (runNamed_dates (w.tested_eq_ok.mp ht).2)
  rw [List.length_map, List.length_map, testBars_length (window_fits hk)] at hdates
  exact hdates

/-- The first `n` windows fill the first `n * testSize` points of the stitched curve. -/
theorem stitch_take {tests : List (Tested K)} (h : w.outOfSample = .ok tests) {n : ℕ}
    (hn : n ≤ tests.length) :
    (stitch w.config (tests.map (·.result))).equityCurve.take (n * w.testSize) =
      (stitch w.config ((tests.take n).map (·.result))).equityCurve := by
  obtain ⟨combinations, -, hcount, htests⟩ := outOfSample_eq_ok.mp h
  have hpoints : ∀ r ∈ (tests.take n).map (·.result), r.equityCurve.length = w.testSize := by
    intro r hr
    obtain ⟨t, ht, rfl⟩ := List.mem_map.mp hr
    obtain ⟨k, hk, rfl⟩ := List.mem_iff_getElem.mp (List.mem_of_mem_take ht)
    exact curve_length (hcount ▸ hk) (htests k hk)
  have hlength : (stitch w.config ((tests.take n).map (·.result))).equityCurve.length =
      n * w.testSize := by
    have hdates := congrArg List.length (stitch_dates w.config ((tests.take n).map (·.result)))
    rw [List.length_map, List.length_map, List.length_flatMap, List.map_congr_left hpoints,
      List.map_const', List.sum_replicate, List.length_map, List.length_take,
      Nat.min_eq_left hn] at hdates
    exact hdates
  have hprefix := stitch_extends w.config ((tests.take n).map (·.result))
    ((tests.drop n).map (·.result))
  rw [← List.map_append, List.take_append_drop, List.prefix_iff_eq_take, hlength] at hprefix
  exact hprefix.symm

theorem AgreeUpTo.sizes (h : AgreeUpTo m w w') :
    w'.trainSize = w.trainSize ∧ w'.testSize = w.testSize ∧ w'.config = w.config := by
  rw [h.request]
  exact ⟨rfl, rfl, rfl⟩

theorem AgreeUpTo.lt_windowCount (h : AgreeUpTo m w w') {k : ℕ} (hk : k < w.windowCount)
    (hm : k * w.testSize + w.trainSize + w.testSize ≤ m) : k < w'.windowCount := by
  obtain ⟨htrain, htest, -⟩ := h.sizes
  have hlength := congrArg List.length h.series
  have hpos := w.test_pos
  rw [lt_windowCount_iff] at hk ⊢
  rw [List.length_take, List.length_take] at hlength
  rw [htrain, htest]
  omega

/-- Both runs try the same combinations on the window's training slice. -/
theorem AgreeUpTo.params_eq (h : AgreeUpTo m w w') {tests tests' : List (Tested K)}
    (htests : w.outOfSample = .ok tests) (htests' : w'.outOfSample = .ok tests') {k : ℕ}
    (hk : k < tests.length) (hk' : k < tests'.length) (hm : k * w.testSize + w.trainSize ≤ m) :
    tests'[k].params = tests[k].params := by
  obtain ⟨combinations, hgrid, -, hall⟩ := outOfSample_eq_ok.mp htests
  obtain ⟨combinations', hgrid', -, hall'⟩ := outOfSample_eq_ok.mp htests'
  obtain ⟨-, htest, -⟩ := h.sizes
  rw [h.request, hgrid] at hgrid'
  cases hgrid'
  have hparams := (w.tested_eq_ok.mp (hall k hk)).1
  have hparams' := (w'.tested_eq_ok.mp (hall' k hk')).1
  rw [htest, h.optimize_eq combinations hm, hparams] at hparams'
  exact (Except.ok.inj hparams').symm

theorem AgreeUpTo.result_eq (h : AgreeUpTo m w w') {tests tests' : List (Tested K)}
    (htests : w.outOfSample = .ok tests) (htests' : w'.outOfSample = .ok tests') {k : ℕ}
    (hk : k < tests.length) (hk' : k < tests'.length)
    (hm : k * w.testSize + w.trainSize + w.testSize ≤ m) : tests'[k] = tests[k] := by
  obtain ⟨combinations, hgrid, -, hall⟩ := outOfSample_eq_ok.mp htests
  obtain ⟨combinations', hgrid', -, hall'⟩ := outOfSample_eq_ok.mp htests'
  obtain ⟨-, htest, -⟩ := h.sizes
  rw [h.request, hgrid] at hgrid'
  cases hgrid'
  have htested := hall' k hk'
  rw [htest, h.tested_eq combinations hm, hall k hk] at htested
  exact (Except.ok.inj htested).symm

/-- A window within the common bars, and all before it, draw the same points. -/
theorem AgreeUpTo.stitch_take_eq (h : AgreeUpTo m w w') {tests tests' : List (Tested K)}
    (htests : w.outOfSample = .ok tests) (htests' : w'.outOfSample = .ok tests') {k : ℕ}
    (hk : k < tests.length) (hk' : k < tests'.length)
    (hm : k * w.testSize + w.trainSize + w.testSize ≤ m) :
    (stitch w.config (tests.map (·.result))).equityCurve.take ((k + 1) * w.testSize) =
      (stitch w'.config (tests'.map (·.result))).equityCurve.take ((k + 1) * w.testSize) := by
  obtain ⟨-, htest, hconfig⟩ := h.sizes
  have hsame : tests'.take (k + 1) = tests.take (k + 1) := by
    refine List.ext_getElem (by rw [List.length_take, List.length_take]; omega) ?_
    intro j hj hj'
    rw [List.length_take] at hj hj'
    have hle : j * w.testSize ≤ k * w.testSize := Nat.mul_le_mul_right _ (by omega)
    rw [List.getElem_take, List.getElem_take]
    exact h.result_eq htests htests' (by omega) (by omega) (by omega)
  have htake' := stitch_take htests' (Nat.succ_le_of_lt hk')
  rw [htest, Nat.succ_eq_add_one] at htake'
  rw [stitch_take htests (Nat.succ_le_of_lt hk), htake', hsame, hconfig]

end WalkForwardOptimizer

theorem walk_forward_out_of_sample (w w' : WalkForwardOptimizer K) (sort sort' : DateSort K)
    (m : ℕ) (result result' : WalkForwardResult K)
    (hagree : WalkForwardOptimizer.AgreeUpTo m w w')
    (hdates : w.series.Pairwise fun a b => a.date < b.date)
    (hdates' : w'.series.Pairwise fun a b => a.date < b.date)
    (hrun : w.run sort = .ok result) (hrun' : w'.run sort' = .ok result') (k : ℕ) :
    (k * w.testSize + w.trainSize ≤ m → ∀ p p', result.selectedParams[k]? = some p →
      result'.selectedParams[k]? = some p' → p.params = p'.params) ∧
    (k * w.testSize + w.trainSize + w.testSize ≤ m → k < result.selectedParams.length →
      k < result'.selectedParams.length ∧
      ((result.equityCurve.drop (k * w.testSize)).take w.testSize).map (·.date) =
        ((w.series.drop (k * w.testSize + w.trainSize)).take w.testSize).map (·.date) ∧
      (result.equityCurve.drop (k * w.testSize)).take w.testSize =
        (result'.equityCurve.drop (k * w.testSize)).take w.testSize) := by
  obtain ⟨tests, htests, hcombine⟩ := WalkForwardOptimizer.run_eq_ok hrun
  obtain ⟨tests', htests', hcombine'⟩ := WalkForwardOptimizer.run_eq_ok hrun'
  obtain ⟨hparams, hcurve, hpoints⟩ :=
    WalkForwardOptimizer.combineResults_tests htests hcombine hdates
  obtain ⟨hparams', hcurve', -⟩ :=
    WalkForwardOptimizer.combineResults_tests htests' hcombine' hdates'
  obtain ⟨-, -, hcount, -⟩ := WalkForwardOptimizer.outOfSample_eq_ok.mp htests
  obtain ⟨-, -, hcount', -⟩ := WalkForwardOptimizer.outOfSample_eq_ok.mp htests'
  have hsize := congrArg List.length hparams
  have hsize' := congrArg List.length hparams'
  rw [List.length_map, List.length_map] at hsize hsize'
  constructor
  · intro hm p p' hp hp'
    obtain ⟨hk, rfl⟩ := List.getElem?_eq_some_iff.mp hp
    obtain ⟨hk', rfl⟩ := List.getElem?_eq_some_iff.mp hp'
    have hselected := List.getElem_of_eq hparams (by rw [List.length_map]; exact hk)
    have hselected' := List.getElem_of_eq hparams' (by rw [List.length_map]; exact hk')
    rw [List.getElem_map, List.getElem_map] at hselected hselected'
    rw [hselected, hselected']
    exact (hagree.params_eq htests htests' (hsize ▸ hk) (hsize' ▸ hk') hm).symm
  · intro hm hk
    have hwindow : k < w.windowCount := by omega
    have hwindow' := hagree.lt_windowCount hwindow hm
    have hsucc : k * w.testSize + w.testSize ≤ (k + 1) * w.testSize := (Nat.succ_mul k _).ge
    refine ⟨by omega, ?_, ?_⟩
    · have hfits : k * w.testSize + w.testSize ≤ w.windowCount * w.testSize :=
        hsucc.trans (Nat.mul_le_mul_right _ hwindow)
      rw [List.map_take, List.map_drop, hpoints, ← List.map_drop, ← List.map_take, List.drop_take,
        List.take_take, List.drop_drop, Nat.min_eq_left (by omega), Nat.add_comm]
    · have htake := hagree.stitch_take_eq htests htests' (by omega) (by omega) hm
      rw [← hcurve, ← hcurve'] at htake
      exact slice_congr htake hsucc

/-- Another last close is behind the first window, and behind what the second is
tuned on. -/
theorem walk_forward_out_of_sample_last_close :
    ∃ result result', (twoWindowsTo 2).run DateSort.merge = .ok result ∧
      (twoWindowsTo 3).run DateSort.merge = .ok result' ∧
      (∀ p p', result.selectedParams[1]? = some p → result'.selectedParams[1]? = some p' →
        p.params = p'.params) ∧
      (0 < result.selectedParams.length →
        (result.equityCurve.drop 0).take 2 = (result'.equityCurve.drop 0).take 2) := by
  obtain ⟨-, -, result, -, -, hrun, -⟩ := twoWindowsTo_run 2
  obtain ⟨-, -, result', -, -, hrun', -⟩ := twoWindowsTo_run 3
  have hagree : WalkForwardOptimizer.AgreeUpTo 3 (twoWindowsTo 2) (twoWindowsTo 3) := ⟨rfl, rfl⟩
  have hdates : ∀ last, (twoWindowsTo last).series.Pairwise fun a b => a.date < b.date := by
    intro last
    simp [twoWindowsTo]
  have h := walk_forward_out_of_sample (twoWindowsTo 2) (twoWindowsTo 3) DateSort.merge
    DateSort.merge 3 result result' hagree (hdates 2) (hdates 3) hrun hrun'
  refine ⟨result, result', hrun, hrun', (h 1).1 (by decide), fun hlength => ?_⟩
  exact ((h 0).2 (by decide) hlength).2.2

end StandardTools.Backtest
