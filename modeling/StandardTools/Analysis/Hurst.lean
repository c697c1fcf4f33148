import Mathlib.Algebra.BigOperators.Ring.List
import Mathlib.Analysis.SpecialFunctions.Pow.Real
import StandardTools.Analysis.Observations
import StandardTools.Lib.Except
import StandardTools.Lib.PartialSums

/-!
# The Hurst exponent (`analysis/calculator.cpp:151-194`, `402-474`)

Range and standard deviation of a chunk are made of its deviations from the
mean, which do not see where the returns begin and scale with them; their
quotient stays. Another unit of the prices cancels in the returns, and a power
of the prices scales them.
-/

namespace StandardTools.Analysis
open StandardTools.Core Lib

/-! ### One chunk -/

noncomputable def deviations (chunk : List ℝ) : List ℝ := chunk.map fun r => r - mean chunk

theorem sum_deviations (chunk : List ℝ) : (deviations chunk).sum = 0 := by
  rw [deviations, ← sumOver_eq_sum, sumOver_eq, mean_eq]
  exact sum_deviation _

theorem deviations_affine (a b : ℝ) (chunk : List ℝ) :
    deviations (chunk.map fun r => a * r + b) = (deviations chunk).map (a * ·) := by
  unfold deviations
  rw [mean_map, mean_eq]
  refine List.ext_getElem (by simp) fun i hi _ => ?_
  rw [List.length_map, List.length_map] at hi
  simp only [List.getElem_map]
  exact deviation_affine a b (fun j : Fin chunk.length => chunk[j]) ⟨i, hi⟩

theorem lowest_nonpos : (Double.lowest : ℝ) ≤ 0 :=
  neg_nonpos.mpr (sub_nonneg.mpr (pow_le_pow_right₀ one_le_two (by decide)))

/-- The locals of the loop over a chunk. -/
theorem foldl_deviationStep (m : ℝ) (chunk : List ℝ) (sum high low : ℝ) :
    (chunk.foldl (deviationStep m) (sum, high, low)).2 =
      ((partialSums sum (chunk.map fun r => r - m)).foldl max high,
        (partialSums sum (chunk.map fun r => r - m)).foldl min low) := by
  induction chunk generalizing sum high low with
  | nil => rfl
  | cons r chunk ih =>
    have hstep : deviationStep m (sum, high, low) r =
        (sum + (r - m), max high (sum + (r - m)), min low (sum + (r - m))) := by
      rw [deviationStep, max_def_lt, min_comm, min_def_lt]
    rw [List.foldl_cons, hstep, ih]
    rfl

theorem chunkRange_eq {chunk : List ℝ} (hne : chunk ≠ []) :
    chunkRange chunk = excursion (deviations chunk) := by
  have hdeviations : deviations chunk ≠ [] := mt List.map_eq_nil_iff.mp hne
  unfold chunkRange
  dsimp only
  rw [foldl_deviationStep, ← deviations]
  exact excursion_eq hdeviations (sum_deviations chunk) lowest_nonpos (neg_nonneg.mpr lowest_nonpos)

theorem chunkStd_eq (chunk : List ℝ) : chunkStd chunk =
    Real.sqrt (((deviations chunk).map fun d => d * d).sum / (chunk.length : ℝ)) := by
  unfold chunkStd
  dsimp only
  rw [sumOver_eq_sum, deviations, List.map_map]
  rfl

/-- A chunk has a deviation exactly when it is not constant. -/
theorem chunkStd_pos_iff (chunk : List ℝ) :
    0 < chunkStd chunk ↔ ∃ x ∈ chunk, ∃ y ∈ chunk, x ≠ y := by
  have hscatter : chunkStd chunk = Real.sqrt (scatter (fun i : Fin chunk.length => chunk[i])
      (fun i => chunk[i]) / (chunk.length : ℝ)) := by
    rw [← sumOver_squares]
    rfl
  rw [hscatter, Real.sqrt_pos]
  constructor
  · intro h
    by_contra hconst
    push Not at hconst
    have hzero := (scatter_self_eq_zero_iff_const fun i : Fin chunk.length => chunk[i]).mpr
      fun i j => hconst _ (List.getElem_mem i.isLt) _ (List.getElem_mem j.isLt)
    rw [hzero, zero_div] at h
    exact lt_irrefl 0 h
  · rintro ⟨x, hx, y, hy, hne⟩
    obtain ⟨i, hi, rfl⟩ := List.getElem_of_mem hx
    obtain ⟨j, hj, rfl⟩ := List.getElem_of_mem hy
    refine div_pos ((scatter_self_nonneg _).lt_of_ne' fun hzero => hne ?_)
      (Nat.cast_pos.mpr (by omega))
    exact (scatter_self_eq_zero_iff_const _).mp hzero ⟨i, hi⟩ ⟨j, hj⟩

theorem chunkRange_pos {chunk : List ℝ} (h : 0 < chunkStd chunk) : 0 < chunkRange chunk := by
  obtain ⟨x, hx, -⟩ := (chunkStd_pos_iff chunk).mp h
  rw [chunkRange_eq (List.ne_nil_of_mem hx)]
  refine excursion_pos ?_
  by_contra hzero
  push Not at hzero
  have hsquares : ((deviations chunk).map fun d => d * d).sum = 0 :=
    List.sum_eq_zero fun s hs => by
      obtain ⟨d, hd, rfl⟩ := List.mem_map.mp hs
      rw [hzero d hd, zero_mul]
  rw [chunkStd_eq, hsquares, zero_div, Real.sqrt_zero] at h
  exact lt_irrefl 0 h

section Affine
variable {a : ℝ} (ha : 0 < a) (b : ℝ) (chunk : List ℝ)
include ha

theorem chunkStd_affine : chunkStd (chunk.map fun r => a * r + b) = a * chunkStd chunk := by
  have hsquares : ((deviations chunk).map (a * ·)).map (fun d => d * d) =
      ((deviations chunk).map fun d => d * d).map (a ^ 2 * ·) := by
    rw [List.map_map, List.map_map]
    exact List.map_congr_left fun d _ => by simp only [Function.comp_apply]; ring
  rw [chunkStd_eq, chunkStd_eq, deviations_affine, hsquares, List.length_map,
    List.sum_map_mul_left, List.map_id', mul_div_assoc, Real.sqrt_mul (sq_nonneg a),
    Real.sqrt_sq ha.le]

theorem chunkRange_affine (hne : chunk ≠ []) :
    chunkRange (chunk.map fun r => a * r + b) = a * chunkRange chunk := by
  rw [chunkRange_eq hne, chunkRange_eq (mt List.map_eq_nil_iff.mp hne), deviations_affine,
    excursion_map_mul ha.le]

end Affine

/-! ### All chunks of a lag -/

theorem toInt_eq {n : ℕ} (h : n < 2 ^ 31) : toInt n = n :=
  Int.bmod_eq_of_le (by omega) (by omega)

theorem chunks_map (f : ℝ → ℝ) (series : List ℝ) (lag : ℤ) :
    chunks (series.map f) lag = (chunks series lag).map (List.map f) := by
  unfold chunks
  rw [List.length_map, List.map_map]
  exact List.map_congr_left fun c _ => by
    rw [Function.comp_apply, List.map_take, List.map_drop]

/-- Of a series whose length is an `int` the loop visits every full chunk. -/
theorem mem_chunks_iff {series chunk : List ℝ} {lag : ℤ} (hlen : series.length < 2 ^ 31)
    (hlag : 0 < lag) : chunk ∈ chunks series lag ↔ ∃ c : ℕ, (c + 1) * lag.toNat ≤ series.length ∧
      chunk = (series.drop (c * lag.toNat)).take lag.toNat := by
  obtain ⟨n, rfl⟩ := Int.eq_ofNat_of_zero_le hlag.le
  have hn : 0 < n := Int.natCast_pos.mp hlag
  have hcount : ((toInt series.length).tdiv n).toNat = series.length / n := by
    rw [toInt_eq hlen, ← Int.ofNat_tdiv, Int.toNat_natCast]
  unfold chunks
  simp only [hcount, Int.toNat_natCast, List.mem_map, List.mem_range, ← Nat.succ_le_iff,
    Nat.le_div_iff_mul_le hn]
  exact exists_congr fun c => and_congr_right fun _ => eq_comm

theorem foldl_count {α : Type} (p : α → Prop) [DecidablePred p] (f : α → ℝ) (l : List α)
    (total : ℝ) (count : ℕ) :
    l.foldl (fun s x => if p x then (s.1 + f x, s.2 + 1) else s) (total, count) =
      (total + ((l.filter p).map f).sum, count + (l.filter p).length) := by
  induction l generalizing total count with
  | nil => simp
  | cons x l ih =>
    rw [List.foldl_cons]
    split_ifs with hx
    · rw [ih, List.filter_cons_of_pos (by simpa using hx), List.map_cons, List.sum_cons,
        List.length_cons, add_assoc, add_assoc, Nat.add_comm 1]
    · rw [ih, List.filter_cons_of_neg (by simpa using hx)]

/-- The chunks which are counted. -/
noncomputable def moving (series : List ℝ) (lag : ℤ) : List (List ℝ) :=
  (chunks series lag).filter fun chunk => 0 < chunkStd chunk

theorem rescaledRange_eq (series : List ℝ) (lag : ℤ) : rescaledRange series lag =
    ((moving series lag).map fun chunk => chunkRange chunk / chunkStd chunk).sum /
      ((moving series lag).length : ℝ) := by
  unfold rescaledRange
  rw [foldl_count (fun chunk => 0 < chunkStd chunk)]
  dsimp only
  simp only [zero_add]
  change (if (moving series lag).length = 0 then 0 else
    ((moving series lag).map fun chunk => chunkRange chunk / chunkStd chunk).sum /
      ((moving series lag).length : ℝ)) = _
  split_ifs with hzero
  · rw [hzero, Nat.cast_zero, div_zero]
  · rfl

theorem mem_moving {series chunk : List ℝ} {lag : ℤ} :
    chunk ∈ moving series lag ↔ chunk ∈ chunks series lag ∧ 0 < chunkStd chunk := by
  rw [moving, List.mem_filter, decide_eq_true_iff]

theorem rescaledRange_pos_iff (series : List ℝ) (lag : ℤ) : 0 < rescaledRange series lag ↔
    ∃ chunk ∈ chunks series lag, ∃ x ∈ chunk, ∃ y ∈ chunk, x ≠ y := by
  have hmoving : moving series lag ≠ [] ↔
      ∃ chunk ∈ chunks series lag, ∃ x ∈ chunk, ∃ y ∈ chunk, x ≠ y := by
    simp only [ne_eq, List.eq_nil_iff_forall_not_mem, not_forall, not_not, mem_moving,
      chunkStd_pos_iff]
  rw [rescaledRange_eq, ← hmoving]
  constructor
  · intro h hnil
    rw [hnil, List.length_nil, Nat.cast_zero, div_zero] at h
    exact lt_irrefl 0 h
  · intro hne
    refine div_pos (List.sum_pos _ (fun ratio hratio => ?_) (mt List.map_eq_nil_iff.mp hne))
      (Nat.cast_pos.mpr (List.length_pos_iff.mpr hne))
    obtain ⟨chunk, hchunk, rfl⟩ := List.mem_map.mp hratio
    have hstd := (mem_moving.mp hchunk).2
    exact div_pos (chunkRange_pos hstd) hstd

theorem rescaledRange_affine {a : ℝ} (ha : 0 < a) (b : ℝ) (series : List ℝ) (lag : ℤ) :
    rescaledRange (series.map fun r => a * r + b) lag = rescaledRange series lag := by
  have hmoving : moving (series.map fun r => a * r + b) lag =
      (moving series lag).map (List.map fun r => a * r + b) := by
    rw [moving, moving, chunks_map, List.filter_map]
    refine congrArg _ (List.filter_congr fun chunk _ => ?_)
    rw [Function.comp_apply, chunkStd_affine ha]
    exact decide_eq_decide.mpr (mul_pos_iff_of_pos_left ha)
  have hratio : ∀ chunk ∈ moving series lag,
      chunkRange (chunk.map fun r => a * r + b) / chunkStd (chunk.map fun r => a * r + b) =
        chunkRange chunk / chunkStd chunk := by
    intro chunk hchunk
    obtain ⟨x, hx, -⟩ := (chunkStd_pos_iff chunk).mp (mem_moving.mp hchunk).2
    rw [chunkStd_affine ha, chunkRange_affine ha b chunk (List.ne_nil_of_mem hx),
      mul_div_mul_left _ _ ha.ne']
  have hratios : (moving series lag).map ((fun chunk => chunkRange chunk / chunkStd chunk) ∘
      List.map fun r => a * r + b) =
      (moving series lag).map fun chunk => chunkRange chunk / chunkStd chunk :=
    List.map_congr_left hratio
  rw [rescaledRange_eq, rescaledRange_eq, hmoving, List.length_map, List.map_map, hratios]

/-! ### The request -/

theorem length_logReturns (prices : List ℝ) : (logReturns prices).length = prices.length - 1 := by
  rw [logReturns, List.length_zipWith, List.length_tail, min_eq_left (Nat.sub_le _ _)]

/-- The points which the regression gets. -/
noncomputable def points (prices : List ℝ) (maxLag : Option ℤ) : List (ℝ × ℝ) :=
  rangePoints (logReturns prices) (lagsUpTo (largestLag (prices.length - 1) maxLag))

noncomputable def estimate (points : List (ℝ × ℝ)) : HurstResult ℝ :=
  let exponent := clampExponent (slope (points.map (·.1)) (points.map (·.2)))
  ⟨exponent, interpretHurst exponent⟩

theorem hurst_ok_iff {prices : List ℝ} {maxLag : Option ℤ} {r : HurstResult ℝ} :
    hurst prices maxLag = .ok r ↔ 50 ≤ prices.length ∧ (∀ x ∈ prices, 0 < x) ∧
      8 < largestLag (prices.length - 1) maxLag ∧ 2 ≤ (points prices maxLag).length ∧
      r = estimate (points prices maxLag) := by
  have hany : ¬(prices.any fun p => decide (p ≤ 0)) = true ↔ ∀ x ∈ prices, 0 < x := by
    simp only [List.any_eq_true, decide_eq_true_eq, not_exists, not_and, not_le]
  unfold hurst
  rw [validateFinite_real]
  dsimp only
  rw [length_logReturns]
  change (if prices.length < 50 then _ else _) = _ ↔ _
  rw [ite_error_eq_ok, ite_error_eq_ok, ite_error_eq_ok, ite_error_eq_ok, hany, not_lt, not_le,
    not_lt, Except.ok.injEq, eq_comm]
  rfl

/-! ### Another unit and another scale of volatility -/

section Repriced
variable {κ p : ℝ} (hκ : 0 < κ)
include hκ

/-- A unit cancels in the returns, and a power of the prices multiplies them. -/
theorem logReturns_repriced {prices : List ℝ} (hpos : ∀ x ∈ prices, 0 < x) :
    logReturns (prices.map fun x => κ * x ^ p) = (logReturns prices).map fun r => p * r + 0 := by
  unfold logReturns
  refine List.ext_getElem (by simp) fun i hi _ => ?_
  rw [List.length_zipWith, List.length_tail, List.length_map] at hi
  have hprev : 0 < prices[i] := hpos _ (List.getElem_mem _)
  have hnext : 0 < prices[i + 1] := hpos _ (List.getElem_mem _)
  simp only [List.getElem_zipWith, List.getElem_map, List.getElem_tail, log_real]
  rw [mul_div_mul_left _ _ hκ.ne', ← Real.div_rpow hnext.le hprev.le,
    Real.log_rpow (div_pos hnext hprev), add_zero]

theorem points_repriced (hp : 0 < p) {prices : List ℝ} (hpos : ∀ x ∈ prices, 0 < x)
    (maxLag : Option ℤ) : points (prices.map fun x => κ * x ^ p) maxLag = points prices maxLag := by
  rw [points, points, List.length_map, logReturns_repriced hκ hpos]
  unfold rangePoints
  simp only [rescaledRange_affine hp]

theorem repriced_pos_iff (hp : 0 < p) {x : ℝ} (hx : 0 ≤ x) : 0 < κ * x ^ p ↔ 0 < x := by
  rw [mul_pos_iff_of_pos_left hκ]
  constructor
  · intro h
    refine hx.lt_of_ne' fun hzero => ?_
    rw [hzero, Real.zero_rpow hp.ne'] at h
    exact lt_irrefl 0 h
  · exact fun h => Real.rpow_pos_of_pos h p

theorem hurst_repriced_iff (hp : 0 < p) {prices : List ℝ} (hnonneg : ∀ x ∈ prices, 0 ≤ x)
    (maxLag : Option ℤ) (r : HurstResult ℝ) :
    hurst (prices.map fun x => κ * x ^ p) maxLag = .ok r ↔ hurst prices maxLag = .ok r := by
  have hforall : (∀ y ∈ prices.map fun x => κ * x ^ p, 0 < y) ↔ ∀ x ∈ prices, 0 < x := by
    rw [List.forall_mem_map]
    exact forall₂_congr fun x hx => repriced_pos_iff hκ hp (hnonneg x hx)
  rw [hurst_ok_iff, hurst_ok_iff, List.length_map, hforall]
  refine and_congr_right fun _ => and_congr_right fun hpos => ?_
  rw [points_repriced hκ hp hpos]

end Repriced

/-! ### Prices which swing at the start -/

/-- Fifty prices, the first three of which alternate. -/
def swinging (a b : ℝ) : List ℝ := a :: b :: a :: List.replicate 47 b

theorem forall_mem_swinging {a b : ℝ} {P : ℝ → Prop} (ha : P a) (hb : P b) :
    ∀ x ∈ swinging a b, P x := by
  simp only [swinging, List.forall_mem_cons]
  exact ⟨ha, hb, ha, fun x hx => (List.eq_of_mem_replicate hx).symm ▸ hb⟩

theorem rescaledRange_pos_of_start {x y : ℝ} {l : List ℝ} {lag : ℤ} (hne : x ≠ y)
    (hlen : (x :: y :: l).length < 2 ^ 31) (htwo : 2 ≤ lag) (hle : lag ≤ (x :: y :: l).length) :
    0 < rescaledRange (x :: y :: l) lag := by
  have htake : (x :: y :: l).take lag.toNat = x :: y :: l.take (lag.toNat - 2) := by
    obtain ⟨k, hk⟩ := Nat.exists_eq_add_of_le' (show 2 ≤ lag.toNat by omega)
    rw [hk]
    rfl
  refine (rescaledRange_pos_iff _ lag).mpr ⟨(x :: y :: l).take lag.toNat,
    (mem_chunks_iff hlen (by omega)).mpr ⟨0, by omega, by rw [Nat.zero_mul, List.drop_zero]⟩, ?_⟩
  rw [htake]
  exact ⟨x, List.mem_cons_self, y, List.mem_cons_of_mem _ List.mem_cons_self, hne⟩

theorem length_rangePoints {returns : List ℝ} {lags : List ℤ}
    (h : ∀ lag ∈ lags, 0 < rescaledRange returns lag) :
    (rangePoints returns lags).length = lags.length := by
  have hpoints : rangePoints returns lags =
      lags.map fun lag : ℤ => (Real.log lag, Real.log (rescaledRange returns lag)) := by
    rw [← List.filterMap_eq_map']
    exact List.filterMap_congr fun lag hlag => if_pos (h lag hlag)
  rw [hpoints, List.length_map]

theorem hurst_swinging {a b : ℝ} (ha : 0 < a) (hb : 0 < b) (hne : a ≠ b) :
    ∃ r, hurst (swinging a b) none = .ok r := by
  have hlargest : largestLag 49 none = 12 := by decide
  have hlags : lagsUpTo 12 = [8, 9, 10, 11, 12] := by decide
  have hlog : Real.log (b / a) ≠ Real.log (a / b) := by
    intro heq
    have hratio := Real.log_injOn_pos (div_pos hb ha) (div_pos ha hb) heq
    rw [div_eq_div_iff ha.ne' hb.ne', ← sq, ← sq] at hratio
    exact hne ((pow_left_inj₀ hb.le ha.le two_ne_zero).mp hratio).symm
  obtain ⟨l, hl, hlength⟩ : ∃ l, logReturns (swinging a b) =
      Real.log (b / a) :: Real.log (a / b) :: l ∧ l.length = 47 := ⟨_, rfl, rfl⟩
  have hpoints : (points (swinging a b) none).length = 5 := by
    change (rangePoints _ (lagsUpTo (largestLag 49 none))).length = 5
    rw [hlargest, hlags, hl]
    refine length_rangePoints fun lag hlag => ?_
    simp only [List.mem_cons, List.not_mem_nil, or_false] at hlag
    refine rescaledRange_pos_of_start hlog ?_ ?_ ?_
    · rw [List.length_cons, List.length_cons, hlength]
      decide
    · omega
    · rw [List.length_cons, List.length_cons, hlength]
      omega
  have hlag : 8 < largestLag ((swinging a b).length - 1) none := by
    change 8 < largestLag 49 none
    rw [hlargest]
    decide
  exact ⟨_, hurst_ok_iff.mpr ⟨le_rfl, forall_mem_swinging ha hb, hlag, by omega, rfl⟩⟩

/-- Unit and volatility scale of positive prices do not matter, because those
of the returns do not matter for any rescaled range. -/
theorem hurst_unit_free (prices : List ℝ) (maxLag : Option ℤ) {κ p : ℝ} (hκ : 0 < κ) (hp : 0 < p) :
    (∀ r, hurst prices maxLag = .ok r → hurst (prices.map fun x => κ * x ^ p) maxLag = .ok r) ∧
    ((∀ x ∈ prices, 0 ≤ x) → ∀ r,
      hurst (prices.map fun x => κ * x ^ p) maxLag = .ok r ↔ hurst prices maxLag = .ok r) ∧
    ∀ (series : List ℝ) (lag : ℤ),
      (∀ a b, 0 < a → rescaledRange (series.map fun r => a * r + b) lag =
        rescaledRange series lag) ∧
      (0 < rescaledRange series lag ↔
        ∃ chunk ∈ chunks series lag, ∃ x ∈ chunk, ∃ y ∈ chunk, x ≠ y) ∧
      (series.length < 2 ^ 31 → 0 < lag → ∀ chunk, chunk ∈ chunks series lag ↔
        ∃ c : ℕ, (c + 1) * lag.toNat ≤ series.length ∧
          chunk = (series.drop (c * lag.toNat)).take lag.toNat) := by
  refine ⟨fun r hr => ?_, fun hnonneg => hurst_repriced_iff hκ hp hnonneg maxLag,
    fun series lag => ⟨fun a b ha => rescaledRange_affine ha b series lag,
      rescaledRange_pos_iff series lag, fun hlen hlag chunk => mem_chunks_iff hlen hlag⟩⟩
  have hpos := (hurst_ok_iff.mp hr).2.1
  exact (hurst_repriced_iff hκ hp (fun x hx => (hpos x hx).le) maxLag r).mpr hr

theorem hurst_unit_free_swinging : ∃ r, hurst (swinging 1 (1 + 1)) none = .ok r ∧
    hurst ((swinging 1 (1 + 1)).map fun x => 1 * x ^ (1 + 1 : ℝ)) none = .ok r := by
  obtain ⟨r, hr⟩ := hurst_swinging one_pos (add_pos one_pos one_pos) (by simp)
  exact ⟨r, hr, (hurst_unit_free _ none one_pos (add_pos one_pos one_pos)).1 r hr⟩

/-- The squares of negative prices are positive. -/
theorem hurst_negative_prices :
    (∃ r, hurst ((swinging (-1) (-(1 + 1))).map fun x => 1 * x ^ (1 + 1 : ℝ)) none = .ok r) ∧
      ¬∃ r, hurst (swinging (-1) (-(1 + 1))) none = .ok r := by
  have hsquare (x : ℝ) : 1 * (-x) ^ (1 + 1 : ℝ) = x * x := by
    rw [one_mul, one_add_one_eq_two, Real.rpow_two, neg_sq, sq]
  have hmap : (swinging (-1) (-(1 + 1))).map (fun x => 1 * x ^ (1 + 1 : ℝ)) =
      swinging (1 * 1) ((1 + 1) * (1 + 1)) := by
    simp only [swinging, List.map_cons, List.map_replicate, hsquare]
  refine ⟨?_, fun ⟨r, hr⟩ => ?_⟩
  · rw [hmap]
    exact hurst_swinging (by norm_num) (by norm_num) (by norm_num)
  · have hpos := (hurst_ok_iff.mp hr).2.1 (-1) List.mem_cons_self
    exact absurd hpos (by norm_num)

end StandardTools.Analysis
