import Mathlib.Analysis.SpecialFunctions.Exp

/-!
# Distribution functions from an approximate tail

The tail of the normal distribution is approximated by `exp (-x^2/2)` times a
factor, and reflected for negative numbers. Where the factor is positive, falls
and starts below one half, the exchange of one asset for another is worth at
least what it yields at once and at most the asset which is received, as with the
exact distribution.
-/

namespace StandardTools.Lib

noncomputable def gaussian (x : ℝ) : ℝ := Real.exp (-x * x * ((2 : ℕ) : ℝ)⁻¹)

theorem gaussian_pos (x : ℝ) : 0 < gaussian x := Real.exp_pos _

theorem gaussian_neg (x : ℝ) : gaussian (-x) = gaussian x := by
  unfold gaussian
  congr 1
  ring

theorem gaussian_le_one (x : ℝ) : gaussian x ≤ 1 := by
  apply Real.exp_le_one_iff.mpr
  rw [neg_mul]
  exact mul_nonpos_of_nonpos_of_nonneg (neg_nonpos.mpr (mul_self_nonneg x))
    (inv_nonneg.mpr (Nat.cast_nonneg 2))

theorem gaussian_lt {x y : ℝ} (hy : 0 ≤ y) (h : y < x) : gaussian x < gaussian y := by
  apply Real.exp_lt_exp.mpr
  have hsq : y * y < x * x := mul_self_lt_mul_self hy h
  refine mul_lt_mul_of_pos_right ?_ (inv_pos.mpr (Nat.cast_pos.mpr two_pos))
  linarith

structure TailFactor (q : ℝ → ℝ) : Prop where
  pos : ∀ x, 0 ≤ x → 0 < q x
  anti : ∀ x y, 0 ≤ x → x < y → q y < q x
  half : q 0 + q 0 < 1

/-- The distribution function of a tail factor. -/
noncomputable def tailCdf (q : ℝ → ℝ) (x : ℝ) : ℝ :=
  if 0 ≤ x then 1 - gaussian x * q x else gaussian x * q (-x)

namespace TailFactor
variable {q : ℝ → ℝ} {x y : ℝ}

theorem lt_half (h : TailFactor q) (hx : 0 ≤ x) : q x + q x < 1 := by
  rcases hx.lt_or_eq with hlt | heq
  · have hq := h.anti 0 x (le_refl 0) hlt
    linarith [h.half]
  · rw [← heq]
    exact h.half

theorem tail_bounds (h : TailFactor q) (hx : 0 ≤ x) :
    0 < gaussian x * q x ∧ gaussian x * q x + gaussian x * q x < 1 := by
  have hle := mul_le_of_le_one_left (h.pos x hx).le (gaussian_le_one x)
  exact ⟨mul_pos (gaussian_pos x) (h.pos x hx), by linarith [h.lt_half hx]⟩

theorem cdf_bounds (h : TailFactor q) (x : ℝ) : 0 < tailCdf q x ∧ tailCdf q x < 1 := by
  unfold tailCdf
  split_ifs with hx
  · obtain ⟨hpos, hhalf⟩ := h.tail_bounds hx
    exact ⟨by linarith, by linarith⟩
  · obtain ⟨hpos, hhalf⟩ := h.tail_bounds (neg_nonneg.mpr (not_le.mp hx).le)
    rw [gaussian_neg] at hpos hhalf
    exact ⟨hpos, by linarith⟩

theorem tailCdf_of_nonneg (hx : 0 ≤ x) : tailCdf q x = 1 - gaussian x * q x := if_pos hx

theorem tailCdf_of_neg (hx : x < 0) : tailCdf q x = gaussian x * q (-x) := if_neg (not_le.mpr hx)

/-- The two halves are reflections of each other, but for the point they share. -/
theorem tailCdf_add_neg (hx : x ≠ 0) : tailCdf q x + tailCdf q (-x) = 1 := by
  rcases lt_or_gt_of_ne hx with hneg | hpos
  · rw [tailCdf_of_neg hneg, tailCdf_of_nonneg (neg_nonneg.mpr hneg.le), gaussian_neg]
    ring
  · rw [tailCdf_of_nonneg hpos.le, tailCdf_of_neg (neg_neg_of_pos hpos), gaussian_neg, neg_neg]
    ring

section Exchange
variable {F G : ℝ} (h : TailFactor q) (hF : 0 < F) (hG : 0 < G) (hxy : y < x)
  (hweight : F * gaussian x = G * gaussian y)
include h hF hG hxy hweight

/-- Both arguments are in the left tail, where the weight is the probability. -/
theorem exchange_left (hx : x < 0) : max 0 (F - G) ≤ F * tailCdf q x - G * tailCdf q y := by
  have hlt : gaussian y < gaussian x := by
    rw [← gaussian_neg x, ← gaussian_neg y]
    exact gaussian_lt (neg_nonneg.mpr hx.le) (neg_lt_neg hxy)
  have hFG : F < G := lt_of_mul_lt_mul_right
    (hweight ▸ (mul_lt_mul_iff_right₀ hG).mpr hlt) (gaussian_pos x).le
  have hq : q (-y) < q (-x) := h.anti _ _ (neg_nonneg.mpr hx.le) (neg_lt_neg hxy)
  have hvalue : F * tailCdf q x - G * tailCdf q y = F * gaussian x * (q (-x) - q (-y)) := by
    rw [tailCdf_of_neg hx, tailCdf_of_neg (hxy.trans hx), ← mul_assoc, ← mul_assoc, ← hweight]
    ring
  have hpos := mul_pos (mul_pos hF (gaussian_pos x)) (sub_pos.mpr hq)
  rw [hvalue]
  exact max_le hpos.le (by linarith)

omit hxy in
/-- The two tails together weigh less than either asset. -/
theorem exchange_middle (hy : y < 0) (hx : 0 ≤ x) :
    max 0 (F - G) ≤ F * tailCdf q x - G * tailCdf q y := by
  have hFw : F * gaussian x ≤ F := mul_le_of_le_one_right hF.le (gaussian_le_one x)
  have hGw : F * gaussian x ≤ G := hweight ▸ mul_le_of_le_one_right hG.le (gaussian_le_one y)
  have hvalue : F * tailCdf q x - G * tailCdf q y = F - F * gaussian x * (q x + q (-y)) := by
    rw [tailCdf_of_nonneg hx, tailCdf_of_neg hy, ← mul_assoc G, ← hweight]
    ring
  have hsum : q x + q (-y) < 1 := by
    linarith [h.lt_half hx, h.lt_half (neg_nonneg.mpr hy.le)]
  have hle := mul_lt_of_lt_one_right (mul_pos hF (gaussian_pos x)) hsum
  rw [hvalue]
  exact max_le (by linarith) (by linarith)

omit hG in
theorem exchange_right (hy : 0 ≤ y) : max 0 (F - G) ≤ F * tailCdf q x - G * tailCdf q y := by
  have hGF : G < F := lt_of_mul_lt_mul_right
    (hweight ▸ (mul_lt_mul_iff_right₀ hF).mpr (gaussian_lt hy hxy)) (gaussian_pos y).le
  have hvalue : F * tailCdf q x - G * tailCdf q y = F - G + F * gaussian x * (q y - q x) := by
    rw [tailCdf_of_nonneg (hy.trans hxy.le), tailCdf_of_nonneg hy, mul_sub G, ← mul_assoc G,
      ← hweight]
    ring
  have hpos := mul_pos (mul_pos hF (gaussian_pos x)) (sub_pos.mpr (h.anti y x hy hxy))
  rw [hvalue]
  exact max_le (by linarith) (by linarith)

/-- What the right to receive `F` for `G` is worth, with the two arguments of the
distribution function at which both weigh the same. -/
theorem exchange_bounds :
    max 0 (F - G) ≤ F * tailCdf q x - G * tailCdf q y ∧
      F * tailCdf q x - G * tailCdf q y ≤ F := by
  constructor
  · rcases lt_or_ge x 0 with hx | hx
    · exact h.exchange_left hF hG hxy hweight hx
    · rcases lt_or_ge y 0 with hy | hy
      · exact h.exchange_middle hF hG hweight hy hx
      · exact h.exchange_right hF hxy hweight hy
  · have hpaid := mul_pos hG (h.cdf_bounds y).1
    have hreceived := mul_lt_of_lt_one_right hF (h.cdf_bounds x).2
    linarith

end Exchange

end TailFactor

end StandardTools.Lib
