import Mathlib.Analysis.Complex.ExponentialBounds
import Mathlib.Analysis.SpecialFunctions.Trigonometric.DerivHyp
import StandardTools.Lib.DampedScaling

/-!
# How fast a damped scaling settles

The logarithm of the root of the whole load for every row, less the logarithms of the
weights, does not depend on the scale of the weights. Where the form is nonnegative it
lies above its infimum by at most the sum of the logarithms of the inverse shares, and
a round takes a part of that sum away, as long as the shares and a diagonal bound of the
form leave room for it. The bound is 1 for a nonnegative matrix, and may come near 3 where
the shares come near 1.
-/

namespace StandardTools.Lib.Scaling

open Real

-- The division of the reals as a field, wherever else a division comes from.
attribute [local instance (high)] DivInvMonoid.toDiv

/-! ### Logarithms -/

/-- Tangents at 1 for `x ≤ 3`, and behind it bounds from the logarithm of 2. -/
theorem log_push_le {x : ℝ} (hx : 0 < x) (hx10 : x ≤ 10) :
    (x - 1) / 8 + log x / 8 ≤ log ((1 + x) / 2) + (1 / x - 1) / 4 := by
  have hlog2 := log_two_gt_d9
  have hhalf : 0 < (1 + x) / 2 := by linarith
  have hinv : 0 < 1 / x := one_div_pos.mpr hx
  rcases le_or_gt x 1 with h1 | h1
  · have hlow := one_sub_inv_le_log_of_pos hhalf
    have hhigh := log_le_sub_one_of_pos hx
    have hgap : 1 - ((1 + x) / 2)⁻¹ + (1 / x - 1) / 4 - (x - 1) / 4 =
        (1 - x) ^ 3 / (4 * x * (1 + x)) := by
      field_simp
      ring
    have hnonneg : 0 ≤ (1 - x) ^ 3 / (4 * x * (1 + x)) :=
      div_nonneg (pow_nonneg (sub_nonneg.mpr h1) 3) (by positivity)
    linarith
  rcases le_or_gt x 3 with h3 | h3
  · have hlow := le_log_one_add_of_nonneg (show 0 ≤ (x - 1) / 2 by linarith)
    have hhigh := log_le_sub_one_of_pos hx
    have hsame : 1 + (x - 1) / 2 = (1 + x) / 2 := by ring
    have hgap : 2 * ((x - 1) / 2) / ((x - 1) / 2 + 2) + (1 / x - 1) / 4 - (x - 1) / 4 =
        (x - 1) ^ 2 * (3 - x) / (4 * x * (x + 3)) := by
      have hne : (x - 1) / 2 + 2 ≠ 0 := by linarith
      field_simp
      ring
    have hnonneg : 0 ≤ (x - 1) ^ 2 * (3 - x) / (4 * x * (x + 3)) :=
      div_nonneg (mul_nonneg (sq_nonneg _) (sub_nonneg.mpr h3)) (by positivity)
    rw [hsame] at hlow
    linarith
  rcases le_or_gt x 7 with h7 | h7
  · have hlow := le_log_one_add_of_nonneg (show 0 ≤ (x - 3) / 4 by linarith)
    have hhigh := log_le_sub_one_of_pos (show 0 < x / 4 by linarith)
    have hsplit : log ((1 + x) / 2) = log 2 + log (1 + (x - 3) / 4) := by
      rw [← log_mul two_ne_zero (by linarith)]
      congr 1
      ring
    have hratio : 2 * ((x - 3) / 4) / ((x - 3) / 4 + 2) = 2 - 16 / (x + 5) := by
      have hne : (x - 3) / 4 + 2 ≠ 0 := by linarith
      field_simp
      ring
    have hbound : 16 / (x + 5) ≤ 2519 / 1000 - 5 / 32 * x := by
      rw [div_le_iff₀ (by linarith)]
      nlinarith
    rw [log_div hx.ne' four_ne_zero, log_four_eq] at hhigh
    rw [hsplit]
    linarith
  · have hlow := le_log_one_add_of_nonneg (show 0 ≤ (x - 7) / 8 by linarith)
    have hhigh := log_le_sub_one_of_pos (show 0 < x / 8 by linarith)
    have height : log 8 = 3 * log 2 := by
      rw [show (8 : ℝ) = 2 ^ 3 by norm_num, log_pow]
      norm_num
    have hsplit : log ((1 + x) / 2) = log 4 + log (1 + (x - 7) / 8) := by
      rw [← log_mul four_ne_zero (by linarith)]
      congr 1
      ring
    have hratio : 2 * ((x - 7) / 8) / ((x - 7) / 8 + 2) = 2 - 32 / (x + 9) := by
      have hne : (x - 7) / 8 + 2 ≠ 0 := by linarith
      field_simp
      ring
    have hbound : 32 / (x + 9) ≤ 3126 / 1000 - 9 / 64 * x := by
      rw [div_le_iff₀ (by linarith)]
      nlinarith
    rw [log_div hx.ne' (by norm_num), height] at hhigh
    rw [hsplit, log_four_eq]
    linarith

/-- Inverse shares up to `b` leave room for a form of at most `lam` times its diagonal
and for a loss of `c` of the gap. -/
structure Affords (lam c b : ℝ) : Prop where
  room : ∀ x, 0 < x → x ≤ b →
    lam / 8 * (x - 1) + c * log x ≤ log ((1 + x) / 2) + (1 / 2 - lam / 8 - c) * (1 / x - 1)

theorem affords_ten : Affords 1 (1 / 8) 10 := by
  refine ⟨fun x hx hx10 => ?_⟩
  have hpush := log_push_le hx hx10
  linarith

/-- Near 1 there is room for all that is below 3. -/
theorem affords_of_le {lam c b : ℝ} (hb : 1 ≤ b) (hc : 0 ≤ c) (h : lam + 8 * c ≤ 12 / (b + 3)) :
    Affords lam c b := by
  refine ⟨fun x hx hxb => ?_⟩
  have hhalf : 0 < (1 + x) / 2 := by linarith
  have hhigh := mul_le_mul_of_nonneg_left (log_le_sub_one_of_pos hx) hc
  have hsquare : 0 ≤ (x - 1) ^ 2 / x := div_nonneg (sq_nonneg _) hx.le
  have hfirst : lam / 8 * (x - 1) + c * (x - 1) =
      (lam + 8 * c) / 8 * ((x - 1) ^ 2 / x) - (lam / 8 + c) * (1 / x - 1) := by
    field_simp
    ring
  rcases le_or_gt x 1 with h1 | h1
  · have hlow : ((1 + x) / 2 - ((1 + x) / 2)⁻¹) / 2 ≤ log ((1 + x) / 2) := by
      rw [← sinh_log hhalf]
      exact sinh_le_self_iff.mpr (log_nonpos hhalf.le (by linarith))
    have hthree : lam + 8 * c ≤ 3 := by
      refine h.trans ?_
      rw [div_le_iff₀ (by linarith)]
      linarith
    have hgap : ((1 + x) / 2 - ((1 + x) / 2)⁻¹) / 2 + 1 / 2 * (1 / x - 1) -
        3 / 8 * ((x - 1) ^ 2 / x) = (1 - x) ^ 3 / (8 * x * (1 + x)) := by
      field_simp
      ring
    have hnonneg : 0 ≤ (1 - x) ^ 3 / (8 * x * (1 + x)) :=
      div_nonneg (pow_nonneg (sub_nonneg.mpr h1) 3) (by positivity)
    have hform := mul_le_mul_of_nonneg_right hthree hsquare
    linarith
  · have hlow := le_log_one_add_of_nonneg (show 0 ≤ (x - 1) / 2 by linarith)
    have hsame : 1 + (x - 1) / 2 = (1 + x) / 2 := by ring
    rw [hsame] at hlow
    have hbound : lam + 8 * c ≤ 12 / (x + 3) :=
      h.trans (div_le_div_of_nonneg_left (by norm_num) (by linarith) (by linarith))
    have hgap : 2 * ((x - 1) / 2) / ((x - 1) / 2 + 2) + 1 / 2 * (1 / x - 1) =
        12 / (x + 3) / 8 * ((x - 1) ^ 2 / x) := by
      have hne : (x - 1) / 2 + 2 ≠ 0 := by linarith
      field_simp
      ring
    have hform := mul_le_mul_of_nonneg_right hbound hsquare
    linarith

theorem sq_sqrt_sub_one_le {r : ℝ} (hr : 0 < r) : (√r - 1) ^ 2 ≤ r - 1 - log r := by
  have hroot : 0 < √r := sqrt_pos.mpr hr
  have hlog := log_le_sub_one_of_pos hroot
  rw [log_sqrt hr.le] at hlog
  have hsquare := sq_sqrt hr.le
  linarith

variable {ι : Type} [Fintype ι] {S : ι → ι → ℝ} {v w : ι → ℝ} {δ lam b c : ℝ}

/-- Jensen's inequality. -/
theorem sum_log_le {z : ι → ℝ} (hz : ∀ i, 0 < z i) (hn : 0 < Fintype.card ι) :
    ∑ i, log (z i) ≤ Fintype.card ι * log ((∑ i, z i) / Fintype.card ι) := by
  have hcard : (0 : ℝ) < Fintype.card ι := Nat.cast_pos.mpr hn
  have hne : Nonempty ι := Fintype.card_pos_iff.mp hn
  have hsum : 0 < ∑ i, z i := Finset.sum_pos (fun i _ => hz i) Finset.univ_nonempty
  have hmean : 0 < (∑ i, z i) / Fintype.card ι := div_pos hsum hcard
  have hterm : ∀ i, log (z i) ≤
      log ((∑ i, z i) / Fintype.card ι) + (z i / ((∑ i, z i) / Fintype.card ι) - 1) := by
    intro i
    have hlog := log_le_sub_one_of_pos (div_pos (hz i) hmean)
    rw [log_div (hz i).ne' hmean.ne'] at hlog
    linarith
  calc ∑ i, log (z i) ≤ _ := Finset.sum_le_sum fun i _ => hterm i
    _ = Fintype.card ι * log ((∑ i, z i) / Fintype.card ι) := by
      rw [Finset.sum_add_distrib, Finset.sum_sub_distrib, ← Finset.sum_div]
      simp only [Finset.sum_const, Finset.card_univ, nsmul_eq_mul, mul_one]
      rw [div_div_cancel₀ hsum.ne', sub_self, add_zero]

/-! ### The potential -/

noncomputable def potential (S : ι → ι → ℝ) (w : ι → ℝ) : ℝ :=
  Fintype.card ι * log √(total S w) - ∑ i, log (w i)

noncomputable def gap (S : ι → ι → ℝ) (w : ι → ℝ) : ℝ := -∑ i, log (share S w i)

theorem potential_eq (htotal : 0 < total S w) :
    potential S w = Fintype.card ι / 2 * log (total S w) - ∑ i, log (w i) := by
  rw [potential, log_sqrt htotal.le]
  ring

theorem potential_mul_left {c : ℝ} (hc : 0 < c) (hw : ∀ i, 0 < w i) (htotal : 0 < total S w) :
    potential S (fun i => c * w i) = potential S w := by
  have hlog : ∀ i, log (c * w i) = log c + log (w i) := fun i => log_mul hc.ne' (hw i).ne'
  have hscaled : 0 < total S fun i => c * w i := by
    rw [total_mul_left]
    exact mul_pos (pow_pos hc 2) htotal
  rw [potential_eq hscaled, potential_eq htotal, total_mul_left,
    log_mul (pow_pos hc 2).ne' htotal.ne', log_pow]
  simp only [hlog, Finset.sum_add_distrib, Finset.sum_const, Finset.card_univ, nsmul_eq_mul]
  push_cast
  ring

/-- Shares that are 1 up to a small gap are near 1. -/
theorem sq_sqrt_share_sub_one_le (htotal : total S w ≠ 0) (hshare : ∀ i, 0 < share S w i) (i : ι) :
    (√(share S w i) - 1) ^ 2 ≤ gap S w := by
  calc (√(share S w i) - 1) ^ 2 ≤ ∑ i, (√(share S w i) - 1) ^ 2 :=
        Finset.single_le_sum (f := fun i => (√(share S w i) - 1) ^ 2)
          (fun i _ => sq_nonneg _) (Finset.mem_univ i)
    _ ≤ ∑ i, (share S w i - 1 - log (share S w i)) :=
        Finset.sum_le_sum fun i _ => sq_sqrt_sub_one_le (hshare i)
    _ = gap S w := by
      unfold gap
      rw [Finset.sum_sub_distrib, Finset.sum_sub_distrib, sum_share htotal]
      simp

theorem total_add_mul (hsymm : ∀ i j, S i j = S j i) (v w : ι → ℝ) (t : ℝ) :
    total S (fun i => v i + t * w i) =
      total S v + 2 * t * (∑ i, v i * ∑ j, S i j * w j) + t ^ 2 * total S w := by
  have hcross : ∑ i, w i * ∑ j, S i j * v j = ∑ i, v i * ∑ j, S i j * w j := by
    simp only [Finset.mul_sum]
    rw [Finset.sum_comm]
    refine Finset.sum_congr rfl fun i _ => Finset.sum_congr rfl fun j _ => ?_
    rw [hsymm j i]
    ring
  have hrow : ∀ i, ∑ j, S i j * (v j + t * w j) =
      ∑ j, S i j * v j + t * ∑ j, S i j * w j := by
    intro i
    rw [Finset.mul_sum, ← Finset.sum_add_distrib]
    exact Finset.sum_congr rfl fun j _ => by ring
  have hterm : ∀ i, (v i + t * w i) * ∑ j, S i j * (v j + t * w j) =
      v i * ∑ j, S i j * v j + t * (v i * ∑ j, S i j * w j) + t * (w i * ∑ j, S i j * v j) +
        t ^ 2 * (w i * ∑ j, S i j * w j) := by
    intro i
    rw [hrow]
    ring
  unfold total load
  simp only [hterm, Finset.sum_add_distrib, ← Finset.mul_sum, hcross]
  ring

section Semidefinite
variable (hsymm : ∀ i j, S i j = S j i) (hform : ∀ v : ι → ℝ, 0 ≤ total S v)
include hsymm hform

theorem sq_cross_le (v : ι → ℝ) (hw : 0 < total S w) :
    (∑ i, v i * ∑ j, S i j * w j) ^ 2 ≤ total S v * total S w := by
  have h := hform fun i => v i + -(∑ i, v i * ∑ j, S i j * w j) / total S w * w i
  rw [total_add_mul hsymm] at h
  have hscaled := mul_nonneg h hw.le
  have hvalue : (total S v + 2 * (-(∑ i, v i * ∑ j, S i j * w j) / total S w) *
      (∑ i, v i * ∑ j, S i j * w j) + (-(∑ i, v i * ∑ j, S i j * w j) / total S w) ^ 2 *
        total S w) * total S w =
      total S v * total S w - (∑ i, v i * ∑ j, S i j * w j) ^ 2 := by
    field_simp
    ring
  rw [hvalue] at hscaled
  exact sub_nonneg.mp hscaled

/-- No weights have a potential that is lower by more than the gap. -/
theorem potential_sub_gap_le (hn : 0 < Fintype.card ι) (hv : ∀ i, 0 < v i) (hw : ∀ i, 0 < w i)
    (hvtotal : 0 < total S v) (htotal : 0 < total S w) (hshare : ∀ i, 0 < share S w i) :
    potential S w - gap S w ≤ potential S v := by
  have hcard : (0 : ℝ) < Fintype.card ι := Nat.cast_pos.mpr hn
  have hratio : ∀ i, 0 < v i / w i * share S w i := fun i =>
    mul_pos (div_pos (hv i) (hw i)) (hshare i)
  have hmean : (∑ i, v i / w i * share S w i) / Fintype.card ι =
      (∑ i, v i * ∑ j, S i j * w j) / total S w := by
    have hterm : ∀ i, v i / w i * share S w i =
        Fintype.card ι / total S w * (v i * ∑ j, S i j * w j) := by
      intro i
      have hwi := (hw i).ne'
      unfold share load
      field_simp
    simp only [hterm, ← Finset.mul_sum]
    field_simp
  have hjensen := sum_log_le hratio hn
  have hpos : 0 < (∑ i, v i * ∑ j, S i j * w j) / total S w := by
    have hne : Nonempty ι := Fintype.card_pos_iff.mp hn
    rw [← hmean]
    exact div_pos (Finset.sum_pos (fun i _ => hratio i) Finset.univ_nonempty) hcard
  have hlog : ∀ i, log (v i / w i * share S w i) = log (v i) - log (w i) + log (share S w i) := by
    intro i
    rw [log_mul (div_pos (hv i) (hw i)).ne' (hshare i).ne', log_div (hv i).ne' (hw i).ne']
  have hcross : 2 * log ((∑ i, v i * ∑ j, S i j * w j) / total S w) ≤
      log (total S v) - log (total S w) := by
    have hsq : ((∑ i, v i * ∑ j, S i j * w j) / total S w) ^ 2 ≤ total S v / total S w := by
      rw [div_pow, div_le_div_iff₀ (pow_pos htotal 2) htotal]
      have hcauchy := mul_le_mul_of_nonneg_right (sq_cross_le hsymm hform v htotal) htotal.le
      linarith
    have hmono := log_le_log (pow_pos hpos 2) hsq
    rw [log_pow, log_div hvtotal.ne' htotal.ne'] at hmono
    push_cast at hmono
    exact hmono
  rw [hmean] at hjensen
  simp only [hlog, Finset.sum_add_distrib, Finset.sum_sub_distrib] at hjensen
  have hhalf := mul_le_mul_of_nonneg_left hcross (half_pos hcard).le
  rw [potential_eq htotal, potential_eq hvtotal]
  unfold gap
  linarith

end Semidefinite

/-- The form is at most `lam` times a diagonal one with the same value at `w`. -/
def DiagonalBound (S : ι → ι → ℝ) (w : ι → ℝ) (lam : ℝ) : Prop :=
  ∀ z : ι → ℝ, total S z ≤ lam * ∑ i, (∑ j, S i j * w j) / w i * z i ^ 2

theorem diagonalBound_one (hsymm : ∀ i j, S i j = S j i) (hnonneg : ∀ i j, 0 ≤ S i j)
    (hn : 0 < Fintype.card ι) (hw : ∀ i, 0 < w i) (htotal : 0 < total S w) :
    DiagonalBound S w 1 := by
  intro z
  have hfactor : (0 : ℝ) < Fintype.card ι / total S w := div_pos (Nat.cast_pos.mpr hn) htotal
  have hrow : ∀ i, w i * (z i / w i) = z i := fun i => mul_div_cancel₀ _ (hw i).ne'
  have hterm : ∀ i, z i / w i * (z i / w i * share S w i) =
      Fintype.card ι / total S w * ((∑ j, S i j * w j) / w i * z i ^ 2) := by
    intro i
    have hwi := (hw i).ne'
    unfold share load
    field_simp
  have hpairs := (loads_weighted hsymm hnonneg hw htotal).total_le fun i => z i / w i
  rw [total_weighted] at hpairs
  simp only [hrow, sum_weighted, hterm, ← Finset.mul_sum] at hpairs
  rw [one_mul]
  exact le_of_mul_le_mul_left hpairs hfactor

section Unclamped
variable (hn : 0 < Fintype.card ι) (hw : ∀ i, 0 < w i) (htotal : 0 < total S w)
  (hshare : ∀ i, 0 < share S w i)
include hn htotal hshare

theorem load_div_share (i : ι) : load S w i / share S w i = total S w / Fintype.card ι := by
  have hcard : (0 : ℝ) < Fintype.card ι := Nat.cast_pos.mpr hn
  have hi := hshare i
  have hload : load S w i = share S w i * total S w / Fintype.card ι := by
    unfold share
    field_simp
  rw [hload]
  field_simp

/-- What a round adds to the doubled weights is orthogonal to them. -/
theorem sum_push_load : ∑ i, w i * (1 / share S w i - 1) * ∑ j, S i j * w j = 0 := by
  have hcard : (0 : ℝ) < Fintype.card ι := Nat.cast_pos.mpr hn
  have hterm : ∀ i, w i * (1 / share S w i - 1) * ∑ j, S i j * w j =
      total S w / Fintype.card ι - load S w i := by
    intro i
    rw [← load_div_share hn htotal hshare i]
    unfold load
    ring
  simp only [hterm, Finset.sum_sub_distrib, Finset.sum_const, Finset.card_univ, nsmul_eq_mul]
  rw [mul_div_cancel₀ _ hcard.ne']
  exact sub_self _

include hw in
theorem sum_push_diagonal :
    ∑ i, (∑ j, S i j * w j) / w i * (w i * (1 / share S w i - 1)) ^ 2 =
      total S w * ((∑ i, 1 / share S w i) / Fintype.card ι - 1) := by
  have hcard : (0 : ℝ) < Fintype.card ι := Nat.cast_pos.mpr hn
  have hterm : ∀ i, (∑ j, S i j * w j) / w i * (w i * (1 / share S w i - 1)) ^ 2 =
      total S w / Fintype.card ι * (1 / share S w i) - 2 * (total S w / Fintype.card ι) +
        load S w i := by
    intro i
    have hwi := (hw i).ne'
    have hi := (hshare i).ne'
    rw [← load_div_share hn htotal hshare i]
    unfold load
    field_simp
    ring
  simp only [hterm, Finset.sum_add_distrib, Finset.sum_sub_distrib, ← Finset.mul_sum,
    Finset.sum_const, Finset.card_univ, nsmul_eq_mul]
  unfold total
  field_simp
  ring

include hw in
/-- A round without clamping, around the doubled weights. -/
theorem total_scaled_le (hsymm : ∀ i j, S i j = S j i) (hclear : ∀ i, δ ≤ share S w i)
    (hbound : DiagonalBound S w lam) :
    total S (scaled S δ w) ≤
      total S w * (4 + lam * ((∑ i, 1 / share S w i) / Fintype.card ι - 1)) := by
  have hscaled : scaled S δ w = fun i => w i * (1 / share S w i - 1) + 2 * w i := by
    funext i
    rw [scaled, push, max_eq_left (hclear i)]
    ring
  have hform := hbound fun i => w i * (1 / share S w i - 1)
  rw [sum_push_diagonal hn hw htotal hshare] at hform
  rw [hscaled, total_add_mul hsymm, sum_push_load hn htotal hshare]
  linarith

include hw in
theorem log_total_scaled_le (hsymm : ∀ i j, S i j = S j i) (hclear : ∀ i, δ ≤ share S w i)
    (hbound : DiagonalBound S w lam) (hnext : 0 < total S (scaled S δ w)) :
    log (total S (scaled S δ w)) ≤ log (total S w) +
      (2 * log 2 + lam * ((∑ i, 1 / share S w i) / Fintype.card ι - 1) / 4) := by
  have hgrowth := total_scaled_le hn hw htotal hshare hsymm hclear hbound
  have hquarter : 0 < (4 + lam * ((∑ i, 1 / share S w i) / Fintype.card ι - 1)) / 4 := by
    have hfactor := pos_of_mul_pos_right (hnext.trans_le hgrowth) htotal.le
    linarith
  have htangent := log_le_sub_one_of_pos hquarter
  have hmono := log_le_log hnext hgrowth
  rw [log_mul htotal.ne' (by linarith)] at hmono
  rw [log_div (by linarith) four_ne_zero, log_four_eq] at htangent
  linarith

end Unclamped

theorem potential_scaled_le (hsymm : ∀ i j, S i j = S j i) (hn : 0 < Fintype.card ι)
    (hw : ∀ i, 0 < w i) (htotal : 0 < total S w)
    (hnext : 0 < total S (scaled S δ w)) (hpos : ∀ i, 0 < share S w i)
    (hclear : ∀ i, δ ≤ share S w i) (hafford : Affords lam c b)
    (hshare : ∀ i, 1 ≤ b * share S w i) (hbound : DiagonalBound S w lam) :
    potential S (scaled S δ w) ≤ potential S w - c * gap S w := by
  have hcard : (0 : ℝ) < Fintype.card ι := Nat.cast_pos.mpr hn
  have hx : ∀ i, 0 < 1 / share S w i := fun i => one_div_pos.mpr (hpos i)
  have hlog := log_total_scaled_le hn hw htotal hpos hsymm hclear hbound hnext
  have hrow : ∀ i, lam / 8 * (1 / share S w i - 1) + c * -log (share S w i) + log 2 ≤
      log (1 + 1 / share S w i) + (1 / 2 - lam / 8 - c) * (share S w i - 1) := by
    intro i
    have hpoint := hafford.room _ (hx i) ((div_le_iff₀ (hpos i)).mpr (hshare i))
    rw [log_div (by linarith [hx i]) two_ne_zero, one_div_one_div, one_div (share S w i),
      log_inv] at hpoint
    rw [one_div]
    linarith
  have hsum := Finset.sum_le_sum fun i (_ : i ∈ Finset.univ) => hrow i
  have hweights : ∑ i, log (scaled S δ w i) =
      ∑ i, log (w i) + ∑ i, log (1 + 1 / share S w i) := by
    rw [← Finset.sum_add_distrib]
    refine Finset.sum_congr rfl fun i _ => ?_
    rw [scaled, push, max_eq_left (hclear i), log_mul (hw i).ne' (by linarith [hx i])]
  simp only [Finset.sum_add_distrib, ← Finset.mul_sum, Finset.sum_sub_distrib,
    Finset.sum_neg_distrib, Finset.sum_const, Finset.card_univ, nsmul_eq_mul, mul_one,
    sum_share htotal.ne'] at hsum
  have hhalf := mul_le_mul_of_nonneg_left hlog (half_pos hcard).le
  have hexpand : Fintype.card ι / 2 * (log (total S w) +
      (2 * log 2 + lam * ((∑ i, 1 / share S w i) / Fintype.card ι - 1) / 4)) =
      Fintype.card ι / 2 * log (total S w) + Fintype.card ι * log 2 +
        lam / 8 * ((∑ i, 1 / share S w i) - Fintype.card ι) := by
    field_simp
    ring
  rw [potential_eq hnext, potential_eq htotal, hweights]
  unfold gap
  linarith

/-! ### A sequence of rounds -/

/-- A gap that bounds what is still to be lost, a part of which is lost in every step. -/
theorem gap_decay {g γ : ℕ → ℝ} {m : ℕ} (hc : 0 ≤ c) (hc1 : c ≤ 1)
    (hstep : ∀ k ≤ m, c * γ k ≤ g k - g (k + 1)) (hlow : ∀ k ≤ m, g k - γ k ≤ g (m + 1)) :
    c * γ m ≤ (1 - c) ^ m * γ 0 := by
  have hlost : ∀ k ≤ m, g k - g (m + 1) ≤ (1 - c) ^ k * γ 0 := by
    intro k
    induction k with
    | zero =>
      intro hk
      have hstart := hlow 0 hk
      linarith
    | succ k ih =>
      intro hk
      have hbefore := ih (Nat.le_of_succ_le hk)
      have hlost := hstep k (Nat.le_of_succ_le hk)
      have hleft := hlow k (Nat.le_of_succ_le hk)
      have hpart := mul_le_mul_of_nonneg_left hleft hc
      have hrest := mul_le_mul_of_nonneg_left hbefore (sub_nonneg.mpr hc1)
      rw [pow_succ]
      linarith
  have hlast := hstep m le_rfl
  have hall := hlost m le_rfl
  linarith

namespace Orbit
variable {w : ℕ → ι → ℝ} {δ : ℕ → ℝ} (h : Orbit S w δ) (hafford : Affords lam c b)
variable (hb0 : 0 < b) (hb : b ≤ 10)
include h hafford hb0 hb

theorem potential_next_le {k : ℕ} (hshare : ∀ i, 1 ≤ b * share S (w k) i)
    (hbound : DiagonalBound S (w k) lam) :
    potential S (w (k + 1)) ≤ potential S (w k) - c * gap S (w k) := by
  have hpos : ∀ i, 0 < share S (w k) i := fun i =>
    pos_of_mul_pos_right (one_pos.trans_le (hshare i)) hb0.le
  have hclear : ∀ i, δ k ≤ share S (w k) i := by
    intro i
    have hten := mul_le_mul_of_nonneg_right hb (hpos i).le
    linarith [hshare i, (h.threshold k).2]
  obtain ⟨d, hd, hnext⟩ := h.next k
  rw [hnext, potential_mul_left hd (scaled_pos (h.threshold k).1 (h.pos k)) (h.total_scaled k)]
  exact potential_scaled_le h.symm h.card (h.pos k) (h.total k) (h.total_scaled k) hpos hclear
    hafford hshare hbound

/-- From the round on from which the shares leave room, the gap decays. -/
theorem gap_le (hc : 0 ≤ c) (hc1 : c ≤ 1) (hform : ∀ v, 0 ≤ Scaling.total S v) {k : ℕ}
    (hshare : ∀ l, k ≤ l → ∀ i, 1 ≤ b * share S (w l) i)
    (hbound : ∀ l, k ≤ l → DiagonalBound S (w l) lam) (m : ℕ) :
    c * gap S (w (k + m)) ≤ (1 - c) ^ m * (Fintype.card ι * (b - 1)) := by
  have hpos : ∀ l, k ≤ l → ∀ i, 0 < share S (w l) i := fun l hl i =>
    pos_of_mul_pos_right (one_pos.trans_le (hshare l hl i)) hb0.le
  have hstep : ∀ j ≤ m, c * gap S (w (k + j)) ≤
      potential S (w (k + j)) - potential S (w (k + (j + 1))) := by
    intro j _
    have hle : k ≤ k + j := Nat.le_add_right k j
    have hround := h.potential_next_le hafford hb0 hb (hshare _ hle) (hbound _ hle)
    rw [← add_assoc]
    linarith
  have hlow : ∀ j ≤ m, potential S (w (k + j)) - gap S (w (k + j)) ≤
      potential S (w (k + (m + 1))) := fun j _ =>
    potential_sub_gap_le h.symm hform h.card (h.pos _) (h.pos _) (h.total _) (h.total _)
      (hpos (k + j) (Nat.le_add_right k j))
  have hstart : gap S (w k) ≤ Fintype.card ι * (b - 1) := by
    have hterm : ∀ i, -log (share S (w k) i) ≤ b - 1 := by
      intro i
      have hi := hpos k le_rfl i
      have hlog := one_sub_inv_le_log_of_pos hi
      have hinv : (share S (w k) i)⁻¹ ≤ b := by
        rw [← one_div, div_le_iff₀ hi]
        exact hshare k le_rfl i
      linarith
    calc gap S (w k) = ∑ i, -log (share S (w k) i) := by
          rw [gap, Finset.sum_neg_distrib]
      _ ≤ ∑ _i : ι, (b - 1) := Finset.sum_le_sum fun i _ => hterm i
      _ = Fintype.card ι * (b - 1) := by
        rw [Finset.sum_const, Finset.card_univ, nsmul_eq_mul]
  exact (gap_decay (g := fun j => potential S (w (k + j))) (γ := fun j => gap S (w (k + j)))
    hc hc1 hstep hlow).trans
      (mul_le_mul_of_nonneg_left hstart (pow_nonneg (sub_nonneg.mpr hc1) m))

/-- Where there is room at all weights that are no worse than those at the start, no round
makes them worse. -/
theorem potential_le_start (hc : 0 ≤ c)
    (hlevel : ∀ k, potential S (w k) ≤ potential S (w 0) →
      (∀ i, 1 ≤ b * share S (w k) i) ∧ DiagonalBound S (w k) lam) (k : ℕ) :
    potential S (w k) ≤ potential S (w 0) := by
  induction k with
  | zero => exact le_rfl
  | succ k ih =>
    obtain ⟨hshare, hbound⟩ := hlevel k ih
    have hround := h.potential_next_le hafford hb0 hb hshare hbound
    have hgap : 0 ≤ gap S (w k) := by
      obtain ⟨i⟩ := Fintype.card_pos_iff.mp h.card
      exact (sq_nonneg _).trans (sq_sqrt_share_sub_one_le (h.total k).ne' (fun i =>
        pos_of_mul_pos_right (one_pos.trans_le (hshare i)) hb0.le) i)
    linarith [mul_nonneg hc hgap]

end Orbit

end StandardTools.Lib.Scaling
