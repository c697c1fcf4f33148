import Mathlib.Algebra.BigOperators.Field
import Mathlib.Algebra.Order.BigOperators.Ring.Finset
import Mathlib.Algebra.Order.Field.Basic
import Mathlib.Data.Nat.Cast.Order.Field
import Mathlib.Tactic.FieldSimp
import Mathlib.Tactic.Linarith
import Mathlib.Tactic.Positivity
import Mathlib.Tactic.Ring

/-!
# Damped scaling of a matrix

Weights on the rows and columns of a symmetric matrix load every row; the shares
which the rows have of the whole load are 1 on average. A round of the scaling
multiplies every weight by 1 plus the inverse of its share, where a share below a
threshold counts as the threshold. For a nonnegative matrix two rounds bring
the largest inverse down by a factor, as long as it is above 10.
-/

namespace StandardTools.Lib.Scaling

variable {ι K : Type} [Fintype ι] [Field K]

def load (S : ι → ι → K) (w : ι → K) (i : ι) : K := w i * ∑ j, S i j * w j

def total (S : ι → ι → K) (w : ι → K) : K := ∑ i, load S w i

def share (S : ι → ι → K) (w : ι → K) (i : ι) : K :=
  Fintype.card ι * load S w i / total S w

/-- The inverse of a share, clamped. -/
def push [LinearOrder K] (δ r : K) : K := 1 / max r δ

def scaled [LinearOrder K] (S : ι → ι → K) (δ : K) (w : ι → K) (i : ι) : K :=
  w i * (1 + push δ (share S w i))

/-- The matrix with the weights multiplied in, such that its rows sum to the shares. -/
def weighted (S : ι → ι → K) (w : ι → K) (i j : ι) : K :=
  Fintype.card ι * (w i * S i j * w j) / total S w

variable {S T : ι → ι → K} {w x y : ι → K} {δ : K}

/-! ### Shares -/

theorem sum_share (hcard : total S w ≠ 0) : ∑ i, share S w i = Fintype.card ι := by
  unfold share
  rw [← Finset.sum_div, ← Finset.mul_sum]
  exact mul_div_cancel_right₀ _ hcard

theorem load_mul_left (c : K) (w : ι → K) (i : ι) :
    load S (fun i => c * w i) i = c ^ 2 * load S w i := by
  unfold load
  rw [Finset.sum_congr rfl fun j _ => mul_left_comm (S i j) c (w j), ← Finset.mul_sum]
  ring

theorem total_mul_left (c : K) (w : ι → K) : total S (fun i => c * w i) = c ^ 2 * total S w := by
  unfold total
  rw [Finset.mul_sum]
  exact Finset.sum_congr rfl fun i _ => load_mul_left c w i

theorem share_mul_left {c : K} (hc : c ≠ 0) (w : ι → K) :
    share S (fun i => c * w i) = share S w := by
  funext i
  unfold share
  rw [load_mul_left, total_mul_left, mul_left_comm, mul_div_mul_left _ _ (pow_ne_zero 2 hc)]

theorem sum_weighted (S : ι → ι → K) (w : ι → K) (i : ι) : ∑ j, weighted S w i j = share S w i := by
  unfold weighted share load
  rw [← Finset.sum_div, ← Finset.mul_sum,
    Finset.sum_congr rfl fun j _ => mul_assoc (w i) (S i j) (w j), ← Finset.mul_sum]

theorem load_weighted (S : ι → ι → K) (w f : ι → K) (i : ι) :
    load (weighted S w) f i = Fintype.card ι / total S w * load S (fun i => w i * f i) i := by
  unfold load weighted
  rw [Finset.mul_sum, Finset.mul_sum, Finset.mul_sum]
  refine Finset.sum_congr rfl fun j _ => ?_
  ring

theorem total_weighted (S : ι → ι → K) (w f : ι → K) :
    total (weighted S w) f = Fintype.card ι / total S w * total S (fun i => w i * f i) := by
  unfold total
  rw [Finset.mul_sum]
  exact Finset.sum_congr rfl fun i _ => load_weighted S w f i

/-- The factors of a round may be taken for weights of the weighted matrix. -/
theorem share_weighted (hn : (Fintype.card ι : K) ≠ 0) (hw : total S w ≠ 0) (f : ι → K) :
    share (weighted S w) f = share S fun i => w i * f i := by
  funext i
  have hc : (Fintype.card ι : K) / total S w ≠ 0 := div_ne_zero hn hw
  unfold share
  rw [load_weighted, total_weighted, mul_left_comm, mul_div_mul_left _ _ hc]

theorem load_one_add (T : ι → ι → K) (x : ι → K) (i : ι) :
    load T (fun i => 1 + x i) i =
      (1 + x i) * (∑ j, T i j) + (∑ j, T i j * x j) + load T x i := by
  unfold load
  rw [Finset.sum_congr rfl fun j _ => mul_one_add (T i j) (x j), Finset.sum_add_distrib]
  ring

/-! ### One round -/

variable [LinearOrder K] [IsStrictOrderedRing K]

/-- A symmetric matrix of nonnegative entries with mean row sum 1. -/
structure Loads (T : ι → ι → K) : Prop where
  symm : ∀ i j, T i j = T j i
  nonneg : ∀ i j, 0 ≤ T i j
  sum : ∑ i, ∑ j, T i j = Fintype.card ι

theorem loads_weighted (hsymm : ∀ i j, S i j = S j i) (hnonneg : ∀ i j, 0 ≤ S i j)
    (hw : ∀ i, 0 < w i) (htotal : 0 < total S w) : Loads (weighted S w) where
  symm i j := by
    unfold weighted
    rw [hsymm i j]
    ring
  nonneg i j := by
    have hij := mul_nonneg (mul_nonneg (hw i).le (hnonneg i j)) (hw j).le
    exact div_nonneg (mul_nonneg (Nat.cast_nonneg _) hij) htotal.le
  sum := by
    simp only [sum_weighted]
    exact sum_share htotal.ne'

theorem load_nonneg (hT : ∀ i j, 0 ≤ T i j) (hx : ∀ i, 0 ≤ x i) (i : ι) : 0 ≤ load T x i :=
  mul_nonneg (hx i) (Finset.sum_nonneg fun j _ => mul_nonneg (hT i j) (hx j))

namespace Loads

omit [IsStrictOrderedRing K] in
theorem total_one_add (hT : Loads T) (x : ι → K) :
    total T (fun i => 1 + x i) =
      Fintype.card ι + 2 * ∑ i, x i * ∑ j, T i j + total T x := by
  have hswap : ∑ i, ∑ j, T i j * x j = ∑ i, x i * ∑ j, T i j := by
    rw [Finset.sum_comm]
    refine Finset.sum_congr rfl fun i _ => ?_
    rw [Finset.mul_sum]
    refine Finset.sum_congr rfl fun j _ => ?_
    rw [hT.symm j i, mul_comm]
  unfold total
  simp only [load_one_add, one_add_mul, Finset.sum_add_distrib, hswap, hT.sum]
  ring

/-- Of two rows each takes a half of what they have in common. -/
theorem total_le (hT : Loads T) (x : ι → K) : total T x ≤ ∑ i, x i * (x i * ∑ j, T i j) := by
  have hpair : ∀ i j, 2 * (x i * (T i j * x j)) ≤ x i * (x i * T i j) + x j * (x j * T j i) := by
    intro i j
    have hsq := mul_nonneg (hT.nonneg i j) (sq_nonneg (x i - x j))
    rw [hT.symm j i]
    nlinarith
  have hswap : ∑ i, ∑ j, x j * (x j * T j i) = ∑ i, ∑ j, x i * (x i * T i j) := Finset.sum_comm
  have hsum : ∑ i, ∑ j, 2 * (x i * (T i j * x j)) ≤
      ∑ i, ∑ j, (x i * (x i * T i j) + x j * (x j * T j i)) :=
    Finset.sum_le_sum fun i _ => Finset.sum_le_sum fun j _ => hpair i j
  simp only [Finset.sum_add_distrib, hswap, ← Finset.mul_sum] at hsum
  unfold total load
  linarith

theorem total_one_add_le (hT : Loads T) (hxr : ∀ i, x i * ∑ j, T i j ≤ 1) :
    total T (fun i => 1 + x i) ≤ 3 * Fintype.card ι + total T x := by
  have hsum : ∑ i, x i * ∑ j, T i j ≤ Fintype.card ι := by
    calc ∑ i, x i * ∑ j, T i j ≤ ∑ _i : ι, (1 : K) := Finset.sum_le_sum fun i _ => hxr i
      _ = Fintype.card ι := by simp
  rw [hT.total_one_add]
  linarith

section Round
variable (hT : Loads T) (hx : ∀ i, 0 ≤ x i) (hxr : ∀ i, x i * ∑ j, T i j ≤ 1)
include hT hx hxr

theorem total_le_sum : total T x ≤ ∑ i, x i :=
  (hT.total_le x).trans
    (Finset.sum_le_sum fun i _ => mul_le_of_le_one_right (hx i) (hxr i))

theorem load_le {τ : K} (hτ : ∀ i, x i ≤ τ) (i : ι) : load T x i ≤ τ := by
  have hi : ∑ j, T i j * x j ≤ τ * ∑ j, T i j := by
    rw [Finset.mul_sum]
    refine Finset.sum_le_sum fun j _ => ?_
    rw [mul_comm]
    exact mul_le_mul_of_nonneg_right (hτ j) (hT.nonneg i j)
  calc load T x i ≤ x i * (τ * ∑ j, T i j) := mul_le_mul_of_nonneg_left hi (hx i)
    _ = τ * (x i * ∑ j, T i j) := by ring
    _ ≤ τ := mul_le_of_le_one_right ((hx i).trans (hτ i)) (hxr i)

theorem total_le_card {τ : K} (hτ : ∀ i, x i ≤ τ) : total T x ≤ Fintype.card ι * τ := by
  calc total T x ≤ ∑ _i : ι, τ := Finset.sum_le_sum fun i _ => hT.load_le hx hxr hτ i
    _ = Fintype.card ι * τ := by rw [Finset.sum_const, Finset.card_univ, nsmul_eq_mul]

end Round

/-- A round keeps of every row what it was pushed by, and what it is pushed by
together with the others. -/
theorem le_load_one_add (hT : Loads T) (hx : ∀ i, 0 ≤ x i) (i : ι) :
    x i * (∑ j, T i j) ≤ load T (fun i => 1 + x i) i ∧
      load T x i ≤ load T (fun i => 1 + x i) i := by
  have hrow : 0 ≤ ∑ j, T i j := Finset.sum_nonneg fun j _ => hT.nonneg i j
  have hrow' : 0 ≤ ∑ j, T i j * x j :=
    Finset.sum_nonneg fun j _ => mul_nonneg (hT.nonneg i j) (hx j)
  have hpush := mul_nonneg (hx i) hrow
  have hload := load_nonneg hT.nonneg hx i
  rw [load_one_add, one_add_mul]
  constructor <;> linarith

theorem card_le_total_one_add (hT : Loads T) (hx : ∀ i, 0 ≤ x i) :
    Fintype.card ι ≤ total T (fun i => 1 + x i) := by
  have hpush : 0 ≤ ∑ i, x i * ∑ j, T i j := Finset.sum_nonneg fun i _ =>
    mul_nonneg (hx i) (Finset.sum_nonneg fun j _ => hT.nonneg i j)
  have hpull : 0 ≤ total T x := Finset.sum_nonneg fun i _ => load_nonneg hT.nonneg hx i
  rw [hT.total_one_add]
  linarith

/-- What is left of the share of a row that is pushed by `c` at least. -/
theorem le_share_one_add (hT : Loads T) (hn : 0 < Fintype.card ι) (hx : ∀ i, 0 ≤ x i)
    (hxr : ∀ i, x i * ∑ j, T i j ≤ 1) {c : K} {i : ι} (hc : c ≤ x i * ∑ j, T i j) :
    c ≤ (3 + total T x / Fintype.card ι) * share T (fun i => 1 + x i) i := by
  have hcard : (0 : K) < Fintype.card ι := Nat.cast_pos.mpr hn
  have htotal := hcard.trans_le (hT.card_le_total_one_add hx)
  have hload := hc.trans (hT.le_load_one_add hx i).1
  have hpos : 0 ≤ load T (fun i => 1 + x i) i :=
    load_nonneg hT.nonneg (fun i => by linarith [hx i]) i
  have hfactor : 1 ≤ (3 * Fintype.card ι + total T x) / total T (fun i => 1 + x i) :=
    (one_le_div htotal).mpr (hT.total_one_add_le hxr)
  calc c ≤ (3 * Fintype.card ι + total T x) / total T (fun i => 1 + x i) *
        load T (fun i => 1 + x i) i := hload.trans (le_mul_of_one_le_left hpos hfactor)
    _ = (3 + total T x / Fintype.card ι) * share T (fun i => 1 + x i) i := by
      unfold share
      field_simp

/-- The next round pushes the less the more the rows were pushed together in this one. -/
theorem sum_next_le (hT : Loads T) (hn : 0 < Fintype.card ι) (hx : ∀ i, 0 ≤ x i)
    (hxr : ∀ i, x i * ∑ j, T i j ≤ 1) {τ τ' : K} (hτ : ∀ i, x i ≤ τ) (hy : ∀ i, 0 ≤ y i)
    (hyτ : ∀ i, y i ≤ τ') (hyr : ∀ i, y i * share T (fun i => 1 + x i) i ≤ 1) :
    τ * ((∑ i, y i) / Fintype.card ι) + τ' * (total T x / Fintype.card ι) ≤
      τ * τ' + (3 + total T x / Fintype.card ι) := by
  have hcard : (0 : K) < Fintype.card ι := Nat.cast_pos.mpr hn
  have htotal := hcard.trans_le (hT.card_le_total_one_add hx)
  have hrow : ∀ i, τ * y i + τ' * load T x i ≤
      τ * τ' + (3 + total T x / Fintype.card ι) := by
    intro i
    have hpull : y i * load T x i ≤ 3 + total T x / Fintype.card ι := by
      have hshare := hyr i
      unfold share at hshare
      rw [← mul_div_assoc, div_le_one htotal] at hshare
      have hkept := mul_le_mul_of_nonneg_left (hT.le_load_one_add hx i).2 (hy i)
      have hround := hT.total_one_add_le hxr
      have hscaled : Fintype.card ι * (y i * load T x i) ≤
          Fintype.card ι * (3 + total T x / Fintype.card ι) := by
        rw [mul_add, mul_div_cancel₀ _ hcard.ne']
        nlinarith
      exact le_of_mul_le_mul_left hscaled hcard
    have hslack := mul_le_mul_of_nonneg_left (hT.load_le hx hxr hτ i) (sub_nonneg.mpr (hyτ i))
    linarith
  have hsum : ∑ i, (τ * y i + τ' * load T x i) ≤
      Fintype.card ι * (τ * τ' + (3 + total T x / Fintype.card ι)) := by
    calc ∑ i, (τ * y i + τ' * load T x i)
        ≤ ∑ _i : ι, (τ * τ' + (3 + total T x / Fintype.card ι)) :=
          Finset.sum_le_sum fun i _ => hrow i
      _ = _ := by rw [Finset.sum_const, Finset.card_univ, nsmul_eq_mul]
  rw [Finset.sum_add_distrib, ← Finset.mul_sum, ← Finset.mul_sum] at hsum
  have hsum' : τ * ((∑ i, y i) / Fintype.card ι) + τ' * (total T x / Fintype.card ι) =
      (τ * ∑ i, y i + τ' * ∑ i, load T x i) / Fintype.card ι := by
    unfold total
    ring
  rw [hsum', div_le_iff₀ hcard]
  linarith

end Loads

/-! ### Pushes -/

theorem push_nonneg {r : K} (hδ : 0 < δ) : 0 ≤ push δ r :=
  one_div_nonneg.mpr (hδ.le.trans (le_max_right r δ))

theorem push_mul_le_one {r : K} (hδ : 0 < δ) : push δ r * r ≤ 1 := by
  unfold push
  rw [one_div_mul_eq_div, div_le_one (hδ.trans_le (le_max_right r δ))]
  exact le_max_left r δ

theorem push_le {r X : K} (hδ : 0 < δ) (hX : 1 ≤ X * r) (hX0 : 0 < X) :
    push δ r ≤ min X (1 / δ) := by
  have hr : 0 < r := pos_of_mul_pos_right (one_pos.trans_le hX) hX0.le
  refine le_min ?_ (one_div_le_one_div_of_le hδ (le_max_right r δ))
  unfold push
  rw [div_le_iff₀ (lt_max_of_lt_left hr)]
  exact hX.trans (mul_le_mul_of_nonneg_left (le_max_left r δ) hX0.le)

theorem scaled_pos (hδ : 0 < δ) (hw : ∀ i, 0 < w i) (i : ι) : 0 < scaled S δ w i :=
  mul_pos (hw i) (add_pos_of_pos_of_nonneg one_pos (push_nonneg hδ))

/-- A clamped share is pushed by less than 1 in all, but not by little. -/
theorem le_push_mul {r X : K} (hδ : 0 < δ) (hX : 1 ≤ X * r) (hX0 : 0 < X) :
    min X (1 / δ) / X ≤ push δ r * r := by
  have hr : 0 < r := pos_of_mul_pos_right (one_pos.trans_le hX) hX0.le
  unfold push
  rw [one_div_mul_eq_div]
  rcases le_total δ r with hle | hle
  · rw [max_eq_left hle, div_self hr.ne', div_le_one hX0]
    exact min_le_left _ _
  · rw [max_eq_right hle, div_le_div_iff₀ hX0 hδ]
    calc min X (1 / δ) * δ ≤ 1 / δ * δ := mul_le_mul_of_nonneg_right (min_le_right _ _) hδ.le
      _ = 1 := one_div_mul_cancel hδ.ne'
      _ ≤ r * X := by rw [mul_comm]; exact hX

/-! ### Two rounds -/

/-- Bounds `X`, `Y` and `Z` of the inverse shares over two rounds, which push by at most
`τ` and `τ'` and by `a` and `a'` on average. -/
theorem bound_two_rounds {X Y τ τ' a a' c c' : K} (hX : 10 ≤ X) (hc : 10 ≤ c) (hc' : 10 ≤ c')
    (hτ : τ = min X c) (ha : 0 ≤ a) (haτ : a ≤ τ) (hY : Y = (3 + a) / (τ / X)) (hτ' : τ' = min Y c')
    (ha' : τ * a' + τ' * a ≤ τ * τ' + (3 + a)) :
    (3 + a') / (τ' / Y) ≤ 3 / 4 * X + 3 / 2 := by
  have hτ10 : 10 ≤ τ := hτ ▸ le_min hX hc
  have hτ0 : 0 < τ := by linarith
  have hX0 : 0 < X := by linarith
  have hY' : Y * τ = (3 + a) * X := by
    rw [hY]
    field_simp
  have hY0 : 0 < Y := by
    rw [hY]
    positivity
  have hsmall : 3 + a ≤ 3 / 10 * τ + a := by linarith
  rcases le_total Y c' with hle | hle
  · rw [min_eq_left hle] at hτ'
    rw [hτ', div_self hY0.ne', div_one]
    -- The geometric mean of `3 + a` and `τ - a` is below their arithmetic mean.
    have hproduct : (3 + a) * (τ - a) ≤ 169 / 400 * τ ^ 2 := by
      have hmul := mul_le_mul_of_nonneg_right hsmall (sub_nonneg.mpr haτ)
      have hsquare := sq_nonneg (a - 7 / 20 * τ)
      linarith
    have hpush : τ ^ 2 * a' ≤ 169 / 400 * τ ^ 2 * X + 13 / 10 * τ ^ 2 := by
      have hmul := mul_le_mul_of_nonneg_left ha' hτ0.le
      have hbound := mul_le_mul_of_nonneg_right hproduct hX0.le
      have hrest : τ * (3 + a) ≤ 13 / 10 * τ ^ 2 := by nlinarith
      rw [hτ'] at hmul
      have hswap : τ * (Y * (τ - a)) = (3 + a) * (τ - a) * X := by
        calc τ * (Y * (τ - a)) = Y * τ * (τ - a) := by ring
          _ = (3 + a) * (τ - a) * X := by rw [hY']; ring
      linarith
    have hscaled : τ ^ 2 * (3 + a') ≤ τ ^ 2 * (3 / 4 * X + 3 / 2) := by
      have hlarge := mul_le_mul_of_nonneg_left hX (sq_nonneg τ)
      linarith [sq_nonneg τ]
    exact le_of_mul_le_mul_left hscaled (pow_pos hτ0 2)
  · rw [min_eq_right hle] at hτ'
    have hc0 : 0 < c' := by linarith
    rw [hτ', div_div_eq_mul_div, div_le_iff₀ hc0]
    have hproduct : (143 / 100 * τ - a) * (3 + a) ≤ 3 / 4 * τ ^ 2 := by
      have hmul := mul_le_mul_of_nonneg_left hsmall
        (show 0 ≤ 143 / 100 * τ - a by linarith)
      have hsquare := sq_nonneg (a - 113 / 200 * τ)
      linarith [sq_nonneg τ]
    have hpush : 3 * τ + τ * a' ≤ c' * (143 / 100 * τ - a) := by
      rw [hτ'] at ha'
      have hlarge : 13 * τ ≤ 13 / 10 * (c' * τ) := by nlinarith
      have hthree : 3 * τ + 3 + a ≤ 43 / 10 * τ := by linarith
      linarith
    have hscaled : τ ^ 2 * ((3 + a') * Y) ≤ τ ^ 2 * (3 / 4 * X * c') := by
      have hfirst := mul_le_mul_of_nonneg_right hpush
        (mul_nonneg (show 0 ≤ 3 + a by linarith) hX0.le)
      have hsecond := mul_le_mul_of_nonneg_left hproduct (mul_nonneg hc0.le hX0.le)
      have hswap : τ ^ 2 * ((3 + a') * Y) = (3 * τ + τ * a') * ((3 + a) * X) := by
        calc τ ^ 2 * ((3 + a') * Y) = (3 * τ + τ * a') * (Y * τ) := by ring
          _ = (3 * τ + τ * a') * ((3 + a) * X) := by rw [hY']
      linarith
    have hbound := le_of_mul_le_mul_left hscaled (pow_pos hτ0 2)
    linarith

section Rounds
variable (hsymm : ∀ i j, S i j = S j i) (hnonneg : ∀ i j, 0 ≤ S i j)
include hsymm hnonneg

/-- One round from shares of at least `1 / X`. -/
theorem one_round (hn : 0 < Fintype.card ι) (hw : ∀ i, 0 < w i) (htotal : 0 < total S w)
    (hδ : 0 < δ) {X : K} (hX0 : 0 < X) (hshare : ∀ i, 1 ≤ X * share S w i) :
    ∃ a, 0 ≤ a ∧ a ≤ min X (1 / δ) ∧ a ≤ (∑ i, push δ (share S w i)) / Fintype.card ι ∧
      (∀ i, 1 ≤ (3 + a) / (min X (1 / δ) / X) * share S (scaled S δ w) i) ∧
      ∀ (τ' : K) (y : ι → K), (∀ i, 0 ≤ y i) → (∀ i, y i ≤ τ') →
        (∀ i, y i * share S (scaled S δ w) i ≤ 1) →
        min X (1 / δ) * ((∑ i, y i) / Fintype.card ι) + τ' * a ≤ min X (1 / δ) * τ' + (3 + a) := by
  have hcard : (0 : K) < Fintype.card ι := Nat.cast_pos.mpr hn
  have hT := loads_weighted hsymm hnonneg hw htotal
  have hx : ∀ i, 0 ≤ push δ (share S w i) := fun i => push_nonneg hδ
  have hxr : ∀ i, push δ (share S w i) * ∑ j, weighted S w i j ≤ 1 := by
    intro i
    rw [sum_weighted]
    exact push_mul_le_one hδ
  have hτ : ∀ i, push δ (share S w i) ≤ min X (1 / δ) := fun i => push_le hδ (hshare i) hX0
  have hnext : share (weighted S w) (fun i => 1 + push δ (share S w i)) = share S (scaled S δ w) :=
    share_weighted hcard.ne' htotal.ne' _
  have hτ0 : 0 < min X (1 / δ) := lt_min hX0 (one_div_pos.mpr hδ)
  refine ⟨total (weighted S w) (fun i => push δ (share S w i)) / Fintype.card ι, ?_, ?_, ?_, ?_, ?_⟩
  · exact div_nonneg (Finset.sum_nonneg fun i _ => load_nonneg hT.nonneg hx i) hcard.le
  · rw [div_le_iff₀ hcard, mul_comm]
    exact hT.total_le_card hx hxr hτ
  · exact div_le_div_of_nonneg_right (hT.total_le_sum hx hxr) hcard.le
  · intro i
    have hc : min X (1 / δ) / X ≤ push δ (share S w i) * ∑ j, weighted S w i j := by
      rw [sum_weighted]
      exact le_push_mul hδ (hshare i) hX0
    have hkept := hT.le_share_one_add hn hx hxr hc
    rw [hnext] at hkept
    rw [div_mul_eq_mul_div, one_le_div (div_pos hτ0 hX0)]
    exact hkept
  · intro τ' y hy hyτ hyr
    rw [← hnext] at hyr
    exact hT.sum_next_le hn hx hxr hτ hy hyτ hyr

theorem two_rounds (hn : 0 < Fintype.card ι) (hw : ∀ i, 0 < w i) (htotal : 0 < total S w)
    (hδ : 0 < δ) (hδ10 : δ ≤ 1 / 10) {δ' : K} (hδ' : 0 < δ') (hδ10' : δ' ≤ 1 / 10)
    (hnext : 0 < total S (scaled S δ w)) {X : K} (hX : 10 ≤ X)
    (hshare : ∀ i, 1 ≤ X * share S w i) (i : ι) :
    1 ≤ (3 / 4 * X + 3 / 2) * share S (scaled S δ' (scaled S δ w)) i := by
  have hX0 : 0 < X := by linarith
  have hc : ∀ {ε : K}, 0 < ε → ε ≤ 1 / 10 → 10 ≤ 1 / ε := by
    intro ε hε hε10
    rw [le_div_iff₀ hε]
    linarith
  obtain ⟨a, ha, haτ, -, hshare', hpush⟩ := one_round hsymm hnonneg hn hw htotal hδ hX0 hshare
  have hτ : 0 < min X (1 / δ) / X := div_pos (lt_min hX0 (one_div_pos.mpr hδ)) hX0
  have hY : 0 < (3 + a) / (min X (1 / δ) / X) := div_pos (by linarith) hτ
  obtain ⟨a', ha', -, hmean, hshare'', -⟩ :=
    one_round hsymm hnonneg hn (scaled_pos hδ hw) hnext hδ' hY hshare'
  have hbalance := hpush _ (fun i => push δ' (share S (scaled S δ w) i))
    (fun i => push_nonneg hδ') (fun i => push_le hδ' (hshare' i) hY)
    (fun i => push_mul_le_one hδ')
  have hτ0 : 0 ≤ min X (1 / δ) := ha.trans haτ
  have hbound := bound_two_rounds hX (hc hδ hδ10) (hc hδ' hδ10') rfl ha haτ rfl rfl
    ((add_le_add_left (mul_le_mul_of_nonneg_left hmean hτ0) _).trans hbalance)
  have hlast := hshare'' i
  have hfactor : 0 < (3 + a') / (min ((3 + a) / (min X (1 / δ) / X)) (1 / δ') /
      ((3 + a) / (min X (1 / δ) / X))) :=
    div_pos (by linarith) (div_pos (lt_min hY (one_div_pos.mpr hδ')) hY)
  have hpos := pos_of_mul_pos_right (one_pos.trans_le hlast) hfactor.le
  exact hlast.trans (mul_le_mul_of_nonneg_right hbound hpos.le)

end Rounds

/-! ### A sequence of rounds -/

/-- Weights that are scaled again and again. Neither what they are multiplied by in
all nor the thresholds matter, as long as these are small. -/
structure Orbit (S : ι → ι → K) (w : ℕ → ι → K) (δ : ℕ → K) : Prop where
  symm : ∀ i j, S i j = S j i
  card : 0 < Fintype.card ι
  pos : ∀ k i, 0 < w k i
  total : ∀ k, 0 < total S (w k)
  threshold : ∀ k, 0 < δ k ∧ δ k ≤ 1 / 10
  next : ∀ k, ∃ c, 0 < c ∧ w (k + 1) = fun i => c * scaled S (δ k) (w k) i

namespace Orbit
variable {w : ℕ → ι → K} {δ : ℕ → K} (h : Orbit S w δ)
include h

omit [IsStrictOrderedRing K] in
theorem share_next (k : ℕ) : share S (w (k + 1)) = share S (scaled S (δ k) (w k)) := by
  obtain ⟨c, hc, hnext⟩ := h.next k
  rw [hnext, share_mul_left hc.ne']

theorem total_scaled (k : ℕ) : 0 < Scaling.total S (scaled S (δ k) (w k)) := by
  obtain ⟨c, hc, hnext⟩ := h.next k
  have htotal := h.total (k + 1)
  rw [hnext, total_mul_left] at htotal
  exact pos_of_mul_pos_right htotal (pow_pos hc 2).le

omit [IsStrictOrderedRing K] in
theorem scaled_next (k : ℕ) : ∃ c, 0 < c ∧
    scaled S (δ (k + 1)) (w (k + 1)) =
      fun i => c * scaled S (δ (k + 1)) (scaled S (δ k) (w k)) i := by
  obtain ⟨c, hc, hnext⟩ := h.next k
  refine ⟨c, hc, funext fun i => ?_⟩
  unfold scaled
  rw [h.share_next k, congrFun hnext i]
  exact mul_assoc _ _ _

variable (hnonneg : ∀ i j, 0 ≤ S i j)
include hnonneg

theorem share_two {k : ℕ} {X : K} (hX : 10 ≤ X) (hshare : ∀ i, 1 ≤ X * share S (w k) i) (i : ι) :
    1 ≤ (3 / 4 * X + 3 / 2) * share S (w (k + 2)) i := by
  obtain ⟨c, hc, hscaled⟩ := h.scaled_next k
  have hbound := two_rounds h.symm hnonneg h.card (h.pos k) (h.total k) (h.threshold k).1
    (h.threshold k).2 (h.threshold (k + 1)).1 (h.threshold (k + 1)).2 (h.total_scaled k) hX hshare i
  rw [h.share_next (k + 1), hscaled, share_mul_left hc.ne']
  exact hbound

theorem share_one {k : ℕ} {X : K} (hX : 10 ≤ X) (hshare : ∀ i, 1 ≤ X * share S (w k) i) (i : ι) :
    1 ≤ 13 / 10 * X * share S (w (k + 1)) i := by
  have hX0 : 0 < X := by linarith
  obtain ⟨hδ, hδ10⟩ := h.threshold k
  obtain ⟨a, ha, haτ, -, hshare', -⟩ :=
    one_round h.symm hnonneg h.card (h.pos k) (h.total k) hδ hX0 hshare
  have hτ10 : 10 ≤ min X (1 / δ k) := by
    refine le_min hX ?_
    rw [le_div_iff₀ hδ]
    linarith
  have hτ0 : 0 < min X (1 / δ k) / X := div_pos (by linarith) hX0
  have hbound : (3 + a) / (min X (1 / δ k) / X) ≤ 13 / 10 * X := by
    rw [div_div_eq_mul_div, div_le_iff₀ (by linarith)]
    nlinarith
  have hlast := hshare' i
  have hpos := pos_of_mul_pos_right (one_pos.trans_le hlast) (div_pos (by linarith) hτ0).le
  rw [h.share_next]
  exact hlast.trans (mul_le_mul_of_nonneg_right hbound hpos.le)

/-- What the inverse shares exceed 10 by is lost at a geometric rate. -/
theorem share_even {k : ℕ} {X : K} (hX : 10 ≤ X) (hshare : ∀ i, 1 ≤ X * share S (w k) i)
    (m : ℕ) (i : ι) : 1 ≤ (10 + (3 / 4) ^ m * (X - 10)) * share S (w (k + 2 * m)) i := by
  induction m generalizing i with
  | zero =>
    have hstart := hshare i
    rw [pow_zero, one_mul, add_sub_cancel]
    exact hstart
  | succ m ih =>
    have hexcess : 0 ≤ (3 / 4 : K) ^ m * (X - 10) :=
      mul_nonneg (by positivity) (sub_nonneg.mpr hX)
    have hbound := h.share_two hnonneg (by linarith) ih i
    have hpos := pos_of_mul_pos_right (one_pos.trans_le hbound) (by linarith)
    refine hbound.trans (mul_le_mul_of_nonneg_right ?_ hpos.le)
    rw [pow_succ]
    linarith

theorem tenth_le_even {k : ℕ} {X : K} (hX : 10 ≤ X) (hshare : ∀ i, 1 ≤ X * share S (w k) i)
    {m : ℕ} (hm : (3 / 4) ^ m * (X - 10) ≤ 1) (j : ℕ) (i : ι) :
    1 ≤ 10 * share S (w (k + 2 * m + 2 * (j + 1))) i := by
  induction j generalizing i with
  | zero =>
    have hlate : ∀ i, 1 ≤ 11 * share S (w (k + 2 * m)) i := by
      intro i
      have hbound := h.share_even hnonneg hX hshare m i
      have hexcess : 0 ≤ (3 / 4 : K) ^ m * (X - 10) :=
        mul_nonneg (by positivity) (sub_nonneg.mpr hX)
      have hpos := pos_of_mul_pos_right (one_pos.trans_le hbound) (by linarith)
      exact hbound.trans (mul_le_mul_of_nonneg_right (by linarith) hpos.le)
    have hbound := h.share_two hnonneg (by norm_num) hlate i
    norm_num at hbound ⊢
    linarith
  | succ j ih =>
    have hbound := h.share_two hnonneg le_rfl ih i
    have hindex : k + 2 * m + 2 * (j + 1 + 1) = k + 2 * m + 2 * (j + 1) + 2 := by ring
    rw [hindex]
    norm_num at hbound ⊢
    linarith

/-- From some round on no share is below a tenth. -/
theorem tenth_le {X : K} (hX : 10 ≤ X) (hshare : ∀ i, 1 ≤ X * share S (w 0) i) {m : ℕ}
    (hm : (3 / 4) ^ m * (13 / 10 * X - 10) ≤ 1) {k : ℕ} (hk : 2 * m + 3 ≤ k) (i : ι) :
    1 ≤ 10 * share S (w k) i := by
  have hpow : (0 : K) ≤ (3 / 4) ^ m := by positivity
  obtain ⟨j, hj | hj⟩ : ∃ j, k = 0 + 2 * m + 2 * (j + 1) ∨ k = 1 + 2 * m + 2 * (j + 1) :=
    ⟨(k - 2 * m) / 2 - 1, by omega⟩
  · rw [hj]
    refine h.tenth_le_even hnonneg hX hshare (le_trans ?_ hm) j i
    exact mul_le_mul_of_nonneg_left (by linarith) hpow
  · rw [hj]
    exact h.tenth_le_even hnonneg (by linarith) (h.share_one hnonneg hX hshare) hm j i

end Orbit

end StandardTools.Lib.Scaling
