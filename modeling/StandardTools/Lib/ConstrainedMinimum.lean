import Mathlib.LinearAlgebra.Matrix.PosDef
import Mathlib.Tactic.Linarith
import Mathlib.Tactic.Ring

/-!
# Extrema of a positive definite form

The least value of `B v v` where linear functionals of `v` are prescribed, and
the largest quotient of `e v` and a root of `B v v` on a hyperplane. A vector
`w` is a minimum where `B w`, half the gradient of the form at `w`, is a
combination of the prescribed functionals.
-/

namespace StandardTools.Lib

variable {R : Type} [Field R]
variable {E : Type} [AddCommGroup E] [Module R E] {B : LinearMap.BilinForm R E}

/-- The vectors at which the gradient of the form is a combination of two
functionals. -/
def twoFunds (B : LinearMap.BilinForm R E) (f g : E →ₗ[R] R) : Submodule R E :=
  (Submodule.span R {f, g}).comap B

theorem mem_twoFunds {f g : E →ₗ[R] R} {w : E} :
    w ∈ twoFunds B f g ↔ ∃ a b : R, ∀ v, B w v = a * f v + b * g v := by
  unfold twoFunds
  rw [Submodule.mem_comap, Submodule.mem_span_pair]
  constructor
  · intro h
    obtain ⟨a, b, heq⟩ := h
    refine ⟨a, b, fun v => ?_⟩
    rw [← heq]
    rfl
  · intro h
    obtain ⟨a, b, heq⟩ := h
    refine ⟨a, b, LinearMap.ext fun v => ?_⟩
    rw [heq v]
    rfl

theorem apply_self_split (hsymm : LinearMap.IsSymm B) {w v : E} (h : B w (v - w) = 0) :
    B v v = B w w + B (v - w) (v - w) := by
  have hcross : B (v - w) w = 0 := (hsymm.eq w (v - w)).symm.trans h
  have hv : v = w + (v - w) := by rw [add_sub_cancel]
  calc B v v = B (w + (v - w)) (w + (v - w)) := by rw [← hv]
    _ = B w w + B (v - w) (v - w) := by
      simp only [map_add, LinearMap.add_apply, h, hcross, add_zero, zero_add]

variable [LinearOrder R]

theorem apply_self_nonneg (hpos : ∀ x, x ≠ 0 → 0 < B x x) (x : E) : 0 ≤ B x x := by
  by_cases hx : x = 0
  · rw [hx, map_zero]
  · exact (hpos x hx).le

section

variable [IsStrictOrderedRing R]
variable (hsymm : LinearMap.IsSymm B) (hpos : ∀ x, x ≠ 0 → 0 < B x x)
include hsymm hpos

theorem apply_self_le {w v : E} (h : B w (v - w) = 0) : B w w ≤ B v v := by
  have hrest := apply_self_nonneg hpos (v - w)
  have hsplit := apply_self_split hsymm h
  linarith

theorem eq_of_apply_self_le {w v : E} (h : B w (v - w) = 0) (hle : B v v ≤ B w w) : v = w := by
  by_contra hne
  have hrest := hpos (v - w) (sub_ne_zero.mpr hne)
  have hsplit := apply_self_split hsymm h
  linarith

theorem twoFunds_minimal {f g : E →ₗ[R] R} {w v : E} (hw : w ∈ twoFunds B f g)
    (hf : f v = f w) (hg : g v = g w) : B w w ≤ B v v := by
  obtain ⟨a, b, heq⟩ := mem_twoFunds.mp hw
  apply apply_self_le hsymm hpos
  rw [heq, map_sub, map_sub, hf, hg, sub_self, sub_self]
  ring

end

section

variable [IsStrictOrderedRing R]
variable (hsymm : LinearMap.IsSymm B) (hpos : ∀ x, x ≠ 0 → 0 < B x x)
variable {e : E → R} {k : E} (hk : ∀ v, B k v = e v)
variable {g : E →ₗ[R] R} {w : E} (hw : g w = 1) {b : R} (hgradient : ∀ v, B w v = b * g v)
include hsymm hpos hw hgradient

theorem minimum_unique {v : E} (hv : g v = 1) (hle : B v v ≤ B w w) : v = w := by
  have horthogonal : B w (v - w) = 0 := by
    rw [hgradient, map_sub, hv, hw, sub_self, mul_zero]
  exact eq_of_apply_self_le hsymm hpos horthogonal hle

include hk

/-- At the minimum of the form on a hyperplane, a functional has the sign which the
hyperplane's own functional has at the vector that represents it. -/
theorem minimum_value_pos_iff : 0 < e w ↔ 0 < g k := by
  have hne : w ≠ 0 := by
    intro hzero
    rw [hzero, map_zero] at hw
    exact zero_ne_one hw
  have hb : 0 < b := by
    have hvalue := hgradient w
    rw [hw, mul_one] at hvalue
    exact hvalue ▸ hpos w hne
  have hvalue : e w = b * g k := by
    rw [← hk, ← hgradient]
    exact hsymm.eq k w
  rw [hvalue]
  exact mul_pos_iff_of_pos_left hb

theorem exists_minimum_pos_iff :
    (∃ v, g v = 1 ∧ (∀ u, g u = 1 → B v v ≤ B u u) ∧ 0 < e v) ↔ 0 < g k := by
  rw [← minimum_value_pos_iff hsymm hpos hk hw hgradient]
  constructor
  · intro h
    obtain ⟨v, hv, hleast, hvalue⟩ := h
    rw [minimum_unique hsymm hpos hw hgradient hv (hleast w hw)] at hvalue
    exact hvalue
  · intro h
    refine ⟨w, hw, fun u hu => ?_, h⟩
    apply apply_self_le hsymm hpos
    rw [hgradient, map_sub, hu, hw, sub_self, mul_zero]

end

section

variable (hpos : ∀ x, x ≠ 0 → 0 < B x x) {g : E →ₗ[R] R} {u : E} (hu : ∀ v, B u v = g v)
include hpos hu

theorem representer_pos {x : E} (hx : g x ≠ 0) : 0 < g u := by
  rw [← hu]
  apply hpos
  intro hzero
  apply hx
  rw [← hu, hzero, map_zero]
  rfl

/-- The multiple of its representer on the hyperplane of a functional is the least
vector there. -/
theorem representer_minimum {x : E} (hx : g x ≠ 0) :
    g ((1 / g u) • u) = 1 ∧ ∀ v, B ((1 / g u) • u) v = 1 / g u * g v := by
  constructor
  · rw [map_smul, smul_eq_mul]
    exact one_div_mul_cancel (representer_pos hpos hu hx).ne'
  · intro v
    rw [map_smul, LinearMap.smul_apply, hu, smul_eq_mul]

end

/-! ### The quotient of a functional and the root of the form -/

section

variable [IsStrictOrderedRing R]
variable (hsymm : LinearMap.IsSymm B) (hpos : ∀ x, x ≠ 0 → 0 < B x x)
variable {root : E → R} (hroot : ∀ v, 0 ≤ root v ∧ root v ^ 2 = B v v)
variable {e : E → R} {k : E} (hk : ∀ v, B k v = e v)
include hsymm hpos hroot hk

theorem quotient_le (v : E) : e v / root v ≤ root k := by
  have hcs : e v ^ 2 ≤ (root k * root v) ^ 2 := by
    rw [mul_pow, (hroot k).2, (hroot v).2, ← hk]
    exact LinearMap.BilinForm.apply_sq_le_of_symm B (apply_self_nonneg hpos) hsymm k v
  have hle := abs_le_of_sq_le_sq hcs (mul_nonneg (hroot k).1 (hroot v).1)
  exact div_le_of_le_mul₀ (hroot v).1 (hroot k).1 ((le_abs_self _).trans hle)

theorem neg_lt_quotient {v : E} (hind : LinearIndependent R ![k, v]) : -root k < e v / root v := by
  have hv : v ≠ 0 := hind.ne_zero 1
  have hrootv : 0 < root v := by
    apply lt_of_le_of_ne (hroot v).1
    intro hzero
    have hsq := (hroot v).2
    rw [← hzero, zero_pow two_ne_zero] at hsq
    exact (hpos v hv).ne hsq
  have hcs : e v ^ 2 < (root k * root v) ^ 2 := by
    rw [mul_pow, (hroot k).2, (hroot v).2, ← hk]
    exact (LinearMap.BilinForm.apply_sq_lt_iff_linearIndependent_of_symm B hpos hsymm k v).mpr hind
  rw [lt_div_iff₀ hrootv, neg_mul]
  exact (abs_lt_of_sq_lt_sq' hcs (mul_nonneg (hroot k).1 hrootv.le)).1

omit hsymm hpos in
theorem quotient_smul {c : R} (hc : c ≠ 0) : e (c • k) / root (c • k) = c / |c| * root k := by
  have hrootc : root (c • k) = |c| * root k := by
    rw [← sq_eq_sq₀ (hroot _).1 (mul_nonneg (abs_nonneg c) (hroot k).1), mul_pow, sq_abs,
      (hroot _).2, (hroot k).2]
    simp only [map_smul, LinearMap.smul_apply, smul_eq_mul]
    ring
  have hvalue : e (c • k) = c * (root k * root k) := by
    rw [← hk, map_smul, smul_eq_mul, ← sq, (hroot k).2]
  rw [hrootc, hvalue]
  by_cases hzero : root k = 0
  · rw [hzero, mul_zero, mul_zero, zero_div, mul_zero]
  · have habs : |c| ≠ 0 := abs_ne_zero.mpr hc
    field_simp

/-- On a hyperplane the multiple of `k` is the maximum, or else the minimum. -/
theorem quotient_max_iff {g : E →ₗ[R] R} (hg : g k ≠ 0) :
    (∀ v, g v = 1 → e v / root v ≤ e ((1 / g k) • k) / root ((1 / g k) • k)) ↔
      0 < g k ∨ ∀ v, g v = 1 → v = (1 / g k) • k := by
  have hc : 1 / g k ≠ 0 := one_div_ne_zero hg
  rw [quotient_smul hroot hk hc]
  constructor
  · intro hmax
    by_cases hsign : 0 < g k
    · exact Or.inl hsign
    have hneg : 1 / g k < 0 := one_div_neg.mpr (lt_of_le_of_ne (not_lt.mp hsign) hg)
    rw [abs_of_neg hneg, div_neg, div_self hc, neg_one_mul] at hmax
    refine Or.inr fun v hv => ?_
    by_contra hne
    have hind : LinearIndependent R ![k, v] := by
      rw [LinearIndependent.pair_iff]
      intro a b hab
      have hgab : a * g k + b = 0 := by
        have happly := congrArg g hab
        rw [map_add, map_smul, map_smul, hv, map_zero, smul_eq_mul, smul_eq_mul, mul_one] at happly
        exact happly
      have ha : a = 0 := by
        by_contra ha
        apply hne
        have hb : b = -(a * g k) := by linarith
        have hsmul : (a * g k) • v = a • k := by
          rw [hb, neg_smul, add_neg_eq_zero] at hab
          exact hab.symm
        calc v = (a * g k)⁻¹ • (a * g k) • v := (inv_smul_smul₀ (mul_ne_zero ha hg) v).symm
          _ = (1 / g k) • k := by
            rw [hsmul, smul_smul]
            congr 1
            field_simp
      refine ⟨ha, ?_⟩
      rw [ha] at hgab
      linarith
    have hlow := neg_lt_quotient hsymm hpos hroot hk hind
    have hhigh := hmax v hv
    linarith
  · intro h v hv
    rcases h with hsign | hsingle
    · have hcpos : 0 < 1 / g k := one_div_pos.mpr hsign
      rw [abs_of_pos hcpos, div_self hc, one_mul]
      exact quotient_le hsymm hpos hroot hk v
    · rw [← quotient_smul hroot hk hc, hsingle v hv]

end

/-! ### The form of a matrix -/

section

open Matrix

variable [StarRing R] [TrivialStar R]
variable {ι : Type} [Fintype ι] [DecidableEq ι] {S T : Matrix ι ι R}

theorem posDef_isSymm (h : S.PosDef) : LinearMap.IsSymm S.toBilin' := by
  rw [← LinearMap.BilinForm.isSymm_iff, isSymm_toBilin'_iff_isSymm]
  unfold Matrix.IsSymm
  rw [← conjTranspose_eq_transpose_of_trivial]
  exact h.isHermitian

theorem posDef_apply_self (h : S.PosDef) (x : ι → R) (hx : x ≠ 0) : 0 < S.toBilin' x x := by
  have hvalue := h.dotProduct_mulVec_pos hx
  rw [star_trivial] at hvalue
  rw [toBilin'_apply']
  exact hvalue

theorem toBilin'_inverse (h : S.PosDef) (hT : T * S = 1) (x v : ι → R) :
    S.toBilin' (T *ᵥ x) v = x ⬝ᵥ v := by
  have hsymm : S.toBilin' v (T *ᵥ x) = S.toBilin' (T *ᵥ x) v := (posDef_isSymm h).eq v (T *ᵥ x)
  rw [← hsymm, toBilin'_apply', mulVec_mulVec, mul_eq_one_comm.mp hT, one_mulVec]
  exact dotProduct_comm v x

end

end StandardTools.Lib
