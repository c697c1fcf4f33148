import Mathlib.Data.Set.Finite.Lemmas
import Mathlib.Tactic.Linarith
import StandardTools.Lib.OrderStatistics

/-!
# Values between the least and the greatest of a list

Means, weighted means and smoothed values do not leave the range of the values
which they are made of, also as the range grows with every value read.
-/

namespace StandardTools.Lib

section Order
variable {α : Type} [LinearOrder α]

/-- `x` lies between the minimum and the maximum of `l`. -/
def Between (l : List α) (x : α) : Prop :=
  ∃ lo hi, IsLeast {y | y ∈ l} lo ∧ IsGreatest {y | y ∈ l} hi ∧ lo ≤ x ∧ x ≤ hi

variable {l l' : List α} {x : α}

/-- Enough is that `x` obeys every pair of bounds which the list obeys. -/
theorem between_of_bounds (hne : l ≠ [])
    (h : ∀ lo hi, (∀ y ∈ l, lo ≤ y ∧ y ≤ hi) → lo ≤ x ∧ x ≤ hi) : Between l x := by
  obtain ⟨y, hy⟩ := List.exists_mem_of_ne_nil l hne
  obtain ⟨lo, hlo, hleast⟩ := Set.exists_min_image {y | y ∈ l} id l.finite_toSet ⟨y, hy⟩
  obtain ⟨hi, hhi, hgreatest⟩ := Set.exists_max_image {y | y ∈ l} id l.finite_toSet ⟨y, hy⟩
  exact ⟨lo, hi, ⟨hlo, hleast⟩, ⟨hhi, hgreatest⟩,
    h lo hi fun z hz => ⟨hleast z hz, hgreatest z hz⟩⟩

theorem Between.bounds (h : Between l x) {lo hi : α} (hl : ∀ y ∈ l, lo ≤ y ∧ y ≤ hi) :
    lo ≤ x ∧ x ≤ hi := by
  obtain ⟨least, greatest, hleast, hgreatest, hlo, hhi⟩ := h
  exact ⟨(hl least hleast.1).1.trans hlo, hhi.trans (hl greatest hgreatest.1).2⟩

theorem Between.ne_nil (h : Between l x) : l ≠ [] := by
  obtain ⟨lo, -, hlo, -⟩ := h
  exact List.ne_nil_of_mem hlo.1

theorem Between.mono (h : Between l x) (hsub : l ⊆ l') : Between l' x :=
  between_of_bounds (List.ne_nil_of_mem (hsub (List.head_mem h.ne_nil)))
    fun _ _ hl' => h.bounds fun y hy => hl' y (hsub hy)

theorem Between.of_mem (h : x ∈ l) : Between l x :=
  between_of_bounds (List.ne_nil_of_mem h) fun _ _ hl => hl x h

end Order

section Field
variable {F : Type} [Field F] [LinearOrder F] [IsStrictOrderedRing F] {l : List F} {x y : F}

theorem Between.mean (hne : l ≠ []) : Between l (l.sum / l.length) :=
  between_of_bounds hne fun _ _ h =>
    ⟨le_mean hne fun a ha => (h a ha).1, mean_le hne fun a ha => (h a ha).2⟩

/-- A share `t` of one value and the rest of another. -/
theorem Between.combine (hx : Between l x) (hy : Between l y) {t : F} (h0 : 0 ≤ t) (h1 : t ≤ 1) :
    Between l (x + t * (y - x)) := by
  refine between_of_bounds hx.ne_nil fun lo hi hl => ?_
  obtain ⟨hxlo, hxhi⟩ := hx.bounds hl
  obtain ⟨hylo, hyhi⟩ := hy.bounds hl
  have hrest : 0 ≤ 1 - t := sub_nonneg.mpr h1
  have hlo := add_nonneg (mul_nonneg hrest (sub_nonneg.mpr hxlo)) (mul_nonneg h0 (sub_nonneg.mpr hylo))
  have hhi := add_nonneg (mul_nonneg hrest (sub_nonneg.mpr hxhi)) (mul_nonneg h0 (sub_nonneg.mpr hyhi))
  constructor <;> linarith

/-- The next value of a smoothed series, which joins the values read so far. -/
theorem Between.smooth (hx : Between l x) (y : F) {t : F} (h0 : 0 ≤ t) (h1 : t ≤ 1) :
    Between (l ++ [y]) (x + t * (y - x)) :=
  (hx.mono (List.subset_append_left l [y])).combine
    (.of_mem (List.mem_append_right l (List.mem_singleton_self y))) h0 h1

end Field

end StandardTools.Lib
