import Mathlib.Algebra.BigOperators.Field
import Mathlib.Data.Matrix.Basic
import Mathlib.Data.Real.Basic
import Mathlib.LinearAlgebra.Matrix.NonsingularInverse
import Mathlib.Tactic.Linarith
import Mathlib.Tactic.Ring

/-!
# Gauss-Jordan elimination

A matrix stands beside the identity, and the rows of both are transformed
together. In every row the right half times the matrix is the left half; a row
operation cannot break this. When the left half has become the identity, the
right half is the inverse.

No row operation loses an equation either, and a row which has not been a pivot
yet has been added to no other. Hence the next column is the image of a vector
with an entry one, and it has a large entry where the quadratic form is large.
-/

namespace StandardTools.Lib

variable {F ι : Type} [Field F] [Fintype ι]

/-- The right half of the row times `M` is its left half. -/
def Tracks (M : Matrix ι ι F) (row : ι ⊕ ι → F) : Prop :=
  ∀ j, ∑ k, row (.inr k) * M k j = row (.inl j)

variable {M : Matrix ι ι F} {r s : ι ⊕ ι → F}

theorem Tracks.div (h : Tracks M r) (c : F) : Tracks M fun j => r j / c := by
  intro j
  have hterm : ∀ k, r (.inr k) / c * M k j = r (.inr k) * M k j / c := fun k => by ring
  simp only [hterm]
  rw [← Finset.sum_div, h j]

theorem Tracks.sub_mul (hr : Tracks M r) (hs : Tracks M s) (c : F) :
    Tracks M fun j => r j - c * s j := by
  intro j
  have hterm : ∀ k, (r (.inr k) - c * s (.inr k)) * M k j =
      r (.inr k) * M k j - c * (s (.inr k) * M k j) := fun k => by ring
  simp only [hterm]
  rw [Finset.sum_sub_distrib, ← Finset.mul_sum, hr j, hs j]

/-- How far two vectors are from the equation which a row stands for. -/
def balance (row : ι ⊕ ι → F) (x y : ι → F) : F :=
  ∑ j, row (.inl j) * x j - ∑ j, row (.inr j) * y j

theorem balance_div (r : ι ⊕ ι → F) (c : F) (x y : ι → F) :
    balance (fun j => r j / c) x y = balance r x y / c := by
  unfold balance
  rw [sub_div, Finset.sum_div, Finset.sum_div]
  simp only [div_mul_eq_mul_div]

theorem balance_sub_mul (r s : ι ⊕ ι → F) (c : F) (x y : ι → F) :
    balance (fun j => r j - c * s j) x y = balance r x y - c * balance s x y := by
  unfold balance
  simp only [sub_mul, mul_assoc, Finset.sum_sub_distrib, ← Finset.mul_sum]
  ring

/-- The equations of all rows together still say that `M x = y`. -/
def Determines (M : Matrix ι ι F) (aug : ι → ι ⊕ ι → F) : Prop :=
  ∀ x y, (∀ i, balance (aug i) x y = 0) → M.mulVec x = y

variable [DecidableEq ι]

def UnitColumn (aug : ι → ι ⊕ ι → F) (j : ι) : Prop :=
  ∀ i, aug i (.inl j) = if i = j then 1 else 0

theorem tracks_identity {aug : ι → ι ⊕ ι → F} (hl : ∀ i j, aug i (.inl j) = M i j)
    (hr : ∀ i j, aug i (.inr j) = if j = i then 1 else 0) (i : ι) : Tracks M (aug i) := by
  intro j
  simp only [hl, hr, ite_mul, one_mul, zero_mul, Finset.sum_ite_eq', Finset.mem_univ, if_true]

theorem right_mul_eq_one {aug : ι → ι ⊕ ι → F} (htracks : ∀ i, Tracks M (aug i))
    (hunit : ∀ j, UnitColumn aug j) : (Matrix.of fun i j => aug i (.inr j)) * M = 1 := by
  ext i j
  rw [Matrix.mul_apply, Matrix.one_apply]
  exact (htracks i j).trans (hunit j i)

/-! ### What the equations determine -/

theorem determines_identity {aug : ι → ι ⊕ ι → F} (hl : ∀ i j, aug i (.inl j) = M i j)
    (hr : ∀ i j, aug i (.inr j) = if j = i then 1 else 0) : Determines M aug := by
  intro x y h
  funext i
  have hrow := h i
  unfold balance at hrow
  simp only [hl, hr, ite_mul, one_mul, zero_mul, Finset.sum_ite_eq', Finset.mem_univ,
    if_true] at hrow
  exact sub_eq_zero.mp hrow

/-- Row `i` has been added to no other row, and has not been scaled. -/
def Untouched (aug : ι → ι ⊕ ι → F) (i : ι) : Prop :=
  ∃ r, ∀ i', aug i' (.inr r) = if i' = i then 1 else 0

section Column
variable {aug : ι → ι ⊕ ι → F} {done : Finset ι} {col : ι}

theorem sum_unitColumns (hunit : ∀ j ∈ done, UnitColumn aug j) (i : ι) :
    ∑ j, aug i (.inl j) * ((if j = col then 1 else 0) - if j ∈ done then aug j (.inl col) else 0) =
      aug i (.inl col) - if i ∈ done then aug i (.inl col) else 0 := by
  have hterm : ∀ j, aug i (.inl j) * (if j ∈ done then aug j (.inl col) else 0) =
      if j = i then (if i ∈ done then aug i (.inl col) else 0) else 0 := by
    intro j
    by_cases hj : j ∈ done
    · rw [if_pos hj, hunit j hj]
      by_cases hij : j = i
      · subst hij
        rw [if_pos rfl, if_pos rfl, if_pos hj, one_mul]
      · rw [if_neg (Ne.symm hij), if_neg hij, zero_mul]
    · rw [if_neg hj, mul_zero]
      by_cases hij : j = i
      · rw [if_pos hij, if_neg (hij ▸ hj)]
      · rw [if_neg hij]
  simp only [mul_sub, Finset.sum_sub_distrib, hterm, mul_ite, mul_one, mul_zero,
    Finset.sum_ite_eq', Finset.mem_univ, if_true]

theorem sum_untouched {place : ι → ι}
    (hplace : ∀ i ∉ done, ∀ i', aug i' (.inr (place i)) = if i' = i then 1 else 0) (i : ι) :
    ∑ r, aug i (.inr r) * (∑ i' ∈ doneᶜ, if place i' = r then aug i' (.inl col) else 0) =
      if i ∈ done then 0 else aug i (.inl col) := by
  have hterm : ∀ i' ∈ doneᶜ, ∑ r, aug i (.inr r) *
      (if place i' = r then aug i' (.inl col) else 0) =
      if i = i' then aug i' (.inl col) else 0 := by
    intro i' hi'
    simp only [mul_ite, mul_zero, Finset.sum_ite_eq, Finset.mem_univ, if_true,
      hplace i' (Finset.mem_compl.mp hi') i, ite_mul, one_mul, zero_mul]
  simp only [Finset.mul_sum]
  rw [Finset.sum_comm, Finset.sum_congr rfl hterm, Finset.sum_ite_eq]
  by_cases hi : i ∈ done
  · rw [if_neg (fun h => Finset.mem_compl.mp h hi), if_pos hi]
  · rw [if_pos (Finset.mem_compl.mpr hi), if_neg hi]

/-- Beside the reduced columns, a column is the image of a vector whose entry there
is one: the image has the entries of the untouched rows, each at a place of its own. -/
theorem exists_image (hcol : col ∉ done) (hdetermines : Determines M aug)
    (hunit : ∀ j ∈ done, UnitColumn aug j) (hrows : ∀ i ∉ done, Untouched aug i) :
    ∃ (x : ι → F) (place : ι → ι), x col = 1 ∧ Set.InjOn place (doneᶜ : Finset ι) ∧
      M.mulVec x = fun r => ∑ i ∈ doneᶜ, if place i = r then aug i (.inl col) else 0 := by
  have hplace : ∀ i, ∃ r, i ∉ done → ∀ i', aug i' (.inr r) = if i' = i then 1 else 0 := by
    intro i
    by_cases hi : i ∈ done
    · exact ⟨i, fun h => absurd hi h⟩
    · obtain ⟨r, hr⟩ := hrows i hi
      exact ⟨r, fun _ => hr⟩
  choose place hplace using hplace
  refine ⟨fun j => (if j = col then 1 else 0) - if j ∈ done then aug j (.inl col) else 0, place,
    ?_, ?_, ?_⟩
  · simp only [if_true, if_neg hcol, sub_zero]
  · intro i hi i' hi' heq
    have h := hplace i (Finset.mem_compl.mp hi) i'
    rw [heq, hplace i' (Finset.mem_compl.mp hi') i', if_pos rfl] at h
    by_contra hne
    rw [if_neg (Ne.symm hne)] at h
    exact one_ne_zero h
  · refine hdetermines _ _ fun i => ?_
    unfold balance
    rw [sum_unitColumns hunit, sum_untouched hplace]
    split_ifs
    · rw [sub_self, sub_self]
    · rw [sub_zero, sub_self]

end Column

/-- Where the quadratic form of the matrix is bounded from below, the largest entry
of a column among the untouched rows is too. -/
theorem sq_le_of_pivots_le {ι : Type} [Fintype ι] [DecidableEq ι] {M : Matrix ι ι ℝ}
    {aug : ι → ι ⊕ ι → ℝ} {done : Finset ι} {col : ι} (hcol : col ∉ done)
    (hdetermines : Determines M aug) (hunit : ∀ j ∈ done, UnitColumn aug j)
    (hrows : ∀ i ∉ done, Untouched aug i) {c ε : ℝ} (hc : 0 < c)
    (hM : ∀ x, c * (x ⬝ᵥ x) ≤ x ⬝ᵥ M.mulVec x) (hε : ∀ i ∉ done, |aug i (.inl col)| ≤ ε) :
    c ^ 2 ≤ Fintype.card ι * ε ^ 2 := by
  obtain ⟨x, place, hx, hplace, himage⟩ := exists_image hcol hdetermines hunit hrows
  have hone : 1 ≤ x ⬝ᵥ x := by
    calc (1 : ℝ) = x col * x col := by rw [hx, mul_one]
      _ ≤ ∑ j, x j * x j := Finset.single_le_sum (f := fun j => x j * x j)
        (fun j _ => mul_self_nonneg (x j)) (Finset.mem_univ col)
  have hform : x ⬝ᵥ M.mulVec x = ∑ i ∈ doneᶜ, x (place i) * aug i (.inl col) := by
    rw [himage]
    simp only [dotProduct, Finset.mul_sum, mul_ite, mul_zero]
    rw [Finset.sum_comm]
    exact Finset.sum_congr rfl fun i _ => by rw [Finset.sum_ite_eq, if_pos (Finset.mem_univ _)]
  have hsquares : ∑ i ∈ doneᶜ, x (place i) * x (place i) ≤ x ⬝ᵥ x := by
    rw [← Finset.sum_image (f := fun r => x r * x r) hplace]
    exact Finset.sum_le_sum_of_subset_of_nonneg (Finset.subset_univ _)
      fun j _ _ => mul_self_nonneg (x j)
  have hterm : ∀ i ∈ doneᶜ, 2 * c * (x (place i) * aug i (.inl col)) ≤
      c ^ 2 * (x (place i) * x (place i)) + ε ^ 2 := by
    intro i hi
    have hsq := sq_le_sq' (abs_le.mp (hε i (Finset.mem_compl.mp hi))).1
      (abs_le.mp (hε i (Finset.mem_compl.mp hi))).2
    nlinarith [sq_nonneg (c * x (place i) - aug i (.inl col))]
  have hsum : 2 * c * (x ⬝ᵥ M.mulVec x) ≤ c ^ 2 * (x ⬝ᵥ x) + Fintype.card ι * ε ^ 2 := by
    calc 2 * c * (x ⬝ᵥ M.mulVec x)
        = ∑ i ∈ doneᶜ, 2 * c * (x (place i) * aug i (.inl col)) := by
          rw [hform, Finset.mul_sum]
      _ ≤ ∑ i ∈ doneᶜ, (c ^ 2 * (x (place i) * x (place i)) + ε ^ 2) := Finset.sum_le_sum hterm
      _ = c ^ 2 * ∑ i ∈ doneᶜ, x (place i) * x (place i) + (doneᶜ.card : ℝ) * ε ^ 2 := by
        rw [Finset.sum_add_distrib, ← Finset.mul_sum, Finset.sum_const, nsmul_eq_mul]
      _ ≤ c ^ 2 * (x ⬝ᵥ x) + Fintype.card ι * ε ^ 2 := by
        have hcard : (doneᶜ.card : ℝ) ≤ Fintype.card ι := Nat.cast_le.mpr (Finset.card_le_univ _)
        exact add_le_add (mul_le_mul_of_nonneg_left hsquares (sq_nonneg c))
          (mul_le_mul_of_nonneg_right hcard (sq_nonneg ε))
  nlinarith [hM x, mul_pos hc hc]

end StandardTools.Lib
