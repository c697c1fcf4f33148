import Mathlib.Algebra.Order.Field.Basic
import Mathlib.Algebra.Order.Group.MinMax
import Mathlib.Order.Bounds.Basic
import Mathlib.Tactic.Linarith
import Mathlib.Tactic.Ring

/-!
# The worst drop of a positive sequence

A scan keeps the highest value so far and the largest relative fall from it. On
positive values that fall is the largest between any two positions in order,
and it does not change when all values are scaled.
-/

namespace StandardTools.Lib

variable {F : Type} [Field F] [LinearOrder F]

/-- The relative changes from an earlier position to a later or the same one. -/
def relativeChanges (values : List F) : Set F :=
  {x | ∃ i j : ℕ, ∃ a b, i ≤ j ∧ values[i]? = some a ∧ values[j]? = some b ∧ x = b / a - 1}

/-- The peak so far and the largest fall from a peak. -/
def peakStep (s : F × F) (v : F) : F × F :=
  let peak := max s.1 v
  (peak, max s.2 ((peak - v) / peak))

structure PeakScan (values : List F) (s : F × F) : Prop where
  peak : IsGreatest {v | v ∈ values} s.1
  fall : IsLeast (relativeChanges values) (-s.2)

theorem peakScan_singleton {v : F} (hv : 0 < v) : PeakScan [v] (v, 0) := by
  have hzero : v / v - 1 = -(0 : F) := by rw [div_self hv.ne', sub_self, neg_zero]
  constructor
  · exact ⟨List.mem_singleton_self v, fun x hx => (List.mem_singleton.mp hx).le⟩
  · refine ⟨⟨0, 0, v, v, le_refl 0, rfl, rfl, hzero.symm⟩, fun x hx => ?_⟩
    obtain ⟨i, j, a, b, -, ha, hb, rfl⟩ := hx
    rw [List.mem_singleton.mp (List.mem_of_getElem? ha), List.mem_singleton.mp
      (List.mem_of_getElem? hb), hzero]

omit [LinearOrder F] in
theorem mem_relativeChanges_append {values : List F} {v x : F} :
    x ∈ relativeChanges (values ++ [v]) ↔
      x ∈ relativeChanges values ∨ ∃ a ∈ values ++ [v], x = v / a - 1 := by
  constructor
  · intro hx
    obtain ⟨i, j, a, b, hij, ha, hb, rfl⟩ := hx
    by_cases hj : j < values.length
    · rw [List.getElem?_append_left (by omega)] at ha hb
      exact Or.inl ⟨i, j, a, b, hij, ha, hb, rfl⟩
    · have hb' := hb
      rw [List.getElem?_append_right (not_lt.mp hj)] at hb'
      have hbv : b = v := List.mem_singleton.mp (List.mem_of_getElem? hb')
      exact Or.inr ⟨a, List.mem_of_getElem? ha, by rw [hbv]⟩
  · intro hx
    rcases hx with ⟨i, j, a, b, hij, ha, hb, rfl⟩ | ⟨a, ha, rfl⟩
    · obtain ⟨hi, -⟩ := List.getElem?_eq_some_iff.mp ha
      obtain ⟨hj, -⟩ := List.getElem?_eq_some_iff.mp hb
      refine ⟨i, j, a, b, hij, ?_, ?_, rfl⟩
      · rw [List.getElem?_append_left hi, ha]
      · rw [List.getElem?_append_left hj, hb]
    · obtain ⟨i, hi⟩ := List.getElem?_of_mem ha
      obtain ⟨hlt, -⟩ := List.getElem?_eq_some_iff.mp hi
      rw [List.length_append, List.length_singleton] at hlt
      exact ⟨i, values.length, a, v, by omega, hi, by simp, rfl⟩

omit [Field F] in
theorem isGreatest_append {values : List F} {peak : F} (h : IsGreatest {v | v ∈ values} peak)
    (v : F) : IsGreatest {x | x ∈ values ++ [v]} (max peak v) := by
  constructor
  · rcases max_choice peak v with heq | heq
    · rw [heq]
      exact List.mem_append_left _ h.1
    · rw [heq]
      exact List.mem_append_right _ (List.mem_singleton_self v)
  · intro x hx
    rcases List.mem_append.mp hx with hx | hx
    · exact (h.2 hx).trans (le_max_left _ _)
    · rw [List.mem_singleton.mp hx]
      exact le_max_right _ _

variable [IsStrictOrderedRing F]

theorem PeakScan.step {values : List F} {s : F × F} (h : PeakScan values s) {v : F}
    (hpos : ∀ x ∈ values ++ [v], 0 < x) : PeakScan (values ++ [v]) (peakStep s v) := by
  have hpeak := isGreatest_append h.peak v
  have hv : 0 < v := hpos v (List.mem_append_right _ (List.mem_singleton_self v))
  have hfall : -((max s.1 v - v) / max s.1 v) = v / max s.1 v - 1 := by
    rw [sub_div, div_self (hpos _ hpeak.1).ne']
    ring
  have hmin : -max s.2 ((max s.1 v - v) / max s.1 v) = min (-s.2) (v / max s.1 v - 1) := by
    rw [← hfall, min_neg_neg]
  refine ⟨hpeak, ?_⟩
  show IsLeast _ (-max s.2 _)
  rw [hmin]
  constructor
  · apply mem_relativeChanges_append.mpr
    rcases min_choice (-s.2) (v / max s.1 v - 1) with heq | heq
    · rw [heq]
      exact Or.inl h.fall.1
    · rw [heq]
      exact Or.inr ⟨_, hpeak.1, rfl⟩
  · intro x hx
    rcases mem_relativeChanges_append.mp hx with hx | ⟨a, ha, rfl⟩
    · exact (min_le_left _ _).trans (h.fall.2 hx)
    · have hdiv : v / max s.1 v ≤ v / a :=
        div_le_div_of_nonneg_left hv.le (hpos a ha) (hpeak.2 ha)
      exact (min_le_right _ _).trans (sub_le_sub_right hdiv 1)

theorem PeakScan.run {rest values : List F} {s : F × F} (h : PeakScan values s)
    (hpos : ∀ x ∈ values ++ rest, 0 < x) :
    PeakScan (values ++ rest) (rest.foldl peakStep s) := by
  induction rest generalizing values s with
  | nil => rwa [List.append_nil]
  | cons v rest ih =>
    rw [← List.singleton_append, ← List.append_assoc] at hpos ⊢
    exact ih (h.step fun x hx => hpos x (List.mem_append_left _ hx)) hpos

/-- The largest fall of a sequence, the value at its start apart. -/
def worstFall (first : F) (rest : List F) : F := (rest.foldl peakStep (first, 0)).2

theorem isLeast_worstFall {first : F} {rest : List F} (hfirst : 0 < first)
    (hrest : ∀ x ∈ rest, 0 < x) :
    IsLeast (relativeChanges (first :: rest)) (-worstFall first rest) :=
  ((peakScan_singleton hfirst).run (List.forall_mem_cons.mpr ⟨hfirst, hrest⟩)).fall

/-- No change of a positive sequence is a total loss. -/
theorem neg_one_lt_relativeChange {values : List F} (hpos : ∀ x ∈ values, 0 < x) {x : F}
    (hx : x ∈ relativeChanges values) : -1 < x := by
  obtain ⟨i, j, a, b, -, ha, hb, rfl⟩ := hx
  have hdiv := div_pos (hpos b (List.mem_of_getElem? hb)) (hpos a (List.mem_of_getElem? ha))
  linarith

theorem worstFall_nonneg {first : F} {rest : List F} (hfirst : 0 < first)
    (hrest : ∀ x ∈ rest, 0 < x) : 0 ≤ worstFall first rest := by
  have hzero : (0 : F) ∈ relativeChanges (first :: rest) :=
    ⟨0, 0, first, first, le_refl 0, rfl, rfl, by rw [div_self hfirst.ne', sub_self]⟩
  exact neg_nonpos.mp ((isLeast_worstFall hfirst hrest).2 hzero)

theorem peakStep_scale {c : F} (hc : 0 < c) (s : F × F) (v : F) :
    peakStep (c * s.1, s.2) (c * v) = (c * (peakStep s v).1, (peakStep s v).2) := by
  unfold peakStep
  simp only [← mul_max_of_nonneg _ _ hc.le, ← mul_sub, mul_div_mul_left _ _ hc.ne']

theorem worstFall_scale {c : F} (hc : 0 < c) (first : F) (rest : List F) :
    worstFall (c * first) (rest.map (c * ·)) = worstFall first rest := by
  have hrun : ∀ (s : F × F), (rest.map (c * ·)).foldl peakStep (c * s.1, s.2) =
      (c * (rest.foldl peakStep s).1, (rest.foldl peakStep s).2) := by
    induction rest with
    | nil => exact fun s => rfl
    | cons v rest ih =>
      intro s
      rw [List.map_cons, List.foldl_cons, peakStep_scale hc, List.foldl_cons]
      exact ih (peakStep s v)
  have hfirst := congrArg Prod.snd (hrun (first, 0))
  exact hfirst

end StandardTools.Lib
