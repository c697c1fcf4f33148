import Mathlib.Data.List.Destutter
import Mathlib.Data.List.SplitBy

/-!
# Maximal runs of equal elements

Destuttering keeps one element of each run.
-/

namespace StandardTools.Lib

variable {α : Type} [DecidableEq α]

/-- One more of the element which a list begins with joins its first run. -/
theorem splitBy_cons_self {a : α} {l : List α} {run : List α} {runs : List (List α)}
    (h : (a :: l).splitBy (· == ·) = run :: runs) :
    (a :: a :: l).splitBy (· == ·) = (a :: run) :: runs := by
  obtain ⟨hflatten, hempty, hequal, hnext⟩ := List.splitBy_eq_iff.mp h
  have hrun : run ≠ [] := fun hnil => hempty (hnil ▸ List.mem_cons_self)
  have hhead : run.head? = some a := by
    obtain ⟨b, rest, rfl⟩ := List.exists_cons_of_ne_nil hrun
    rw [List.flatten_cons, List.cons_append] at hflatten
    rw [List.head?_cons, (List.cons.inj hflatten).1]
  rw [List.splitBy_eq_iff]
  refine ⟨?_, ?_, ?_, ?_⟩
  · rw [hflatten, List.flatten_cons, List.flatten_cons, List.cons_append]
  · intro hmem
    rcases List.mem_cons.mp hmem with hnil | hmem
    · cases hnil
    · exact hempty (List.mem_cons_of_mem _ hmem)
  · intro m hm
    rcases List.mem_cons.mp hm with rfl | hm
    · refine List.isChain_cons.mpr ⟨fun b hb => ?_, hequal run List.mem_cons_self⟩
      rw [hhead, Option.mem_some_iff] at hb
      exact beq_iff_eq.mpr hb
    · exact hequal m (List.mem_cons_of_mem _ hm)
  · rw [List.isChain_cons] at hnext ⊢
    refine ⟨fun next hmem => ?_, hnext.2⟩
    obtain ⟨_, hne, hdiffer⟩ := hnext.1 next hmem
    refine ⟨List.cons_ne_nil _ _, hne, ?_⟩
    rw [List.getLast_cons hrun]
    exact hdiffer

theorem length_splitBy_cons_self (a : α) (l : List α) :
    ((a :: a :: l).splitBy (· == ·)).length = ((a :: l).splitBy (· == ·)).length := by
  obtain ⟨run, runs, h⟩ :=
    List.exists_cons_of_ne_nil (List.splitBy_ne_nil.mpr (List.cons_ne_nil a l))
  rw [h, splitBy_cons_self h, List.length_cons, List.length_cons]

theorem length_splitBy_cons_ne {a b : α} (h : a ≠ b) (l : List α) :
    ((a :: b :: l).splitBy (· == ·)).length = ((b :: l).splitBy (· == ·)).length + 1 := by
  have hsplit := List.splitBy_append_cons (r := (· == ·)) (l := [a]) (a := b) l (by simpa using h)
  have hone : [a].splitBy (· == ·) = [[a]] :=
    List.splitBy_of_isChain (List.cons_ne_nil _ _) (List.isChain_singleton a)
  rw [List.singleton_append] at hsplit
  rw [hsplit, hone, List.singleton_append, List.length_cons]

theorem length_destutter_eq_splitBy (l : List α) :
    (l.destutter (· ≠ ·)).length = (l.splitBy (· == ·)).length := by
  cases l with
  | nil => rfl
  | cons a l =>
    rw [List.destutter_cons']
    induction l generalizing a with
    | nil => rfl
    | cons b l ih =>
      by_cases h : a = b
      · subst h
        rw [List.destutter'_cons_neg (h := not_not.mpr rfl), ih, length_splitBy_cons_self]
      · rw [List.destutter'_cons_pos (h := h), List.length_cons, ih, length_splitBy_cons_ne h]

end StandardTools.Lib
