import Mathlib.Algebra.BigOperators.Group.List.Basic
import Mathlib.Data.List.Basic
import Mathlib.Order.Lattice

/-!
# `std::sort`, `std::unique` and loops over a range

The standard fixes of `std::sort` only that the range is permuted and ends up
ordered; where equal elements go is open. A result about `StdSort` holds of
every implementation.
-/

namespace StandardTools.Lib

variable {α : Type}

structure StdSort (α : Type) (lt : α → α → Prop) where
  run : List α → List α
  perm : ∀ l, (run l).Perm l
  sorted : ∀ l, (run l).Pairwise fun a b => ¬lt b a

theorem StdSort.run_eq_self {lt : α → α → Prop} (sort : StdSort α lt)
    (hasymm : ∀ a b, lt a b → ¬lt b a) {l : List α} (h : l.Pairwise lt) : sort.run l = l := by
  have hle : l.Pairwise fun a b => ¬lt b a := h.imp (hasymm _ _)
  have htri : ∀ ⦃a⦄, a ∈ l → ∀ ⦃b⦄, b ∈ l → a = b ∨ lt a b ∨ lt b a :=
    List.Pairwise.forall_of_forall_of_flip (fun a _ => Or.inl rfl)
      (h.imp fun hab => Or.inr (Or.inl hab)) (h.imp fun hab => Or.inr (Or.inr hab))
  refine List.Perm.eq_of_pairwise ?_ (sort.sorted l) hle (sort.perm l)
  intro a b ha hb hba hab
  rcases htri ((sort.perm l).subset ha) hb with heq | hlt | hlt
  · exact heq
  · exact absurd hlt hab
  · exact absurd hlt hba

/-- Merge sort by a key with a total order. -/
def StdSort.mergeBy {β : Type} [LinearOrder β] (key : α → β) :
    StdSort α fun a b => key a < key b where
  run l := l.mergeSort fun a b => decide (key a ≤ key b)
  perm l := l.mergeSort_perm _
  sorted l := by
    refine (List.pairwise_mergeSort ?_ ?_ l).imp ?_
    · intro a b c hab hbc
      exact decide_eq_true ((of_decide_eq_true hab).trans (of_decide_eq_true hbc))
    · intro a b
      simpa using le_total (key a) (key b)
    · intro a b hab
      exact not_lt.mpr (of_decide_eq_true hab)

/-- Merge sort by a key which the order respects. -/
def StdSort.mergeOn {β : Type} [LinearOrder β] (key : α → β) {lt : α → α → Prop}
    (hkey : ∀ a b, lt a b → key a < key b) : StdSort α lt where
  run := (mergeBy key).run
  perm := (mergeBy key).perm
  sorted l := ((mergeBy key).sorted l).imp fun hle hlt => hle (hkey _ _ hlt)

def stdUniqueFrom (eq : α → α → Bool) (kept : α) : List α → List α
  | [] => []
  | b :: l => if eq kept b then stdUniqueFrom eq kept l else b :: stdUniqueFrom eq b l

def stdUnique (eq : α → α → Bool) : List α → List α
  | [] => []
  | a :: l => a :: stdUniqueFrom eq a l

theorem stdUnique_eq_self {eq : α → α → Bool} {l : List α}
    (h : l.Pairwise fun a b => eq a b = false) : stdUnique eq l = l := by
  cases l with
  | nil => rfl
  | cons a l =>
    rw [stdUnique, List.cons_inj_right]
    induction l generalizing a with
    | nil => rfl
    | cons b l ih =>
      have hab : eq a b = false := (List.pairwise_cons.mp h).1 b List.mem_cons_self
      simp only [stdUniqueFrom, hab, Bool.false_eq_true, if_false, List.cons_inj_right]
      exact ih b (List.pairwise_cons.mp h).2

/-- What a round keeps true of the elements seen so far is true of all behind the loop. -/
theorem foldl_seen {σ : Type} {P : List α → σ → Prop} {f : σ → α → σ}
    (hstep : ∀ seen s x, P seen s → P (seen ++ [x]) (f s x)) {seen : List α} {s : σ}
    (h : P seen s) (rest : List α) : P (seen ++ rest) (rest.foldl f s) := by
  induction rest generalizing seen s with
  | nil =>
    rw [List.append_nil]
    exact h
  | cons x rest ih =>
    rw [List.append_cons]
    exact ih (hstep seen s x h)

theorem foldl_add_eq {M : Type} [AddMonoid M] (l : List α) (f : α → M) (a : M) :
    l.foldl (fun sum i => sum + f i) a = a + (l.map f).sum := by
  induction l generalizing a with
  | nil => exact (add_zero a).symm
  | cons x l ih =>
    rw [List.foldl_cons, ih, List.map_cons, List.sum_cons, add_assoc]

end StandardTools.Lib
