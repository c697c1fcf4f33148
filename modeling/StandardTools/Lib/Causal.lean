import Mathlib.Data.List.Basic

/-!
# Causal list functions

A function from lists to lists is causal when it emits one output per input and
the outputs on a prefix of the input do not change as the input is extended:
output `i` is a function of the inputs `0, …, i`. The library says how causal
functions are built (letter-wise maps, loops which carry a state, pointwise
combination, composition) and what two inputs with a common prefix have in
common under one.
-/

namespace StandardTools.Lib

variable {α β γ σ : Type*}

/-- One output per input, and extending the input only extends the output. -/
structure Causal (f : List α → List β) : Prop where
  length_eq : ∀ xs, (f xs).length = xs.length
  prefix_append : ∀ xs ys, f xs <+: f (xs ++ ys)

namespace Causal

theorem take_length {f : List α → List β} (hf : Causal f) (xs ys : List α) :
    (f (xs ++ ys)).take xs.length = f xs := by
  have h := List.prefix_iff_eq_take.mp (hf.prefix_append xs ys)
  rw [hf.length_eq] at h
  exact h.symm

theorem take_eq {f : List α → List β} (hf : Causal f) (xs : List α) (m : ℕ) :
    (f xs).take m = f (xs.take m) := by
  rcases Nat.le_total m xs.length with hm | hm
  · have h := hf.take_length (xs.take m) (xs.drop m)
    rwa [List.take_append_drop, List.length_take, Nat.min_eq_left hm] at h
  · rw [List.take_of_length_le hm, List.take_of_length_le]
    rw [hf.length_eq]
    exact hm

theorem take_congr {f : List α → List β} (hf : Causal f) {xs ys : List α} {m : ℕ}
    (h : xs.take m = ys.take m) : (f xs).take m = (f ys).take m := by
  rw [hf.take_eq, hf.take_eq, h]

theorem getElem?_append {f : List α → List β} (hf : Causal f) (xs ys : List α) {i : ℕ}
    (hi : i < xs.length) : (f (xs ++ ys))[i]? = (f xs)[i]? := by
  have hi' : i < (f xs).length := by rw [hf.length_eq]; exact hi
  obtain ⟨zs, hzs⟩ := hf.prefix_append xs ys
  rw [← hzs, List.getElem?_append_left hi']

theorem map (g : α → β) : Causal (List.map g) where
  length_eq xs := List.length_map g
  prefix_append xs ys := by
    rw [List.map_append]
    exact List.prefix_append _ _

theorem comp {f : List α → List β} {g : List β → List γ} (hg : Causal g) (hf : Causal f) :
    Causal (fun xs => g (f xs)) where
  length_eq xs := by rw [hg.length_eq, hf.length_eq]
  prefix_append xs ys := by
    obtain ⟨zs, hzs⟩ := hf.prefix_append xs ys
    rw [← hzs]
    exact hg.prefix_append _ _

/-- Output `i` may look at everything up to input `i`: an indexed map whose
letter function reads the input through values which a longer input keeps. -/
theorem mapIdx {g : List α → ℕ → α → β}
    (hg : ∀ xs ys i x, i < xs.length → g (xs ++ ys) i x = g xs i x) :
    Causal (fun xs => xs.mapIdx (g xs)) where
  length_eq xs := List.length_mapIdx
  prefix_append xs ys := by
    have h : xs.mapIdx (g (xs ++ ys)) = xs.mapIdx (g xs) := by
      refine List.ext_getElem (by simp) (fun i hi _ => ?_)
      rw [List.length_mapIdx] at hi
      simp only [List.getElem_mapIdx]
      exact hg xs ys i xs[i] hi
    rw [List.mapIdx_append, h]
    exact List.prefix_append _ _

/-- A causal function may answer `g` letter by letter below a threshold on the
length, provided that it goes on answering so on what was below the threshold. -/
theorem guard {c : Prop} [Decidable c] {need : ℕ} {g : α → β} {f : List α → List β}
    (hlen : ∀ xs, need ≤ xs.length → (f xs).length = xs.length)
    (hext : ∀ xs ys, need ≤ xs.length → f xs <+: f (xs ++ ys))
    (hwarm : ∀ xs ys, xs.length < need → need ≤ (xs ++ ys).length →
      xs.map g <+: f (xs ++ ys)) :
    Causal (fun xs => if c ∨ xs.length < need then xs.map g else f xs) where
  length_eq xs := by
    split_ifs with h
    · exact List.length_map g
    · exact hlen xs (Nat.not_lt.mp (fun hlt => h (Or.inr hlt)))
  prefix_append xs ys := by
    by_cases hc : c
    · simp only [hc, true_or, if_true, List.map_append]
      exact List.prefix_append _ _
    · simp only [hc, false_or]
      by_cases hxs : xs.length < need
      · rw [if_pos hxs]
        by_cases hxy : (xs ++ ys).length < need
        · rw [if_pos hxy, List.map_append]
          exact List.prefix_append _ _
        · rw [if_neg hxy]
          exact hwarm xs ys hxs (Nat.not_lt.mp hxy)
      · have hxy : ¬(xs ++ ys).length < need := by
          rw [List.length_append]
          omega
        rw [if_neg hxs, if_neg hxy]
        exact hext xs ys (Nat.not_lt.mp hxs)

theorem guard_of_eq {c : Prop} [Decidable c] {need : ℕ} {g : α → β} {f : List α → List β}
    (hf : Causal f) (hshort : ∀ xs, xs.length < need → f xs = xs.map g) :
    Causal (fun xs => if c ∨ xs.length < need then xs.map g else f xs) := by
  refine guard (fun xs _ => hf.length_eq xs) (fun xs ys _ => hf.prefix_append xs ys) ?_
  intro xs ys hxs _
  rw [← hshort xs hxs]
  exact hf.prefix_append xs ys

/-- A warm-up of `period` inputs answered by `g`, then a causal tail whose seed is
read off the first `period + 1` inputs. -/
theorem warmup {c : Prop} [Decidable c] {period : ℕ} {g : α → β} {seed : List α → σ}
    {tail : σ → List α → List β} (htail : ∀ s, Causal (tail s))
    (hseed : ∀ xs ys, period + 1 ≤ xs.length → seed (xs ++ ys) = seed xs) :
    Causal (fun xs => if c ∨ xs.length < period + 1 then xs.map g
      else (xs.take period).map g ++ tail (seed xs) (xs.drop period)) := by
  refine guard ?_ ?_ ?_
  · intro xs hxs
    rw [List.length_append, List.length_map, (htail _).length_eq, ← List.length_append,
      List.take_append_drop]
  · intro xs ys hxs
    rw [List.take_append_of_le_length (by omega), List.drop_append_of_le_length (by omega),
      hseed xs ys hxs]
    exact (List.prefix_append_right_inj _).mpr ((htail _).prefix_append _ _)
  · intro xs ys hxs _
    rw [List.take_append, List.take_of_length_le (by omega), List.map_append, List.append_assoc]
    exact List.prefix_append _ _

theorem zipWith (h : β → γ → σ) {f : List α → List β} {g : List α → List γ}
    (hf : Causal f) (hg : Causal g) : Causal (fun xs => List.zipWith h (f xs) (g xs)) where
  length_eq xs := by rw [List.length_zipWith, hf.length_eq, hg.length_eq, Nat.min_self]
  prefix_append xs ys := by
    obtain ⟨fs, hfs⟩ := hf.prefix_append xs ys
    obtain ⟨gs, hgs⟩ := hg.prefix_append xs ys
    have hlen : (f xs).length = (g xs).length := by rw [hf.length_eq, hg.length_eq]
    rw [← hfs, ← hgs, List.zipWith_append hlen]
    exact List.prefix_append _ _

end Causal

/-! ### Neighbours -/

section Neighbours
variable (f : α → α → β)

/-- Every element but the first is combined with the one in front of it. -/
theorem zipWith_tail_append (l : List α) (x y : α) :
    List.zipWith f (l ++ [x] ++ [y]).tail (l ++ [x] ++ [y]) =
      List.zipWith f (l ++ [x]).tail (l ++ [x]) ++ [f y x] := by
  induction l with
  | nil => rfl
  | cons first rest ih =>
    cases rest with
    | nil => rfl
    | cons second rest => exact congrArg (f second first :: ·) ih

theorem take_zipWith_tail (l : List α) (n : ℕ) :
    (List.zipWith f l.tail l).take n = List.zipWith f (l.take (n + 1)).tail (l.take (n + 1)) := by
  induction l generalizing n with
  | nil => exact List.take_nil
  | cons first rest ih =>
    cases n with
    | zero => rfl
    | succ n =>
      cases rest with
      | nil => rfl
      | cons second rest => exact congrArg (f second first :: ·) (ih n)

theorem zipWith_tail_map {g : α → α} {k : β → β} (h : ∀ x y, f (g x) (g y) = k (f x y))
    (l : List α) :
    List.zipWith f (l.map g).tail (l.map g) = (List.zipWith f l.tail l).map k := by
  rw [← List.map_tail, List.zipWith_map, List.map_zipWith]
  simp only [h]

end Neighbours

/-! ### Loops which carry a state -/

/-- A loop over `xs` which carries a state and pushes one value per round. -/
def scanLoop (step : σ → α → β × σ) : σ → List α → List β
  | _, [] => []
  | s, x :: xs => (step s x).1 :: scanLoop step (step s x).2 xs

def scanState (step : σ → α → β × σ) : σ → List α → σ
  | s, [] => s
  | s, x :: xs => scanState step (step s x).2 xs

@[simp] theorem length_scanLoop (step : σ → α → β × σ) (s : σ) (xs : List α) :
    (scanLoop step s xs).length = xs.length := by
  induction xs generalizing s with
  | nil => rfl
  | cons x xs ih => simp only [scanLoop, List.length_cons, ih]

theorem scanLoop_append (step : σ → α → β × σ) (s : σ) (xs ys : List α) :
    scanLoop step s (xs ++ ys) = scanLoop step s xs ++ scanLoop step (scanState step s xs) ys := by
  induction xs generalizing s with
  | nil => rfl
  | cons x xs ih => simp only [List.cons_append, scanLoop, scanState, ih]

/-- A loop whose state and inputs are the images of another's pushes the images. -/
theorem scanLoop_map {σ' α' β' : Type*} {step : σ → α → β × σ} {step' : σ' → α' → β' × σ'}
    {h : σ → σ'} {g : α → α'} {k : β → β'}
    (hstep : ∀ s x, step' (h s) (g x) = (k (step s x).1, h (step s x).2)) (s : σ) (xs : List α) :
    scanLoop step' (h s) (xs.map g) = (scanLoop step s xs).map k := by
  induction xs generalizing s with
  | nil => rfl
  | cons x xs ih => simp only [List.map_cons, scanLoop, hstep, ih]

/-- The invariant rule of such a loop. `I` speaks of the inputs read so far and
of the state behind them, `P` of the inputs so far and of the output pushed on
the last of them. -/
theorem scanLoop_invariant {step : σ → α → β × σ} {I : List α → σ → Prop}
    {P : List α → β → Prop} {all : List α}
    (hstep : ∀ seen x rest s, all = seen ++ x :: rest → I seen s →
      P (seen ++ [x]) (step s x).1 ∧ I (seen ++ [x]) (step s x).2)
    {seen xs : List α} {s : σ} (hall : all = seen ++ xs) (hinv : I seen s) (i : ℕ) (y : β)
    (hi : (scanLoop step s xs)[i]? = some y) : P (all.take (seen.length + i + 1)) y := by
  induction xs generalizing seen s i with
  | nil => cases hi
  | cons x rest ih =>
    obtain ⟨hout, hnext⟩ := hstep seen x rest s hall hinv
    have hsplit : all = (seen ++ [x]) ++ rest := by rw [hall, List.append_cons]
    have hlen : (seen ++ [x]).length = seen.length + 1 := List.length_append
    cases i with
    | zero =>
      cases hi
      rw [hsplit, Nat.add_zero, ← hlen, List.take_left]
      exact hout
    | succ i =>
      have htail := ih hsplit hnext i hi
      rwa [hlen, Nat.add_right_comm seen.length 1 i] at htail

theorem causal_scanLoop (step : σ → α → β × σ) (s : σ) : Causal (scanLoop step s) where
  length_eq xs := length_scanLoop step s xs
  prefix_append xs ys := by
    rw [scanLoop_append]
    exact List.prefix_append _ _

/-- A loop which the first input starts: it answers that input by `first`, and the
state of the rounds over the others is seeded from it. -/
def seededLoop (first : α → β) (seed : α → σ) (step : σ → α → β × σ) : List α → List β
  | [] => []
  | x :: xs => first x :: scanLoop step (seed x) xs

theorem causal_seededLoop (first : α → β) (seed : α → σ) (step : σ → α → β × σ) :
    Causal (seededLoop first seed step) where
  length_eq xs := by
    cases xs with
    | nil => rfl
    | cons x xs => simp only [seededLoop, List.length_cons, length_scanLoop]
  prefix_append xs ys := by
    cases xs with
    | nil => exact List.nil_prefix
    | cons x xs =>
      simp only [seededLoop, List.cons_append]
      exact List.cons_prefix_cons.mpr ⟨rfl, (causal_scanLoop _ _).prefix_append xs ys⟩

end StandardTools.Lib
