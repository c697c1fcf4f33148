import Mathlib.Data.List.FinRange
import StandardTools.Core.ValueObjects

/-!
# Vectors and matrices (`portfolio/optimizer.cpp`, the anonymous namespace)

Vectors and matrices are functions of their indices; every loop which adds up
is a fold over the indices in order. `matInverse` is Gauss-Jordan elimination
on the matrix with the identity beside it: the columns of the left and of the
right half are the two sides of a sum type.
-/

namespace StandardTools.Portfolio
open StandardTools.Core

variable {K : Type} [Double K] {n : ℕ}

/-! ### Sums -/

/-- `for (i = 0; i < n; ++i) sum += f(i);` -/
def sumLoop (f : Fin n → K) : K := (List.finRange n).foldl (fun sum i => sum + f i) 0

def vecDot (a b : Fin n → K) : K := sumLoop fun i => a i * b i

/-- The matrix times the vector, whatever the name. -/
def vecDotMat (a : SquareMatrix K n) (x : Fin n → K) : Fin n → K :=
  fun i => sumLoop fun j => a i j * x j

/-- One running sum through both loops. -/
def quadraticForm (x : Fin n → K) (a : SquareMatrix K n) : K :=
  (List.finRange n).foldl
    (fun result i => (List.finRange n).foldl (fun result j => result + x i * a i j * x j) result) 0

def scale (values : Fin n → K) (factor : K) : Fin n → K := fun i => values i * factor

def blend (a b : Fin n → K) (alpha : K) : Fin n → K :=
  fun i => alpha * a i + (1 - alpha) * b i

def clamp (v min max : K) : K := if v < min then min else if max < v then max else v

/-! ### Inversion -/

def inversePivotEps : K := 1 / ((1000000000000000 : ℕ) : K)

/-- The matrix on the left, the identity on the right. -/
abbrev Augmented (K : Type) (n : ℕ) := Fin n → Fin n ⊕ Fin n → K

/-- The work matrix of `MatInverse` before its first column (`optimizer.cpp:119-124`). -/
def augment (m : SquareMatrix K n) : Augmented K n := fun i j =>
  match j with
  | .inl j => m i j
  | .inr j => if j = i then 1 else 0

/-- The first of the rows from `col` on whose entry in the column is largest. -/
def pivotSearch (aug : Augmented K n) (col : Fin n) : Fin n × K :=
  ((List.finRange n).filter (col < ·)).foldl
    (fun best row =>
      let v := Double.abs (aug row (.inl col))
      if best.2 < v then (row, v) else best)
    (col, Double.abs (aug col (.inl col)))

omit [Double K] in
def swapRows (aug : Augmented K n) (a b : Fin n) : Augmented K n :=
  fun i => if i = a then aug b else if i = b then aug a else aug i

def normalizeRow (aug : Augmented K n) (col : Fin n) : Augmented K n :=
  fun i => if i = col then fun j => aug col j / aug col (.inl col) else aug i

/-- The rows whose entry in the column is zero are skipped. -/
def eliminate (aug : Augmented K n) (col : Fin n) : Augmented K n := fun i =>
  if i = col then aug i
  else if aug i (.inl col) == 0 then aug i
  else fun j => aug i j - aug i (.inl col) * aug col j

/-- One column of the elimination (`optimizer.cpp:126-163`). -/
def inverseStep (aug : Augmented K n) (col : Fin n) : Except Error (Augmented K n) :=
  let best := pivotSearch aug col
  if best.2 < inversePivotEps then
    .error (.internal "matrix is singular or near-singular")
  else
    let swapped := if best.1 ≠ col then swapRows aug col best.1 else aug
    .ok (eliminate (normalizeRow swapped col) col)

/- The second `MatInverse` (`black_litterman.cpp:132-192`) is the same text, but
for the call which copies `m`. -/
def matInverse (m : SquareMatrix K n) : Except Error (SquareMatrix K n) :=
  if n = 0 then .error (.invalidCommand "cannot invert empty matrix")
  else do
    let aug ← (List.finRange n).foldlM inverseStep (augment m)
    return fun i j => aug i (.inr j)

end StandardTools.Portfolio
