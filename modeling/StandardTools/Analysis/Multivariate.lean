import StandardTools.Analysis.Calculator

/-!
# Principal components and correlation (`analysis/calculator.cpp:206-267`, `476-683`)

Both operations fill the upper triangle of a covariance matrix and mirror it.
The components come from Jacobi's method: plane rotations, each of which zeroes
one entry, are applied to the matrix from both sides and to the matrix of the
eigenvectors from the right, for at most a hundred sweeps.
-/

namespace StandardTools.Analysis
open StandardTools.Core Lib

variable {K : Type} [Cmath K] {n : ℕ}

/-- `for (i) for (j = i + 1; ...)` -/
def pairsAbove (n : ℕ) : List (Fin n × Fin n) :=
  (List.finRange n).flatMap fun p => ((List.finRange n).filter (p < ·)).map fun q => (p, q)

omit [Cmath K] in
/-- The triangle `i <= j` and its mirror image. -/
def mirrored (upper : Fin n → Fin n → K) : SquareMatrix K n :=
  fun i j => if i ≤ j then upper i j else upper j i

/-! ### Jacobi's method -/

def rotateColumns (m : SquareMatrix K n) (p q : Fin n) (c s : K) : SquareMatrix K n :=
  fun k j =>
    if j = p then c * m k p - s * m k q
    else if j = q then s * m k p + c * m k q
    else m k j

def rotateRows (m : SquareMatrix K n) (p q : Fin n) (c s : K) : SquareMatrix K n :=
  fun j k =>
    if j = p then c * m p k - s * m q k
    else if j = q then s * m p k + c * m q k
    else m j k

/-- The matrix `a` and the eigenvectors `v`. -/
abbrev JacobiState (K : Type) (n : ℕ) := SquareMatrix K n × SquareMatrix K n

def jacobiRotation (app aqq apq : K) : K × K :=
  let theta := (aqq - app) / (((2 : ℕ) : K) * apq)
  let t := (if 0 ≤ theta then 1 else -1) /
    (Double.abs theta + Double.sqrt (theta * theta + 1))
  let c := 1 / Double.sqrt (t * t + 1)
  (c, t * c)

def jacobiRotate (state : JacobiState K n) (pq : Fin n × Fin n) : JacobiState K n :=
  let (p, q) := pq
  let a := state.1
  if Double.abs (a p q) < decimal 1 300 then state
  else
    let (c, s) := jacobiRotation (a p p) (a q q) (a p q)
    (rotateRows (rotateColumns a p q c s) p q c s, rotateColumns state.2 p q c s)

def offDiagonal (a : SquareMatrix K n) : K :=
  sumOver (fun pq => a pq.1 pq.2 * a pq.1 pq.2) (pairsAbove n)

def jacobiSweeps : ℕ → JacobiState K n → JacobiState K n
  | 0, state => state
  | sweeps + 1, state =>
    if offDiagonal state.1 < decimal 1 30 then state
    else jacobiSweeps sweeps ((pairsAbove n).foldl jacobiRotate state)

/-- The diagonal of the rotated matrix and the eigenvectors as columns. -/
def jacobiEigen (a : SquareMatrix K n) : (Fin n → K) × SquareMatrix K n :=
  let state := jacobiSweeps 100 (a, fun i j => if i = j then 1 else 0)
  (fun i => state.1 i i, state.2)

/-! ### Principal components -/

structure PCAResult (K : Type) where
  labels : List String
  explainedVarianceRatio : List K
  loadings : List (List K)
  factorReturns : List (List K)

/-- Any `std::sort` of the indices by falling key. -/
abbrev IndexSort (K : Type) [LT K] :=
  (n : ℕ) → (key : Fin n → K) → StdSort (Fin n) fun a b => key b < key a

def checkReturnsMatrix (returnsMatrix : List (List K)) (nComponents : ℤ) :
    Except Error Unit :=
  let nObs := (returnsMatrix.headD []).length
  if returnsMatrix.isEmpty then
    .error (.dataQuality "returns matrix must contain at least one series")
  else if nComponents ≤ 0 ∨ (returnsMatrix.length : ℤ) < nComponents then
    .error (.dataQuality ("n_components must be in [1, " ++ toString returnsMatrix.length ++
      "], got " ++ toString nComponents))
  else if nObs < 2 then
    .error (.dataQuality "each return series must contain at least two observations")
  else do
    returnsMatrix.zipIdx.forM fun row =>
      validateFinite row.1 ("returns matrix series " ++ toString row.2)
    returnsMatrix.zipIdx.forM fun row =>
      if row.1.length ≠ nObs then
        .error (.dataQuality ("series " ++ toString row.2 ++ " has length " ++
          toString row.1.length ++ " but series 0 has length " ++ toString nObs))
      else .ok ()

def centered (returnsMatrix : List (List K)) (nObs : ℕ) :
    Fin returnsMatrix.length → Fin nObs → K :=
  fun i t => (returnsMatrix.get i).getD t 0 - mean (returnsMatrix.get i)

/-- The sample covariance matrix of centered series. -/
def sampleCovariance {nObs : ℕ} (centered : Fin n → Fin nObs → K) : SquareMatrix K n :=
  let scale := 1 / ((nObs : K) - 1)
  mirrored fun i j => sumOver (fun t => centered i t * centered j t) (List.finRange nObs) * scale

/-- The first component of the largest magnitude, from component `0` on. -/
def pivotComponent (loading : Fin n → K) (first : Fin n) : Fin n :=
  (List.finRange n).foldl
    (fun pivot i => if Double.abs (loading pivot) < Double.abs (loading i) then i else pivot) first

/-- The column `idx` of the eigenvectors, its largest component made positive. -/
def signedLoading (eigenvectors : SquareMatrix K n) (idx : Fin n) : Fin n → K :=
  let loading := fun i => eigenvectors i idx
  if loading (pivotComponent loading ⟨0, idx.pos⟩) < 0 then fun i => -loading i else loading

def factorReturn {nObs : ℕ} (centered : Fin n → Fin nObs → K) (loading : Fin n → K) :
    Fin nObs → K :=
  fun t => sumOver (fun i => loading i * centered i t) (List.finRange n)

def pca (sort : IndexSort K) (returnsMatrix : List (List K)) (nComponents : ℤ) :
    Except Error (PCAResult K) := do
  checkReturnsMatrix returnsMatrix nComponents
  let nVars := returnsMatrix.length
  let centered := centered returnsMatrix (returnsMatrix.headD []).length
  let (eigenvalues, eigenvectors) := jacobiEigen (sampleCovariance centered)
  let indices := ((sort nVars eigenvalues).run (List.finRange nVars)).take nComponents.toNat
  let totalVariance := sumOver eigenvalues (List.finRange nVars)
  return {
    labels := (List.range nVars).map fun i => "PC" ++ toString (i + 1)
    explainedVarianceRatio := indices.map fun idx =>
      if 0 < totalVariance then stdMax 0 (eigenvalues idx) / totalVariance else 0
    loadings := indices.map fun idx => List.ofFn (signedLoading eigenvectors idx)
    factorReturns := indices.map fun idx =>
      List.ofFn (factorReturn centered (signedLoading eigenvectors idx)) }

/-! ### Correlation -/

structure CorrelationResult (K : Type) where
  labels : List String
  matrix : List (List K)
  average : K
  min : Extended K
  max : Extended K

omit [Cmath K] in
/-- `returns_map.at(label)` for a label of the map. -/
def seriesOf (returnsMap : StdMap (List K)) (label : String) : List K :=
  (returnsMap.find? label).getD []

def checkReturnsMap (returnsMap : StdMap (List K)) (labels : List String) (nObs : ℕ) :
    Except Error Unit :=
  if nObs < 2 then
    .error (.dataQuality "each return series must contain at least two observations")
  else
    labels.forM fun label => do
      validateFinite (seriesOf returnsMap label) ("series " ++ label)
      if (seriesOf returnsMap label).length ≠ nObs then
        .error (.dataQuality ("series " ++ label ++ " has length " ++
          toString (seriesOf returnsMap label).length ++ " but expected " ++ toString nObs))
      else .ok ()

/-- The covariances; the variances are the entries of the diagonal. -/
def covariances (nObs : ℕ) (series : Fin n → List K) : SquareMatrix K n :=
  mirrored fun i j =>
    sumOver (fun t : Fin nObs => ((series i).getD t 0 - mean (series i)) *
      ((series j).getD t 0 - mean (series j))) (List.finRange nObs) / ((nObs - 1 : ℕ) : K)

def correlationMatrix (cov : SquareMatrix K n) : SquareMatrix K n :=
  fun i j => cov i j / Double.sqrt (cov i i * cov j j)

def checkVariances (labels : Fin n → String) (cov : SquareMatrix K n) : Except Error Unit :=
  (List.finRange n).forM fun i => (List.finRange n).forM fun j =>
    if Double.sqrt (cov i i * cov j j) == 0 then
      .error (.dataQuality
        ("series " ++ labels i ++ " and/or " ++ labels j ++ " have zero variance"))
    else .ok ()

structure Aggregates (K : Type) where
  sum : K
  count : ℕ
  min : Extended K
  max : Extended K

def aggregateStep (matrix : SquareMatrix K n) (s : Aggregates K) (pair : Fin n × Fin n) :
    Aggregates K :=
  let v := matrix pair.1 pair.2
  let x : Extended K := (v : WithTop K)
  { sum := s.sum + v
    count := s.count + 1
    min := if x < s.min then x else s.min
    max := if s.max < x then x else s.max }

def aggregates (matrix : SquareMatrix K n) : Aggregates K :=
  (pairsAbove n).foldl (aggregateStep matrix) ⟨0, 0, ⊤, ⊥⟩

def correlation (sort : StdSort String (· < ·)) (returnsMap : StdMap (List K)) :
    Except Error (CorrelationResult K) :=
  if returnsMap.keys.isEmpty then
    .error (.dataQuality "returns map must contain at least one series")
  else do
    let labels := sort.run returnsMap.keys
    let nObs := (seriesOf returnsMap (labels.headD "")).length
    checkReturnsMap returnsMap labels nObs
    let cov := covariances nObs fun i => seriesOf returnsMap (labels.get i)
    checkVariances labels.get cov
    let matrix := correlationMatrix cov
    let s := aggregates matrix
    return {
      labels := labels
      matrix := List.ofFn fun i => List.ofFn (matrix i)
      average := if 0 < s.count then s.sum / (s.count : K) else 0
      min := s.min
      max := s.max }

end StandardTools.Analysis
