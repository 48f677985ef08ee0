import PortfolioLab.Failure
import PortfolioLab.Numeric.Matrix

/-!
# The variance equation

The conditional variance of a period is a constant, plus weighted squared shocks of the periods
before it, plus weighted variances of the periods before it. The equation runs over a series of
squared shocks, with a backcast for the periods before the first; after the last period the
unknown squared shocks are replaced by their expectation, which is the variance itself.
-/

namespace PortfolioLab

/-- A variance equation; the weights are those of the latest period first. -/
structure VarianceEquation (α : Type) where
  constant : α
  shockWeights : List α
  varianceWeights : List α

/-- Move a window of fixed length, latest entry first, by one entry. -/
def slide {β : Type} (window : List β) (entry : β) : List β := (entry :: window).dropLast

namespace VarianceEquation

variable {α : Type} [Scalar α]

def ofParameters (p q : Nat) (parameters : List α) : Except Failure (VarianceEquation α) :=
  match parameters with
  | [] => .error .unknownIndex
  | constant :: weights => .ok {
      constant, shockWeights := weights.take p, varianceWeights := (weights.drop p).take q }

def parameters (e : VarianceEquation α) : List α :=
  e.constant :: (e.shockWeights ++ e.varianceWeights)

def checkWeights (e : VarianceEquation α) (p q : Nat) : Except Failure Unit :=
  if e.shockWeights.length < p || e.varianceWeights.length < q then .error .unknownIndex else .ok ()

/-- A number plus the products of weights and entries, added one after the other. -/
def addProducts (total : α) (weights entries : List α) : α :=
  (List.zipWith (· * ·) weights entries).foldl (· + ·) total

def next (e : VarianceEquation α) (shocks variances : List α) : α :=
  addProducts (addProducts e.constant e.shockWeights shocks) e.varianceWeights variances

def variancesFrom (e : VarianceEquation α) (shocks variances : List α) : List α → List α
  | [] => []
  | x :: rest =>
    let v := e.next shocks variances
    v :: variancesFrom e (slide shocks x) (slide variances v) rest

/-- The conditional variances of a series of squared shocks, with a backcast for what came before
it. -/
def variances (e : VarianceEquation α) (backcast : α) (shocks : List α) : List α :=
  e.variancesFrom (List.replicate e.shockWeights.length backcast)
    (List.replicate e.varianceWeights.length backcast) shocks

def projectFrom (e : VarianceEquation α) : Nat → (shocks variances : List α) → List α
  | 0, _, _ => []
  | horizon + 1, shocks, variances =>
    let v := e.next shocks variances
    v :: projectFrom e horizon (slide shocks v) (slide variances v)

def latest (n : Nat) (series : List α) : List α := series.reverse.take n

def project (e : VarianceEquation α) (shocks variances : List α) (horizon : Nat) : List α :=
  e.projectFrom horizon (latest e.shockWeights.length shocks)
    (latest e.varianceWeights.length variances)

def persistence (e : VarianceEquation α) : α :=
  Scalar.runningSum 0 e.shockWeights + Scalar.runningSum 0 e.varianceWeights

def rescaled (e : VarianceEquation α) (factor : α) : VarianceEquation α :=
  { e with constant := e.constant * factor }

/-- The conditional variances for parameters that may be too few. -/
def conditionalVariances (p q : Nat) (parameters shocks : List α) (backcast : α) :
    Except Failure (List α) := do
  let e ← ofParameters p q parameters
  if !shocks.isEmpty then e.checkWeights p q
  return e.variances backcast shocks

/-- The projection for parameters and series that may be too few or too short. -/
def projectedVariances (p q : Nat) (parameters shocks variances : List α) (horizon : Nat) :
    Except Failure (List α) := do
  let e ← ofParameters p q parameters
  if 0 < horizon then
    e.checkWeights p q
    if shocks.length < p || variances.length < q then throw .unknownIndex
  return e.project shocks variances horizon

/-- Equal shares of a total; none for a negative number of them. -/
def shares (total : α) (n : Int) : Except Failure (List α) :=
  if n = 0 then .error (.divisionByZero .share)
  else .ok (List.replicate n.toNat (total / Scalar.ofRatio n 1))

/-- The parameters from which a fit starts: little weight on the shocks and much on the variances,
and a constant that makes the long-run variance one. -/
def startingParameters (p q : Int) : Except Failure (List α) := do
  let shockWeights ← shares (if 0 < q then 0.05 else 0.3) p
  let varianceWeights ← if 0 < q then shares 0.9 q else pure []
  let constant := 1 - Scalar.runningSum 0 shockWeights - Scalar.runningSum 0 varianceWeights
  return constant :: (shockWeights ++ varianceWeights)

end VarianceEquation
end PortfolioLab
