import PortfolioLab.Numeric.Summation
import PortfolioLab.Volatility.Equation

/-!
# The Gaussian likelihood of a variance equation

A series of squared shocks has the negative log-likelihood of independent normal variables with the
conditional variances of the equation. Its slope follows from the derivatives of the variances,
which obey the same equation.
-/

namespace PortfolioLab.VarianceEquation

variable {α : Type} [Scalar α]

/-- The value where the likelihood does not exist. -/
def penalty : α := 1e12

def isVariance (v : α) : Bool := decide (0 < v) && Scalar.isFinite v

def negativeLogLikelihood (variances shocks : List α) : α :=
  if variances.all isVariance then
    let constant := Scalar.log (2.0 * Scalar.pi)
    0.5 * Scalar.sum (List.zipWith (fun v x => constant + Scalar.log v + x / v) variances shocks)
  else penalty

def deviance (e : VarianceEquation α) (backcast : α) (shocks : List α) : α :=
  negativeLogLikelihood (e.variances backcast shocks) shocks

/-- The variance of each period and its derivatives by the parameters. -/
def sensitivitiesFrom (e : VarianceEquation α) (shocks variances : List α)
    (derivatives : List (List α)) : List α → List (α × List α)
  | [] => []
  | x :: rest =>
    let v := e.next shocks variances
    let d := (e.varianceWeights.zip derivatives).foldl
      (fun total (b, earlier) => Scalar.addVec total (Scalar.scaleBy b earlier))
      (1 :: (shocks ++ variances))
    (v, d) :: sensitivitiesFrom e (slide shocks x) (slide variances v) (slide derivatives d) rest

/-- The variances of a series and their derivatives; the backcast does not depend on them. -/
def sensitivities (e : VarianceEquation α) (backcast : α) (shocks : List α) :
    List (α × List α) :=
  e.sensitivitiesFrom (List.replicate e.shockWeights.length backcast)
    (List.replicate e.varianceWeights.length backcast)
    (List.replicate e.varianceWeights.length (Scalar.zeros e.parameters.length)) shocks

def score (e : VarianceEquation α) (backcast : α) (shocks : List α) : List α :=
  ((e.sensitivities backcast shocks).zip shocks).foldl
    (fun total ((v, d), x) => Scalar.addVec total (Scalar.scaleBy (0.5 * (1 - x / v) / v) d))
    (Scalar.zeros e.parameters.length)

end PortfolioLab.VarianceEquation
