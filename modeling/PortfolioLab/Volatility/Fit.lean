import PortfolioLab.Program.Sequential
import PortfolioLab.Settings.Solver
import PortfolioLab.Volatility.Likelihood

/-!
# Fitting a variance equation

The parameters of largest likelihood, within bounds and with weights that sum below one, by
sequential quadratic programming from a fixed start.
-/

namespace PortfolioLab

/-- A fit of `p` shock weights and `q` variance weights to squared shocks. -/
structure FitProblem (α : Type) where
  p : Nat
  q : Nat
  shocks : List α
  backcast : α

structure FitOutcome (α : Type) where
  parameters : List α
  deviance : α
  converged : Bool
  message : String
  rounds : Nat

namespace FitProblem

variable {α : Type} [Scalar α]

def stationarityMargin : α := 1e-6

def constraints (f : FitProblem α) : Constraints α where
  limits := [(0 :: Scalar.ones (f.p + f.q), 1 - stationarityMargin)]
  equations := []
  ranges := ⟨some 1e-8, some 10.0⟩ :: List.replicate (f.p + f.q) .share

def equation (f : FitProblem α) (parameters : List α) : VarianceEquation α where
  constant := parameters.headD 0
  shockWeights := parameters.tail.take f.p
  varianceWeights := (parameters.tail.drop f.p).take f.q

def deviance (f : FitProblem α) (parameters : List α) : α :=
  (f.equation parameters).deviance f.backcast f.shocks

/-- The slope of the negative log-likelihood; zero where there is only the penalty. -/
def slope (f : FitProblem α) (parameters : List α) : List α :=
  let e := f.equation parameters
  if (e.variances f.backcast f.shocks).all VarianceEquation.isVariance then
    e.score f.backcast f.shocks
  else Scalar.zeros parameters.length

/-- The fit from a starting point; rounding may leave a range by a trace, which is cut off. -/
def solve (f : FitProblem α) (start : List α) (limits : SolverLimits α) : FitOutcome α :=
  let function : SmoothFunction α := { value := f.deviance, slope := f.slope }
  let r := function.minimize f.constraints start limits.tolerance limits.rounds
  { parameters := f.constraints.clip r.point
    deviance := r.value
    converged := r.converged
    message := r.ending.message
    rounds := r.rounds }

end FitProblem
end PortfolioLab
