import PortfolioLab.Allocation.Panel
import PortfolioLab.Metrics.Performance
import PortfolioLab.Numeric.Spectrum
import PortfolioLab.Settings.Basic

/-!
# Panels fit for allocation

Before any allocation method runs, its panel is judged: all returns have to be finite, there have
to be enough periods, and the covariance must not be close to singular. A panel that passes comes
with its covariance and mean returns.
-/

namespace PortfolioLab

inductive Rejection where
  | nonFiniteReturns
  | shortHistory
  | illConditioned
  deriving DecidableEq, Repr

def Rejection.tag : Rejection → String
  | nonFiniteReturns => "non_finite_input"
  | shortHistory => "insufficient_history"
  | illConditioned => "ill_conditioned_covariance"

structure Moments (α : Type) where
  covariance : List (List α)
  mean : List α

structure Estimator (α : Type) where
  covariance : Panel α → Except Failure (List (List α))
  condition : List (List α) → Except Failure α

/-- The limits of an allocation. A setting that is no number fails where it is first used. -/
structure Limits (α : Type) where
  minimumPeriods : Except Failure α
  maxCondition : Except Failure α
  weightTolerance : Except Failure α

def AllocationSettings.limits (s : AllocationSettings) : Limits Float where
  minimumPeriods := s.minimumPeriods.number
  maxCondition := s.maxCondition.number
  weightTolerance := s.weightTolerance.number

/-- The sample covariance, and the ratio of its extreme singular values, which a matrix with
entries that are not finite does not have. -/
def sampleEstimator : Estimator Float where
  covariance p := .ok p.covariance
  condition rows :=
    if rows.all fun row => row.all Float.isFinite then .ok (Scalar.conditionNumber rows)
    else .error .singularMatrix

variable {α : Type} [Scalar α]

def guardPanel (estimator : Estimator α) (limits : Limits α) (p : Panel α) :
    Except Failure (Except Rejection (Moments α)) :=
  if !p.rows.all fun row => row.all Scalar.isFinite then return .error .nonFiniteReturns
  else do
    if (p.rows.length : α) < (← limits.minimumPeriods) then return .error .shortHistory
    let covariance ← estimator.covariance p
    let condition ← estimator.condition covariance
    if !Scalar.isFinite condition then return .error .illConditioned
    if (← limits.maxCondition) < condition then return .error .illConditioned
    return .ok { covariance, mean := p.means }

/-- A covariance divided by its mean variance. The minimum of a variance stays where it is, and
the tolerances of a solver keep their meaning. -/
def normalized (covariance : List (List α)) : List (List α) :=
  let scale := Scalar.mean (Scalar.diagonal covariance)
  if 0 < scale then covariance.map fun row => row.map (· / scale) else covariance

end PortfolioLab
