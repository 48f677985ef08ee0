import PortfolioLab.Allocation.Chain
import PortfolioLab.Program.Sequential

/-!
# Allocations by mean and variance

The portfolio of least variance minimises a quadratic form over the weights. The portfolio of the
largest excess return per deviation does so over all holdings whose excess return is one: the
ratio does not change when holdings are scaled, so the minimum, scaled to sum one, maximises it.
-/

namespace PortfolioLab

variable {α : Type} [Scalar α]

/-- The least variance over weights of sum one, from equal weights. -/
def varianceProgram (assets : Nat) (covariance : List (List α)) : QuadraticProgram α where
  curvature := normalized covariance
  slope := Scalar.zeros assets
  limits := []
  equations := [(Scalar.ones assets, 1)]
  ranges := List.replicate assets .share
  start := equalWeights assets

def excessReturns (mean : List α) (riskFree : α) : List α := mean.map (· - riskFree)

/-- Numbers divided by the largest magnitude among them. -/
def scaledToUnit (xs : List α) : List α :=
  let scale := Scalar.largest 0 (xs.map Scalar.magnitude)
  xs.map (· / scale)

/-- Holdings in equal amounts of every symbol with a positive excess return, scaled to have an
excess return of one. -/
def positiveStart (excess : List α) : List α :=
  let total := Scalar.sum (excess.filter (0 < ·))
  excess.map fun e => if 0 < e then 1 / total else 0

/-- The least variance over holdings whose excess return is one; none if no excess return is
positive. -/
def sharpeProgram? (m : Moments α) (riskFree : α) : Option (QuadraticProgram α) :=
  let excess := excessReturns m.mean riskFree
  if excess.any (0 < ·) then
    let scaled := scaledToUnit excess
    some {
      curvature := normalized m.covariance
      slope := Scalar.zeros scaled.length
      limits := []
      equations := [(scaled, 1)]
      ranges := List.replicate scaled.length .nonnegative
      start := positiveStart scaled }
  else none

def quadraticAttempt (limits : SolverLimits α) (q : QuadraticProgram α) : Attempt α :=
  let r := q.search limits.tolerance limits.rounds
  if r.converged then { weights := some r.point, converged := true, iterations := r.rounds }
  else .failed (.notConverged r.ending.message) r.rounds

/-- The attempt to find the largest excess return per deviation. The limits are not looked at when
no excess return is positive. -/
def sharpeAttempt (limits : Except Failure (SolverLimits α)) (riskFree : α) (m : Moments α) :
    Except Failure (Attempt α) := do
  match sharpeProgram? m riskFree with
  | none => return .failed .noPositiveExcess
  | some q => return quadraticAttempt (← limits) q

end PortfolioLab
