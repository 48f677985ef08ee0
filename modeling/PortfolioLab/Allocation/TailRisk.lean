import PortfolioLab.Allocation.Chain
import PortfolioLab.Metrics.Losses
import PortfolioLab.Program.Simplex

/-!
# Allocations of least tail risk

The mean of the worst share of losses is the minimum, over a threshold, of the threshold and the
mean excess over it. With one variable per period for the excess this is a linear program in the
weights and the threshold. For drawdowns the loss of a period is the distance of the summed
returns from their running peak, and one more variable per period stands for the peak.
-/

namespace PortfolioLab

variable {α : Type} [Scalar α]

/-- What one period of `n` counts in a mean over the worst `1 - alpha` share of them. -/
def tailShare (n : Nat) (alpha : α) : α := 1 / ((1 - alpha) * (n : α))

/-- The least tail mean of the losses: the variables are the weights, the threshold and the excess
of each period. An excess is at least the loss less the threshold. -/
def tailProgram (assets : Nat) (returns : List (List α)) (alpha : α) : LinearProgram α :=
  let n := returns.length
  { objective := Scalar.zeros assets ++ [1] ++ List.replicate n (tailShare n alpha)
    limits := returns.zipIdx.map fun (r, t) =>
      (r.map (- ·) ++ [-1] ++ (Scalar.unit n t).map (- ·), 0)
    equations := [(Scalar.ones assets ++ Scalar.zeros (1 + n), 1)]
    ranges := List.replicate assets .share ++ [.free] ++ List.replicate n .nonnegative }

/-- The sums of the first rows, after each row. -/
def cumulativeRows : List α → List (List α) → List (List α)
  | _, [] => []
  | total, row :: rest =>
    let next := Scalar.addVec total row
    next :: cumulativeRows next rest

/-- The least tail mean of the drawdowns: the variables are the weights, the threshold, and for
each period the excess and the peak. A peak is at least the summed return and the peak before it. -/
def drawdownProgram (assets : Nat) (returns : List (List α)) (alpha : α) : LinearProgram α :=
  let n := returns.length
  let paths := cumulativeRows (Scalar.zeros assets) returns
  let excess := paths.zipIdx.map fun (c, t) =>
    (c.map (- ·) ++ [-1] ++ (Scalar.unit n t).map (- ·) ++ Scalar.unit n t, (0 : α))
  let peak := paths.zipIdx.map fun (c, t) =>
    (c ++ [0] ++ Scalar.zeros n ++ (Scalar.unit n t).map (- ·), (0 : α))
  let rising := (List.range (n - 1)).map fun t =>
    (Scalar.zeros (assets + 1 + n) ++ Scalar.subVec (Scalar.unit n t) (Scalar.unit n (t + 1)),
      (0 : α))
  { objective := Scalar.zeros assets ++ [1] ++ List.replicate n (tailShare n alpha) ++
      Scalar.zeros n
    limits := excess ++ peak ++ rising
    equations := [(Scalar.ones assets ++ Scalar.zeros (1 + 2 * n), 1)]
    ranges := List.replicate assets .share ++ [.free] ++ List.replicate (2 * n) .nonnegative }

def programAttempt (assets : Nat) (outcome : ProgramOutcome α) : Attempt α :=
  match outcome with
  | .optimal point pivots =>
    { weights := some (point.take assets), converged := true, iterations := pivots }
  | other => .failed (.programStatus other.status)

/-- The tail mean of the losses of a portfolio with fixed weights, as a positive number. -/
def portfolioTailLoss (returns : List (List α)) (weights : List α) (alpha : α) : α :=
  -tailMean (Scalar.mulVec returns weights) alpha

/-- The tail loss of a portfolio whose data and level are checked: a matrix needs one weight per
column, and the product of two series is no series. -/
def portfolioRisk (returns weights : Nested) (alpha : Float) : Except Failure Float := do
  match ← returns.shape, ← weights.shape with
  | [_, width], [n] =>
    if width ≠ n then throw .badValue
    checkLevel alpha
    return portfolioTailLoss returns.rows weights.numbers alpha
  | [length], [n] =>
    if length ≠ n then throw .badValue
    checkLevel alpha
    throw .noAxis
  | _, _ => throw .badValue

end PortfolioLab
