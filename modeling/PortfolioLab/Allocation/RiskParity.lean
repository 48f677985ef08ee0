import PortfolioLab.Allocation.Chain

/-!
# Equal risk contributions

The minimum of `1/2 y · S y` less the mean of the logarithms of `y` is where every symbol
contributes the same risk. Coordinate by coordinate the minimum is the positive root of a quadratic
equation; sweeps over all coordinates descend to the common minimum, and its direction gives the
weights.
-/

namespace PortfolioLab.RiskParity

variable {α : Type} [Scalar α]

/-- The risk share of each of `n` symbols. -/
def budget (n : Nat) : α := 1 / (n : α)

/-- The minimum along coordinate `i`: the positive root `z` of `d z² + c z = budget`, with `d` the
variance of the symbol and `c` its covariance with the others. -/
def coordinateMinimum (covariance : List (List α)) (y : List α) (i : Nat) : α :=
  let d := Scalar.entry covariance i i
  let c := Scalar.dot (covariance.getD i []) y - d * y.getD i 0
  (-c + Scalar.sqrt (c * c + 4.0 * d * budget covariance.length)) / (2.0 * d)

/-- Move one coordinate to its minimum. -/
def update (covariance : List (List α)) (y : List α) (i : Nat) : List α :=
  y.set i (coordinateMinimum covariance y i)

def sweep (covariance : List (List α)) (y : List α) : List α :=
  (List.range covariance.length).foldl (update covariance) y

def toUnitSum (y : List α) : List α :=
  let total := Scalar.sum y
  y.map (· / total)

/-- The starting point: inverse deviations. -/
def start (covariance : List (List α)) : List α :=
  toUnitSum ((Scalar.diagonal covariance).map fun d => 1 / Scalar.sqrt d)

def contributions (covariance : List (List α)) (w : List α) : List α :=
  List.zipWith (· * ·) w (Scalar.mulVec covariance w)

/-- The largest distance of a share of risk from the budget; none if there is no risk. -/
def imbalance? (covariance : List (List α)) (w : List α) : Option α :=
  let parts := contributions covariance w
  let total := Scalar.sum parts
  if 0 < total then
    some (Scalar.largest 0
      (parts.map fun p => Scalar.magnitude (p / total - budget covariance.length)))
  else none

/-- Sweep until the shares of risk are equal up to the tolerance, `left` times at most. The result
counts all sweeps. A tolerance that is no number fails at the first comparison. -/
def descend (covariance : List (List α)) (tolerance : Except Failure α) :
    (left done : Nat) → List α → Except Failure (Attempt α)
  | 0, done, _ => .ok (.failed .sweepLimit done)
  | left + 1, done, y => do
    let next := sweep covariance y
    let weights := toUnitSum next
    match imbalance? covariance weights with
    | some gap =>
      if gap < (← tolerance) then
        return { weights := some weights, converged := true, iterations := (done + 1 : Nat) }
      else descend covariance tolerance left (done + 1) next
    | none => descend covariance tolerance left (done + 1) next

def attempt (sweeps : Except Failure Int) (tolerance : Except Failure α) (m : Moments α) :
    Except Failure (Attempt α) := do
  let covariance := normalized m.covariance
  descend covariance tolerance (← sweeps).toNat 0 (start covariance)

end PortfolioLab.RiskParity
