import PortfolioLab.Allocation.Guard
import PortfolioLab.Settings.Solver

/-!
# The fallback chain

An allocation method is tried on a panel that passes the guard. Where the panel is rejected, the
method fails or its weights cannot be used, every symbol gets the same weight, and the allocation
says why. Numerical failures of a method end here: they are a reason, not a failure of the chain.
-/

namespace PortfolioLab

/-- How an attempt ended. -/
inductive Reason where
  | normal
  | equalWeight
  | invalidSolution
  | rejected (rejection : Rejection)
  | notConverged (message : String)
  | noPositiveExcess
  | sweepLimit
  | programStatus (status : Nat)
  | solverError (fault : SolverFault)
  /-- A reason in the words of a solver. -/
  | worded (text : String)
  deriving DecidableEq, Repr

def Reason.tag : Reason → String
  | normal => "normal"
  | equalWeight => "equal_weight"
  | invalidSolution => "invalid_solution"
  | rejected rejection => rejection.tag
  | notConverged message => "not_converged:" ++ message
  | noPositiveExcess => "no_positive_excess_return"
  | sweepLimit => "iteration_cap_reached"
  | programStatus status => s!"lp_status_{status}"
  | solverError fault => "solver_error:" ++ fault.name
  | worded text => text

structure Attempt (α : Type) where
  weights : Option (List α)
  converged : Bool
  iterations : Int := 0
  reason : Reason := .normal

def Attempt.failed {α : Type} (reason : Reason) (iterations : Int := 0) : Attempt α :=
  { weights := none, converged := false, iterations, reason }

structure Allocation (α : Type) where
  method : String
  weights : List (String × α)
  usedFallback : Bool
  converged : Bool
  reason : Reason
  iterations : Int

variable {α : Type} [Scalar α]

/-- How far below zero a weight may fall by rounding. -/
def weightSlack : α := 1e-7

/-- The weights of a solver without rounding noise: negative ones are set to zero and the rest is
scaled to sum one. None if an entry is not finite or clearly negative, or if they cannot be
scaled. -/
def cleanWeights (tolerance : Except Failure α) (weights : Option (List α)) :
    Except Failure (Option (List α)) :=
  match weights with
  | none => return none
  | some w =>
    if !w.all Scalar.isFinite then return none
    else if w.isEmpty then throw .badValue
    else if w.any fun x => x < -weightSlack then return none
    else do
      let clipped := w.map fun x => if x < 0 then 0 else x
      let total := Scalar.sum clipped
      if total ≤ 0 then return none
      let scaled := clipped.map (· / total)
      if (← tolerance) ≤ Scalar.magnitude (Scalar.sum scaled - 1) then return none
      return some scaled

def equalWeights (n : Nat) : List α := List.replicate n (1 / (n : α))

/-- The attempt that cannot fail numerically. -/
def equalAttempt (p : Panel α) : Attempt α :=
  { weights := some (equalWeights p.symbols.length), converged := true, reason := .equalWeight }

/-- A numerical failure as a failed attempt; other failures remain. -/
def absorb (result : Except Failure (Attempt α)) : Except Failure (Attempt α) :=
  match result with
  | .ok attempt => .ok attempt
  | .error failure =>
    match failure.solverFault? with
    | some fault => .ok (.failed (.solverError fault))
    | none => .error failure

def usableWeights (limits : Limits α) (attempt : Attempt α) : Except Failure (Option (List α)) := do
  let weights ← cleanWeights limits.weightTolerance attempt.weights
  return if attempt.converged then weights else none

/-- Why the weights of an attempt cannot be used. -/
def Attempt.complaint (attempt : Attempt α) : Reason :=
  if attempt.reason.tag = Reason.normal.tag then .invalidSolution else attempt.reason

def fallBack (method : String) (limits : Limits α) (p : Panel α) (reason : Reason) :
    Except Failure (Allocation α) := do
  let attempt := equalAttempt p
  match ← usableWeights limits attempt with
  | some weights => return {
      method, weights := p.symbols.zip weights, usedFallback := true, converged := false, reason,
      iterations := attempt.iterations }
  | none => throw (.noStrategy method)

def chain (method : String) (estimator : Estimator α) (limits : Limits α) (p : Panel α)
    (primary : Moments α → Except Failure (Attempt α)) : Except Failure (Allocation α) := do
  match ← guardPanel estimator limits p with
  | .error rejection => fallBack method limits p (.rejected rejection)
  | .ok moments =>
    let attempt ← absorb (primary moments)
    match ← usableWeights limits attempt with
    | some weights => return {
        method, weights := p.symbols.zip weights, usedFallback := false, converged := true,
        reason := .normal, iterations := attempt.iterations }
    | none => fallBack method limits p attempt.complaint

/-- The weights of some symbols, each of which has to have one. -/
def Allocation.weightsOf (a : Allocation α) (symbols : List String) : Except Failure (List α) :=
  symbols.mapM fun s =>
    match a.weights.lookup s with
    | some w => .ok w
    | none => .error .unknownKey

end PortfolioLab
