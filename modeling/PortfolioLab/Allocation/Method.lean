import PortfolioLab.Allocation.RiskParity
import PortfolioLab.Allocation.TailRisk
import PortfolioLab.Allocation.Variance

/-!
# Allocation methods

The five ways to find long-only weights from a panel of returns, each through the same guard and
the same fallback chain.
-/

namespace PortfolioLab

inductive AllocationMethod where
  | minVariance
  | maxSharpe (riskFree : Float)
  | riskParity
  | leastTail (alpha : Float)
  | leastDrawdown (alpha : Float)

namespace AllocationMethod

def name : AllocationMethod → String
  | minVariance => "min_variance"
  | maxSharpe _ => "max_sharpe"
  | riskParity => "risk_parity"
  | leastTail _ => "cvar"
  | leastDrawdown _ => "cdar"

/-- The method of a name, with the parameters for those that take one. -/
def ofName? (name : String) (riskFree alpha : Float) : Option AllocationMethod :=
  [minVariance, maxSharpe riskFree, riskParity, leastTail alpha, leastDrawdown alpha].find?
    fun m => m.name == name

/-- A rate has to be finite, and a level has to lie between zero and one. -/
def checkParameter : AllocationMethod → Except Failure Unit
  | maxSharpe riskFree => if riskFree.isFinite then .ok () else refuse .riskFree
  | leastTail alpha => checkLevel alpha
  | leastDrawdown alpha => checkLevel alpha
  | _ => .ok ()

def defaultPivots : Nat := 1000000

/-- The most pivots of a linear program: only an integer that is not negative limits them. -/
def pivotCap (v : Value) : Nat :=
  match v.integer? with
  | some n => if n < 0 then defaultPivots else n.toNat
  | none => defaultPivots

def attempt (settings : AllocationSettings) (p : Panel Float) (m : Moments Float) :
    AllocationMethod → Except Failure (Attempt Float)
  | minVariance => do
    let limits ← SolverLimits.ofValues settings.maxIterations settings.tolerance
    return quadraticAttempt limits (varianceProgram p.symbols.length m.covariance)
  | maxSharpe riskFree =>
    sharpeAttempt (SolverLimits.ofValues settings.maxIterations settings.tolerance) riskFree m
  | riskParity =>
    RiskParity.attempt settings.maxIterations.wholeCount settings.parityTolerance.number m
  | leastTail alpha =>
    let program := tailProgram p.symbols.length p.rows alpha
    return programAttempt p.symbols.length (program.solve (pivotCap settings.programIterations))
  | leastDrawdown alpha =>
    let program := drawdownProgram p.symbols.length p.rows alpha
    return programAttempt p.symbols.length (program.solve (pivotCap settings.programIterations))

end AllocationMethod

abbrev AllocationSolver : Type :=
  AllocationSettings → Panel Float → Moments Float → AllocationMethod →
    Except Failure (Attempt Float)

def allocateBy (estimator : Estimator Float) (solver : AllocationSolver)
    (method : AllocationMethod) (returns : ReturnsInput) (symbols : Option (List String))
    (settings : AllocationSettings) : Except Failure (Allocation Float) := do
  method.checkParameter
  let p ← Panel.ofInput returns symbols
  chain method.name estimator settings.limits p fun m => solver settings p m method

def allocate : AllocationMethod → ReturnsInput → Option (List String) → AllocationSettings →
    Except Failure (Allocation Float) :=
  allocateBy sampleEstimator AllocationMethod.attempt

end PortfolioLab
