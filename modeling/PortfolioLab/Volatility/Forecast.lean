import PortfolioLab.Metrics.Performance
import PortfolioLab.Volatility.Fit

/-!
# Volatility forecasts

A forecast fits a variance equation to the shocks of a return series and projects the variance. The
fit works on shocks of unit mean square; constant and projection are scaled back. Where there are
too few returns, the shocks vanish or the fit cannot be used, the forecast is the sample variance
for every period, and says why.
-/

namespace PortfolioLab

inductive ForecastReason where
  | normal
  | insufficientData
  | vanishingShocks
  | solverError (fault : SolverFault)
  | notConverged (message : String)
  | notStationary
  | invalidForecast
  deriving DecidableEq, Repr

def ForecastReason.tag : ForecastReason → String
  | normal => "normal"
  | insufficientData => "insufficient_data"
  | vanishingShocks => "degenerate_likelihood"
  | solverError fault => "solver_error:" ++ fault.name
  | notConverged message => "not_converged:" ++ message
  | notStationary => "non_stationary"
  | invalidForecast => "invalid_forecast"

structure VolatilityForecast (α : Type) where
  converged : Bool
  reason : ForecastReason
  /-- The equation for the shocks of the series; without weights if nothing was fitted. -/
  equation : VarianceEquation α
  mean : α
  /-- The log-likelihood of the shocks, if an equation was fitted. -/
  logLikelihood : Option α
  observations : Nat
  rounds : Nat
  /-- The variance of each period to come. -/
  path : List α

namespace VolatilityForecast

variable {α : Type} [Scalar α]

def variance (f : VolatilityForecast α) : α := f.path.headD 0

def volatility (f : VolatilityForecast α) : α := Scalar.sqrt f.variance

/-- The sample variance of a series; zero for less than two returns. -/
def sampleVariance (returns : List α) : α :=
  if returns.length < 2 then 0 else Scalar.sampleVariance returns

def fallback (returns : List α) (horizon : Nat) (reason : ForecastReason) (mean : α)
    (rounds : Nat) : VolatilityForecast α :=
  let v := sampleVariance returns
  { converged := false, reason, equation := ⟨v, [], []⟩, mean, logLikelihood := none,
    observations := returns.length, rounds, path := List.replicate horizon v }

/-- A fit, which may fail numerically. -/
abbrev Fitter (α : Type) : Type := FitProblem α → Except Failure (FitOutcome α)

def isUsable (outcome : FitOutcome α) : Bool :=
  outcome.converged && outcome.parameters.all Scalar.isFinite &&
    decide (0 < outcome.parameters.headD 0) &&
    outcome.parameters.tail.all fun w => decide (0 ≤ w)

def isStationary (outcome : FitOutcome α) : Bool :=
  decide (Scalar.sum outcome.parameters.tail < 1)

/-- The forecast from an equation that was fitted to shocks of unit mean square, or the reason why
there is none. -/
def ofOutcome (problem : FitProblem α) (scale mean : α) (horizon : Nat)
    (outcome : FitOutcome α) : Except ForecastReason (VolatilityForecast α) :=
  if !isUsable outcome then .error (.notConverged outcome.message)
  else if !isStationary outcome then .error .notStationary
  else
    let e := problem.equation outcome.parameters
    let variances := e.variances problem.backcast problem.shocks
    let path := (e.project problem.shocks variances horizon).map (· * scale)
    let n := problem.shocks.length
    if path.all fun v => Scalar.isFinite v && decide (0 < v) then
      .ok {
        converged := true, reason := .normal, equation := e.rescaled scale, mean,
        logLikelihood := some (-outcome.deviance - 0.5 * (n : α) * Scalar.log scale),
        observations := n, rounds := outcome.rounds, path }
    else .error .invalidForecast

/-- Shocks whose mean square does not exceed this count as vanishing. A square beyond the largest
double is a failure and not an infinite bound. -/
def vanishingSquare (returns : List α) : Except Failure α :=
  let size := 1e-12 * Scalar.largest 1 (returns.map Scalar.magnitude)
  if Scalar.isFinite size && !Scalar.isFinite (size * size) then .error .infiniteCount
  else .ok (size * size)

/-- The forecast by a fitted equation, or by the sample variance if the fit is of no use. -/
def ofFit (fit : Fitter α) (problem : FitProblem α) (returns : List α) (scale mean : α)
    (horizon : Nat) : Except Failure (VolatilityForecast α) :=
  match fit problem with
  | .error failure =>
    match failure.solverFault? with
    | some fault => .ok (fallback returns horizon (.solverError fault) mean 0)
    | none => .error failure
  | .ok outcome =>
    match ofOutcome problem scale mean horizon outcome with
    | .ok forecast => .ok forecast
    | .error reason => .ok (fallback returns horizon reason mean outcome.rounds)

/-- The forecast of a series of finite returns with `p` shock weights and `q` variance weights,
about zero or about the mean return. -/
def ofReturns (fit : Fitter α) (minimum : Except Failure α) (p q : Nat) (centered : Bool)
    (horizon : Nat) (returns : List α) : Except Failure (VolatilityForecast α) :=
  if returns.length < 2 then .ok (fallback returns horizon .insufficientData 0 0)
  else do
    let mean := if centered then Scalar.mean returns else 0
    let fewest := ((p + q + 2 : Nat) : α)
    let given ← minimum
    if (returns.length : α) < (if given < fewest then fewest else given) then
      return fallback returns horizon .insufficientData mean 0
    let squares := returns.map fun r => (r - mean) * (r - mean)
    let scale := Scalar.mean squares
    let least ← vanishingSquare returns
    if scale ≤ least then
      return fallback returns horizon .vanishingShocks mean 0
    let problem : FitProblem α := { p, q, shocks := squares.map (· / scale), backcast := 1 }
    ofFit fit problem returns scale mean horizon

end VolatilityForecast

def VolatilitySettings.fit (s : VolatilitySettings) : VolatilityForecast.Fitter Float :=
  fun problem => do
    let start ← VarianceEquation.startingParameters problem.p problem.q
    let limits ← SolverLimits.ofValues s.maxIterations s.tolerance
    return problem.solve start limits

def meanModes : List String := ["zero", "constant"]

structure ForecastRequest where
  shockLags : Int := 1
  varianceLags : Int := 1
  meanMode : Value := .text "zero"
  horizon : Int := 1

/-- The forecast of a series whose data and request are checked, with a given fit. -/
def forecastBy (fit : VolatilityForecast.Fitter Float) (settings : VolatilitySettings)
    (request : ForecastRequest) (returns : Nested) :
    Except Failure (VolatilityForecast Float) := do
  let shape ← returns.shape
  if shape.length ≠ 1 then refuse (.notOneDimensional shape)
  else if returns.numbers.any (!·.isFinite) then refuse .nonFiniteReturns
  else if request.shockLags < 1 || request.varianceLags < 0 then
    refuse (.lagOrders request.shockLags request.varianceLags)
  else
    match meanModes.find? fun mode => Value.same request.meanMode (.text mode) with
    | none => refuse (.meanMode request.meanMode)
    | some mode =>
      if request.horizon < 1 then refuse .shortHorizon
      else
        VolatilityForecast.ofReturns fit settings.minimumObservations.number
          request.shockLags.toNat request.varianceLags.toNat (mode == "constant")
          request.horizon.toNat returns.numbers

def forecast (settings : VolatilitySettings) : ForecastRequest → Nested →
    Except Failure (VolatilityForecast Float) :=
  forecastBy settings.fit settings

end PortfolioLab
