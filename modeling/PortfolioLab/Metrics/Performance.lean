import PortfolioLab.Metrics.Losses
import PortfolioLab.Numeric.Nested

/-!
# Performance of a return series

Return, risk and trade statistics of a series of periodic returns. Degenerate series give zeros:
a ratio over zero is zero, and a single return has neither volatility nor drawdown.
-/

namespace PortfolioLab

variable {α : Type} [Scalar α]

structure Metrics (α : Type) where
  totalReturn : α
  annualGrowth : α
  volatility : α
  sharpe : α
  sortino : α
  calmar : α
  maxDrawdown : α
  tailMean : α
  tailLevel : α
  winRate : α
  profitFactor : α
  payoffRatio : α
  kellyFraction : α
  periods : Nat
  winningPeriods : Nat
  losingPeriods : Nat

/-- A ratio that is zero where it has no finite value. -/
def safeRatio (numerator denominator : α) : α :=
  if Scalar.isZero denominator || !Scalar.isFinite denominator then 0
  else
    let value := numerator / denominator
    if Scalar.isFinite value then value else 0

/-- The sample standard deviation; zero for constant series and single returns. -/
def deviation (returns : List α) : α :=
  if returns.length < 2 || Scalar.isZero (Scalar.spread returns) then 0
  else Scalar.sqrt (Scalar.sampleVariance returns)

def growthFactor (returns : List α) : α := Scalar.product (returns.map (1 + ·))

def maxGrowthExponent : α := ((700 : Nat) : α)

/-- The annual growth rate; a series that loses everything grows by minus one. -/
def annualGrowth (returns : List α) (periodsPerYear : α) : α :=
  let growth := growthFactor returns
  let years := (returns.length : α) / periodsPerYear
  if growth ≤ 0 then -1
  else
    let exponent := Scalar.log growth / years
    Scalar.expLessOne (if maxGrowthExponent < exponent then maxGrowthExponent else exponent)

/-- The mean return above a hurdle per unit of downside deviation, annualized. -/
def sortinoRatio (returns : List α) (hurdle periodsPerYear : α) : α :=
  let shortfalls := returns.map fun r => Scalar.smaller (r - hurdle) 0
  let downside := Scalar.sqrt (Scalar.mean (shortfalls.map fun s => s * s))
  if Scalar.isZero downside then 0
  else safeRatio (Scalar.mean returns - hurdle) downside * Scalar.sqrt periodsPerYear

def sharpeRatio (returns : List α) (hurdle periodsPerYear : α) : α :=
  let risk := deviation returns
  if 0 < risk then safeRatio (Scalar.mean returns - hurdle) risk * Scalar.sqrt periodsPerYear else 0

def meanOrZero (xs : List α) : α := if xs.isEmpty then 0 else Scalar.mean xs

/-- All statistics of a series, with an annual risk-free rate and a tail level. -/
def metricsOf (returns : List α) (periodsPerYear riskFreeRate alpha : α) : Metrics α :=
  let hurdle := riskFreeRate / periodsPerYear
  let several := 2 ≤ returns.length
  let wins := returns.filter (0 < ·)
  let losses := returns.filter (· < 0)
  let winRate := (wins.length : α) / (returns.length : α)
  let payoff := safeRatio (meanOrZero wins) (Scalar.magnitude (meanOrZero losses))
  let growth := annualGrowth returns periodsPerYear
  let drawdown := maxDrawdown returns
  { totalReturn := growthFactor returns - 1
    annualGrowth := growth
    volatility := deviation returns * Scalar.sqrt periodsPerYear
    sharpe := sharpeRatio returns hurdle periodsPerYear
    sortino := if several then sortinoRatio returns hurdle periodsPerYear else 0
    calmar := if several then safeRatio growth (Scalar.magnitude drawdown) else 0
    maxDrawdown := drawdown
    tailMean := tailMean returns alpha
    tailLevel := alpha
    winRate := winRate
    profitFactor := safeRatio (Scalar.sum wins) (Scalar.magnitude (Scalar.sum losses))
    payoffRatio := payoff
    kellyFraction := if 0 < payoff then winRate - (1 - winRate) / payoff else 0
    periods := returns.length
    winningPeriods := wins.length
    losingPeriods := losses.length }

def defaultTailLevel : Float := 0.95

/-- A number of a setting; anything but a number has the wrong type. An integer too large for a
double is infinite. -/
def Value.number : Value → Except Failure Float
  | .real x => .ok x
  | v =>
    match v.integer? with
    | some n => .ok (Binary64.ofInt n)
    | none => .error .wrongType

/-- A one-dimensional series of finite returns, at least one of them. -/
def returnSeries (returns : Nested) : Except Failure (List Float) := do
  let shape ← returns.shape
  if shape.length ≠ 1 then refuse (.notOneDimensional shape)
  else if returns.numbers.isEmpty then refuse .emptyReturns
  else if returns.numbers.any (!·.isFinite) then refuse .nonFiniteReturns
  else return returns.numbers

def performance (returns : Nested) (periodsPerYear riskFreeRate : Value) (alpha : Float) :
    Except Failure (Metrics Float) := do
  let series ← returnSeries returns
  let perYear ← periodsPerYear.number
  if perYear ≤ 0 || !perYear.isFinite then refuse (.periodsPerYear periodsPerYear) else
    let riskFree ← riskFreeRate.number
    if !riskFree.isFinite then refuse .riskFreeRate else
      checkLevel alpha
      return metricsOf series perYear riskFree alpha

def percentText (x : Float) : String := Binary64.fixed 2 (x * 100) ++ "%"

def Metrics.summary (m : Metrics Float) : String :=
  "Metrics(total_return=" ++ percentText m.totalReturn ++ ", sharpe=" ++
    Binary64.fixed 2 m.sharpe ++ ", max_drawdown=" ++ percentText m.maxDrawdown ++ ")"

end PortfolioLab
