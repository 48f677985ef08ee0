import PortfolioLab.Value.Basic

/-!
# Settings

The parameters of costs, runs, allocations and volatility forecasts, in four sections. A setting
keeps whatever value it was given: what a value has to be is decided where it is used.
-/

namespace PortfolioLab

structure CostSettings where
  commission : Value := .real 0
  slippage : Value := .real 0
  minimumFee : Value := .real 0

structure RunSettings where
  initialCash : Value := .real 100000
  periodsPerYear : Value := .real 252
  riskFreeRate : Value := .real 0
  gapPolicy : Value := .text "worse_price"
  stopPriority : List Value := []

structure AllocationSettings where
  minimumPeriods : Value := .int 20
  maxCondition : Value := .real 1e10
  maxIterations : Value := .int 500
  tolerance : Value := .real 1e-10
  weightTolerance : Value := .real 1e-6
  parityTolerance : Value := .real 1e-8
  programIterations : Value := .int 100000

structure VolatilitySettings where
  maxIterations : Value := .int 200
  tolerance : Value := .real 1e-8
  minimumObservations : Value := .int 10

structure Settings where
  costs : CostSettings := {}
  run : RunSettings := {}
  allocation : AllocationSettings := {}
  volatility : VolatilitySettings := {}

end PortfolioLab
