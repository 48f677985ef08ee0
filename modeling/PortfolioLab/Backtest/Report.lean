import PortfolioLab.Backtest.Run
import PortfolioLab.Metrics.Performance
import PortfolioLab.Schedule.SymbolReturns
import PortfolioLab.Settings.Basic

/-!
# Simulated runs

A simulation checks its prices, then its weights, converts the prices to bars, and runs the
account over all periods. Its report holds the final account, everything that was recorded, and
the statistics of the period returns.
-/

namespace PortfolioLab

structure Report where
  run : Run
  initialCash : Cents
  rebalances : Nat
  stopsEnabled : Bool
  gapPolicy : Value
  symbolReturns : List SymbolReturns
  metrics : Metrics Float

namespace Report

def returns (r : Report) : List Float := periodReturns r.initialCash (r.run.curve.map (·.equity))

def equityAt (r : Report) (time : Instant) : Cents :=
  ((r.run.curve.find? (·.time = time)).map (·.equity)).getD 0

def weight (r : Report) (h : Holding) : Float := weightOf h.marketValue (r.equityAt h.time)

def lastHoldings (r : Report) : List Holding :=
  match r.run.curve.getLast? with
  | none => []
  | some last => r.run.holdings.filter (·.time = last.time)

/-- The positions at the end, in ascending order of their symbols. -/
def finalPositions (r : Report) : Register Position :=
  (ascending r.run.account.positions.symbols).filterMap fun symbol =>
    (r.run.account.positions.find? symbol).map (symbol, ·)

end Report

namespace Backtest

/-- The symbols of a priority list. A list or a table cannot be one; any other value that is no
text names no symbol. -/
def prioritySymbols (values : List Value) : Except Failure (List String) := do
  let names ← values.mapM fun v =>
    match v with
    | .text s => .ok (some s)
    | .list _ => .error .wrongType
    | .table _ => .error .wrongType
    | _ => .ok none
  return names.filterMap id

/-- The book of stops of a run; there is none without rules. -/
def bookOf (rules : Register StopRule) (settings : RunSettings) :
    Except Failure (Option StopBook) :=
  if rules.isEmpty then .ok none
  else do
    let policy ← GapPolicy.ofValue settings.gapPolicy
    let priority ← prioritySymbols settings.stopPriority
    return some { rules, policy, priority }

/-- The periods of a run: the bars of every instant, with the weights that the schedule has for
it. -/
def periodsOf (schedule : WeightSchedule) (bars : List PeriodBars) : List Period :=
  bars.map fun p => ⟨p.time, p.bars, schedule.targetsAt? p.time⟩

/-- The instants of a schedule that have no prices. -/
def unmatched (schedule : WeightSchedule) (bars : List PeriodBars) : List Instant :=
  (schedule.map (·.1)).filter fun time => !bars.any (·.time = time)

/-- How many instants without prices a message shows. -/
def shownTimes : Nat := 5

def allSymbols (prices : PriceSchedule) (schedule : WeightSchedule) : List String :=
  ascending (prices.symbols ++ schedule.flatMap (·.2.symbols)).eraseDups

/-- Simulate a run. The initial cash is that of the settings unless another is given. -/
def simulate (settings : RunSettings) (model : CostModel) (weights : WeightInput)
    (prices : PriceInput) (initialCash : Option Value) (stops : StopAssignment) :
    Except Failure Report := do
  let prices ← PriceSchedule.ofInput prices
  let schedule ← WeightSchedule.ofInput weights
  let bars ← prices.periods
  match unmatched schedule bars with
  | _ :: _ => refuse (.unmatchedTimes ((unmatched schedule bars).take shownTimes))
  | [] =>
    let cash ← Money.toCents (initialCash.getD settings.initialCash)
    if cash < 0 then refuse .negativeCash
    else
      let rules ← stops.resolve (allSymbols prices schedule)
      let book ← bookOf rules settings
      let run ← Run.ofPeriods model cash book (periodsOf schedule bars)
      let returns : List Float := periodReturns cash (run.curve.map (·.equity))
      let metrics ← performance (.row (returns.map .number)) settings.periodsPerYear
        settings.riskFreeRate defaultTailLevel
      return {
        run, initialCash := cash, rebalances := schedule.length, stopsEnabled := book.isSome
        gapPolicy := settings.gapPolicy
        symbolReturns := ← SymbolReturns.ofSchedule prices
        metrics }

end Backtest
end PortfolioLab
