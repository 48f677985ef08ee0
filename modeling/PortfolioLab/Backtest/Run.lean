import PortfolioLab.Backtest.Rebalance
import PortfolioLab.Numeric.Scalar
import PortfolioLab.Schedule.Prices

/-!
# A run over the periods

Each period has three phases: stops are tested and left, the account is rebalanced if the schedule
has weights for the period, and holdings and equity are recorded. A run is the fold of its periods
over an account that starts with cash alone, so what is recorded up to some period depends on the
periods up to it and on nothing else.
-/

namespace PortfolioLab

/-- What one period brings: the bars of its symbols, and target weights if it has them. -/
structure Period where
  time : Instant
  bars : Register Bar
  targets : Option Targets

structure EquityRecord where
  time : Instant
  equity : Cents
  cash : Cents
  invested : Cents
  deriving Repr, DecidableEq, Inhabited

structure Run where
  account : Account
  holdings : List Holding := []
  curve : List EquityRecord := []

namespace Run

def holdingOf (time : Instant) (a : Account) (symbol : String) : Except Failure Holding :=
  match a.positions.find? symbol, a.lastClose.find? symbol with
  | some position, some price => do
    let marketValue ← position.marketValue price
    return { symbol, time, quantity := position.quantity, price, marketValue }
  | _, _ => throw .unknownKey

/-- The holdings at the end of a period, in ascending order of their symbols, and their value. -/
def takeStock (time : Instant) (a : Account) : Except Failure (List Holding × Cents) :=
  (ascending a.positions.symbols).foldlM (fun (holdings, invested) symbol => do
    let holding ← holdingOf time a symbol
    return (holdings ++ [holding], ← Cents.check (invested + holding.marketValue))) ([], 0)

def record (time : Instant) (run : Run) : Except Failure Run := do
  let (holdings, invested) ← takeStock time run.account
  let equity ← Cents.sum [run.account.cash, invested]
  return { run with
    holdings := run.holdings ++ holdings
    curve := run.curve ++ [{ time, equity, cash := run.account.cash, invested }] }

def step (model : CostModel) (run : Run) (period : Period) : Except Failure Run := do
  let account := run.account.learn period.bars
  let (account, stopped) ← account.runStops model period.time period.bars
  let account ← match period.targets with
    | none => .ok account
    | some targets => account.rebalance model period.time targets period.bars stopped
  record period.time { run with account }

/-- The run over some periods, from cash alone and a book without stops. -/
def ofPeriods (model : CostModel) (cash : Cents) (book : Option StopBook) (periods : List Period) :
    Except Failure Run :=
  periods.foldlM (step model) { account := { cash, book } }

end Run

variable {α : Type} [Scalar α]

/-- The return from one equity to the next; none after an equity that is not positive. -/
def periodReturn (previous current : Cents) : α :=
  if 0 < previous then Scalar.ofRatio current previous - 1 else 0

def periodReturns (previous : Cents) : List Cents → List α
  | [] => []
  | equity :: rest => periodReturn previous equity :: periodReturns equity rest

/-- The share of a value in equity; zero when equity is not positive. -/
def weightOf (value equity : Cents) : α := if 0 < equity then Scalar.ofRatio value equity else 0

end PortfolioLab
