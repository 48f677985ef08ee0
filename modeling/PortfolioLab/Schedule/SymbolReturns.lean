import PortfolioLab.Schedule.Prices

/-!
# Returns of the symbols

The period return of every symbol from its last known close. A symbol without an earlier close,
and a move off a zero close, count as no move.
-/

namespace PortfolioLab

structure SymbolReturns where
  time : Instant
  returns : Register Float

namespace SymbolReturns

def times (schedule : PriceSchedule) : List Instant :=
  schedule.foldl (fun seen row =>
    if seen.getLast? = some row.time then seen else seen ++ [row.time]) []

def closesAt (schedule : PriceSchedule) (time : Instant) : Except Failure (Register Float) := do
  (schedule.filter (·.time = time)).mapM fun row => do return (row.symbol, ← row.close.cellNumber)

/-- The return from one close to the next, if it has a finite value. -/
def between (previous current : Option Float) : Float :=
  match previous, current with
  | some p, some c =>
    let r := c / p - 1
    if r.isFinite then r else 0
  | _, _ => 0

/-- One period: its returns, and the last known closes after it. -/
def step (symbols : List String) (known : Register Float) (closes : Register Float) :
    Register Float × Register Float :=
  let after := closes.foldl (fun known (symbol, close) => known.put symbol close) known
  (symbols.map fun symbol => (symbol, between (known.find? symbol) (after.find? symbol)), after)

def fromPeriods (symbols : List String) (known : Register Float) :
    List (Instant × Register Float) → List SymbolReturns
  | [] => []
  | (time, closes) :: rest =>
    let (returns, after) := step symbols known closes
    ⟨time, returns⟩ :: fromPeriods symbols after rest

def ofSchedule (schedule : PriceSchedule) : Except Failure (List SymbolReturns) := do
  let periods ← (times schedule).mapM fun time => do return (time, ← closesAt schedule time)
  return fromPeriods (ascending schedule.symbols) [] periods

end SymbolReturns
end PortfolioLab
