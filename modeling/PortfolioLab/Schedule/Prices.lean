import PortfolioLab.Money.Price
import PortfolioLab.Schedule.Weights
import PortfolioLab.Stop.Bar

/-!
# Price schedules

Prices by instant and symbol, given as a table in long form or as one series of closing prices
for each symbol. Closing prices must be finite; opening, high and low prices may be missing, and
those that are there must not contradict the bar they belong to. The rows are sorted by instant
and symbol and then converted to bars in cents.
-/

namespace PortfolioLab

/-- The cells of one instant and symbol. A price column that the schedule does not have is absent
from every row. -/
structure PriceRow where
  time : Instant
  symbol : String
  opening : Option Value
  high : Option Value
  low : Option Value
  close : Value
  deriving Inhabited

/-- Price rows in ascending order of instant and symbol. -/
abbrev PriceSchedule : Type := List PriceRow

inductive PriceInput where
  | table (t : Table)
  | series (entries : List (String × List (Value × Value)))
  | other (v : Value)

structure PeriodBars where
  time : Instant
  bars : Register Bar

namespace PriceSchedule

def ofSeries (entries : List (String × List (Value × Value))) : Table where
  columns := ["event_time", "symbol", "close"]
  rows := entries.flatMap fun (symbol, points) =>
    points.map fun (time, close) => [time, .text symbol, close]

def tableOf : PriceInput → Except Failure Table
  | .table t => .ok t
  | .series entries => .ok (ofSeries entries)
  | .other (.table []) => .ok (ofSeries [])
  | .other _ => refuse .notAPriceSchedule

/-- The smaller of two numbers, of which one may be not-a-number. -/
def lesser (a b : Float) : Float := if a.isNaN then b else if b.isNaN then a else if b < a then b else a

def greater (a b : Float) : Float := if a.isNaN then b else if b.isNaN then a else if a < b then b else a

def checkFinite (name : String) (values : Option (List Float)) : Except Failure Unit :=
  if (values.getD []).any Float.isInf then refuse (.infinitePrice name) else .ok ()

/-- Refuse prices that contradict their bars: a low above, or a high below, the opening or closing
price. -/
def checkRanges (opening high low : Option (List Float)) (closes : List Float) :
    Except Failure Unit := do
  checkFinite "open" opening
  checkFinite "high" high
  checkFinite "low" low
  let floors := (opening.map fun xs => List.zipWith lesser xs closes).getD closes
  let roofs := (opening.map fun xs => List.zipWith greater xs closes).getD closes
  if ((low.getD []).zip floors).any fun (x, limit) => limit < x then refuse .lowAboveBody
  else if ((high.getD []).zip roofs).any fun (x, limit) => x < limit then refuse .highBelowBody
  else return ()

def columnNumbers (cells : Option (List Value)) : Except Failure (Option (List Float)) :=
  match cells with
  | none => .ok none
  | some cells => do return some (← cells.mapM Value.cellNumber)

/-- Whether a row comes no later than another: by instant, then by symbol. -/
def rowLe (a b : PriceRow) : Bool :=
  if a.time = b.time then a.symbol ≤ b.symbol else a.time.le b.time

def cellAt (cells : Option (List Value)) (i : Nat) : Option Value :=
  cells.map fun cells => cells[i]?.getD .null

def ofRows (t : Table) : Except Failure PriceSchedule := do
  let times ← Instant.ofColumn (t.column "event_time")
  let symbols := (t.column "symbol").map Value.display
  let keys := times.zip symbols
  if WeightSchedule.hasDuplicates keys then refuse (.duplicateRows "price_schedule")
  else
    let closes := t.column "close"
    let numbers ← closes.mapM Value.cellNumber
    if numbers.any (!·.isFinite) then refuse (.infinitePrice "close")
    else
      let opening := t.column? "open"
      let high := t.column? "high"
      let low := t.column? "low"
      let openingNumbers ← columnNumbers opening
      let highNumbers ← columnNumbers high
      let lowNumbers ← columnNumbers low
      checkRanges openingNumbers highNumbers lowNumbers numbers
      let rows := (keys.zip closes).zipIdx.map fun (((time, symbol), close), i) =>
        { time, symbol, opening := cellAt opening i, high := cellAt high i, low := cellAt low i,
          close : PriceRow }
      return rows.mergeSort rowLe

def ofInput (input : PriceInput) : Except Failure PriceSchedule := do
  let t ← tableOf input
  match t.missing ["close", "event_time", "symbol"] with
  | [] => if t.rows.isEmpty then refuse .emptyPrices else ofRows t
  | columns => refuse (.missingColumns "price_schedule" columns)

def optionalCents : Option Value → Except Failure (Option Cents)
  | none => .ok none
  | some .null => .ok none
  | some (.real x) => if x.isNaN then .ok none else do return some (← Price.ofValue (.real x)).cents
  | some v => do return some (← Price.ofValue v).cents

def barOf (row : PriceRow) : Except Failure Bar := do
  let close ← Price.ofValue row.close
  let opening ← optionalCents row.opening
  let high ← optionalCents row.high
  let low ← optionalCents row.low
  return { close := close.cents, opening, high, low }

/-- Add a bar to the periods; rows of one instant follow each other. -/
def addBar (periods : List PeriodBars) (row : PriceRow) (bar : Bar) : List PeriodBars :=
  match periods with
  | [] => [⟨row.time, [(row.symbol, bar)]⟩]
  | [last] =>
    if last.time = row.time then [⟨last.time, last.bars.put row.symbol bar⟩]
    else [last, ⟨row.time, [(row.symbol, bar)]⟩]
  | first :: rest => first :: addBar rest row bar

def periods (schedule : PriceSchedule) : Except Failure (List PeriodBars) :=
  schedule.foldlM (fun periods row => do return addBar periods row (← barOf row)) []

/-- The symbols of a schedule, each once, in ascending order of their first rows. -/
def symbols (schedule : PriceSchedule) : List String :=
  schedule.foldl (fun seen row => if seen.contains row.symbol then seen else seen ++ [row.symbol]) []

end PriceSchedule
end PortfolioLab
