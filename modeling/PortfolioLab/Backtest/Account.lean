import PortfolioLab.Portfolio.Cost
import PortfolioLab.Portfolio.Position
import PortfolioLab.Portfolio.Record
import PortfolioLab.Register
import PortfolioLab.Stop.Book

/-!
# The account of a run

Cash, open positions and the book of stops, together with what is known of the market and the log
of trades. A trade changes cash by its value and its fee, and its position by its quantity.
-/

namespace PortfolioLab

structure Account where
  cash : Cents
  positions : Register Position := []
  lastClose : Register Cents := []
  histories : Register (List Bar) := []
  book : Option StopBook := none
  trades : List Trade := []
  events : List StopEvent := []

namespace Account

/-- Cash, and the value of all positions at their last closes. -/
def equity (a : Account) : Except Failure Cents :=
  a.positions.foldlM (fun total (symbol, position) => do
    match a.lastClose.find? symbol with
    | none => throw .unknownKey
    | some price => Cents.sum [total, ← position.marketValue price]) a.cash

/-- Enter the bars of a period into the histories and the last closes. -/
def learn (bars : Register Bar) (a : Account) : Account :=
  bars.foldl (fun a (symbol, bar) =>
    { a with
      histories := a.histories.put symbol ((a.histories.find? symbol).getD [] ++ [bar])
      lastClose := a.lastClose.put symbol bar.close }) a

/-- Trade `quantity` units of a position at `price`: the fee, the cash and the position after the
trade, and its record. -/
def settle (model : CostModel) (cash : Cents) (position : Position) (symbol : String)
    (time : Instant) (quantity price : Int) (reason : TradeReason) :
    Except Failure (Cents × Position × Trade) := do
  let fee ← model.fee (quantity * price)
  let notional ← Cents.check (quantity * price)
  let cash ← Cents.sum [cash, -notional, -fee]
  let (_, position) ← (Position.fill quantity price).commit position
  return (cash, position, { symbol, time, quantity, price, fee, reason })

def leave (model : CostModel) (time : Instant) (a : Account) (trigger : StopTrigger) :
    Except Failure Account := do
  let breach := trigger.breach
  match a.positions.find? trigger.symbol, a.book with
  | some position, some book =>
    let (cash, _, trade) ← settle model a.cash position trigger.symbol time (-position.quantity)
      breach.exitPrice .stop
    let (_, book) ← (StopBook.close trigger.symbol).commit book
    let event : StopEvent :=
      { symbol := trigger.symbol, time, kind := trigger.kind, threshold := breach.threshold,
        exitPrice := breach.exitPrice, quantity := position.quantity, gapped := breach.gapped }
    return { a with
      cash, book := some book, positions := a.positions.remove trigger.symbol
      trades := a.trades ++ [trade], events := a.events ++ [event] }
  | _, _ => throw .unknownKey

/-- The stop phase of a period: every stop that the bars breach is left, in the order of the book.
The symbols left are reported. -/
def runStops (model : CostModel) (time : Instant) (bars : Register Bar) (a : Account) :
    Except Failure (Account × List String) :=
  match a.book with
  | none => .ok (a, [])
  | some book => do
    let (triggers, book) ← (StopBook.evaluate bars a.histories).commit book
    let after ← triggers.foldlM (leave model time) { a with book := some book }
    return (after, triggers.map (·.symbol))

end Account
end PortfolioLab
