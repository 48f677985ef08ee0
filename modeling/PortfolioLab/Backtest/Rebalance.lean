import PortfolioLab.Backtest.Account
import PortfolioLab.Schedule.Weights

/-!
# Rebalancing

A rebalance turns target weights into whole quantities at the closing prices of the period, sells
what is held beyond them, and then buys what is missing as far as the cash goes. A symbol that was
stopped in the same period, or that has no positive closing price in it, is left alone.
-/

namespace PortfolioLab.Account

structure Order where
  symbol : String
  quantity : Int
  price : Cents
  deriving Repr, DecidableEq

/-- The order that moves a symbol to its target, if one is needed and possible. -/
def orderFor (equity : Cents) (targets : Targets) (bars : Register Bar) (stopped : List String)
    (a : Account) (symbol : String) : Except Failure (Option Order) :=
  if stopped.contains symbol then .ok none
  else
    match bars.find? symbol with
    | none => .ok none
    | some bar =>
      if bar.close = 0 then .ok none
      else do
        let value ← Money.scale equity (.real ((targets.find? symbol).getD 0))
        let target := value.fdiv bar.close
        let held := ((a.positions.find? symbol).map (·.quantity)).getD 0
        return if target = held then none else some ⟨symbol, target - held, bar.close⟩

/-- The symbols of targets and positions, each once, in ascending order. -/
def concerned (targets : Targets) (a : Account) : List String :=
  ascending (targets.symbols ++ a.positions.symbols).eraseDups

def orders (equity : Cents) (targets : Targets) (bars : Register Bar) (stopped : List String)
    (a : Account) : Except Failure (List Order) := do
  let found ← (concerned targets a).mapM (orderFor equity targets bars stopped a)
  return found.filterMap id

/-- Sell part or all of a position. A position sold out is closed and its stop released. -/
def sell (model : CostModel) (time : Instant) (a : Account) (order : Order) :
    Except Failure Account :=
  match a.positions.find? order.symbol with
  | none => throw .unknownKey
  | some position => do
    let (cash, position, trade) ←
      settle model a.cash position order.symbol time order.quantity order.price .rebalance
    let a := { a with cash, trades := a.trades ++ [trade] }
    return if position.quantity = 0 then
      { a with
        positions := a.positions.remove order.symbol
        book := a.book.map (StopBook.release order.symbol) }
    else { a with positions := a.positions.put order.symbol position }

def enterStop (symbol : String) (price : Cents) (a : Account) : Except Failure Account :=
  match a.book with
  | none => .ok a
  | some book => do
    let history := (a.histories.find? symbol).getD []
    let (_, book) ← (StopBook.enter symbol price history).commit book
    return { a with book := some book }

/-- Buy as much of an order as the cash pays for. -/
def buy (model : CostModel) (time : Instant) (a : Account) (order : Order) :
    Except Failure Account := do
  let quantity ← model.affordable order.quantity order.price a.cash
  if quantity = 0 then return a
  else
    let held := a.positions.find? order.symbol
    let (cash, position, trade) ←
      settle model a.cash (held.getD {}) order.symbol time quantity order.price .rebalance
    let a :=
      { a with
        cash, trades := a.trades ++ [trade]
        positions := a.positions.put order.symbol position }
    if held.isNone then enterStop order.symbol order.price a else return a

/-- Move the account to its target weights. Without positive equity nothing is done. -/
def rebalance (model : CostModel) (time : Instant) (targets : Targets) (bars : Register Bar)
    (stopped : List String) (a : Account) : Except Failure Account := do
  let equity ← a.equity
  if equity ≤ 0 then return a
  else
    let orders ← orders equity targets bars stopped a
    let sold ← (orders.filter (·.quantity < 0)).foldlM (sell model time) a
    (orders.filter (0 < ·.quantity)).foldlM (buy model time) sold

end PortfolioLab.Account
