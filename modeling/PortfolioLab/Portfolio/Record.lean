import PortfolioLab.Money.Cents

/-!
# Records of a run

Trades, stop events and holdings are what a run writes down. Prices and fees are in cents.
-/

namespace PortfolioLab

inductive TradeReason where
  | rebalance
  | stop
  deriving Repr, DecidableEq, Inhabited

def TradeReason.name : TradeReason → String
  | rebalance => "rebalance"
  | stop => "stop"

def TradeReason.ofName? (name : String) : Option TradeReason :=
  [rebalance, stop].find? (·.name = name)

/-- An executed trade; a sale has a negative quantity. -/
structure Trade where
  symbol : String
  time : Instant
  quantity : Int
  price : Cents
  fee : Cents
  reason : TradeReason
  deriving Repr, DecidableEq, Inhabited

def Trade.notional (t : Trade) : Except Failure Cents := Cents.check (t.quantity * t.price)

def Trade.side (t : Trade) : String := if 0 < t.quantity then "BUY" else "SELL"

structure Holding where
  time : Instant
  symbol : String
  quantity : Int
  price : Cents
  marketValue : Cents
  deriving Repr, DecidableEq, Inhabited

/-- A stop that fired, with the threshold in force and the price at which the position was left. -/
structure StopEvent where
  symbol : String
  time : Instant
  kind : String
  threshold : Cents
  exitPrice : Cents
  quantity : Int
  gapped : Bool
  deriving Repr, DecidableEq, Inhabited

end PortfolioLab
