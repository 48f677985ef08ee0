import PortfolioLab.Money.Cents

/-!
# Positions

A long position in one symbol with average-cost accounting. A buy adds its cost and rounds the
average entry price to a cent; a sale realizes the difference to that average and rebuilds the
cost basis from it. A sale of more than is held sells what is held.
-/

namespace PortfolioLab

structure Position where
  quantity : Int := 0
  averageEntry : Cents := 0
  totalCost : Cents := 0
  realizedProfit : Cents := 0
  deriving Repr, DecidableEq, Inhabited

namespace Position

def buy (quantity price : Int) : Transition Position Unit := do
  let p ← get
  let cost ← Transition.require (Cents.check (p.totalCost + quantity * price))
  modify ({ · with totalCost := cost, quantity := p.quantity + quantity })
  let average ← Transition.require (Cents.divide cost (p.quantity + quantity))
  modify ({ · with averageEntry := average })

/-- Sell `quantity` units, or all that are held, at `price` cents. -/
def sell (quantity price : Int) : Transition Position Unit := do
  let p ← get
  let sold := min quantity p.quantity
  let realized ← Transition.require (Cents.check (p.realizedProfit + sold * (price - p.averageEntry)))
  modify ({ · with realizedProfit := realized, quantity := p.quantity - sold })
  let cost ← Transition.require (Cents.check (p.averageEntry * (p.quantity - sold)))
  modify ({ · with totalCost := cost })
  if p.quantity - sold = 0 then modify ({ · with averageEntry := 0 })

def fill (quantity price : Int) : Transition Position Unit :=
  if 0 < quantity then buy quantity price
  else if quantity < 0 then sell (-quantity) price
  else pure ()

def marketValue (p : Position) (price : Int) : Except Failure Cents :=
  Cents.check (p.quantity * price)

def unrealizedProfit (p : Position) (price : Int) : Except Failure Cents :=
  Cents.check (p.quantity * (price - p.averageEntry))

end Position
end PortfolioLab
