import PortfolioLab.Money.Conversion

/-!
# Trading costs

A trade pays commission and slippage in basis points of its value, each rounded to a cent, and at
least a minimum fee. A trade of value zero is free.
-/

namespace PortfolioLab

/-- Rates in basis points, and the least fee of a trade in cents. -/
structure CostModel where
  commission : Nat
  slippage : Nat
  minimumFee : Nat
  deriving Repr, DecidableEq, Inhabited

structure CostBreakdown where
  commission : Int
  slippage : Int
  topUp : Int
  deriving Repr, DecidableEq

def CostBreakdown.total (b : CostBreakdown) : Int := b.commission + b.slippage + b.topUp

namespace CostModel

def zero : CostModel := ⟨0, 0, 0⟩

/-- The cost model with the given rates and least fee, none of which may be negative. -/
def ofRates (commission slippage minimumFee : Int) : Except Failure CostModel :=
  if commission < 0 ∨ slippage < 0 ∨ minimumFee < 0 then refuse .negativeCost
  else .ok ⟨commission.toNat, slippage.toNat, minimumFee.toNat⟩

def totalRate (m : CostModel) : Nat := m.commission + m.slippage

/-- A rate of `bps` basis points of a gross amount, rounded to a cent. -/
def rateOf (gross : Int) (bps : Nat) : Int := divHalfEven (gross * bps) 10000

def partsOf (m : CostModel) (gross : Int) : CostBreakdown :=
  if gross = 0 then ⟨0, 0, 0⟩
  else
    let commission := rateOf gross m.commission
    let slippage := rateOf gross m.slippage
    ⟨commission, slippage, max (m.minimumFee - commission - slippage) 0⟩

/-- The parts of the fee for a trade worth `notional` cents; the sign does not matter. -/
def breakdown (m : CostModel) (notional : Int) : Except Failure CostBreakdown := do
  let amount ← Cents.check notional
  return m.partsOf amount.natAbs

def fee (m : CostModel) (notional : Int) : Except Failure Cents := do
  Cents.check (← m.breakdown notional).total

/-- The rounds of `affordable` that are enough: a second round keeps the quantity it gets. -/
def affordableLoop (m : CostModel) (price cash : Int) : Nat → Int → Except Failure Int
  | 0, _ => .ok 0
  | rounds + 1, quantity => do
    if quantity ≤ 0 then return 0
    let notional := quantity * price
    let fee ← m.fee notional
    if notional + fee ≤ cash then return quantity
    if price = 0 then throw (.divisionByZero .quantity)
    m.affordableLoop price cash rounds (min (quantity - 1) (max ((cash - fee).fdiv price) 0))

/-- The largest quantity up to `quantity` whose value and fee fit into `cash`. Every round lowers
the quantity, so `quantity` rounds always come to an end. -/
def affordable (m : CostModel) (quantity price cash : Int) : Except Failure Int :=
  m.affordableLoop price cash (quantity.toNat + 1) quantity

end CostModel
end PortfolioLab
