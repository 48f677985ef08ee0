import PortfolioLab.Binary64.Reading
import PortfolioLab.Portfolio.Cost
import PortfolioLab.Settings.Basic

/-!
# Cost models from settings

A rate has to be a whole number of basis points. Both rates are judged before any of the three
numbers is converted.
-/

namespace PortfolioLab

/-- The double that a value stands for; a text is read as one. -/
def Value.floating : Value → Except Failure Float
  | .real x => .ok x
  | .decimal n =>
    match Binary64.ofNumeral? n with
    | some x => .ok x
    | none => .error .badValue
  | .text s =>
    match Binary64.ofText? s with
    | some x => .ok x
    | none => .error .badValue
  | v =>
    match v.integer? with
    | some n => if (Binary64.ofInt n).isFinite then .ok (Binary64.ofInt n) else .error .infiniteCount
    | none => .error .wrongType

/-- The integer that a number is which was found to be whole, for a decimal the nearest one; a text is
none. -/
def Value.wholeNumber : Value → Except Failure Int
  | .real x => .ok ((Binary64.truncate? x).getD 0)
  | .decimal (.finite d) => .ok (d.scaledInt 0)
  | v =>
    match v.integer? with
    | some n => .ok n
    | none => .error .wrongType

namespace CostSettings

def checkRate (name : String) (rate : Value) : Except Failure Unit := do
  let x ← rate.floating
  if !Binary64.isInteger x then refuse (.fractionalRate name x)

def model (s : CostSettings) : Except Failure CostModel := do
  checkRate "commission_bps" s.commission
  checkRate "slippage_bps" s.slippage
  let commission ← s.commission.wholeNumber
  let slippage ← s.slippage.wholeNumber
  CostModel.ofRates commission slippage (← Money.toCents s.minimumFee)

end CostSettings
end PortfolioLab
