import PortfolioLab.Failure
import PortfolioLab.Numeric.Summation

/-!
# Drawdowns and tail means

Wealth starts at one and is compounded by the returns. The drawdown of a period is the part of the
highest wealth so far that is lost at its end. The conditional value at risk at level `alpha` is
the mean of the worst `1 - alpha` share of the returns: of their number rounded up, and of one
return at least.
-/

namespace PortfolioLab

variable {α : Type} [Scalar α]

/-- The drawdown of wealth against a peak; none while the peak is not positive. -/
def drawdownOf (peak wealth : α) : α := if 0 < peak then 1 - wealth / peak else 0

def drawdownsFrom (wealth peak : α) : List α → List α
  | [] => []
  | r :: returns =>
    let wealth := wealth * (1 + r)
    let peak := Scalar.larger peak wealth
    drawdownOf peak wealth :: drawdownsFrom wealth peak returns

def drawdowns (returns : List α) : List α := drawdownsFrom 1 1 returns

/-- The largest drawdown; a single return has none. -/
def maxDrawdown (returns : List α) : α :=
  match returns with
  | [] => 0
  | [_] => 0
  | _ =>
    match drawdowns returns with
    | [] => 0
    | d :: rest => Scalar.largest d rest

/-- How many of `n` returns count as the worst; a share that misses a whole number by rounding
noise is that number. -/
def tailLength (n : Nat) (alpha : α) : Nat :=
  (max 1 (Scalar.ceil ((1 - alpha) * (n : α) - 1e-12))).toNat

def tailMean (returns : List α) (alpha : α) : α :=
  Scalar.mean ((Scalar.sort returns).take (tailLength returns.length alpha))

/-- A level has to lie strictly between zero and one. -/
def checkLevel (alpha : Float) : Except Failure Unit :=
  if 0 < alpha && alpha < 1 then .ok () else refuse (.tailLevel alpha)

def conditionalValueAtRisk (returns : List Float) (alpha : Float) : Except Failure Float := do
  checkLevel alpha
  return tailMean returns alpha

end PortfolioLab
