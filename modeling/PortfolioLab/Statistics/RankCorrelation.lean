import PortfolioLab.Numeric.Nested
import PortfolioLab.Numeric.Summation
import PortfolioLab.Statistics.IncompleteBeta

/-!
# Rank correlation

The correlation of the ranks of two series, where equal entries share the mean of their ranks, and
the probability that two independent series are correlated at least as strongly in either
direction. Twice a shared rank is an integer, so the sums of the correlation are exact.
-/

namespace PortfolioLab

/-- Twice the rank of an entry: entries below it count twice, entries equal to it once, and one
more. -/
def doubleRank (xs : List Float) (x : Float) : Int :=
  xs.foldl (fun n y => if y < x then n + 2 else if y == x then n + 1 else n) 1

/-- The deviations of twice the ranks from their mean `n + 1`. -/
def rankDeviations (xs : List Float) : List Int :=
  xs.map fun x => doubleRank xs x - (xs.length + 1)

def integerDot (xs ys : List Int) : Int := (List.zipWith (· * ·) xs ys).foldl (· + ·) 0

structure RankCorrelation where
  coefficient : Float
  probability : Float

def RankCorrelation.undefined : RankCorrelation := ⟨0 / 0, 0 / 0⟩

def rankCorrelationOf (xs ys : List Float) : RankCorrelation :=
  let dx := rankDeviations xs
  let dy := rankDeviations ys
  let denominator := (Binary64.ofInt (integerDot dx dx * integerDot dy dy)).sqrt
  if denominator ≤ 0 then .undefined
  else
    let r := Binary64.ofInt (integerDot dx dy) / denominator
    if ((r.abs - 1).abs : Float) < 1e-12 then ⟨if r < 0 then -1 else 1, 0⟩
    else ⟨r, IncompleteBeta.regularized (xs.length - 2) ((1 - r) * (1 + r)) (r * r)⟩

/-- The rank correlation of two series. It is undefined for series of different shapes, with fewer
than three entries, with not-a-number, or if either is constant. -/
def rankCorrelation (x y : Nested) : Except Failure RankCorrelation := do
  let shapeX ← x.shape
  let shapeY ← y.shape
  let xs := x.numbers
  let ys := y.numbers
  if shapeX ≠ shapeY ∨ shapeX.length ≠ 1 ∨ xs.length < 3 then return .undefined
  else if xs.any Float.isNaN || ys.any Float.isNaN then return .undefined
  else return rankCorrelationOf xs ys

end PortfolioLab
