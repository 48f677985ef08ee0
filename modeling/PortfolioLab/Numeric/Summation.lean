import PortfolioLab.Numeric.Scalar

/-!
# Sums of long lists

Rounding errors of a long sum stay small when it is taken pairwise. Up to 128 numbers are added
in eight lanes that are combined at the end; a longer list is cut in two near its middle, at a
multiple of eight. In exact arithmetic the result is the sum.
-/

namespace PortfolioLab.Scalar

variable {α : Type} [Scalar α]

def runningSum (start : α) (xs : List α) : α := xs.foldl (· + ·) start

def combineLanes : List α → α
  | [a, b, c, d, e, f, g, h] => ((a + b) + (c + d)) + ((e + f) + (g + h))
  | lanes => runningSum 0 lanes

/-- Add full rows of eight to the lanes; what is left is added to their combination. -/
def laneSum (lanes : List α) (xs : List α) : α :=
  if xs.length < 8 then runningSum (combineLanes lanes) xs
  else laneSum (List.zipWith (· + ·) lanes (xs.take 8)) (xs.drop 8)
termination_by xs.length
decreasing_by simp; omega

/-- The sum of a list, taken pairwise. -/
def sum (xs : List α) : α :=
  if xs.length < 8 then runningSum 0 xs
  else if xs.length ≤ 128 then laneSum (xs.take 8) (xs.drop 8)
  else
    let half := xs.length / 2
    sum (xs.take (half - half % 8)) + sum (xs.drop (half - half % 8))
termination_by xs.length
decreasing_by
  · simp; omega
  · simp; omega

def mean (xs : List α) : α := sum xs / (xs.length : α)

def product (xs : List α) : α := xs.foldl (· * ·) 1

def sampleVariance (xs : List α) : α :=
  let m := mean xs
  sum (xs.map fun x => (x - m) * (x - m)) / ((xs.length - 1 : Nat) : α)

end PortfolioLab.Scalar
