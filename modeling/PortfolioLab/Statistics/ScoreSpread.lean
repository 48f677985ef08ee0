import PortfolioLab.Numeric.Nested
import PortfolioLab.Numeric.Summation

/-!
# The spread between score groups

Observations are sorted by score, equal scores in the order in which they came, and cut into
groups of equal size. The spread is the mean return of the top group less that of the bottom one.
-/

namespace PortfolioLab

variable {α : Type} [Scalar α]

/-- Returns in ascending order of their scores; not-a-number comes last. -/
def sortByScore (scores returns : List α) : List α :=
  ((scores.zip returns).mergeSort fun a b => a.1 ≤ b.1 || !(b.1 ≤ b.1)).map (·.2)

/-- The mean return of the top group less that of the bottom group. -/
def groupSpread (scores returns : List α) (groups : Nat) : α :=
  let sorted := sortByScore scores returns
  let size := sorted.length / groups
  Scalar.mean (sorted.drop (sorted.length - size)) - Scalar.mean (sorted.take size)

/-- The spread of `groups` groups, undefined when there are fewer observations than groups or the
series do not match. -/
def scoreSpread (scores returns : Nested) (groups : Int) : Except Failure Float := do
  let shapeS ← scores.shape
  let shapeR ← returns.shape
  if groups ≤ 0 ∨ shapeS ≠ shapeR ∨ (scores.numbers.length : Int) < groups then return 0 / 0
  else return groupSpread scores.numbers returns.numbers groups.toNat

end PortfolioLab
