import PortfolioLab.Failure

/-!
# Amounts of money in cents

An amount is an integer number of cents in the range of a signed 64-bit word. Nothing wraps: an
operation whose result leaves the range fails.
-/

namespace PortfolioLab

abbrev Cents := Int

def maxCents : Int := 9223372036854775807

def minCents : Int := -9223372036854775808

namespace Cents

abbrev InRange (n : Int) : Prop := minCents ≤ n ∧ n ≤ maxCents

def check (n : Int) : Except Failure Cents :=
  if InRange n then .ok n else .error (.outOfRange (.cents n))

theorem check_of_inRange {n : Int} (h : InRange n) : check n = .ok n := if_pos h

theorem eq_of_check {n m : Int} (h : check n = .ok m) : m = n ∧ InRange n := by
  unfold check at h
  split at h
  · rename_i hr
    cases h
    exact ⟨rfl, hr⟩
  · cases h

def total (amounts : List Int) : Int := amounts.foldr (· + ·) 0

/-- The sum of amounts; the first amount out of range is reported, then the sum. -/
def sum (amounts : List Int) : Except Failure Cents := do
  let checked ← amounts.mapM check
  check (total checked)

/-- The quotient of two amounts, rounded to the nearest integer with ties to even. -/
def divide (numerator denominator : Int) : Except Failure Int :=
  if denominator = 0 then .error (.divisionByZero .amount)
  else .ok (divHalfEven numerator denominator)

def toDecimal (n : Cents) : Except Failure Decimal := do
  let units ← check n
  return ⟨units < 0, units.natAbs, -2⟩

def toFloat (n : Cents) : Except Failure Float := do
  let units ← check n
  return Binary64.ofRatio units 100

end Cents
end PortfolioLab
