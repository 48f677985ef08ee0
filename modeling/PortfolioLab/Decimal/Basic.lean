/-!
# Rounded quotients and decimal numbers

Every cents amount, fee, average price and true-range mean of the library is a quotient of two
integers rounded to the nearest integer, with ties going to the even neighbour. The rule is stated
once here, for all signs of numerator and denominator.

A decimal is a sign, a coefficient and a power of ten. The exponent may be astronomically large
in either direction, so no operation here expands a power of ten that the coefficient does not
reach: comparisons go by the number of digits first, and a rounding to a coarse place is zero
at once.
-/

namespace PortfolioLab

def twoTo (n : Nat) : Nat := Nat.pow 2 n

def tenTo (n : Nat) : Nat := Nat.pow 10 n

/-- The integer nearest to `numerator / denominator`; a tie goes to the even neighbour.
The quotient by zero is left to the caller, who refuses it. -/
def divHalfEven (numerator denominator : Int) : Int :=
  let n := if denominator < 0 then -numerator else numerator
  let d := if denominator < 0 then -denominator else denominator
  let quotient := n / d
  let twice := 2 * (n % d)
  if d < twice ∨ (twice = d ∧ quotient % 2 = 1) then quotient + 1 else quotient

example : [divHalfEven 5 2, divHalfEven 7 2, divHalfEven (-5) 2, divHalfEven 5 (-2)] =
    [2, 4, -2, -2] := by decide

/-- The decimal `± coefficient * 10 ^ exponent`. -/
structure Decimal where
  negative : Bool
  coefficient : Nat
  exponent : Int
  deriving Repr, DecidableEq, Inhabited

namespace Decimal

/-- How many decimal digits a natural number has; zero has one. -/
def digitCount (n : Nat) : Nat :=
  if n < 10 then 1 else 1 + digitCount (n / 10)
termination_by n
decreasing_by omega

def ofInt (n : Int) : Decimal := ⟨n < 0, n.natAbs, 0⟩

def signed (d : Decimal) : Int := if d.negative then -(d.coefficient : Int) else d.coefficient

def abs (d : Decimal) : Decimal := { d with negative := false }

def leadingExponent (d : Decimal) : Int := (digitCount d.coefficient : Int) - 1 + d.exponent

def mul (a b : Decimal) : Decimal :=
  ⟨a.negative != b.negative, a.coefficient * b.coefficient, a.exponent + b.exponent⟩

/-- The nearest decimal of at most `digits` significant digits, ties to the even one. -/
def roundToDigits (digits : Nat) (d : Decimal) : Decimal :=
  let excess := digitCount d.coefficient - digits
  if excess = 0 then d
  else ⟨d.negative, (divHalfEven d.coefficient (tenTo excess : Nat)).toNat, d.exponent + excess⟩

/-- The integer nearest to `d * 10 ^ places`, ties to the even one. -/
def scaledInt (places : Int) (d : Decimal) : Int :=
  let shift := d.exponent + places
  if d.coefficient = 0 then 0
  else if 0 ≤ shift then d.signed * (tenTo shift.toNat : Nat)
  else if digitCount d.coefficient < (-shift).toNat then 0
  else divHalfEven d.signed (tenTo (-shift).toNat : Nat)

/-- Whether `d * 10 ^ places` lies above the natural number `limit` in magnitude. -/
def exceeds (places : Int) (limit : Nat) (d : Decimal) : Bool :=
  let shift := d.exponent + places
  if d.coefficient = 0 then false
  else if (digitCount limit : Int) < digitCount d.coefficient + shift then true
  else if (digitCount d.coefficient : Int) + shift < 0 then false
  else limit * tenTo (-shift).toNat < d.coefficient * tenTo shift.toNat

end Decimal
end PortfolioLab
