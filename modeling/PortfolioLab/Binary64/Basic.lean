import PortfolioLab.Decimal.Basic

/-!
# Doubles as dyadic rationals

A finite double is a sign and a natural number times a power of two. Everything the library
prints or rounds exactly is computed from that reading, in integer arithmetic. The way back is
`ofRatio`, the double nearest to a quotient of integers.
-/

namespace PortfolioLab.Binary64

/-- A finite double: its sign and its magnitude `mantissa * 2 ^ exponent`. -/
structure Dyadic where
  negative : Bool
  mantissa : Nat
  exponent : Int
  deriving Repr, DecidableEq

/-- The sign and magnitude of a finite double, `none` for infinities and not-a-number. -/
def decode? (x : Float) : Option Dyadic :=
  let bits := x.toBits.toNat
  let negative := bits / twoTo 63 == 1
  let biased : Nat := bits / twoTo 52 % twoTo 11
  let fraction : Nat := bits % twoTo 52
  if biased = 2047 then none
  else if biased = 0 then some ⟨negative, fraction, -1074⟩
  else some ⟨negative, fraction + twoTo 52, (biased : Int) - 1075⟩

/-- The magnitude as a fraction of natural numbers with a power of two below. -/
def Dyadic.fraction (d : Dyadic) : Nat × Nat :=
  (d.mantissa * twoTo d.exponent.toNat, twoTo (-d.exponent).toNat)

def isInteger (x : Float) : Bool :=
  match decode? x with
  | none => false
  | some d => d.fraction.1 % d.fraction.2 == 0

/-- The integer nearest to a double towards zero, `none` when it is not finite. -/
def truncate? (x : Float) : Option Int :=
  (decode? x).map fun d =>
    let magnitude : Int := (d.fraction.1 / d.fraction.2 : Nat)
    if d.negative then -magnitude else magnitude

/-- The double `mantissa * 2 ^ exponent` of a mantissa of at most 53 bits, which has fewer only at the
least exponent. The word of a double counts its mantissas upwards through all exponents, so a
mantissa that was rounded up to `2 ^ 53` lands on the next exponent by itself; words from the
infinite one on stand for infinity. -/
def ofMantissa (mantissa : Nat) (exponent : Int) : Float :=
  let word := mantissa + (exponent + 1074).toNat * twoTo 52
  Float.ofBits (min word (2047 * twoTo 52)).toUInt64

/-- The double nearest to the positive fraction `n / d`, ties to the even mantissa. The mantissa
gets 53 bits, fewer when the exponent would fall below that of the least double. -/
def ofFraction (n d : Nat) : Float :=
  if n = 0 ∨ d = 0 then 0 else
    let estimate : Int := (n.log2 : Int) - (d.log2 : Int) - 52
    let tooWide : Bool := twoTo 53 * (d * twoTo estimate.toNat) ≤ n * twoTo (-estimate).toNat
    let tooNarrow : Bool := n * twoTo (-estimate).toNat < twoTo 52 * (d * twoTo estimate.toNat)
    let fitted := if tooWide then estimate + 1 else if tooNarrow then estimate - 1 else estimate
    let exponent := max fitted (-1074)
    let mantissa := divHalfEven (n * twoTo (-exponent).toNat : Nat) (d * twoTo exponent.toNat : Nat)
    ofMantissa mantissa.toNat exponent

/-- The double nearest to `n / d`, ties to the even mantissa. -/
def ofRatio (n d : Int) : Float :=
  let magnitude := ofFraction n.natAbs d.natAbs
  if (n < 0) = (d < 0) then magnitude else -magnitude

/-- The double nearest to an integer; infinite beyond the largest double. -/
def ofInt (n : Int) : Float := ofRatio n 1

/-- An exact comparison of an integer with a finite double. -/
def eqInt (x : Float) (n : Int) : Bool :=
  isInteger x && truncate? x == some n

end PortfolioLab.Binary64
