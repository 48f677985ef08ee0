import PortfolioLab.Binary64.Basic

/-!
# Scalars

The statistics, allocation programs and volatility equations of the library are written once, over
any kind of number that has the operations listed here. Doubles are the instance that runs; a
field with square roots and logarithms is an instance too, and there the same definitions are the
formulas of mathematics. A comparison with not-a-number is false, so definitions that a
not-a-number can reach say on which side of a comparison it falls.
-/

namespace PortfolioLab

/-- Numbers that statistics can be computed with. -/
class Scalar (α : Type) extends Add α, Sub α, Mul α, Div α, Neg α, Zero α, One α, NatCast α, LT α,
    LE α, OfScientific α where
  /-- The quotient of two integers. -/
  ofRatio : Int → Int → α
  sqrt : α → α
  log : α → α
  /-- The exponential, less one. -/
  expLessOne : α → α
  /-- The ratio of a circle's circumference to its diameter. -/
  pi : α
  isFinite : α → Bool
  /-- The least integer that is not smaller. -/
  ceil : α → Int
  decLt : DecidableLT α
  decLe : DecidableLE α

instance Scalar.decidableLT {α : Type} [Scalar α] : DecidableLT α := Scalar.decLt

instance Scalar.decidableLE {α : Type} [Scalar α] : DecidableLE α := Scalar.decLe

/-- The exponential less one, without loss of digits near zero: the rounding error of the
exponential is divided out by its own logarithm. -/
def Binary64.expLessOne (x : Float) : Float :=
  let u := x.exp
  if u == 1 then x
  else if u - 1 == -1 then -1
  else if !u.isFinite then u
  else (u - 1) * x / u.log

/-- The least integer that is not smaller than a double; zero when there is none. -/
def Binary64.ceiling (x : Float) : Int := (Binary64.truncate? x.ceil).getD 0

instance Binary64.scalar : Scalar Float where
  zero := 0
  one := 1
  natCast := Float.ofNat
  ofRatio := Binary64.ofRatio
  sqrt := Float.sqrt
  log := Float.log
  expLessOne := Binary64.expLessOne
  pi := 3.141592653589793
  isFinite := Float.isFinite
  ceil := Binary64.ceiling
  decLt := inferInstance
  decLe := inferInstance

namespace Scalar

variable {α : Type} [Scalar α]

/-- Whether a number is zero; not-a-number is not. -/
def isZero (x : α) : Bool := x ≤ 0 && 0 ≤ x

def magnitude (x : α) : α := if x < 0 then -x else x

/-- The larger of two numbers; not-a-number wins. -/
def larger (a b : α) : α := if b ≤ a then a else if a ≤ a then b else a

/-- The smaller of two numbers; not-a-number wins. -/
def smaller (a b : α) : α := if a ≤ b then a else if a ≤ a then b else a

def largest (first : α) (xs : List α) : α := xs.foldl larger first

def smallest (first : α) (xs : List α) : α := xs.foldl smaller first

/-- Numbers in ascending order, not-a-number last. -/
def sort (xs : List α) : List α := xs.mergeSort fun a b => a ≤ b || !(b ≤ b)

def spread (xs : List α) : α :=
  match xs with
  | [] => 0
  | x :: rest => largest x rest - smallest x rest

def dot (xs ys : List α) : α := (List.zipWith (· * ·) xs ys).foldl (· + ·) 0

end Scalar
end PortfolioLab
