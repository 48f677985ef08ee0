import PortfolioLab.Binary64.Shortest

/-!
# Writing a double

Three notations: `text` with the fewest digits that read back, `fixed` with a given number of
places, and `scientific` with a given number of digits after the leading one. The last two round
the exact value of the double, ties to the even digit.
-/

namespace PortfolioLab.Binary64

def specialName (x : Float) : String :=
  if x.isNaN then "nan" else if x < 0 then "-inf" else "inf"

def zeros (n : Nat) : String := String.ofList (List.replicate n '0')

/-- An exponent with its sign and at least two digits. -/
def exponentText (e : Int) : String :=
  let digits := toString e.natAbs
  (if e < 0 then "e-" else "e+") ++ zeros (2 - digits.length) ++ digits

/-- Digits with a point after the first `n` of them. -/
def pointed (digits : String) (n : Nat) : String :=
  (digits.take n).toString ++ "." ++ (digits.drop n).toString

/-- The fewest digits that read back: positional for leading exponents from -4 to 15, where a
whole number keeps one zero after the point, and with an exponent otherwise. -/
def Dyadic.text (d : Dyadic) : String :=
  let s := d.shortest
  let digits := toString s.coefficient
  let leading : Int := (digits.length : Int) - 1 + s.exponent
  let body :=
    if leading < -4 ∨ 16 ≤ leading then
      (if digits.length = 1 then digits else pointed digits 1) ++ exponentText leading
    else if leading < 0 then "0." ++ zeros (-leading - 1).toNat ++ digits
    else if 0 ≤ s.exponent then digits ++ zeros s.exponent.toNat ++ ".0"
    else pointed digits (leading + 1).toNat
  (if d.negative then "-" else "") ++ body

def text (x : Float) : String :=
  match decode? x with
  | some d => d.text
  | none => specialName x

def fixed (places : Nat) (x : Float) : String :=
  match decode? x with
  | none => specialName x
  | some d =>
    let (n, den) := d.fraction
    let digits := toString (divHalfEven (n * tenTo places : Nat) den).toNat
    let padded := zeros (places + 1 - digits.length) ++ digits
    let body := if places = 0 then padded else pointed padded (padded.length - places)
    (if d.negative then "-" else "") ++ body

/-- A positive fraction rounded to `places + 1` digits: the digits as a number, and the exponent of
the leading one. -/
def roundedDigits (places n d : Nat) : Nat × Int :=
  let leading := decimalExponent n d
  let grid := leading - places
  let c := (divHalfEven (n * tenTo (-grid).toNat : Nat) (d * tenTo grid.toNat : Nat)).toNat
  if c = tenTo (places + 1) then (tenTo places, leading + 1) else (c, leading)

/-- A double with one digit before the point, `places` after it, and an exponent. -/
def scientific (places : Nat) (x : Float) : String :=
  match decode? x with
  | none => specialName x
  | some d =>
    let (c, e) := if d.mantissa = 0 then (0, 0) else roundedDigits places d.fraction.1 d.fraction.2
    let digits := toString c
    let padded := digits ++ zeros (places + 1 - digits.length)
    let body := if places = 0 then padded else pointed padded 1
    (if d.negative then "-" else "") ++ body ++ exponentText e

end PortfolioLab.Binary64
