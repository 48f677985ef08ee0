import PortfolioLab.Binary64.Basic
import PortfolioLab.Decimal.Numeral

/-!
# Reading a double

The double nearest to a decimal, and the numerals that a double may be written in. Other than in
a decimal numeral, an underscore may only stand between two digits.
-/

namespace PortfolioLab.Binary64

/-- The double nearest to a decimal: infinite beyond the largest double, zero far below the least.
Exponents that no double reaches are cut off before a power of ten is formed. -/
def ofDecimal (d : Decimal) : Float :=
  let magnitude :=
    if d.coefficient = 0 then 0
    else if 400 < d.leadingExponent then 1 / 0
    else if d.leadingExponent < -400 then 0
    else ofFraction (d.coefficient * tenTo d.exponent.toNat) (tenTo (-d.exponent).toNat)
  if d.negative then -magnitude else magnitude

/-- Whether every underscore stands between two digits, given whether a digit comes before. -/
def separatorsFit : Bool → List Char → Bool
  | _, [] => true
  | afterDigit, '_' :: cs =>
    afterDigit && (cs.head?.bind Text.digitValue?).isSome && separatorsFit false cs
  | _, c :: cs => separatorsFit (Text.digitValue? c).isSome cs

/-- The double nearest to what a numeral denotes. There is none for a signaling not-a-number. -/
def ofNumeral? : Numeral → Option Float
  | .finite d => some (ofDecimal d)
  | .infinite negative => some (if negative then -(1 / 0) else 1 / 0)
  | .notANumber _ signaling _ => if signaling then none else some (0 / 0)

def ofText? (s : String) : Option Float :=
  let trimmed := Text.trimBlanks s.toList
  if !separatorsFit false trimmed then none else
    let (negative, body) := Numeral.splitSign (trimmed.filter (· != '_'))
    let signed (x : Float) : Float := if negative then -x else x
    match Numeral.readUnsigned? false body with
    | some d => some (signed (ofDecimal d))
    | none =>
      let name := String.ofList (body.map Char.toLower)
      if name = "inf" ∨ name = "infinity" then some (signed (1 / 0))
      else if name = "nan" then some (0 / 0)
      else none

end PortfolioLab.Binary64
