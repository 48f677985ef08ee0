import PortfolioLab.Money.Cents

/-!
# Values as amounts and factors

An amount in dollars may be given as an integer, a double, a decimal or a text. A double stands
for the decimal of fewest digits that reads back as it, so 0.1 is one tenth. The amount is rounded
to the nearest cent with ties to even.
-/

namespace PortfolioLab.Money

/-- The significant digits to which a value is rounded before its size is judged. -/
def sizeDigits : Nat := 28

/-- The largest exponent that a value may have when its size is judged. -/
def sizeMaxExponent : Int := 999999

def productDigits : Nat := 60

def decimalOf (v : Value) : Except Failure Decimal :=
  match v with
  | .bool b => .ok (Decimal.ofInt (if b then 1 else 0))
  | .int n => .ok (Decimal.ofInt n)
  | .real x =>
    match Binary64.shortest? x with
    | some d => .ok d
    | none => refuse (.nonFiniteAmount v)
  | .decimal (.finite d) => .ok d
  | .decimal _ => refuse (.nonFiniteAmount v)
  | .text s =>
    match Numeral.ofText? s with
    | some (.finite d) => .ok d
    | some _ => refuse (.nonFiniteAmount v)
    | none => refuse (.notADecimal v)
  | _ => refuse (.notADecimal v)

/-- The magnitude of a decimal in the precision in which its size is judged. -/
def magnitude (d : Decimal) : Except Failure Decimal :=
  let rounded := d.abs.roundToDigits sizeDigits
  if rounded.coefficient ≠ 0 ∧ sizeMaxExponent < rounded.leadingExponent then
    .error .exponentOverflow
  else .ok rounded

def toCents (v : Value) : Except Failure Cents := do
  let d ← decimalOf v
  let size ← magnitude d
  if size.exceeds 2 (maxCents.toNat + 100) then .error (.outOfRange (.value v))
  else Cents.check (d.scaledInt 2)

/-- An amount times a decimal: the product is rounded to sixty digits and then to a cent. -/
def scaleBy (units : Cents) (factor : Decimal) : Except Failure Cents := do
  let amount ← Cents.check units
  let product := (factor.mul (Decimal.ofInt amount)).roundToDigits productDigits
  Cents.check (product.scaledInt 0)

def scale (units : Cents) (factor : Value) : Except Failure Cents := do
  let d ← decimalOf factor
  let size ← magnitude d
  if size.exceeds 2 maxCents.toNat then .error (.outOfRange (.factor factor))
  else scaleBy units d

end PortfolioLab.Money
