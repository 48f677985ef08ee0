import PortfolioLab.Money.Conversion

/-!
# Prices

A price is an amount in cents that is in range and not negative. It can be added, subtracted and
scaled, each time with the result checked anew.
-/

namespace PortfolioLab

structure Price where
  cents : Cents
  inRange : Cents.InRange cents
  nonneg : 0 ≤ cents

namespace Price

/-- The price of a number of cents. The range is checked before the sign. -/
def ofCents (n : Int) : Except Failure Price :=
  if hr : Cents.InRange n then
    if hn : 0 ≤ n then .ok ⟨n, hr, hn⟩ else refuse (.negativePrice n)
  else .error (.outOfRange (.cents n))

/-- The price of a value that has to be an integer number of cents. -/
def ofUnits : Value → Except Failure Price
  | .int n => ofCents n
  | v => refuse (.priceUnits v.typeName)

def ofValue (v : Value) : Except Failure Price := do
  ofCents (← Money.toCents v)

def add (a b : Price) : Except Failure Price := do
  ofCents (← Cents.check (a.cents + b.cents))

/-- The difference of two prices, which must not be negative. -/
def sub (a b : Price) : Except Failure Price := do
  ofCents (← Cents.check (a.cents - b.cents))

def scale (a : Price) (factor : Value) : Except Failure Price := do
  ofCents (← Money.scale a.cents factor)

def toText (p : Price) : String := (Decimal.mk false p.cents.toNat (-2)).toText

end Price
end PortfolioLab
