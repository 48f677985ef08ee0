import PortfolioLab.Failure

/-!
# Stop rules

The exit rule that a position gets when it is entered. A fixed stop lies a fraction below the
entry price; a range stop lies a multiple of the average true range below it; a trailing stop
follows the best price since entry at a distance that is either an amount in dollars or a
multiple of the average true range at entry.
-/

namespace PortfolioLab

inductive StopKind where
  | fixed (fraction : Float)
  | atr (multiplier : Float)
  | trailing (amount : Float)
  | trailingAtr (multiplier : Float)

structure StopRule where
  kind : StopKind
  lookback : Int

namespace StopKind

def name : StopKind → String
  | fixed _ => "fixed"
  | atr _ => "atr"
  | trailing _ => "trailing"
  | trailingAtr _ => "trailing"

def usesRange : StopKind → Bool
  | fixed _ => false
  | atr _ => true
  | trailing _ => false
  | trailingAtr _ => true

def trails : StopKind → Bool
  | fixed _ => false
  | atr _ => false
  | trailing _ => true
  | trailingAtr _ => true

end StopKind

namespace StopRule

def defaultLookback : Int := 14

/-- A distance that may be used: one that is not zero or negative. -/
def isUsable (x : Float) : Bool := !(x ≤ 0)

def kindOf (name : String) (fraction multiplier offset : Option Float) :
    Except Failure StopKind :=
  match name with
  | "fixed" =>
    match fraction with
    | some x => if 0 < x && x < 1 then .ok (.fixed x) else refuse .fixedFraction
    | none => refuse .fixedFraction
  | "atr" =>
    match multiplier with
    | some x => if isUsable x then .ok (.atr x) else refuse .rangeMultiplier
    | none => refuse .rangeMultiplier
  | "trailing" =>
    match offset, multiplier with
    | some x, none => if isUsable x then .ok (.trailing x) else refuse .trailingSign
    | none, some x => if isUsable x then .ok (.trailingAtr x) else refuse .trailingSign
    | _, _ => refuse .trailingDistance
  | _ => refuse (.unknownStopKind (.text name))

def kindName : Value → Except Failure String
  | .text s =>
    if ["fixed", "atr", "trailing"].contains s then .ok s else refuse (.unknownStopKind (.text s))
  | v => refuse (.unknownStopKind v)

/-- The rule that some fields describe. The name of the kind is checked first, then the lookback,
then the numbers that the kind needs. -/
def ofFields (kind : Value) (fraction multiplier offset : Option Float) (lookback : Value) :
    Except Failure StopRule := do
  let name ← kindName kind
  match lookback.integer? with
  | none => .error .wrongType
  | some n =>
    if n < 1 then refuse .shortLookback
    else return ⟨← kindOf name fraction multiplier offset, n⟩

end StopRule

/-- How the exit price is chosen when a bar opens beyond the threshold. -/
inductive GapPolicy where
  | threshold
  | worsePrice
  deriving Repr, DecidableEq, Inhabited

def GapPolicy.name : GapPolicy → String
  | threshold => "threshold"
  | worsePrice => "worse_price"

def GapPolicy.ofValue (v : Value) : Except Failure GapPolicy :=
  match v with
  | .text "threshold" => .ok .threshold
  | .text "worse_price" => .ok .worsePrice
  | _ => refuse (.gapPolicy v)

end PortfolioLab
