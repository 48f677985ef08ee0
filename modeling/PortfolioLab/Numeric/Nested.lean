import PortfolioLab.Failure

/-!
# Nested numbers

Series and matrices arrive as numbers in nested rows. Rows of one level have to agree in shape;
then the nesting has a shape, the list of its lengths from the outside in.
-/

namespace PortfolioLab

inductive Nested where
  | number (x : Float)
  | row (items : List Nested)
  deriving Inhabited

namespace Nested

mutual

/-- The lengths from the outside in, `none` when rows of one level differ. -/
def shape? : Nested → Option (List Nat)
  | number _ => some []
  | row items =>
    match itemShapes items with
    | [] => some [0]
    | first :: rest => if rest.all (· == first) then first.map (items.length :: ·) else none

def itemShapes : List Nested → List (Option (List Nat))
  | [] => []
  | item :: rest => shape? item :: itemShapes rest

end

mutual

def numbers : Nested → List Float
  | number x => [x]
  | row items => itemNumbers items

def itemNumbers : List Nested → List Float
  | [] => []
  | item :: rest => numbers item ++ itemNumbers rest

end

/-- The shape, which rows of different shapes do not have. -/
def shape (n : Nested) : Except Failure (List Nat) :=
  match n.shape? with
  | some s => .ok s
  | none => .error .badValue

def rows : Nested → List (List Float)
  | number x => [[x]]
  | row items => items.map numbers

end Nested
end PortfolioLab
