import PortfolioLab.Binary64.Reading
import PortfolioLab.Failure

/-!
# Tables

A table has named columns and rows of cells. A column of numbers holds doubles as soon as one of
its cells is a double or missing, and a missing number is then not-a-number; a column with a text
or a decimal in it keeps its cells as they are.
-/

namespace PortfolioLab

structure Table where
  columns : List String
  rows : List (List Value)
  deriving Inhabited

namespace Table

/-- Whether a cell may stand in a column of doubles. -/
def isNumberCell : Value → Bool
  | .int _ => true
  | .real _ => true
  | .null => true
  | _ => false

def isIntegerCell : Value → Bool
  | .int _ => true
  | _ => false

def isMissingCell : Value → Bool
  | .null => true
  | _ => false

def toRealCell : Value → Value
  | .int n => .real (Binary64.ofInt n)
  | .null => .real (0 / 0)
  | v => v

/-- The cells of a column in their common type. -/
def unifyCells (cells : List Value) : List Value :=
  if cells.all isNumberCell && !cells.all isIntegerCell && !cells.all isMissingCell then
    cells.map toRealCell
  else cells

def column (t : Table) (name : String) : List Value :=
  match t.columns.findIdx? (· == name) with
  | some i => unifyCells (t.rows.map fun row => row[i]?.getD .null)
  | none => []

def column? (t : Table) (name : String) : Option (List Value) :=
  if t.columns.contains name then some (t.column name) else none

/-- Which of the required columns, given in ascending order, are missing. -/
def missing (t : Table) (required : List String) : List String :=
  required.filter (!t.columns.contains ·)

end Table

/-- The double nearest to the number in a cell; a missing cell is not-a-number, and a text is read as a
number. -/
def Value.cellNumber : Value → Except Failure Float
  | .real x => .ok x
  | .int n => .ok (Binary64.ofInt n)
  | .bool b => .ok (if b then 1 else 0)
  | .null => .ok (0 / 0)
  | .decimal n =>
    match Binary64.ofNumeral? n with
    | some x => .ok x
    | none => .error .badValue
  | .text s =>
    match Binary64.ofText? s with
    | some x => .ok x
    | none => .error .badValue
  | _ => .error .wrongType

end PortfolioLab
