import PortfolioLab.Numeric.Matrix
import PortfolioLab.Numeric.Nested

/-!
# Panels of returns

A panel holds the returns of some symbols over some periods: one row per period, one column per
symbol. It is made from a matrix and a list of symbols, or from a table that names its columns.
-/

namespace PortfolioLab

/-- Returns of distinct symbols over a number of periods. -/
structure Panel (α : Type) where
  symbols : List String
  /-- One row per period. -/
  rows : List (List α)
  /-- Whether each column is stored as a series of its own. -/
  byColumn : Bool := false

inductive ReturnsInput where
  | matrix (returns : Nested)
  | table (columns : List String) (rows : List (List Float))

namespace Panel

/-- Whether no text occurs twice. -/
def distinct : List String → Bool
  | [] => true
  | s :: rest => !rest.contains s && distinct rest

/-- A panel of rows of equal width, of which there has to be one per symbol. -/
def ofRows {α : Type} (symbols : List String) (rows : List (List α)) (width : Nat)
    (byColumn : Bool) : Except Failure (Panel α) :=
  if symbols.isEmpty || rows.isEmpty then refuse .emptyMatrix
  else if symbols.length ≠ width then refuse (.symbolCount symbols.length width)
  else if !distinct symbols then refuse .duplicateSymbols
  else return { symbols, rows, byColumn }

/-- The panel of a matrix, for which the symbols have to be given. -/
def ofMatrix (returns : Nested) (symbols : Option (List String)) :
    Except Failure (Panel Float) := do
  match ← returns.shape, symbols with
  | [_, width], some names => ofRows names returns.rows width false
  | [_, _], none => refuse .symbolsRequired
  | shape, _ => refuse (.notAMatrix shape)

/-- The positions of the columns of some symbols; a name that stands over several columns stands
for all of them. -/
def positions (columns symbols : List String) : List Nat :=
  symbols.flatMap fun s => (List.range columns.length).filter fun i => columns[i]? == some s

def ofTable (columns : List String) (rows : List (List Float)) (symbols : Option (List String)) :
    Except Failure (Panel Float) :=
  let names := symbols.getD columns
  let missing := names.filter (!columns.contains ·)
  if !missing.isEmpty then refuse (.unknownSymbols missing)
  else
    let chosen := if symbols.isSome then positions columns names else List.range columns.length
    ofRows names (rows.map fun row => chosen.map fun i => row.getD i (0 / 0)) chosen.length true

def ofInput (returns : ReturnsInput) (symbols : Option (List String)) :
    Except Failure (Panel Float) :=
  match returns with
  | .matrix n => ofMatrix n symbols
  | .table columns rows => ofTable columns rows symbols

variable {α : Type} [Scalar α]

def columns (p : Panel α) : List (List α) := Scalar.columns p.symbols.length p.rows

/-- The mean return of each symbol. Columns that are series of their own are summed pairwise, and
the rows of a matrix one after the other. -/
def means (p : Panel α) : List α :=
  if p.byColumn || p.symbols.length = 1 then p.columns.map Scalar.mean
  else p.columns.map fun c => Scalar.runningSum 0 c / (c.length : α)

def covariance (p : Panel α) : List (List α) :=
  let deviations := List.zipWith (fun c m => c.map (· - m)) p.columns p.means
  deviations.map fun x => deviations.map fun y =>
    Scalar.dot x y / ((p.rows.length - 1 : Nat) : α)

end Panel
end PortfolioLab
