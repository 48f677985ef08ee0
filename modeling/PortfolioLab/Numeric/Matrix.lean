import PortfolioLab.Numeric.Summation

/-!
# Matrices as lists of rows

Products, diagonals and columns of matrices that are given by their rows, and the solution of a
square system by elimination. An entry outside a matrix is zero.
-/

namespace PortfolioLab.Scalar

variable {α : Type} [Scalar α]

def entry (rows : List (List α)) (i j : Nat) : α := (rows.getD i []).getD j 0

def columns (width : Nat) (rows : List (List α)) : List (List α) :=
  (List.range width).map fun j => rows.map fun row => row.getD j 0

def diagonal (rows : List (List α)) : List α :=
  (List.range rows.length).map fun i => entry rows i i

def mulVec (rows : List (List α)) (x : List α) : List α := rows.map fun row => dot row x

def scaleBy (factor : α) (x : List α) : List α := x.map (factor * ·)

def addVec (x y : List α) : List α := List.zipWith (· + ·) x y

def subVec (x y : List α) : List α := List.zipWith (· - ·) x y

def unit (n i : Nat) : List α := (List.range n).map fun j => if j = i then 1 else 0

def zeros (n : Nat) : List α := List.replicate n 0

def ones (n : Nat) : List α := List.replicate n 1

/-- The row that starts with the entry of largest magnitude, and the other rows. -/
def takePivot : List (List α) → Option (List α × List (List α))
  | [] => none
  | row :: rest =>
    match takePivot rest with
    | none => some (row, [])
    | some (best, others) =>
      if magnitude (row.headD 0) < magnitude (best.headD 0) then some (best, row :: others)
      else some (row, best :: others)

/-- The solution of `n` equations, each a row of `n` coefficients followed by its right side; none
if the elimination meets a column of zeros. -/
def eliminate : Nat → List (List α) → Option (List α)
  | 0, _ => some []
  | n + 1, rows =>
    match takePivot rows with
    | some (p :: tail, others) =>
      if p < 0 || 0 < p then do
        let reduce (row : List α) : List α := subVec row.tail (scaleBy (row.headD 0 / p) tail)
        let rest ← eliminate n (others.map reduce)
        return (tail.getLastD 0 - dot tail rest) / p :: rest
      else none
    | _ => none

def solve? (rows : List (List α)) (right : List α) : Option (List α) :=
  eliminate rows.length (List.zipWith (fun row b => row ++ [b]) rows right)

/-- The solution of a system, corrected by the solution for what it misses of the right side. -/
def refined? (rows : List (List α)) (right : List α) : Option (List α) := do
  let x ← solve? rows right
  let correction ← solve? rows (subVec right (mulVec rows x))
  return addVec x correction

end PortfolioLab.Scalar
