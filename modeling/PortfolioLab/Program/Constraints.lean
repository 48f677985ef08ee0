import PortfolioLab.Numeric.Matrix

/-!
# Linear constraints

The feasible points of a linear or quadratic program: rows that must not exceed a bound, rows that
must attain a value, and a range for each variable. A linear program asks for the one with the
least value of a linear objective.
-/

namespace PortfolioLab

/-- The range of a variable; `none` is no bound. -/
structure Range (α : Type) where
  lower : Option α
  upper : Option α

structure Constraints (α : Type) where
  /-- Rows with the bound that they must not exceed. -/
  limits : List (List α × α)
  /-- Rows with the value that they must attain. -/
  equations : List (List α × α)
  ranges : List (Range α)

variable {α : Type} [Scalar α]

namespace Range

def share : Range α := ⟨some 0, some 1⟩

def free : Range α := ⟨none, none⟩

def nonnegative : Range α := ⟨some 0, none⟩

/-- The number of the range that is nearest to a number. -/
def clip (range : Range α) (x : α) : α :=
  let raised := match range.lower with
    | some l => if x < l then l else x
    | none => x
  match range.upper with
  | some u => if u < raised then u else raised
  | none => raised

end Range

namespace Constraints

/-- The rows that say that a variable does not exceed its upper bound. -/
def upperRows (c : Constraints α) : List (List α × α) :=
  c.ranges.zipIdx.filterMap fun (range, i) =>
    range.upper.map fun u => (Scalar.unit c.ranges.length i, u)

def lowerRows (c : Constraints α) : List (List α × α) :=
  c.ranges.zipIdx.filterMap fun (range, i) =>
    range.lower.map fun l => ((Scalar.unit c.ranges.length i).map (- ·), -l)

def inequalities (c : Constraints α) : List (List α × α) := c.limits ++ c.lowerRows ++ c.upperRows

def clip (c : Constraints α) (x : List α) : List α := List.zipWith Range.clip c.ranges x

/-- The constraints on the steps that lead from a point to a feasible one. -/
def around (c : Constraints α) (x : List α) : Constraints α where
  limits := c.limits.map fun (row, bound) => (row, bound - Scalar.dot row x)
  equations := c.equations.map fun (row, value) => (row, value - Scalar.dot row x)
  ranges := List.zipWith (fun range a =>
    ⟨range.lower.map (· - a), range.upper.map (· - a)⟩) c.ranges x

end Constraints

/-- Minimise `objective · x` subject to linear constraints. -/
structure LinearProgram (α : Type) extends Constraints α where
  objective : List α

def LinearProgram.value (p : LinearProgram α) (x : List α) : α := Scalar.dot p.objective x

end PortfolioLab
