import PortfolioLab.Program.Constraints

/-!
# Quadratic programs

Minimise `x · Q x + slope · x` subject to linear constraints, from a feasible start. On the points
that attain the bounds of a working set of rows the minimum comes from a linear system. The
active-set method moves from one such minimum to the next: a row that blocks the way joins the
working set, and a row whose multiplier is negative leaves it.
-/

namespace PortfolioLab

/-- Minimise `x · curvature x + slope · x` subject to linear constraints. -/
structure QuadraticProgram (α : Type) extends Constraints α where
  curvature : List (List α)
  slope : List α
  start : List α

namespace QuadraticProgram

variable {α : Type} [Scalar α]

def objective (q : QuadraticProgram α) (x : List α) : α :=
  Scalar.dot x (Scalar.mulVec q.curvature x) + Scalar.dot q.slope x

def gradient (q : QuadraticProgram α) (x : List α) : List α :=
  Scalar.addVec (Scalar.scaleBy (1 + 1) (Scalar.mulVec q.curvature x)) q.slope

/-- How far a bound may be missed, and a multiplier be negative, by rounding. -/
def slack : α := 1e-12

/-- The minimum over the points that attain the given rows, and the multipliers of these rows. -/
def faceMinimum? (q : QuadraticProgram α) (face : List (List α × α)) :
    Option (List α × List α) := do
  let n := q.slope.length
  let width := face.length
  let top := (q.curvature.zipIdx).map fun (row, i) =>
    Scalar.scaleBy (1 + 1) row ++ face.map fun f => f.1.getD i 0
  let bottom := face.map fun f => f.1 ++ Scalar.zeros width
  let right := q.slope.map (- ·) ++ face.map (·.2)
  let solution ← Scalar.refined? (top ++ bottom) right
  return (solution.take n, solution.drop n)

/-- The row that is the first to be exceeded on the way from one point to another, and the share
of the way up to there. -/
def blocking? (rows : List (List α × α)) (working : List Nat) (x y : List α) : Option (Nat × α) :=
  rows.zipIdx.foldl (fun best ((row, bound), i) =>
    let target := Scalar.dot row y
    if working.contains i || target ≤ bound + slack then best
    else
      let here := Scalar.dot row x
      let share := Scalar.larger 0 ((bound - here) / (target - here))
      match best with
      | none => some (i, share)
      | some (j, s) => if share < s then some (i, share) else some (j, s)) none

/-- The row of the working set with the most negative multiplier. -/
def leaving? (working : List Nat) (multipliers : List α) : Option Nat :=
  (((working.zip multipliers).filter fun w => w.2 < -slack).foldl (fun best w =>
    match best with
    | none => some w
    | some b => if w.2 < b.2 then some w else some b) none).map (·.1)

/-- The active-set method, for a number of moves. -/
def descend (q : QuadraticProgram α) (rows : List (List α × α)) :
    Nat → List Nat → List α → List α
  | 0, _, x => x
  | moves + 1, working, x =>
    match q.faceMinimum? (working.map (fun i => rows.getD i ([], 0)) ++ q.equations) with
    | none => x
    | some (y, multipliers) =>
      match blocking? rows working x y with
      | some (i, share) =>
        let moved := Scalar.addVec x (Scalar.scaleBy share (Scalar.subVec y x))
        descend q rows moves (working ++ [i]) moved
      | none =>
        match leaving? working multipliers with
        | some i => descend q rows moves (working.filter (· != i)) y
        | none => y

/-- The minimum; a few moves per row suffice. -/
def minimum (q : QuadraticProgram α) : List α :=
  let rows := q.inequalities
  q.descend rows (50 * (rows.length + 1)) [] q.start

end QuadraticProgram
end PortfolioLab
