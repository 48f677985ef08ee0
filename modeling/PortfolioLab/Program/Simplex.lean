import PortfolioLab.Program.Constraints

/-!
# The simplex method

A linear program is brought to rows of equations over variables that are not negative, with one
basic variable per row. A pivot exchanges a basic variable for the one of the most negative reduced
cost. First the sum of the artificial variables is driven to zero, then the objective is minimised.

Every row has a second right side, a nudge in general position that counts as infinitely smaller
than the first. It decides which of several rows that would reach zero together does so first.
With it every pivot makes progress, so no basis comes back.
-/

namespace PortfolioLab

inductive ProgramOutcome (α : Type) where
  | optimal (point : List α) (pivots : Nat)
  | pivotLimit
  | infeasible
  | unbounded

def ProgramOutcome.status {α : Type} : ProgramOutcome α → Nat
  | optimal _ _ => 0
  | pivotLimit => 1
  | infeasible => 2
  | unbounded => 3

/-- Equations solved for their basic variables. -/
structure Tableau (α : Type) where
  /-- The coefficients of a row, its nudge, and its right side. -/
  rows : List (List α)
  /-- The basic variable of each row. -/
  basis : List Nat
  /-- The reduced costs, and the nudge and the value so far with their signs turned. -/
  cost : List α

namespace Tableau

variable {α : Type} [Scalar α]

/-- Coefficients and costs of smaller magnitude count as zero. -/
def slack : α := 1e-10

def width (t : Tableau α) : Nat := (t.rows.headD []).length - 2

/-- Subtract a multiple of a row that makes the entry in column `c` zero. -/
def clear (c : Nat) (unit row : List α) : List α :=
  let f := row.getD c 0
  if Scalar.isZero f then row else List.zipWith (fun a b => a - f * b) row unit

/-- Make the variable of column `c` basic in row `r`. -/
def pivot (t : Tableau α) (r c : Nat) : Tableau α :=
  let row := t.rows.getD r []
  let p := row.getD c 0
  let unit := row.map (· / p)
  { rows := (t.rows.map (clear c unit)).set r unit
    basis := t.basis.set r c
    cost := clear c unit t.cost }

/-- The column with the most negative cost among the first `usable`. -/
def entering? (t : Tableau α) (usable : Nat) : Option Nat :=
  let candidates := (t.cost.take usable).zipIdx.filter fun c => c.1 < -slack
  (candidates.foldl (fun best c =>
    match best with
    | none => some c
    | some b => if c.1 < b.1 then some c else some b) none).map (·.2)

/-- A row that limits the entering variable. -/
structure Blocker (α : Type) where
  row : Nat
  /-- The value of the entering variable at which the row's basic variable reaches zero. -/
  ratio : α
  /-- The same for the nudge. -/
  nudge : α

def Blocker.before (a b : Blocker α) : Bool :=
  if a.ratio < b.ratio - slack then true
  else if b.ratio + slack < a.ratio then false
  else decide (a.nudge < b.nudge)

def blockers (t : Tableau α) (c : Nat) : List (Blocker α) :=
  (t.rows.zipIdx.filter fun r => slack < r.1.getD c 0).map fun (row, i) =>
    let coefficient := row.getD c 0
    let sides := row.drop t.width
    { row := i, ratio := sides.getLastD 0 / coefficient, nudge := sides.headD 0 / coefficient }

/-- The row whose basic variable leaves when column `c` enters. -/
def leaving? (t : Tableau α) (c : Nat) : Option Nat :=
  ((t.blockers c).foldl (fun best b =>
    match best with
    | none => some b
    | some a => if b.before a then some b else some a) none).map (·.row)

inductive Ending (α : Type) where
  | optimal (t : Tableau α) (left : Nat)
  | pivotLimit
  | unbounded

/-- Pivot until no cost is negative, at most `left` times. -/
def run (usable : Nat) : (left : Nat) → Tableau α → Ending α
  | left, t =>
    match t.entering? usable with
    | none => .optimal t left
    | some c =>
      match left with
      | 0 => .pivotLimit
      | left + 1 =>
        match t.leaving? c with
        | none => .unbounded
        | some r => run usable left (t.pivot r c)

def point (t : Tableau α) (width : Nat) : List α :=
  let values := t.basis.zip (t.rows.map fun row => row.getLastD 0)
  (List.range width).map fun j => (values.lookup j).getD 0

/-- Replace the costs by those of an objective, reduced to the variables that are not basic. -/
def withObjective (t : Tableau α) (objective : List α) : Tableau α :=
  let reduce (cost : List α) (row : List α × Nat) : List α :=
    let f := objective.getD row.2 0
    if Scalar.isZero f then cost else List.zipWith (fun a b => a - f * b) cost row.1
  { t with cost := (t.rows.zip t.basis).foldl reduce (objective ++ [0, 0]) }

/-- The column with the entry of largest magnitude among the first `width` of a row. -/
def dominant? (width : Nat) (row : List α) : Option (α × Nat) :=
  (row.take width).zipIdx.foldl (fun best c =>
    match best with
    | none => some c
    | some b => if Scalar.magnitude b.1 < Scalar.magnitude c.1 then some c else some b) none

/-- Make a basic variable beyond the first `width` columns leave from row `r`, if it can. -/
def expel (width : Nat) (t : Tableau α) (r : Nat) : Tableau α :=
  if t.basis.getD r 0 < width then t
  else
    match dominant? width (t.rows.getD r []) with
    | some (entry, c) => if slack < Scalar.magnitude entry then t.pivot r c else t
    | none => t

end Tableau

namespace LinearProgram

variable {α : Type} [Scalar α]

/-- A row over variables that are not negative: a variable without lower bound is the difference of
two of them. -/
def spreadRow (ranges : List (Range α)) (row : List α) : List α :=
  (row.zip ranges).flatMap fun (a, range) => if range.lower.isSome then [a] else [a, -a]

/-- The lower bounds, zero where there is none. -/
def origin (p : LinearProgram α) : List α := p.ranges.map fun range => range.lower.getD 0

structure Row (α : Type) where
  coefficients : List α
  right : α
  isEquation : Bool

/-- The rows over the shifted and split variables. -/
def standardRows (p : LinearProgram α) : List (Row α) :=
  let make (isEquation : Bool) (r : List α × α) : Row α :=
    { coefficients := spreadRow p.ranges r.1, right := r.2 - Scalar.dot r.1 p.origin, isEquation }
  (p.limits ++ p.upperRows).map (make false) ++ p.equations.map (make true)

/-- Whether a row starts with its slack variable as basic variable. -/
def Row.startsWithSlack (r : Row α) : Bool := !r.isEquation && decide (0 ≤ r.right)

/-- The nudge of row `i`: the fractional parts of the multiples of an irrational number. -/
def nudge (i : Nat) : α := 1 + ((i * 618034 % 1000000 : Nat) : α) / ((1000000 : Nat) : α)

/-- A row with its slack and artificial variable; its right side is made not negative. -/
def Row.extended (slacks artificials : Nat) (i : Nat) (slackAt artificialAt : Option Nat)
    (r : Row α) : List α :=
  let column (n : Nat) (at? : Option Nat) : List α :=
    match at? with
    | some j => Scalar.unit n j
    | none => Scalar.zeros n
  let turned := decide (r.right < 0)
  let sign (x : α) : α := if turned then -x else x
  (r.coefficients ++ column slacks slackAt).map sign ++ column artificials artificialAt ++
    [nudge i, sign r.right]

/-- The position of each member among the members that satisfy a condition. -/
def ranks (flags : List Bool) : List (Option Nat) :=
  flags.zipIdx.map fun (flag, i) => if flag then some ((flags.take i).count true) else none

/-- The tableau in which every row has a slack or artificial variable as its basic one. -/
def tableau (p : LinearProgram α) : Tableau α :=
  let rows := p.standardRows
  let width := (spreadRow p.ranges p.objective).length
  let slackFlags := rows.map fun r => !r.isEquation
  let artificialFlags := rows.map fun r => !r.startsWithSlack
  let slacks := slackFlags.count true
  let artificials := artificialFlags.count true
  let places := (ranks slackFlags).zip (ranks artificialFlags)
  { rows := (rows.zip places).zipIdx.map fun ((r, slackAt, artificialAt), i) =>
      r.extended slacks artificials i slackAt artificialAt
    basis := places.map fun (slackAt, artificialAt) =>
      match artificialAt with
      | some i => width + slacks + i
      | none => width + slackAt.getD 0
    cost := [] }

/-- The point of the program that belongs to values of the split variables. -/
def joinPoint : List (Range α) → List α → List α
  | range :: ranges, values =>
    match range.lower, values with
    | some lower, v :: rest => (lower + v) :: joinPoint ranges rest
    | none, v :: w :: rest => (v - w) :: joinPoint ranges rest
    | _, _ => []
  | [], _ => []

/-- The second phase: minimise the objective over the first `usable` columns. -/
def finish (p : LinearProgram α) (t : Tableau α) (usable cap left : Nat) : ProgramOutcome α :=
  let objective := spreadRow p.ranges p.objective
  let started := t.withObjective (objective ++ Scalar.zeros (t.width - objective.length))
  match started.run usable left with
  | .optimal t rest => .optimal (joinPoint p.ranges (t.point objective.length)) (cap - rest)
  | .pivotLimit => .pivotLimit
  | .unbounded => .unbounded

def solve (p : LinearProgram α) (cap : Nat) : ProgramOutcome α :=
  let t := p.tableau
  let artificials := (p.standardRows.filter fun r => !r.startsWithSlack).length
  let usable := t.width - artificials
  let sumOfArtificials := Scalar.zeros usable ++ Scalar.ones artificials
  match (t.withObjective sumOfArtificials).run t.width cap with
  | .pivotLimit => .pivotLimit
  | .unbounded => .unbounded
  | .optimal t left =>
    if Tableau.slack < -(t.cost.getLastD 0) then .infeasible
    else
      let cleaned := (List.range t.rows.length).foldl (Tableau.expel usable) t
      p.finish cleaned usable cap left

end LinearProgram
end PortfolioLab
