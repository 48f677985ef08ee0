import PortfolioLab.Program.Quadratic

/-!
# Sequential quadratic programming

Minimise a smooth objective under linear constraints, from a feasible start. Every round takes the
step to the minimum of a quadratic model, shortens it until the objective falls by a tenth of what
the slope promises, and corrects the curvature of the model by the change of the slope along the
step. The correction is damped, so that the curvature stays positive.
-/

namespace PortfolioLab

structure SmoothFunction (α : Type) where
  value : List α → α
  slope : List α → List α

inductive SearchEnd where
  | converged
  | roundLimit
  | noDescent
  deriving DecidableEq, Repr

def SearchEnd.message : SearchEnd → String
  | converged => "Optimization terminated successfully"
  | roundLimit => "Iteration limit reached"
  | noDescent => "Positive directional derivative for linesearch"

structure SearchResult (α : Type) where
  point : List α
  value : α
  ending : SearchEnd
  rounds : Nat

namespace SearchResult

def converged {α : Type} (r : SearchResult α) : Bool := r.ending = .converged

end SearchResult

namespace SmoothFunction

variable {α : Type} [Scalar α]

/-- The state of a search: the point with its value and slope, the curvature of the model, and how
often the model was started anew. -/
structure Search (α : Type) where
  point : List α
  value : α
  slope : List α
  curvature : List (List α)
  restarts : Nat
  /-- The value before the last step, and the length of that step. -/
  before : α
  length : α

/-- The curvature of a model that knows nothing yet. -/
def plainCurvature (n : Nat) : List (List α) := (List.range n).map (Scalar.unit n)

def stepLength (step : List α) : α := Scalar.sqrt (Scalar.dot step step)

def modelStep (c : Constraints α) (s : Search α) : List α :=
  let program : QuadraticProgram α := {
    c.around s.point with
    curvature := s.curvature.map (Scalar.scaleBy 0.5)
    slope := s.slope
    start := Scalar.zeros s.point.length }
  program.minimum

def leastShortening : α := 0.1

def maxShortenings : Nat := 10

/-- Shorten a step until the objective falls by a tenth of what the slope promises. -/
def shorten (f : SmoothFunction α) (s : Search α) :
    Nat → List α → α → List α × List α × α
  | tries, step, promise =>
    let point := Scalar.addVec s.point step
    let value := f.value point
    let change := value - s.value
    match tries with
    | 0 => (step, point, value)
    | tries + 1 =>
      if change ≤ promise / 10.0 then (step, point, value)
      else
        let factor := Scalar.larger (promise / (2.0 * (promise - change))) leastShortening
        shorten f s tries (Scalar.scaleBy factor step) (factor * promise)

/-- Add a multiple of the product of a vector with itself to a matrix. -/
def addProduct (rows : List (List α)) (factor : α) (u : List α) : List (List α) :=
  List.zipWith (fun row a => Scalar.addVec row (Scalar.scaleBy (factor * a) u)) rows u

/-- The curvature after a step along which the slope changes. Where the slope grows too little for
a positive curvature, its change is mixed with the one that the model expects. -/
def corrected (curvature : List (List α)) (step change : List α) : List (List α) :=
  let expected := Scalar.mulVec curvature step
  let seen := Scalar.dot step change
  let model := Scalar.dot step expected
  let least := 0.2 * model
  let share := (model - least) / (model - seen)
  let used := if seen < least then
      Scalar.addVec (Scalar.scaleBy share change) (Scalar.scaleBy (1 - share) expected)
    else change
  let along := if seen < least then least else seen
  addProduct (addProduct curvature (1 / along) used) (-(1 / model)) expected

def maxRestarts : Nat := 5

def restarted (s : Search α) : Search α :=
  { s with curvature := plainCurvature s.point.length, restarts := s.restarts + 1 }

def ended (s : Search α) (ending : SearchEnd) (rounds : Nat) : SearchResult α :=
  { point := s.point, value := s.value, ending, rounds }

def advanced (f : SmoothFunction α) (s : Search α) (step point : List α) (value : α) :
    Search α :=
  let slope := f.slope point
  { s with
    point, value, slope
    curvature := corrected s.curvature step (Scalar.subVec slope s.slope)
    before := s.value
    length := stepLength step }

/-- The ending of a search that finds no descent: a small last step counts as convergence. -/
def stalledEnding (tolerance : α) (s : Search α) : SearchEnd :=
  if Scalar.magnitude (s.value - s.before) < 10.0 * tolerance || s.length < 10.0 * tolerance then
    .converged
  else .noDescent

/-- Search from a state, with the rounds that are left and those that are done. -/
def searchFrom (f : SmoothFunction α) (c : Constraints α) (tolerance : α) :
    (left done : Nat) → Search α → SearchResult α
  | 0, done, s => ended s .roundLimit done
  | left + 1, done, s =>
    let step := modelStep c s
    let promise := Scalar.dot s.slope step
    if Scalar.magnitude promise < tolerance then ended s .converged (done + 1)
    else if 0 ≤ promise then
      if s.restarts = maxRestarts then ended s (stalledEnding tolerance s) (done + 1)
      else searchFrom f c tolerance left (done + 1) (restarted s)
    else
      let (step, point, value) := f.shorten s maxShortenings step promise
      if Scalar.magnitude (value - s.value) < tolerance || stepLength step < tolerance then
        { point, value, ending := .converged, rounds := done + 1 }
      else searchFrom f c tolerance left (done + 1) (advanced f s step point value)

def minimize (f : SmoothFunction α) (c : Constraints α) (start : List α) (tolerance : α)
    (rounds : Nat) : SearchResult α :=
  f.searchFrom c tolerance rounds 0 {
    point := start
    value := f.value start
    slope := f.slope start
    curvature := plainCurvature start.length
    restarts := 1
    before := f.value start
    length := 0 }

end SmoothFunction

def QuadraticProgram.function {α : Type} [Scalar α] (q : QuadraticProgram α) :
    SmoothFunction α where
  value := q.objective
  slope := q.gradient

/-- The search for the minimum of a quadratic program from its start. Where it converges, the
active-set method takes its point to the minimum itself. -/
def QuadraticProgram.search {α : Type} [Scalar α] (q : QuadraticProgram α) (tolerance : α)
    (rounds : Nat) : SearchResult α :=
  let found := q.function.minimize q.toConstraints q.start tolerance rounds
  if found.converged then { found with point := { q with start := found.point }.minimum } else found

end PortfolioLab
