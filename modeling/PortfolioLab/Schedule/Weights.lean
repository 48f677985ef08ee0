import PortfolioLab.Instant.Column
import PortfolioLab.Register
import PortfolioLab.Schedule.Table

/-!
# Weight schedules

Target weights by instant and symbol. A schedule is given as a mapping from instants to weights
or as a table with one row for each instant and symbol. It has no two entries for one instant, no
weight that is infinite or negative, and no entry whose weights sum to more than one.
-/

namespace PortfolioLab

/-- The target weights of one instant, in the order in which they were given. -/
abbrev Targets : Type := Register Float

/-- Target weights in ascending order of time. -/
abbrev WeightSchedule : Type := List (Instant × Targets)

inductive WeightInput where
  | mapping (entries : List (String × Targets))
  | table (t : Table)

namespace WeightSchedule

/-- By how much the weights of an entry may sum to more than one. -/
def tolerance : Float := 1e-9

def checkWeights (time : Instant) : Targets → Except Failure Unit
  | [] => .ok ()
  | (symbol, w) :: rest =>
    if !w.isFinite then refuse (.nonFiniteWeight symbol time)
    else if w < 0 then refuse (.negativeWeight symbol time)
    else checkWeights time rest

/-- An entry whose weights are checked, the sum last. -/
def checkEntry (time : Instant) (targets : Targets) : Except Failure Unit := do
  checkWeights time targets
  if 1 + tolerance < (targets.map (·.2)).foldl (· + ·) 0 then refuse (.excessWeight time)

/-- Add an entry to a schedule that has none for its instant. -/
def addEntry (schedule : WeightSchedule) (time : Instant) (targets : Targets) :
    Except Failure WeightSchedule :=
  if schedule.any (·.1 = time) then refuse (.duplicateTime time)
  else do
    checkEntry time targets
    return schedule ++ [(time, targets)]

def sortByTime (schedule : WeightSchedule) : WeightSchedule :=
  schedule.mergeSort fun a b => a.1.le b.1

def ofEntries (entries : List (Instant × Targets)) : Except Failure WeightSchedule := do
  let schedule ← entries.foldlM (fun schedule entry => addEntry schedule entry.1 entry.2) []
  return sortByTime schedule

/-- The schedule of entries whose instants are texts, each read when its turn comes. -/
def ofMapping (entries : List (String × Targets)) : Except Failure WeightSchedule := do
  let schedule ← entries.foldlM (fun schedule entry => do
    addEntry schedule (← Instant.ofText entry.1) entry.2) []
  return sortByTime schedule

/-- A weight in a cell; unlike a price it must not be missing. -/
def weightOf : Value → Except Failure Float
  | .null => .error .wrongType
  | v => v.cellNumber

structure Row where
  time : Instant
  symbol : String
  weight : Float

def hasDuplicates : List (Instant × String) → Bool
  | [] => false
  | key :: rest => rest.contains key || hasDuplicates rest

/-- Group rows by instant, in the order in which the instants first come. -/
def groupRows (rows : List Row) : List (Instant × Targets) :=
  rows.foldl (fun groups row => insert groups row) []
where
  /-- Add a row to its group. -/
  insert : List (Instant × Targets) → Row → List (Instant × Targets)
    | [], row => [(row.time, [(row.symbol, row.weight)])]
    | (time, targets) :: rest, row =>
      if time = row.time then (time, targets.put row.symbol row.weight) :: rest
      else (time, targets) :: insert rest row

def ofTable (t : Table) : Except Failure WeightSchedule := do
  match t.missing ["event_time", "symbol", "weight"] with
  | [] =>
    let times ← Instant.ofColumn (t.column "event_time")
    let symbols := (t.column "symbol").map Value.display
    let keys := times.zip symbols
    if hasDuplicates keys then refuse (.duplicateRows "weight_schedule")
    else
      let weights ← (t.column "weight").mapM weightOf
      ofEntries (groupRows ((keys.zip weights).map fun (key, w) => ⟨key.1, key.2, w⟩))
  | columns => refuse (.missingColumns "weight_schedule" columns)

def ofInput : WeightInput → Except Failure WeightSchedule
  | .mapping entries => ofMapping entries
  | .table t => ofTable t

def targetsAt? (schedule : WeightSchedule) (time : Instant) : Option Targets :=
  (schedule.find? (·.1 = time)).map (·.2)

end WeightSchedule
end PortfolioLab
