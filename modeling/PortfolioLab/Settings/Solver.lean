import PortfolioLab.Binary64.Reading
import PortfolioLab.Metrics.Performance
import PortfolioLab.Settings.Basic

/-!
# Limits and failures of solvers

How a setting becomes a number of rounds, and how a solver can fail numerically. A count may be
given as any number, whose fraction is dropped, or as a text that writes an integer.
-/

namespace PortfolioLab

inductive SolverFault where
  | singularMatrix
  | badValue
  | floatingPoint
  | invalidInput
  | noAxis
  | notADate
  deriving DecidableEq, Repr

def SolverFault.name : SolverFault → String
  | singularMatrix => "LinAlgError"
  | badValue => "ValueError"
  | floatingPoint => "FloatingPointError"
  | invalidInput => "InvalidInputError"
  | noAxis => "AxisError"
  | notADate => "DateParseError"

/-- The numerical failure that a failure counts as, if it does: any refusal of a value does. -/
def Failure.solverFault? : Failure → Option SolverFault
  | .singularMatrix => some .singularMatrix
  | .badValue => some .badValue
  | .floatingPoint => some .floatingPoint
  | .invalidInput _ => some .invalidInput
  | .noAxis => some .noAxis
  | .notADate => some .notADate
  | _ => none

/-- The integer that a text writes; an underscore may stand between two digits. -/
def Numeral.integer? (s : String) : Option Int :=
  let trimmed := Text.trimBlanks s.toList
  if !Binary64.separatorsFit false trimmed then none else
    let (negative, body) := splitSign (trimmed.filter (· != '_'))
    match splitDigits body with
    | (digit :: digits, []) =>
      let n : Int := ofDigits (digit :: digits)
      some (if negative then -n else n)
    | _ => none

def Value.count : Value → Except Failure Int
  | .real x =>
    match Binary64.truncate? x with
    | some n => .ok n
    | none => .error (if x.isNaN then .badValue else .infiniteCount)
  | .text s =>
    match Numeral.integer? s with
    | some n => .ok n
    | none => .error .badValue
  | v =>
    match v.integer? with
    | some n => .ok n
    | none => .error .wrongType

/-- A count that has to be an integer already. -/
def Value.wholeCount (v : Value) : Except Failure Int :=
  match v.integer? with
  | some n => .ok n
  | none => .error .wrongType

structure SolverLimits (α : Type) where
  tolerance : α
  rounds : Nat

/-- The limits of a solver from the settings of its rounds and its tolerance, of which a negative
one counts by its magnitude. -/
def SolverLimits.ofValues (rounds tolerance : Value) : Except Failure (SolverLimits Float) := do
  let count ← rounds.count
  let x ← tolerance.number
  return { tolerance := x.abs, rounds := count.toNat }

end PortfolioLab
