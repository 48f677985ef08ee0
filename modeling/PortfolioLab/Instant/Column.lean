import PortfolioLab.Failure
import PortfolioLab.Instant.Reading

/-!
# Instants of one column

A time cell is a text. A single text is read on its own. In a column the first text sets the layout
and the distance from universal time; a later text that does not follow it is refused in another way
than a text that is no date at all. A cell of any other kind is refused too: an integer is not taken
for a count of units since some epoch. Every year that four digits write is read, also where a count
of nanoseconds in 64 bits would not reach it.
-/

namespace PortfolioLab.Instant

def ofText (s : String) : Except Failure Instant :=
  match read? s with
  | some reading => .ok reading.instant
  | none => .error .notADate

/-- An instant of a column whose first text was read as `first`. -/
def following (first : Reading) : Value → Except Failure Instant
  | .text s =>
    match read? s with
    | some reading =>
      if reading.layout = first.layout ∧ reading.offset = first.offset then .ok reading.instant
      else .error .badValue
    | none => .error .badValue
  | _ => .error .badValue

def ofColumn : List Value → Except Failure (List Instant)
  | [] => .ok []
  | .text s :: rest =>
    match read? s with
    | some first => do return first.instant :: (← rest.mapM (following first))
    | none => .error .notADate
  | _ :: _ => .error .badValue

end PortfolioLab.Instant
