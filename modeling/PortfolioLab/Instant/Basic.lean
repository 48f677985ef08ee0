/-!
# Instants

An instant is a number of nanoseconds since the start of 1970 in universal time. The calendar is
the proleptic Gregorian one. A date is found from its day number by counting in eras of 400
years, each of which has 146097 days, with years that start in March so that the leap day comes
last.
-/

namespace PortfolioLab

/-- A point in time, in nanoseconds since 1970-01-01T00:00:00 universal time. -/
structure Instant where
  nanoseconds : Int
  deriving Repr, DecidableEq, Inhabited

namespace Instant

structure Date where
  year : Int
  month : Nat
  day : Nat
  deriving Repr, DecidableEq

def isLeapYear (year : Int) : Bool := year % 4 == 0 && (year % 100 != 0 || year % 400 == 0)

def daysInMonth (year : Int) (month : Nat) : Nat :=
  if month = 2 then (if isLeapYear year then 29 else 28)
  else if month = 4 ∨ month = 6 ∨ month = 9 ∨ month = 11 then 30 else 31

def Date.isValid (d : Date) : Bool :=
  1 ≤ d.month && d.month ≤ 12 && 1 ≤ d.day && d.day ≤ daysInMonth d.year d.month

/-- The number of days from 1970-01-01 to a date. -/
def Date.dayNumber (d : Date) : Int :=
  let year := if d.month ≤ 2 then d.year - 1 else d.year
  let era := year / 400
  let yearOfEra := year % 400
  let monthFromMarch : Int := ((d.month + 9) % 12 : Nat)
  let dayOfYear := (153 * monthFromMarch + 2) / 5 + d.day - 1
  let dayOfEra := yearOfEra * 365 + yearOfEra / 4 - yearOfEra / 100 + dayOfYear
  era * 146097 + dayOfEra - 719468

def Date.ofDayNumber (n : Int) : Date :=
  let shifted := n + 719468
  let era := shifted / 146097
  let dayOfEra := shifted % 146097
  let yearOfEra := (dayOfEra - dayOfEra / 1460 + dayOfEra / 36524 - dayOfEra / 146096) / 365
  let dayOfYear := dayOfEra - (365 * yearOfEra + yearOfEra / 4 - yearOfEra / 100)
  let monthFromMarch := (5 * dayOfYear + 2) / 153
  let day := dayOfYear - (153 * monthFromMarch + 2) / 5 + 1
  let month := if monthFromMarch < 10 then monthFromMarch + 3 else monthFromMarch - 9
  let year := yearOfEra + era * 400 + (if month ≤ 2 then 1 else 0)
  ⟨year, month.toNat, day.toNat⟩

def nanosecondsPerDay : Int := 86400000000000

def le (a b : Instant) : Bool := a.nanoseconds ≤ b.nanoseconds

def padded (width n : Nat) : String :=
  let digits := toString n
  String.ofList (List.replicate (width - digits.length) '0') ++ digits

/-- The date and time of day in universal time with `separator` between them; a fraction of a
second is written with six digits, or nine when it needs them, and only if it is not zero. -/
def clockText (separator : String) (t : Instant) : String :=
  let date := Date.ofDayNumber (t.nanoseconds / nanosecondsPerDay)
  let rest := (t.nanoseconds % nanosecondsPerDay).toNat
  let seconds := rest / 1000000000
  let fraction := rest % 1000000000
  let year := (if date.year < 0 then "-" else "") ++ padded 4 date.year.natAbs
  year ++ "-" ++ padded 2 date.month ++ "-" ++ padded 2 date.day ++ separator ++
    padded 2 (seconds / 3600) ++ ":" ++ padded 2 (seconds / 60 % 60) ++ ":" ++
    padded 2 (seconds % 60) ++
    (if fraction = 0 then ""
     else if fraction % 1000 = 0 then "." ++ padded 6 (fraction / 1000)
     else "." ++ padded 9 fraction)

def isoText (t : Instant) : String := t.clockText "T" ++ "+00:00"

def plainText (t : Instant) : String := t.clockText " " ++ "+00:00"

/-- The text of an instant in a list of instants. -/
def listedText (t : Instant) : String :=
  "Timestamp('" ++ t.clockText " " ++ "+0000', tz='UTC')"

example : (Date.ofDayNumber 19782).dayNumber = 19782 ∧ Date.ofDayNumber 19782 = ⟨2024, 2, 29⟩ := by
  decide

end Instant
end PortfolioLab
