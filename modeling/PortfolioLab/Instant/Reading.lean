import PortfolioLab.Instant.Basic
import PortfolioLab.Text.Character

/-!
# Reading instants

A date alone, or a date and a time of day down to hours, minutes, seconds or a fraction of a
second, with or without a distance from universal time. Without one the text is read in universal
time. The texts of one column share a layout: the first text sets it, and every other one has to
follow it, including its distance from universal time.
-/

namespace PortfolioLab.Instant

/-- Which parts a text writes, and how it separates them. -/
structure Layout where
  dateSeparator : Option Char
  dateParts : Nat
  timeSeparator : Option Char
  colons : Bool
  timeParts : Nat
  fraction : Bool
  zoned : Bool
  deriving Repr, DecidableEq

/-- An instant that was read, the layout of its text, and its distance from universal time in
minutes. -/
structure Reading where
  instant : Instant
  layout : Layout
  offset : Int
  deriving Repr, DecidableEq

def takeNumber? : Nat → List Char → Option (Nat × List Char)
  | 0, cs => some (0, cs)
  | n + 1, cs => go (n + 1) 0 cs
where
  /-- The digits that are left to take, after the number `value`. -/
  go : Nat → Nat → List Char → Option (Nat × List Char)
    | 0, value, cs => some (value, cs)
    | _ + 1, _, [] => none
    | n + 1, value, c :: cs =>
      if c.isDigit then go n (10 * value + (c.toNat - 48)) cs else none

/-- A month and a day after the year; `parts` counts what was written. -/
structure DatePart where
  date : Date
  separator : Option Char
  parts : Nat
  rest : List Char

/-- The date at the start of a text: a year, then a month and a day with a common separator or
with none. -/
def readDate? (cs : List Char) : Option DatePart := do
  let (year, rest) ← takeNumber? 4 cs
  match rest with
  | [] => return ⟨⟨year, 1, 1⟩, none, 1, []⟩
  | c :: afterMark =>
    if c = '-' ∨ c = '/' then
      let (month, rest) ← takeNumber? 2 afterMark
      match rest with
      | [] => return ⟨⟨year, month, 1⟩, some c, 2, []⟩
      | d :: afterMonth =>
        if d = c then
          let (day, rest) ← takeNumber? 2 afterMonth
          return ⟨⟨year, month, day⟩, some c, 3, rest⟩
        else none
    else
      let (month, rest) ← takeNumber? 2 rest
      let (day, rest) ← takeNumber? 2 rest
      return ⟨⟨year, month, day⟩, none, 3, rest⟩

/-- The fraction of a second in nanoseconds; digits beyond the ninth are dropped. -/
def readFraction? (cs : List Char) : Option (Nat × List Char) :=
  let digits := cs.takeWhile Char.isDigit
  if digits.isEmpty then none
  else
    let nine := (digits ++ List.replicate 9 '0').take 9
    some (nine.foldl (fun n c => 10 * n + (c.toNat - 48)) 0, cs.dropWhile Char.isDigit)

structure TimePart where
  nanoseconds : Int
  colons : Bool
  parts : Nat
  fraction : Bool
  rest : List Char

def timeOfDay? (hour minute second nanosecond : Nat) : Option Int :=
  if hour < 24 ∧ minute < 60 ∧ second < 60 then
    some (((hour * 60 + minute) * 60 + second) * 1000000000 + nanosecond : Nat)
  else none

/-- The minutes or seconds that follow, after a colon when `colons` holds. -/
def takePart? (colons : Bool) (cs : List Char) : Option (Nat × List Char) :=
  match colons, cs with
  | true, ':' :: rest => takeNumber? 2 rest
  | true, _ => none
  | false, rest => takeNumber? 2 rest

def readTime? (cs : List Char) : Option TimePart := do
  let (hour, rest) ← takeNumber? 2 cs
  let colons := rest.head? == some ':'
  match takePart? colons rest with
  | none =>
    if colons then none
    else return ⟨← timeOfDay? hour 0 0 0, false, 1, false, rest⟩
  | some (minute, rest) =>
    match takePart? colons rest with
    | none =>
      if colons && rest.head? == some ':' then none
      else return ⟨← timeOfDay? hour minute 0 0, colons, 2, false, rest⟩
    | some (second, rest) =>
      match rest with
      | '.' :: afterPoint =>
        let (fraction, rest) ← readFraction? afterPoint
        return ⟨← timeOfDay? hour minute second fraction, colons, 3, true, rest⟩
      | _ => return ⟨← timeOfDay? hour minute second 0, colons, 3, false, rest⟩

/-- The distance from universal time at the end of a text, in minutes; `none` inside means that
none is written. -/
def readOffset? (cs : List Char) : Option (Option Int) :=
  match cs with
  | [] => some none
  | ['Z'] => some (some 0)
  | sign :: rest =>
    if sign = '+' ∨ sign = '-' then do
      let (hours, rest) ← takeNumber? 2 rest
      let (minutes, rest) ← match rest with
        | [] => some (0, [])
        | ':' :: rest => takeNumber? 2 rest
        | rest => takeNumber? 2 rest
      if rest.isEmpty ∧ hours < 24 ∧ minutes < 60 then
        let distance : Int := (hours * 60 + minutes : Nat)
        some (some (if sign = '-' then -distance else distance))
      else none
    else none

def ofClock (date : Date) (nanoseconds offset : Int) : Instant :=
  ⟨date.dayNumber * nanosecondsPerDay + nanoseconds - offset * 60000000000⟩

def read? (s : String) : Option Reading := do
  let date ← readDate? (Text.trimBlanks s.toList)
  if !date.date.isValid then none
  match date.rest with
  | [] => return ⟨ofClock date.date 0 0, ⟨date.separator, date.parts, none, false, 0, false, false⟩, 0⟩
  | mark :: rest =>
    if mark = 'T' ∨ mark = ' ' then
      let time ← readTime? rest
      let zone ← readOffset? time.rest
      let offset := zone.getD 0
      return ⟨ofClock date.date time.nanoseconds offset,
        ⟨date.separator, date.parts, some mark, time.colons, time.parts, time.fraction,
          zone.isSome⟩, offset⟩
    else none

end PortfolioLab.Instant
