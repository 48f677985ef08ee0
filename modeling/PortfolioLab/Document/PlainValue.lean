import PortfolioLab.Binary64.Reading
import PortfolioLab.Document.Cursor
import PortfolioLab.Value.Basic

/-!
# What plain texts denote

A plain text is a truth value, a number, nothing, or itself. Integers are written in base two,
eight, ten or sixteen, or in groups of base sixty. A number with a fraction needs a point, and its
exponent needs a sign; without them a text is just a text.
-/

namespace PortfolioLab.Document

inductive PlainKind where
  | bool
  | real
  | int
  | merge
  | null
  | moment
  | default
  | text
  deriving DecidableEq, Repr

/-- Whether all characters are digits, and there is one at least. -/
def isDigits (cs : List Char) : Bool := !cs.isEmpty && cs.all Char.isDigit

/-- Whether a text is one of some words, in small letters, in capitals, or with a capital first. -/
def isWordOf (words : List String) (cs : List Char) : Bool :=
  words.any fun w =>
    let small := w.toList
    let large := small.map Char.toUpper
    cs == small || cs == large || cs == large.take 1 ++ small.drop 1

def truthWords : List String := ["yes", "true", "on"]

def falsityWords : List String := ["no", "false", "off"]

def unsigned (cs : List Char) : List Char :=
  match cs with
  | '-' :: rest => rest
  | '+' :: rest => rest
  | _ => cs

/-- Whether a text is a digit followed by digits and underscores. -/
def isSeparated (cs : List Char) : Bool :=
  match cs with
  | c :: rest => c.isDigit && rest.all fun d => d.isDigit || d == '_'
  | [] => false

/-- Whether a text is an exponent with its sign, or empty. -/
def isExponent (cs : List Char) : Bool :=
  match cs with
  | [] => true
  | e :: sign :: digits => (e == 'e' || e == 'E') && (sign == '+' || sign == '-') && isDigits digits
  | _ => false

/-- Whether a text is a group of base sixty: one digit, or two of which the first is below six. -/
def isSixtieth (cs : List Char) : Bool :=
  match cs with
  | [a] => a.isDigit
  | [a, b] => '0' ≤ a && a ≤ '5' && b.isDigit
  | _ => false

def splitAt (mark : Char) (cs : List Char) : List (List Char) :=
  cs.foldr (fun c parts =>
    if c == mark then [] :: parts
    else
      match parts with
      | part :: rest => (c :: part) :: rest
      | [] => [[c]]) [[]]

/-- Whether the groups after the first one are of base sixty, and there is one at least. -/
def hasSixtieths (groups : List (List Char)) : Bool := !groups.isEmpty && groups.all isSixtieth

def isReal (cs : List Char) : Bool :=
  let body := unsigned cs
  let isFraction (c : Char) : Bool := c.isDigit || c == '_'
  match body with
  | '.' :: rest =>
    isWordOf ["inf"] rest ||
      (cs == body && (rest == "nan".toList || rest == "NaN".toList || rest == "NAN".toList ||
        (isSeparated (rest.takeWhile isFraction) && isExponent (rest.dropWhile isFraction))))
  | _ =>
    match splitAt '.' body with
    | [whole, fraction] =>
      (isSeparated whole && isExponent (fraction.dropWhile isFraction)) ||
        (match splitAt ':' whole with
        | first :: groups =>
          isSeparated first && hasSixtieths groups && fraction.all isFraction
        | [] => false)
    | _ => false

def isInt (cs : List Char) : Bool :=
  match unsigned cs with
  | '0' :: 'b' :: rest => !rest.isEmpty && rest.all fun c => c == '0' || c == '1' || c == '_'
  | '0' :: 'x' :: rest =>
    !rest.isEmpty && rest.all fun c =>
      c.isDigit || ('a' ≤ c && c ≤ 'f') || ('A' ≤ c && c ≤ 'F') || c == '_'
  | '0' :: rest => rest.all fun c => ('0' ≤ c && c ≤ '7') || c == '_'
  | body =>
    isSeparated body ||
      (match splitAt ':' body with
      | first :: groups => isSeparated first && hasSixtieths groups
      | [] => false)

def isPair (cs : List Char) : Bool := isDigits cs && cs.length == 2

def isShortNumber (cs : List Char) : Bool := isDigits cs && cs.length ≤ 2

/-- Whether a text is empty or an offset of the clock, with blanks before it. -/
def isOffset (cs : List Char) : Bool :=
  cs.isEmpty ||
    match cs.dropWhile isBlank with
    | ['Z'] => true
    | sign :: rest =>
      (sign == '+' || sign == '-') &&
        (match splitAt ':' rest with
        | [hour] => isShortNumber hour
        | [hour, minute] => isShortNumber hour && isPair minute
        | _ => false)
    | [] => false

def isTimeOfDay (cs : List Char) : Bool :=
  let hour := cs.takeWhile Char.isDigit
  isShortNumber hour &&
    match cs.drop hour.length with
    | ':' :: m :: n :: ':' :: s :: t :: rest =>
      isDigits [m, n, s, t] && isOffset (match rest with
      | '.' :: more => more.dropWhile Char.isDigit
      | _ => rest)
    | _ => false

/-- Whether a text is a date of ten characters, or a date with a time of day after it. -/
def isMoment (cs : List Char) : Bool :=
  let date := cs.takeWhile fun c => c.isDigit || c == '-'
  match splitAt '-' date, cs.drop date.length with
  | [year, month, day], rest =>
    isDigits year && year.length == 4 &&
      (match rest with
      | [] => isPair month && isPair day
      | c :: more =>
        isShortNumber month && isShortNumber day &&
          (((c == 'T' || c == 't') && isTimeOfDay more) ||
            (isBlank c && isTimeOfDay (more.dropWhile isBlank))))
  | _, _ => false

def PlainKind.ofText (cs : List Char) : PlainKind :=
  if isWordOf (truthWords ++ falsityWords) cs then .bool
  else if isReal cs then .real
  else if isInt cs then .int
  else if cs == "<<".toList then .merge
  else if cs.isEmpty || cs == ['~'] || isWordOf ["null"] cs then .null
  else if isMoment cs then .moment
  else if cs == ['='] then .default
  else .text

def numberInBase? (base : Nat) (cs : List Char) : Option Nat :=
  if cs.isEmpty then none
  else
    cs.foldl (fun n c => do
      let d ← if c.isDigit then some (c.toNat - 48)
        else if 'a' ≤ c && c ≤ 'f' then some (c.toNat - 87)
        else if 'A' ≤ c && c ≤ 'F' then some (c.toNat - 55)
        else none
      if d < base then return base * (← n) + d else none) (some 0)

/-- The number that groups of base sixty write. -/
def sexagesimal? (groups : List (List Char)) : Option Nat :=
  groups.foldl (fun n g => do return 60 * (← n) + (← numberInBase? 10 g)) (some 0)

def readInt? (cs : List Char) : Option Int := do
  let cs := cs.filter (· != '_')
  let magnitude ← match unsigned cs with
    | ['0'] => some 0
    | '0' :: 'b' :: rest => numberInBase? 2 rest
    | '0' :: 'x' :: rest => numberInBase? 16 rest
    | '0' :: rest => numberInBase? 8 rest
    | body => sexagesimal? (splitAt ':' body)
  return if cs.head? == some '-' then -(magnitude : Int) else magnitude

def readReal? (cs : List Char) : Option Float := do
  let cs := (cs.filter (· != '_')).map Char.toLower
  let body := unsigned cs
  let magnitude ←
    if body == ".inf".toList then some (1 / 0)
    else if body == ".nan".toList then some (0 / 0)
    else if body.contains ':' then
      (splitAt ':' body).foldl (fun x g => do
        return 60 * (← x) + (← Binary64.ofText? (String.ofList g))) (some 0)
    else Binary64.ofText? (String.ofList body)
  return if cs.head? == some '-' then -magnitude else magnitude

end PortfolioLab.Document
