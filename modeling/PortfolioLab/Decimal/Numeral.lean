import PortfolioLab.Decimal.Basic
import PortfolioLab.Text.Character

/-!
# Decimal numerals

The text of a decimal number. Reading allows white space around the numeral, underscores anywhere
in it, the digits of every script, an exponent, and the names of infinity and of
not-a-number; a numeral whose exponent leaves the range of the format is refused. Writing keeps
every digit of the coefficient, in positional notation down to six places after the point and
with an exponent otherwise.
-/

namespace PortfolioLab

inductive Numeral where
  | finite (value : Decimal)
  | infinite (negative : Bool)
  | notANumber (negative signaling : Bool) (payload : Nat)
  deriving Repr, DecidableEq, Inhabited

namespace Numeral

/-- The largest exponent of a leading digit. -/
def maxExponent : Int := 999999999999999999

/-- The smallest exponent of a last digit. -/
def minExponent : Int := -1999999999999999997

def splitDigits : List Char → List Nat × List Char
  | [] => ([], [])
  | c :: cs =>
    match Text.digitValue? c with
    | some digit => (digit :: (splitDigits cs).1, (splitDigits cs).2)
    | none => ([], c :: cs)

def ofDigits (digits : List Nat) : Nat := digits.foldl (fun n digit => 10 * n + digit) 0

def splitSign : List Char → Bool × List Char
  | '-' :: cs => (true, cs)
  | '+' :: cs => (false, cs)
  | cs => (false, cs)

/-- The exponent at the end of a numeral; nothing at all stands for the exponent zero. -/
def readExponent? : List Char → Option Int
  | [] => some 0
  | e :: cs =>
    if e = 'e' ∨ e = 'E' then
      let (negative, digits) := splitSign cs
      match splitDigits digits with
      | ([], _) => none
      | (ds, []) => some (if negative then -(ofDigits ds : Int) else ofDigits ds)
      | _ => none
    else none

def ofParts (negative : Bool) (whole fraction : List Nat) (exponent : Int) : Decimal :=
  ⟨negative, ofDigits (whole ++ fraction), exponent - fraction.length⟩

def readUnsigned? (negative : Bool) (cs : List Char) : Option Decimal :=
  match splitDigits cs with
  | (whole, '.' :: rest) =>
    let (fraction, rest) := splitDigits rest
    if whole.isEmpty && fraction.isEmpty then none
    else (readExponent? rest).map (ofParts negative whole fraction)
  | ([], _) => none
  | (whole, rest) => (readExponent? rest).map (ofParts negative whole [])

/-- Whether the format can hold the decimal with all its digits. -/
def fits (d : Decimal) : Bool :=
  minExponent ≤ d.exponent &&
    (if d.coefficient = 0 then d.exponent else d.leadingExponent) ≤ maxExponent

/-- One of the names of a value that is not a finite number, in small letters. -/
def readName? (negative : Bool) (cs : List Char) : Option Numeral :=
  let payload? (signaling : Bool) (rest : List Char) : Option Numeral :=
    match splitDigits rest with
    | (digits, []) => some (.notANumber negative signaling (ofDigits digits))
    | _ => none
  match cs with
  | ['i', 'n', 'f'] => some (.infinite negative)
  | ['i', 'n', 'f', 'i', 'n', 'i', 't', 'y'] => some (.infinite negative)
  | 'n' :: 'a' :: 'n' :: rest => payload? false rest
  | 's' :: 'n' :: 'a' :: 'n' :: rest => payload? true rest
  | _ => none

def ofText? (s : String) : Option Numeral :=
  let (negative, body) := splitSign ((Text.trimBlanks s.toList).filter (· != '_'))
  match readUnsigned? negative body with
  | some d => if fits d then some (.finite d) else none
  | none => readName? negative (body.map Char.toLower)

end Numeral

/-- The text of a decimal, with all digits of its coefficient. -/
def Decimal.toText (d : Decimal) : String :=
  let digits := toString d.coefficient
  let before : Int := digits.length + d.exponent
  let point : Int := if d.exponent ≤ 0 ∧ -6 < before then before else 1
  let places := String.ofList (List.replicate (-point).toNat '0')
  let body :=
    if point ≤ 0 then "0." ++ places ++ digits
    else if (digits.length : Int) ≤ point then digits
    else (digits.take point.toNat).toString ++ "." ++ (digits.drop point.toNat).toString
  let exponent := before - point
  let tail := if exponent = 0 then "" else if exponent < 0 then s!"E{exponent}" else s!"E+{exponent}"
  (if d.negative then "-" else "") ++ body ++ tail

def Numeral.toText : Numeral → String
  | .finite d => d.toText
  | .infinite negative => if negative then "-Infinity" else "Infinity"
  | .notANumber negative signaling payload =>
    (if negative then "-" else "") ++ (if signaling then "sNaN" else "NaN") ++
      (if payload = 0 then "" else toString payload)

end PortfolioLab
