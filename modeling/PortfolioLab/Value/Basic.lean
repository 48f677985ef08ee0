import PortfolioLab.Binary64.Notation
import PortfolioLab.Decimal.Numeral
import PortfolioLab.Text.Quoted

/-!
# Dynamic values

Settings, table cells and money amounts arrive without a promised type: a document may put a word
where a number is meant. `Value` is what such a place may hold. The operation that uses a value
decides what it accepts; messages show the value as a literal.
-/

namespace PortfolioLab

inductive Value where
  | null
  | bool (b : Bool)
  | int (n : Int)
  | real (x : Float)
  | decimal (n : Numeral)
  | text (s : String)
  | list (items : List Value)
  | table (entries : List (Value × Value))
  deriving Inhabited

namespace Value

def typeName : Value → String
  | null => "NoneType"
  | bool _ => "bool"
  | int _ => "int"
  | real _ => "float"
  | decimal _ => "Decimal"
  | text _ => "str"
  | list _ => "list"
  | table _ => "dict"

mutual

/-- The value as a literal: a text in quotes, a decimal by its constructor, a list in brackets. -/
def literal : Value → String
  | null => "None"
  | bool b => if b then "True" else "False"
  | int n => toString n
  | real x => Binary64.text x
  | decimal n => "Decimal(" ++ Text.quoted n.toText ++ ")"
  | text s => Text.quoted s
  | list items => "[" ++ ", ".intercalate (literals items) ++ "]"
  | table entries => "\x7b" ++ ", ".intercalate (entryLiterals entries) ++ "\x7d"

def literals : List Value → List String
  | [] => []
  | v :: vs => literal v :: literals vs

def entryLiterals : List (Value × Value) → List String
  | [] => []
  | (k, v) :: rest => (literal k ++ ": " ++ literal v) :: entryLiterals rest

end

/-- The value as plain text: a text is itself, a decimal is its numeral. -/
def display : Value → String
  | text s => s
  | decimal n => n.toText
  | v => v.literal

/-- Whether the value counts as empty: null, false, zero, and a text, list or table without
contents. -/
def isEmpty : Value → Bool
  | null => true
  | bool b => !b
  | int n => n == 0
  | real x => x == 0
  | decimal (.finite d) => d.coefficient == 0
  | decimal _ => false
  | text s => s.isEmpty
  | list items => items.isEmpty
  | table entries => entries.isEmpty

/-- The value as a number, if it is one; a truth value counts as zero or one. -/
def integer? : Value → Option Int
  | bool b => some (if b then 1 else 0)
  | int n => some n
  | _ => none

def sameScalar : Value → Value → Bool
  | null, null => true
  | text s, text t => s == t
  | real x, real y => x == y
  | real x, v => match v.integer? with
    | some n => Binary64.eqInt x n
    | none => false
  | v, real x => match v.integer? with
    | some n => Binary64.eqInt x n
    | none => false
  | decimal a, decimal b => a == b
  | v, w => match v.integer?, w.integer? with
    | some n, some m => n == m
    | _, _ => false

mutual

/-- Equality of values; numbers of different types are equal when they denote the same number. -/
def same : Value → Value → Bool
  | list xs, list ys => sameItems xs ys
  | table xs, table ys => sameEntries xs ys
  | v, w => sameScalar v w

def sameItems : List Value → List Value → Bool
  | [], [] => true
  | v :: vs, w :: ws => same v w && sameItems vs ws
  | _, _ => false

def sameEntries : List (Value × Value) → List (Value × Value) → Bool
  | [], [] => true
  | (k, v) :: vs, (l, w) :: ws => same k l && same v w && sameEntries vs ws
  | _, _ => false

end

end Value
end PortfolioLab
