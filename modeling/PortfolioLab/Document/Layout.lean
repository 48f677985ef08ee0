import PortfolioLab.Document.Sheet

/-!
# The layout of a document

A table has one line per entry, and a list one line per item. What an entry or an item holds is
indented by two columns more, except for a list under a key. A key that is empty, long, or has
several lines stands after a question mark on a line of its own.
-/

namespace PortfolioLab.Document

/-- A double, with a point also before an exponent. -/
def realText (x : Float) : String :=
  if x.isNaN then ".nan"
  else if !x.isFinite then if x < 0 then "-.inf" else ".inf"
  else
    let cs := (Binary64.text x).toList
    if cs.contains '.' then String.ofList cs
    else String.ofList (cs.flatMap fun c => if c == 'e' then ['.', '0', 'e'] else [c])

/-- The text of a value of one line other than a text, if it is one. -/
def inlineText? : Value → Option String
  | .null => some "null"
  | .bool b => some (if b then "true" else "false")
  | .int n => some (toString n)
  | .real x => some (realText x)
  | .decimal n => some n.toText
  | .text _ => none
  | .list [] => some "[]"
  | .list _ => none
  | .table [] => some "\x7b\x7d"
  | .table _ => none

/-- Whether a key can stand on one line with what it holds. -/
def isShortKey : Value → Bool
  | .text t => t.length ≤ 122 && !t.isEmpty && !t.toList.any isBreak
  | _ => true

def putInline (s : Sheet) (asKey : Bool) (indent : Nat) (v : Value) : Sheet :=
  match v with
  | .text t => putScalar s asKey indent t
  | v => s.putText ((inlineText? v).getD "")

mutual

/-- Write the contents of a value whose line has begun, with a space before what stays on it. -/
def putBelow (s : Sheet) (indent : Nat) : Value → Sheet
  | .list (item :: items) => putItems s indent false (item :: items)
  | .table (entry :: entries) => putEntries s (indent + 2) false (entry :: entries)
  | v => putInline (s.put [' ']) false (indent + 2) v

/-- Write an item after its dash; a collection begins on the same line. -/
def putItem (s : Sheet) (indent : Nat) : Value → Sheet
  | .list (item :: items) => putItems (s.put [' ']) (indent + 2) true (item :: items)
  | .table (entry :: entries) => putEntries (s.put [' ']) (indent + 2) true (entry :: entries)
  | v => putInline (s.put [' ']) false (indent + 2) v

/-- Write items, the first of which may stand on a line that has begun. -/
def putItems (s : Sheet) (indent : Nat) (inline : Bool) : List Value → Sheet
  | [] => s
  | v :: rest =>
    let line := if inline then s else s.newLine indent
    putItems (putItem (line.put ['-']) indent v) indent false rest

def putEntries (s : Sheet) (indent : Nat) (inline : Bool) : List (Value × Value) → Sheet
  | [] => s
  | (k, v) :: rest =>
    let line := if inline then s else s.newLine indent
    let filled :=
      if isShortKey k then putBelow ((putInline line true (indent + 2) k).put [':']) indent v
      else
        let asked := putInline (line.put ['?', ' ']) false (indent + 2) k
        putItem ((asked.newLine indent).put [':']) indent v
    putEntries filled indent false rest

end

def write (v : Value) : String :=
  let sheet := match v with
    | .list (item :: items) => putItems {} 0 true (item :: items)
    | .table (entry :: entries) => putEntries {} 0 true (entry :: entries)
    | v => putInline {} false 2 v
  (sheet.endLine '\n').toText

end PortfolioLab.Document
