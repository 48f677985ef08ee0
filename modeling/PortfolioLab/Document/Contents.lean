import PortfolioLab.Document.Node
import PortfolioLab.Document.PlainValue

/-!
# The value of a document

A node becomes a value by its tag or, without one, by its form. A mapping takes over the entries of
the mappings that it merges, before its own; of entries with the same key the last one counts.
-/

namespace PortfolioLab.Document

/-- What a node is to become. -/
inductive NodeSort where
  | plain (kind : PlainKind)
  | sequence
  | mapping
  | unknown
  deriving DecidableEq

def NodeSort.ofTag (tag : String) : NodeSort :=
  let names : List (String × NodeSort) := [
    ("null", .plain .null), ("bool", .plain .bool), ("int", .plain .int),
    ("float", .plain .real), ("str", .plain .text), ("merge", .plain .merge),
    ("value", .plain .default), ("timestamp", .plain .moment), ("seq", .sequence),
    ("map", .mapping)]
  ((names.map fun (name, s) => (formatTag ++ name, s)).lookup tag).getD .unknown

def scalarSort (tag : Option String) (text : String) (plain : Bool) : NodeSort :=
  match tag with
  | none => .plain (if plain then PlainKind.ofText text.toList else .text)
  | some "!" => .plain (PlainKind.ofText text.toList)
  | some t => NodeSort.ofTag t

def orFail {α : Type} (failure : Failure) : Option α → Except Failure α
  | some a => .ok a
  | none => .error failure

def plainValue (kind : PlainKind) (text : String) : Except Failure Value :=
  let cs := text.toList
  match kind with
  | .null => .ok .null
  | .text => .ok (.text text)
  | .moment => .ok (.text text)
  | .bool =>
    let small := String.ofList (cs.map Char.toLower)
    if truthWords.contains small then .ok (.bool true)
    else if falsityWords.contains small then .ok (.bool false)
    else .error .unknownKey
  | .int => do return .int (← orFail .badValue (readInt? cs))
  | .real => do return .real (← orFail .badValue (readReal? cs))
  | .merge => .error (.document .construction)
  | .default => .error (.document .construction)

def isMergeKey : Node → Bool
  | .scalar tag text plain => scalarSort tag text plain = .plain .merge
  | _ => false

/-- A key that stands for the value of a mapping is a text. -/
def asKey : Node → Node
  | .scalar tag text plain =>
    if scalarSort tag text plain = .plain .default then .scalar none text false
    else .scalar tag text plain
  | n => n

/-- The entries of a mapping, with those of the mappings that it merges before its own. -/
def flatEntries : Nat → List (Node × Node) → Except Failure (List (Node × Node))
  | 0, _ => .error (.document .construction)
  | fuel + 1, entries => do
    let merged (n : Node) : Except Failure (List (Node × Node)) :=
      match n with
      | .mapping _ entries => flatEntries fuel entries
      | _ => .error (.document .construction)
    let taken ← (entries.filter fun e => isMergeKey e.1).mapM fun e =>
      match e.2 with
      | .sequence _ items => do return (← items.mapM merged).reverse.flatten
      | n => merged n
    let own := (entries.filter fun e => !isMergeKey e.1).map fun e => (asKey e.1, e.2)
    return taken.flatten ++ own

/-- Put an entry into a table, in the place of one with the same key. -/
def putEntry (table : List (Value × Value)) (entry : Value × Value) : List (Value × Value) :=
  if table.any fun e => Value.same e.1 entry.1 then
    table.map fun e => if Value.same e.1 entry.1 then (e.1, entry.2) else e
  else table ++ [entry]

def canBeKey : Value → Bool
  | .list _ => false
  | .table _ => false
  | _ => true

def collectionSort (tag : Option String) (default : NodeSort) : NodeSort :=
  match tag with
  | none => default
  | some "!" => default
  | some t => NodeSort.ofTag t

def Node.toValue : Nat → Node → Except Failure Value
  | 0, _ => .error (.document .construction)
  | _ + 1, .scalar tag text plain =>
    match scalarSort tag text plain with
    | .plain kind => plainValue kind text
    | _ => .error (.document .construction)
  | fuel + 1, .sequence tag items => do
    if collectionSort tag .sequence ≠ .sequence then throw (.document .construction)
    return .list (← items.mapM (Node.toValue fuel))
  | fuel + 1, .mapping tag entries => do
    if collectionSort tag .mapping ≠ .mapping then throw (.document .construction)
    let flat ← flatEntries (fuel + 1) entries
    let pairs ← flat.mapM fun (k, v) => do
      let key ← Node.toValue fuel k
      if !canBeKey key then throw (.document .construction)
      return (key, ← Node.toValue fuel v)
    return .table (pairs.foldl putEntry [])

def unifyBreaks : List Char → List Char
  | [] => []
  | '\r' :: '\n' :: rest => '\n' :: unifyBreaks rest
  | '\r' :: rest => '\n' :: unifyBreaks rest
  | c :: rest => c :: unifyBreaks rest

/-- The value of a document; a document without contents is null. -/
def read (text : String) : Except Failure Value := do
  let cs := unifyBreaks text.toList
  match Node.ofText? cs with
  | .error fault => throw (.document fault)
  | .ok none => return .null
  | .ok (some n) => n.toValue (cs.length + 2)

end PortfolioLab.Document
