import PortfolioLab.Document.Cursor
import PortfolioLab.Document.PlainValue

/-!
# Writing texts into a document

A sheet is what has been written so far, with the column reached. A text is written plainly where
it reads back as itself, in single quotes where it has printable characters only, and with escapes
in double quotes otherwise. A line that has passed the width is broken at a single space.
-/

namespace PortfolioLab.Document

/-- What has been written, last character first, and the column reached. -/
structure Sheet where
  written : List Char := []
  column : Nat := 0

namespace Sheet

/-- The column after which lines are broken. -/
def width : Nat := 80

def put (s : Sheet) (cs : List Char) : Sheet :=
  { written := cs.reverse ++ s.written, column := s.column + cs.length }

def putText (s : Sheet) (text : String) : Sheet := s.put text.toList

def endLine (s : Sheet) (mark : Char) : Sheet := { written := mark :: s.written, column := 0 }

def indentTo (s : Sheet) (indent : Nat) : Sheet :=
  s.put (List.replicate (indent - s.column) ' ')

def newLine (s : Sheet) (indent : Nat) : Sheet := (s.endLine '\n').indentTo indent

def toText (s : Sheet) : String := String.ofList s.written.reverse

end Sheet

/-! ## The form of a text -/

/-- Whether a character separates words for the choice of a form. -/
def isSeparator (c : Char) : Bool := isWordEnd c || c == '\r'

def isPrinted (c : Char) : Bool := c == '\n' || (' ' ≤ c && c ≤ '~')

/-- Whether a text holds a mark of the format at a place, given the character before it and what
follows it. -/
def holdsMark : Option Char → List Char → Bool
  | _, [] => false
  | before, c :: rest =>
    let followed := rest.isEmpty || isSeparator (rest.headD ' ')
    let here :=
      match before with
      | none =>
        "#,[]\x7b\x7d&*!|>'\x22%@\x60".toList.contains c || ("?:-".toList.contains c && followed)
      | some b => (c == ':' && followed) || (c == '#' && isSeparator b)
    here || holdsMark (some c) rest

def anyNeighbours (p : Char → Char → Bool) (cs : List Char) : Bool :=
  (cs.zip (cs.drop 1)).any fun (a, b) => p a b

def beginsLikeMarker (cs : List Char) : Bool :=
  cs.take 3 == ['-', '-', '-'] || cs.take 3 == ['.', '.', '.']

inductive TextForm where
  | plain
  | single
  | double
  deriving DecidableEq

/-- The form in which a text is written, which as a key may not be empty or have several lines. -/
def TextForm.of (asKey : Bool) (cs : List Char) : TextForm :=
  let edge (c : Option Char) : Bool := match c with
    | some c => c == ' ' || isBreak c
    | none => false
  let lines := cs.any isBreak
  let special := cs.any fun c => !isPrinted c
  let spaceBreak := anyNeighbours (fun a b => a == ' ' && isBreak b) cs
  let breakSpace := anyNeighbours (fun a b => isBreak a && b == ' ') cs
  let isPlain := !lines && !special && !edge cs.head? && !edge cs.getLast? &&
    !beginsLikeMarker cs && !holdsMark none cs
  if PlainKind.ofText cs = .text && isPlain && !(asKey && cs.isEmpty) then .plain
  else if !special && !spaceBreak && !breakSpace && !(asKey && lines) then .single
  else .double

/-! ## Writing -/

/-- The runs of a text: of spaces, of line breaks, and of other characters. -/
def runs (cs : List Char) : List (List Char) :=
  let kind (c : Char) : Nat := if c == ' ' then 0 else if isBreak c then 1 else 2
  cs.foldr (fun c rs =>
    match rs with
    | (d :: run) :: rest => if kind c == kind d then (c :: d :: run) :: rest else [c] :: rs
    | _ => [c] :: rs) []

/-- Write line breaks inside a quoted text. One that follows text counts as a space, so it is
written twice. -/
def putBreaks (s : Sheet) (indent : Nat) (breaks : List Char) : Sheet :=
  let first := if breaks.head? == some '\n' then s.endLine '\n' else s
  (breaks.foldl Sheet.endLine first).indentTo indent

/-- Write the runs of a text. Where lines may be broken, a single space inside the text that lies
beyond the width is a line break. -/
def putRuns (indent : Nat) (mayBreak : Bool) (word : List Char → List Char) :
    Bool → List (List Char) → Sheet → Sheet
  | _, [], s => s
  | first, run :: rest, s =>
    let isBreakable := mayBreak && run == [' '] && Sheet.width < s.column && !first && !rest.isEmpty
    let next :=
      if isBreakable then s.newLine indent
      else if isBreak (run.headD 'a') then putBreaks s indent run
      else s.put (word run)
    putRuns indent mayBreak word false rest next

def doubleQuotes (cs : List Char) : List Char :=
  cs.flatMap fun c => if c == '\'' then ['\'', '\''] else [c]

def hexText (length n : Nat) : List Char :=
  let digits := (Nat.toDigits 16 n).map Char.toUpper
  List.replicate (length - digits.length) '0' ++ digits

def escapeOf (c : Char) : List Char :=
  let n := c.toNat
  let letters : List (Nat × Char) := [(0, '0'), (7, 'a'), (8, 'b'), (9, 't'), (10, 'n'), (11, 'v'),
    (12, 'f'), (13, 'r'), (0x1b, 'e'), (0x22, '\x22'), (0x5c, '\\'), (0x85, 'N'), (0xa0, '_'),
    (0x2028, 'L'), (0x2029, 'P')]
  '\\' :: (match letters.lookup n with
  | some letter => [letter]
  | none =>
    if n ≤ 0xff then 'x' :: hexText 2 n
    else if n ≤ 0xffff then 'u' :: hexText 4 n
    else 'U' :: hexText 8 n)

def needsEscape (c : Char) : Bool := c == '\x22' || c == '\\' || !(' ' ≤ c && c ≤ '~')

/-- Write a text in double quotes, from a character on, with the characters that wait to be written
since the last escape. A long line is broken before a space or after an escape. -/
def putEscaped (indent : Nat) (mayBreak : Bool) (first : Bool) (waiting : List Char) :
    List Char → Sheet → Sheet
  | [], s => s.put waiting.reverse
  | c :: rest, s =>
    let (s, waiting, escaped) :=
      if needsEscape c then ((s.put waiting.reverse).put (escapeOf c), [], true)
      else (s, waiting, false)
    let isLong :=
      if escaped then Sheet.width + 1 < s.column else Sheet.width < s.column + waiting.length
    if mayBreak && !first && !rest.isEmpty && (c == ' ' || escaped || waiting.isEmpty) && isLong then
      let broken := ((s.put waiting.reverse).put ['\\']).newLine indent
      let next := if escaped then rest.headD 'a' else c
      let marked := if next == ' ' then broken.put ['\\'] else broken
      putEscaped indent mayBreak false (if escaped then [] else [c]) rest marked
    else putEscaped indent mayBreak false (if escaped then [] else c :: waiting) rest s

def putScalar (s : Sheet) (asKey : Bool) (indent : Nat) (text : String) : Sheet :=
  let cs := text.toList
  match TextForm.of asKey cs with
  | .plain => putRuns indent (!asKey) id false (runs cs) s
  | .single =>
    (putRuns indent (!asKey) doubleQuotes true (runs cs) (s.put ['\''])).put ['\'']
  | .double => (putEscaped indent (!asKey) true [] cs (s.put ['\x22'])).put ['\x22']

end PortfolioLab.Document
