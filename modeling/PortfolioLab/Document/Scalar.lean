import PortfolioLab.Document.Cursor
import PortfolioLab.Failure

/-!
# Texts in a document

A text is written plainly, in single quotes, where a quote is written twice, in double quotes with
escapes, or as an indented block that keeps or folds its lines. A single line break inside a plain
or quoted text is a space.
-/

namespace PortfolioLab.Document

/-- A line break and the further ones after it, as they count in a folded text. -/
def foldBreaks (first more : List Char) : List Char :=
  if first != ['\n'] then first ++ more else if more.isEmpty then [' '] else more

/-! ## Plain texts -/

def endsPlain (flow : Bool) (c after : Char) : Bool :=
  isWordEnd c || (c == ':' && (isWordEnd after || (flow && ",[]\x7b\x7d".toList.contains after))) ||
    (flow && ",?[]\x7b\x7d".toList.contains c)

def plainRun (flow : Bool) : List Char → List Char
  | [] => []
  | c :: cs => if endsPlain flow c (cs.headD (Char.ofNat 0)) then [] else c :: plainRun flow cs

/-- The white space inside a plain text: what it counts for, the place after it, and whether it
holds a line break. Nothing at all before a mark of a document. -/
def plainSpaces (c : Cursor) : List Char × Cursor × Bool :=
  let (spaces, c) := c.takeWhile (· == ' ')
  match c.lineBreak with
  | ([], _) => (spaces, c, false)
  | (first, c) =>
    if c.isDocumentMarker then ([], c, true)
    else
      let (more, c) := c.breaks (· == ' ') Cursor.isDocumentMarker
      if c.isDocumentMarker then ([], c, true) else (foldBreaks first more, c, true)

/-- A plain text whose lines are indented by `indent` at least, and whether a line break follows
it. -/
def plainText (flow : Bool) (indent : Nat) (c : Cursor) : List Char × Cursor × Bool :=
  go (c.rest.length + 1) [] c false
where
  /-- Word by word, with the white space before the next word. -/
  go : Nat → List Char → Cursor → Bool → List Char × Cursor × Bool
    | 0, _, c, broken => ([], c, broken)
    | fuel + 1, spaces, c, broken =>
      let run := if c.peek == '#' then [] else plainRun flow c.rest
      if run.isEmpty then ([], c, broken)
      else
        let (next, after, broken) := plainSpaces (c.skip run.length)
        if next.isEmpty || after.peek == '#' || (!flow && after.column < indent) then
          (spaces ++ run, after, broken)
        else
          let (more, last, broken) := go fuel next after broken
          (spaces ++ run ++ more, last, broken)

/-! ## Quoted texts -/

def escaped? (c : Char) : Option Char :=
  ([('0', 0), ('a', 7), ('b', 8), ('t', 9), ('\t', 9), ('n', 10), ('v', 11), ('f', 12), ('r', 13),
    ('e', 0x1b), (' ', 0x20), ('\x22', 0x22), ('\\', 0x5c), ('/', 0x2f), ('N', 0x85), ('_', 0xa0),
    ('L', 0x2028), ('P', 0x2029)].lookup c).map Char.ofNat

def escapeLength? (c : Char) : Option Nat := [('x', 2), ('u', 4), ('U', 8)].lookup c

def hexDigit? (c : Char) : Option Nat :=
  if c.isDigit then some (c.toNat - 48)
  else if 'a' ≤ c && c ≤ 'f' then some (c.toNat - 87)
  else if 'A' ≤ c && c ≤ 'F' then some (c.toNat - 55)
  else none

def hexNumber? (cs : List Char) : Option Nat :=
  cs.foldl (fun n c => do return 16 * (← n) + (← hexDigit? c)) (some 0)

/-- The lines that are skipped inside a quoted text. -/
def quotedBreaks (c : Cursor) : Except DocumentFault (List Char × Cursor) :=
  let (more, c) := c.breaks isBlank Cursor.isDocumentMarker
  if c.isDocumentMarker then .error .tokens else .ok (more, c)

def readEscape (c : Cursor) : Except DocumentFault (List Char × Cursor) :=
  match escaped? c.peek, escapeLength? c.peek with
  | some ch, _ => .ok ([ch], c.next)
  | none, some n =>
    let digits := c.next.rest.take n
    match hexNumber? digits with
    | some code => if digits.length = n then .ok ([Char.ofNat code], c.skip (n + 1)) else .error .tokens
    | none => .error .tokens
  | none, none => if isBreak c.peek then quotedBreaks c.lineBreak.2 else .error .tokens

def quotedSpaces (c : Cursor) : Except DocumentFault (List Char × Cursor) :=
  let (blanks, c) := c.takeWhile isBlank
  if isEnd c.peek then .error .tokens
  else
    match c.lineBreak with
    | ([], _) => .ok (blanks, c)
    | (first, c) => do
      let (more, c) ← quotedBreaks c
      return (foldBreaks first more, c)

/-- A text after its opening quote, and the place after the closing one. -/
def quotedText (double : Bool) (c : Cursor) : Except DocumentFault (List Char × Cursor) :=
  go (c.rest.length + 1) c
where
  /-- Character by character, but white space as a whole. -/
  go : Nat → Cursor → Except DocumentFault (List Char × Cursor)
    | 0, _ => .error .tokens
    | fuel + 1, c => do
      let ch := c.peek
      let quote := if double then '\x22' else '\''
      if ch == quote then
        if !double && c.peek 1 == quote then
          let (more, last) ← go fuel (c.skip 2)
          return (quote :: more, last)
        else return ([], c.next)
      else
        let (piece, after) ←
          if isWordEnd ch then quotedSpaces c
          else if double && ch == '\\' then readEscape c.next
          else .ok ([ch], c.next)
        let (more, last) ← go fuel after
        return (piece ++ more, last)

/-! ## Block texts -/

/-- What becomes of the line breaks at the end of a block. -/
inductive Chomping where
  | clip
  | strip
  | keep
  deriving DecidableEq

def chomping? (c : Char) : Option Chomping :=
  if c == '+' then some .keep else if c == '-' then some .strip else none

def increment? (c : Char) : Option Nat := if c.isDigit then some (c.toNat - 48) else none

/-- The indicators of a block, in either order, and the rest of its first line. -/
def blockHeader (c : Cursor) : Except DocumentFault ((Chomping × Option Nat) × Cursor) := do
  let (chomping, increment, c) :=
    match chomping? c.peek, increment? c.peek with
    | some k, _ =>
      match increment? (c.peek 1) with
      | some n => (k, some n, c.skip 2)
      | none => (k, none, c.next)
    | none, some n =>
      match chomping? (c.peek 1) with
      | some k => (k, some n, c.skip 2)
      | none => (.clip, some n, c.next)
    | none, none => (.clip, none, c)
  if increment == some 0 || !(c.peek == ' ' || isLineEnd c.peek) then throw .tokens
  let c := c.skipWhile (· == ' ')
  let c := if c.peek == '#' then c.skipWhile (!isLineEnd ·) else c
  if !isLineEnd c.peek then throw .tokens
  return ((chomping, increment), c.lineBreak.2)

def skipIndent (indent : Nat) (c : Cursor) : Cursor :=
  c.skip (min (c.rest.takeWhile (· == ' ')).length (indent - c.column))

def blockBreaks (indent : Nat) (c : Cursor) : List Char × Cursor :=
  go (c.rest.length + 1) c
where
  /-- Line by line. -/
  go : Nat → Cursor → List Char × Cursor
    | 0, c => ([], c)
    | fuel + 1, c =>
      let c := skipIndent indent c
      match c.lineBreak with
      | ([], _) => ([], c)
      | (mark, after) =>
        let (more, last) := go fuel after
        (mark ++ more, last)

/-- The empty lines at the start of a block, and the largest indentation among them and the first
line of text. -/
def blockIndent (c : Cursor) : List Char × Nat × Cursor :=
  go (c.rest.length + 1) 0 c
where
  /-- Line by line. -/
  go : Nat → Nat → Cursor → List Char × Nat × Cursor
    | 0, deepest, c => ([], deepest, c)
    | fuel + 1, deepest, c =>
      let c := c.skipWhile (· == ' ')
      let deepest := max deepest c.column
      match c.lineBreak with
      | ([], _) => ([], deepest, c)
      | (mark, after) =>
        let (more, deepest, last) := go fuel deepest after
        (mark ++ more, deepest, last)

/-- The lines of a block from one with text on: the text without its last line break, that break,
and the empty lines at the end. -/
def blockLines (folded : Bool) (indent : Nat) :
    Nat → Cursor → List Char × List Char × List Char × Cursor
  | 0, c => ([], [], [], c)
  | fuel + 1, c =>
    let indented := isBlank c.peek
    let (line, c) := c.takeWhile (!isLineEnd ·)
    let (mark, c) := c.lineBreak
    let (empty, c) := blockBreaks indent c
    if c.column == indent && !isEnd c.peek then
      let joint :=
        if folded && mark == ['\n'] && !indented && !isBlank c.peek then
          if empty.isEmpty then [' '] else []
        else mark
      let (more, last, final, c) := blockLines folded indent fuel c
      (line ++ joint ++ empty ++ more, last, final, c)
    else (line, mark, empty, c)

def blockText (folded : Bool) (outer : Nat) (c : Cursor) : Except DocumentFault (List Char × Cursor) := do
  let ((chomping, increment), c) ← blockHeader c
  let least := max outer 1
  let (empty, indent, c) :=
    match increment with
    | some n =>
      let indent := least + n - 1
      let (empty, c) := blockBreaks indent c
      (empty, indent, c)
    | none =>
      let (empty, deepest, c) := blockIndent c
      (empty, max least deepest, c)
  let (text, last, final, c) :=
    if c.column == indent && !isEnd c.peek then
      let (text, last, final, c) := blockLines folded indent (c.rest.length + 1) c
      (empty ++ text, last, final, c)
    else ([], [], empty, c)
  let ending := match chomping with
    | .strip => []
    | .clip => last
    | .keep => last ++ final
  return (text ++ ending, c)

end PortfolioLab.Document
