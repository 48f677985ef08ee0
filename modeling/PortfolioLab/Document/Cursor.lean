/-!
# Places in a document

A cursor is a place in the text of a document: what is left of the text, and the line and column of
the place. The end of the text reads as the character zero, which no document contains.
-/

namespace PortfolioLab.Document

def isEnd (c : Char) : Bool := c.toNat == 0

def isBreak (c : Char) : Bool :=
  c == '\n' || c.toNat == 0x85 || c.toNat == 0x2028 || c.toNat == 0x2029

def isBlank (c : Char) : Bool := c == ' ' || c == '\t'

def isLineEnd (c : Char) : Bool := isBreak c || isEnd c

def isWordEnd (c : Char) : Bool := isBlank c || isLineEnd c

def isAllowed (c : Char) : Bool :=
  let n := c.toNat
  c == '\t' || c == '\n' || (0x20 ≤ n && n ≤ 0x7e) || n == 0x85 || (0xa0 ≤ n && n ≤ 0xfffd) ||
    0x10000 ≤ n

structure Cursor where
  rest : List Char
  index : Nat := 0
  line : Nat := 0
  column : Nat := 0

namespace Cursor

def peek (c : Cursor) (n : Nat := 0) : Char := c.rest.getD n (Char.ofNat 0)

/-- The place after the next character. A mark of the byte order takes no column. -/
def next (c : Cursor) : Cursor :=
  match c.rest with
  | [] => c
  | ch :: rest =>
    if isBreak ch then { rest, index := c.index + 1, line := c.line + 1, column := 0 }
    else
      { rest, index := c.index + 1, line := c.line
        column := if ch.toNat == 0xfeff then c.column else c.column + 1 }

def skip (c : Cursor) : Nat → Cursor
  | 0 => c
  | n + 1 => c.next.skip n

def takeWhile (c : Cursor) (p : Char → Bool) : List Char × Cursor :=
  let run := c.rest.takeWhile p
  (run, c.skip run.length)

def skipWhile (c : Cursor) (p : Char → Bool) : Cursor := (c.takeWhile p).2

/-- The line break at a place, as it counts in a text, and the place after it. -/
def lineBreak (c : Cursor) : List Char × Cursor :=
  let ch := c.peek
  if !isBreak ch then ([], c)
  else (if ch == '\n' || ch.toNat == 0x85 then ['\n'] else [ch], c.next)

/-- Whether a character stands three times at the start of a line, as a word. -/
def isMarker (c : Cursor) (mark : Char) : Bool :=
  c.column == 0 && c.peek == mark && c.peek 1 == mark && c.peek 2 == mark && isWordEnd (c.peek 3)

def isDocumentMarker (c : Cursor) : Bool := c.isMarker '-' || c.isMarker '.'

/-- The line breaks from a place on, with blanks before each, as they count in a text. -/
def breaks (c : Cursor) (skipped : Char → Bool) (stop : Cursor → Bool) : List Char × Cursor :=
  go (c.rest.length + 1) c
where
  /-- Line by line. -/
  go : Nat → Cursor → List Char × Cursor
    | 0, c => ([], c)
    | fuel + 1, c =>
      if stop c then ([], c)
      else
        let c := c.skipWhile skipped
        match c.lineBreak with
        | ([], _) => ([], c)
        | (mark, after) =>
          let (more, last) := go fuel after
          (mark ++ more, last)

end Cursor
end PortfolioLab.Document
