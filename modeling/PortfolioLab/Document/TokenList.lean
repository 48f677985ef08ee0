import PortfolioLab.Document.Scalar
import PortfolioLab.Document.Token

/-!
# From text to tokens

Tokens are taken from the text one by one. A text or collection that may turn out to be a key is
remembered together with its place among the tokens; when a colon follows on the same line, the
mark of a key is put in at that place. Outside brackets a deeper column opens a collection, and a
smaller one closes all collections that are deeper.
-/

namespace PortfolioLab.Document

structure PossibleKey where
  /-- The number of tokens before it. -/
  place : Nat
  /-- Whether it has to be a key, since it begins a line of a collection. -/
  required : Bool
  index : Nat
  line : Nat
  column : Nat

structure Scan where
  cursor : Cursor
  tokens : List Token := []
  /-- How many brackets are open. -/
  flow : Int := 0
  /-- The column of the innermost block collection, and those of the ones around it. -/
  indent : Int := -1
  outer : List Int := []
  /-- Whether a key may begin here. -/
  mayBegin : Bool := true
  /-- The last possible key at each depth of brackets. -/
  keys : List (Int × PossibleKey) := []

namespace Scan

def inFlow (s : Scan) : Bool := s.flow != 0

def emit (s : Scan) (t : Token) : Scan := { s with tokens := s.tokens ++ [t] }

def insert (s : Scan) (place : Nat) (t : Token) : Scan :=
  { s with tokens := s.tokens.take place ++ [t] ++ s.tokens.drop place }

def forward (s : Scan) (n : Nat) : Scan := { s with cursor := s.cursor.skip n }

def column (s : Scan) : Int := s.cursor.column

/-- Whether a place is too far back for a key: on another line, or over 1024 characters away. -/
def isStale (s : Scan) (k : PossibleKey) : Bool :=
  k.line != s.cursor.line || 1024 < s.cursor.index - k.index

/-- Forget the possible keys that are too far back; one that had to be a key is a fault. -/
def dropStale (s : Scan) : Except DocumentFault Scan :=
  if s.keys.any fun k => s.isStale k.2 && k.2.required then .error .tokens
  else .ok { s with keys := s.keys.filter fun k => !s.isStale k.2 }

/-- The tokens that are settled: those before the first place where a key may still begin. -/
def settled (s : Scan) : List Token :=
  let undecided := s.keys.filter fun k => k.2.required || !s.isStale k.2
  s.tokens.take (undecided.foldl (fun n k => min n k.2.place) s.tokens.length)

/-- Forget the possible key at the present depth; one that had to be a key is a fault. -/
def dropKey (s : Scan) : Except DocumentFault Scan :=
  match s.keys.lookup s.flow with
  | some k =>
    if k.required then .error .tokens
    else .ok { s with keys := s.keys.filter fun k => k.1 != s.flow }
  | none => .ok s

def rememberKey (s : Scan) : Except DocumentFault Scan :=
  if s.mayBegin then do
    let dropped ← s.dropKey
    let k : PossibleKey := {
      place := s.tokens.length
      required := !s.inFlow && s.indent == s.column
      index := s.cursor.index, line := s.cursor.line, column := s.cursor.column }
    return { dropped with keys := (s.flow, k) :: dropped.keys }
  else .ok s

def closeBlocks (s : Scan) (column : Int) : Scan :=
  if s.inFlow then s else go s.outer s
where
  /-- From the inside out. -/
  go : List Int → Scan → Scan
    | [], s => s
    | i :: rest, s =>
      if column < s.indent then go rest { s.emit .blockEnd with indent := i, outer := rest } else s

/-- Open a block collection at a column if it is deeper than the innermost one. -/
def openBlock (s : Scan) (column : Int) (place : Nat) (t : Token) : Scan :=
  if s.indent < column then
    { s.insert place t with indent := column, outer := s.indent :: s.outer }
  else s

def skipToToken (s : Scan) : Scan :=
  let start := if s.cursor.index == 0 && s.cursor.peek.toNat == 0xfeff then s.forward 1 else s
  go (s.cursor.rest.length + 1) start
where
  /-- Line by line. -/
  go : Nat → Scan → Scan
    | 0, s => s
    | fuel + 1, s =>
      let c := s.cursor.skipWhile (· == ' ')
      let c := if c.peek == '#' then c.skipWhile (!isLineEnd ·) else c
      match c.lineBreak with
      | ([], _) => { s with cursor := c }
      | (_, c) => go fuel { s with cursor := c, mayBegin := s.mayBegin || !s.inFlow }

/-- A mark that closes all blocks: the end, or the start of a document. -/
def fetchMarker (s : Scan) (t : Token) (width : Nat) : Except DocumentFault Scan := do
  let s ← (s.closeBlocks (-1)).dropKey
  return ({ s with mayBegin := false }.emit t).forward width

def fetchOpening (s : Scan) (t : Token) : Except DocumentFault Scan := do
  let s ← s.rememberKey
  return ({ s with flow := s.flow + 1, mayBegin := true }.emit t).forward 1

def fetchClosing (s : Scan) (t : Token) : Except DocumentFault Scan := do
  let s ← s.dropKey
  return ({ s with flow := s.flow - 1, mayBegin := false }.emit t).forward 1

def fetchComma (s : Scan) : Except DocumentFault Scan := do
  let s ← s.dropKey
  return ({ s with mayBegin := true }.emit .flowEntry).forward 1

def fetchDash (s : Scan) : Except DocumentFault Scan := do
  if !s.inFlow && !s.mayBegin then throw .tokens
  let s := if s.inFlow then s else s.openBlock s.column s.tokens.length .blockSequence
  let s ← s.dropKey
  return ({ s with mayBegin := true }.emit .blockEntry).forward 1

def fetchQuestion (s : Scan) : Except DocumentFault Scan := do
  if !s.inFlow && !s.mayBegin then throw .tokens
  let s := if s.inFlow then s else s.openBlock s.column s.tokens.length .blockMapping
  let s ← s.dropKey
  return ({ s with mayBegin := !s.inFlow }.emit .key).forward 1

def fetchColon (s : Scan) : Except DocumentFault Scan := do
  match s.keys.lookup s.flow with
  | some k =>
    let s := { s with keys := s.keys.filter fun k => k.1 != s.flow }
    let s := s.insert k.place .key
    let s := if s.inFlow then s else s.openBlock k.column k.place .blockMapping
    return ({ s with mayBegin := false }.emit .value).forward 1
  | none =>
    if !s.inFlow && !s.mayBegin then throw .tokens
    let s := if s.inFlow then s else s.openBlock s.column s.tokens.length .blockMapping
    let s ← s.dropKey
    return ({ s with mayBegin := !s.inFlow }.emit .value).forward 1

def isNameChar (c : Char) : Bool := c.isAlphanum || c == '-' || c == '_'

def isTagChar (c : Char) : Bool := c.isAlphanum || "-;/?:@&=+$,_.!~*'()[]%".toList.contains c

/-- The bytes written by escapes with a percent sign, decoded; other characters stay. -/
def decodePercent : Nat → List Char → Option (List Char)
  | 0, _ => none
  | _, [] => some []
  | fuel + 1, '%' :: a :: b :: rest => do
    let code ← hexNumber? [a, b]
    if code < 128 then return Char.ofNat code :: (← decodePercent fuel rest) else none
  | fuel + 1, c :: rest =>
    if c == '%' then none else do return c :: (← decodePercent fuel rest)

def tagRest (c : Cursor) : Except DocumentFault (String × Cursor) :=
  let (run, after) := c.takeWhile isTagChar
  if run.isEmpty then .error .tokens
  else
    match decodePercent (run.length + 1) run with
    | some text => .ok (String.ofList text, after)
    | none => .error .tokens

/-- The abbreviation of a tag: one exclamation mark, or a name between two. -/
def tagHandle (c : Cursor) : Except DocumentFault (String × Cursor) :=
  if c.peek != '!' then .error .tokens
  else
    let (name, after) := c.next.takeWhile isNameChar
    if after.peek == '!' then .ok ("!" ++ String.ofList name ++ "!", after.next)
    else if name.isEmpty && after.peek == ' ' then .ok ("!", after)
    else .error .tokens

/-- An anchor or an alias, after its sign. -/
def fetchName (s : Scan) (make : String → Token) : Except DocumentFault Scan := do
  let s ← s.rememberKey
  let (name, after) := s.cursor.next.takeWhile isNameChar
  let next := after.peek
  if name.isEmpty || !(isWordEnd next || "?:,]\x7d%@\x60".toList.contains next) then throw .tokens
  return { s.emit (make (String.ofList name)) with mayBegin := false, cursor := after }

def writtenTag (c : Cursor) : Except DocumentFault (WrittenTag × Cursor) := do
  let second := c.peek 1
  if second == '<' then
    let (rest, after) ← tagRest (c.skip 2)
    if after.peek != '>' then throw .tokens
    return (⟨none, rest⟩, after.next)
  else if isWordEnd second then return (⟨none, "!"⟩, c.next)
  else
    let word := c.next.rest.takeWhile fun ch => !(ch == ' ' || isLineEnd ch)
    if word.contains '!' then
      let (handle, after) ← tagHandle c
      let (rest, after) ← tagRest after
      return (⟨some handle, rest⟩, after)
    else
      let (rest, after) ← tagRest c.next
      return (⟨some "!", rest⟩, after)

def fetchTag (s : Scan) : Except DocumentFault Scan := do
  let s ← s.rememberKey
  let (tag, after) ← writtenTag s.cursor
  if !(after.peek == ' ' || isLineEnd after.peek) then throw .tokens
  return { s.emit (.tag tag) with mayBegin := false, cursor := after }

def fetchBlock (s : Scan) (folded : Bool) : Except DocumentFault Scan := do
  let s ← s.dropKey
  let (text, after) ← blockText folded (s.indent + 1).toNat s.cursor.next
  return { s.emit (.scalar (String.ofList text) false) with mayBegin := true, cursor := after }

def fetchQuoted (s : Scan) (double : Bool) : Except DocumentFault Scan := do
  let s ← s.rememberKey
  let (text, after) ← quotedText double s.cursor.next
  return { s.emit (.scalar (String.ofList text) false) with mayBegin := false, cursor := after }

def fetchPlain (s : Scan) : Except DocumentFault Scan := do
  let s ← s.rememberKey
  let (text, after, broken) := plainText s.inFlow (s.indent + 1).toNat s.cursor
  return { s.emit (.scalar (String.ofList text) true) with mayBegin := broken, cursor := after }

def directiveNumber (c : Cursor) : Except DocumentFault (Nat × Cursor) :=
  let (digits, after) := c.takeWhile Char.isDigit
  match (String.ofList digits).toNat? with
  | some n => .ok (n, after)
  | none => .error .tokens

def versionDirective (c : Cursor) : Except DocumentFault (Token × Cursor) := do
  let (major, c) ← directiveNumber (c.skipWhile (· == ' '))
  if c.peek != '.' then throw .tokens
  let (minor, c) ← directiveNumber c.next
  if !(c.peek == ' ' || isLineEnd c.peek) then throw .tokens
  return (.version major minor, c)

def tagDirective (c : Cursor) : Except DocumentFault (Token × Cursor) := do
  let (handle, c) ← tagHandle (c.skipWhile (· == ' '))
  if c.peek != ' ' then throw .tokens
  let (meaning, c) ← tagRest (c.skipWhile (· == ' '))
  if !(c.peek == ' ' || isLineEnd c.peek) then throw .tokens
  return (.tagHandle handle meaning, c)

def fetchDirective (s : Scan) : Except DocumentFault Scan := do
  let s ← (s.closeBlocks (-1)).dropKey
  let (name, c) := s.cursor.next.takeWhile isNameChar
  if name.isEmpty || !(c.peek == ' ' || isLineEnd c.peek) then throw .tokens
  let (token, c) ←
    if name == "YAML".toList then versionDirective c
    else if name == "TAG".toList then tagDirective c
    else pure (.otherDirective, c.skipWhile (!isLineEnd ·))
  let c := c.skipWhile (· == ' ')
  let c := if c.peek == '#' then c.skipWhile (!isLineEnd ·) else c
  if !isLineEnd c.peek then throw .tokens
  return { s.emit token with mayBegin := false, cursor := c.lineBreak.2 }

def beginsPlain (flow : Bool) (c after : Char) : Bool :=
  !(isWordEnd c || "-?:,[]\x7b\x7d#&*!|>'\x22%@\x60".toList.contains c) ||
    (!isWordEnd after && (c == '-' || (!flow && (c == '?' || c == ':'))))

def fetchToken (s : Scan) : Except DocumentFault Scan :=
  let c := s.cursor.peek
  let after := s.cursor.peek 1
  if c == '%' && s.cursor.column == 0 then s.fetchDirective
  else if s.cursor.isMarker '-' then s.fetchMarker .documentStart 3
  else if s.cursor.isMarker '.' then s.fetchMarker .documentEnd 3
  else if c == '[' then s.fetchOpening .flowSequence
  else if c == '\x7b' then s.fetchOpening .flowMapping
  else if c == ']' then s.fetchClosing .flowSequenceEnd
  else if c == '\x7d' then s.fetchClosing .flowMappingEnd
  else if c == ',' then s.fetchComma
  else if c == '-' && isWordEnd after then s.fetchDash
  else if c == '?' && (s.inFlow || isWordEnd after) then s.fetchQuestion
  else if c == ':' && (s.inFlow || isWordEnd after) then s.fetchColon
  else if c == '*' then s.fetchName .alias
  else if c == '&' then s.fetchName .anchor
  else if c == '!' then s.fetchTag
  else if (c == '|' || c == '>') && !s.inFlow then s.fetchBlock (c == '>')
  else if c == '\'' then s.fetchQuoted false
  else if c == '\x22' then s.fetchQuoted true
  else if beginsPlain s.inFlow c after then s.fetchPlain
  else .error .tokens

/-- The state after the next token, and whether that is the end of the text. -/
def step (s : Scan) : Except DocumentFault (Scan × Bool) := do
  let s ← s.skipToToken.dropStale
  let s := s.closeBlocks s.column
  if isEnd s.cursor.peek then return (← s.fetchMarker .streamEnd 0, true)
  else return (← s.fetchToken, false)

/-- The tokens from a state on; every one takes a character at least. Before a fault only the
settled ones count. -/
def run : Nat → Scan → TokenList
  | 0, s => ⟨s.settled, some .tokens⟩
  | fuel + 1, s =>
    match s.step with
    | .error fault => ⟨s.settled, some fault⟩
    | .ok (last, true) => ⟨last.tokens, none⟩
    | .ok (next, false) => run fuel next

end Scan

def TokenList.ofText (text : List Char) : TokenList :=
  Scan.run (text.length + 2) { cursor := { rest := text } }

end PortfolioLab.Document
