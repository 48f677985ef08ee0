import PortfolioLab.Document.TokenList

/-!
# Nodes of a document

A document is one node: a text, a sequence of nodes, or a mapping of nodes to nodes, each with the
tag that it is written with. The tokens are read by descent; every choice depends on the next token
only. An alias stands for the node with its anchor.
-/

namespace PortfolioLab.Document

inductive Node where
  | scalar (tag : Option String) (text : String) (plain : Bool)
  | sequence (tag : Option String) (items : List Node)
  | mapping (tag : Option String) (entries : List (Node × Node))
  deriving Inhabited

/-- What is left to read, and what has been declared. -/
structure ReadState where
  tokens : List Token
  fault : Option DocumentFault
  handles : List (String × String) := []
  anchors : List (String × Node) := []

abbrev Reader (α : Type) : Type := StateT ReadState (Except DocumentFault) α

/-- What the tags of the format begin with. -/
def formatTag : String := "tag:yaml.org,2002:"

namespace Reader

def peek : Reader Token := do
  let s ← get
  match s.tokens, s.fault with
  | t :: _, _ => return t
  | [], some fault => throw fault
  | [], none => return .streamEnd

def drop : Reader Unit := modify fun s => { s with tokens := s.tokens.drop 1 }

def emptyNode : Node := .scalar none "" true

def meaning (tag : WrittenTag) : Reader String := do
  match tag.handle with
  | none => return tag.rest
  | some handle =>
    match ((← get).handles ++ [("!", "!"), ("!!", formatTag)]).lookup handle with
    | some start => return start ++ tag.rest
    | none => throw .arrangement

/-- The anchor and the tag before a node, in either order. -/
def properties : Reader (Option String × Option String) := do
  match ← peek with
  | .anchor name =>
    drop
    match ← peek with
    | .tag t =>
      drop
      return (some name, some (← meaning t))
    | _ => return (some name, none)
  | .tag t =>
    drop
    match ← peek with
    | .anchor name =>
      drop
      return (some name, some (← meaning t))
    | _ => return (none, some (← meaning t))
  | _ => return (none, none)

/-- Where a node stands: in brackets, as an item or value in a block, or as the value of a key,
where a sequence need not be indented. -/
inductive Place where
  | flow
  | block
  | blockValue
  deriving DecidableEq

/-- An anchor may be declared once. -/
def checkAnchor (anchor : Option String) : Reader Unit := do
  match anchor with
  | some name => if ((← get).anchors.lookup name).isSome then throw .references
  | none => return

def declare (anchor : Option String) (n : Node) : Reader Unit :=
  match anchor with
  | some name => modify fun s => { s with anchors := (name, n) :: s.anchors }
  | none => return

def endsItem : Token → Bool
  | .blockEntry => true
  | .blockEnd => true
  | _ => false

/-- Whether a token ends an item of a sequence that is not indented. -/
def endsLooseItem : Token → Bool
  | .blockEntry => true
  | .key => true
  | .value => true
  | .blockEnd => true
  | _ => false

def endsEntry : Token → Bool
  | .key => true
  | .value => true
  | .blockEnd => true
  | _ => false

def endsFlowKey : Token → Bool
  | .value => true
  | .flowEntry => true
  | .flowSequenceEnd => true
  | .flowMappingEnd => true
  | _ => false

def endsFlowValue : Token → Bool
  | .flowEntry => true
  | .flowSequenceEnd => true
  | .flowMappingEnd => true
  | _ => false

mutual

def node : Nat → Place → Reader Node
  | 0, _ => throw .arrangement
  | fuel + 1, place => do
    match ← peek with
    | .alias name =>
      drop
      match (← get).anchors.lookup name with
      | some n => return n
      | none => throw .references
    | _ =>
      let (anchor, tag) ← properties
      let n ← content fuel place anchor tag
      declare anchor n
      return n

/-- The contents of a node after its anchor and tag. -/
def content : Nat → Place → Option String → Option String → Reader Node
  | 0, _, _, _ => throw .arrangement
  | fuel + 1, place, anchor, tag => do
    let t ← peek
    match t with
    | .blockEntry =>
      if place = .blockValue then
        checkAnchor anchor
        return .sequence tag (← looseItems fuel)
    | .scalar text plain =>
      checkAnchor anchor
      drop
      return .scalar tag text plain
    | .flowSequence =>
      checkAnchor anchor
      drop
      return .sequence tag (← flowItems fuel true)
    | .flowMapping =>
      checkAnchor anchor
      drop
      return .mapping tag (← flowEntries fuel true)
    | .blockSequence =>
      if place ≠ .flow then
        checkAnchor anchor
        drop
        return .sequence tag (← items fuel)
    | .blockMapping =>
      if place ≠ .flow then
        checkAnchor anchor
        drop
        return .mapping tag (← entries fuel)
    | _ => pure ()
    if anchor.isSome || tag.isSome then
      checkAnchor anchor
      return .scalar tag "" true
    else throw .arrangement

/-- A node, or nothing before a token that ends its place. -/
def nodeUnless : Nat → (Token → Bool) → Place → Reader Node
  | 0, _, _ => throw .arrangement
  | fuel + 1, ends, place => do
    if ends (← peek) then return emptyNode else node fuel place

def items : Nat → Reader (List Node)
  | 0 => throw .arrangement
  | fuel + 1 => do
    match ← peek with
    | .blockEntry =>
      drop
      let n ← nodeUnless fuel endsItem .block
      return n :: (← items fuel)
    | .blockEnd =>
      drop
      return []
    | _ => throw .arrangement

/-- The items of a sequence that is not indented. -/
def looseItems : Nat → Reader (List Node)
  | 0 => throw .arrangement
  | fuel + 1 => do
    match ← peek with
    | .blockEntry =>
      drop
      let n ← nodeUnless fuel endsLooseItem .block
      return n :: (← looseItems fuel)
    | _ => return []

def entries : Nat → Reader (List (Node × Node))
  | 0 => throw .arrangement
  | fuel + 1 => do
    match ← peek with
    | .key =>
      drop
      let k ← nodeUnless fuel endsEntry .blockValue
      let v ← entryValue fuel
      return (k, v) :: (← entries fuel)
    | .blockEnd =>
      drop
      return []
    | _ => throw .arrangement

def entryValue : Nat → Reader Node
  | 0 => throw .arrangement
  | fuel + 1 => do
    match ← peek with
    | .value =>
      drop
      nodeUnless fuel endsEntry .blockValue
    | _ => return emptyNode

/-- The comma before an item in brackets, which the first item does not have. -/
def comma : Nat → Bool → Reader Unit
  | _, true => return
  | _, false => do
    match ← peek with
    | .flowEntry => drop
    | _ => throw .arrangement

def flowItems : Nat → Bool → Reader (List Node)
  | 0, _ => throw .arrangement
  | fuel + 1, first => do
    match ← peek with
    | .flowSequenceEnd =>
      drop
      return []
    | _ =>
      comma fuel first
      match ← peek with
      | .flowSequenceEnd =>
        drop
        return []
      | .key =>
        drop
        let k ← nodeUnless fuel endsFlowKey .flow
        let v ← flowValue fuel
        return .mapping none [(k, v)] :: (← flowItems fuel false)
      | _ =>
        let n ← node fuel .flow
        return n :: (← flowItems fuel false)

def flowEntries : Nat → Bool → Reader (List (Node × Node))
  | 0, _ => throw .arrangement
  | fuel + 1, first => do
    match ← peek with
    | .flowMappingEnd =>
      drop
      return []
    | _ =>
      comma fuel first
      match ← peek with
      | .flowMappingEnd =>
        drop
        return []
      | .key =>
        drop
        let k ← nodeUnless fuel endsFlowKey .flow
        let v ← flowValue fuel
        return (k, v) :: (← flowEntries fuel false)
      | _ =>
        let k ← node fuel .flow
        return (k, emptyNode) :: (← flowEntries fuel false)

def flowValue : Nat → Reader Node
  | 0 => throw .arrangement
  | fuel + 1 => do
    match ← peek with
    | .value =>
      drop
      nodeUnless fuel endsFlowValue .flow
    | _ => return emptyNode

end

/-- The directives before a document. The version has to be one of the format; neither it nor an
abbreviation may be declared twice. -/
def directives : Nat → Bool → List (String × String) → Reader (List (String × String))
  | 0, _, _ => throw .arrangement
  | fuel + 1, versioned, handles => do
    match ← peek with
    | .version major _ =>
      if versioned || major ≠ 1 then throw .arrangement
      drop
      directives fuel true handles
    | .tagHandle handle meaning =>
      if (handles.lookup handle).isSome then throw .arrangement
      drop
      directives fuel versioned (handles ++ [(handle, meaning)])
    | .otherDirective =>
      drop
      directives fuel versioned handles
    | _ => return handles

def dropEnds : Nat → Reader Unit
  | 0 => throw .arrangement
  | fuel + 1 => do
    match ← peek with
    | .documentEnd =>
      drop
      dropEnds fuel
    | _ => return

def markedDocument (fuel : Nat) : Reader Node := do
  match ← peek with
  | .documentStart =>
    drop
    match ← peek with
    | .version _ _ => return emptyNode
    | .tagHandle _ _ => return emptyNode
    | .otherDirective => return emptyNode
    | .documentStart => return emptyNode
    | .documentEnd => return emptyNode
    | .streamEnd => return emptyNode
    | _ => node fuel .block
  | _ => throw .arrangement

def beginsMarked : Token → Bool
  | .version _ _ => true
  | .tagHandle _ _ => true
  | .otherDirective => true
  | .documentStart => true
  | _ => false

def firstDocument (fuel : Nat) : Reader (Option Node) := do
  let t ← peek
  match t with
  | .streamEnd => return none
  | _ =>
    if beginsMarked t then
      let handles ← directives fuel false []
      modify fun s => { s with handles }
      return some (← markedDocument fuel)
    else return some (← node fuel .block)

/-- The only document of a stream. After it there may be ends of documents, but no other one. -/
def onlyDocument (fuel : Nat) : Reader (Option Node) := do
  match ← firstDocument fuel with
  | none => return none
  | some n =>
    dropEnds fuel
    match ← peek with
    | .streamEnd => return some n
    | _ =>
      let _ ← directives fuel false []
      match ← peek with
      | .documentStart => throw .references
      | _ => throw .arrangement

end Reader

def Node.ofText? (text : List Char) : Except DocumentFault (Option Node) := do
  if !text.all isAllowed then throw .characters
  let list := TokenList.ofText text
  let fuel := 8 * (list.tokens.length + 4)
  let (n, _) ← (Reader.onlyDocument fuel).run { tokens := list.tokens, fault := list.fault }
  return n

end PortfolioLab.Document
