import PortfolioLab.Failure

/-!
# Tokens of a document

The marks and texts that a document consists of. Indentation has become marks of its own, and a
text that turns out to be a key has a mark before it.
-/

namespace PortfolioLab.Document

/-- A tag as it is written: an abbreviation, if it has one, and the rest. -/
structure WrittenTag where
  handle : Option String
  rest : String

inductive Token where
  | version (major minor : Nat)
  | tagHandle (handle meaning : String)
  | otherDirective
  | documentStart
  | documentEnd
  | blockSequence
  | blockMapping
  | blockEnd
  | flowSequence
  | flowSequenceEnd
  | flowMapping
  | flowMappingEnd
  | blockEntry
  | flowEntry
  | key
  | value
  | alias (name : String)
  | anchor (name : String)
  | tag (tag : WrittenTag)
  /-- A text, and whether it is written without quotes. -/
  | scalar (text : String) (plain : Bool)
  | streamEnd

/-- The tokens of a document, up to its end or to a fault. -/
structure TokenList where
  tokens : List Token
  fault : Option DocumentFault

end PortfolioLab.Document
