/-!
Lexemes: what the text of a document is made of. Where blocks start and end, and what is a key, is
not written out; lexemes of their own say so.
-/

set_option autoImplicit false

namespace ExprLang.Yaml

inductive Lexeme
  | textStart
  | textEnd
  | version (major minor : Nat)
  /-- A short form for the start of tags. -/
  | tagHandle (handle start : String)
  | documentStart
  | documentEnd
  | blockSequenceStart
  | blockMappingStart
  | blockEnd
  | flowSequenceStart
  | flowSequenceEnd
  | flowMappingStart
  | flowMappingEnd
  /-- The dash before an item of a block. -/
  | blockItem
  /-- The comma inside a flow collection. -/
  | flowItem
  | key
  | value
  | reference (name : String)
  | anchor (name : String)
  | tag (handle rest : String)
  | scalar (text : String) (isPlain : Bool)
  deriving DecidableEq, Repr

/-- A lexeme where it stands. -/
structure Token where
  lexeme : Lexeme
  /-- The number of characters before it. -/
  index : Nat
  line : Nat
  deriving DecidableEq, Repr

end ExprLang.Yaml
