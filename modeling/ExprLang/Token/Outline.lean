import ExprLang.Text.Outline
import ExprLang.Token.Basic

/-!
Tokens with everything that they hold, as outlines.
-/

set_option autoImplicit false

namespace ExprLang

open Text (Outline)

def Position.outline (p : Position) : Outline :=
  .branch "types.Position"
    [("Line", .leaf (toString p.line)), ("Column", .leaf (toString p.column)),
      ("Filename", .leaf (Text.quoted p.file))]

def Span.outline (s : Span) : Outline :=
  .branch "types.Span" [("From", s.start.outline), ("To", s.stop.outline)]

namespace Token

def Literal.outline : Option Literal → Outline
  | none => .leaf "nil"
  | some (.int value) => .leaf (toString value.toInt)
  | some (.ident name) => .leaf (Text.quoted name)

def outline (t : Token) : Outline :=
  .branch "types.Token"
    [("Kind", .leaf (toString t.kind.code)), ("Lexeme", .leaf (Text.quoted t.lexeme)),
      ("Literal", Literal.outline t.literal), ("Location", t.span.outline)]

/-- All tokens of a source. -/
def outlines (tokens : List Token) : Outline :=
  .branch "[]types.Token" (tokens.map fun t ↦ ("", t.outline))

end Token

end ExprLang
