/-!
Places in a source text. Lines and columns count from one; a span runs from its first character to
its last one.
-/

set_option autoImplicit false

namespace ExprLang

/-- A character's place. Hosts may name places that no text has, so the numbers are integers. -/
structure Position where
  file : String
  line : Int
  column : Int
  deriving DecidableEq, Repr, Inhabited

structure Span where
  start : Position
  stop : Position
  deriving DecidableEq, Repr, Inhabited

namespace Position

/-- The place of nothing: no file, line zero, column zero. -/
def zero : Position := ⟨"", 0, 0⟩

/-- `file:line:column`, where a missing file name shows as `<unknown>`. -/
def text (p : Position) : String :=
  (if p.file = "" then "<unknown>" else p.file) ++ ":" ++ toString p.line ++ ":" ++
    toString p.column

/-- The place `n` columns further right. -/
def right (p : Position) (n : Nat) : Position := { p with column := p.column + n }

/-- The span of a single character. -/
def span (p : Position) : Span := ⟨p, p⟩

end Position

namespace Span

def zero : Span := Position.zero.span

/-- The first place in full, and the last one by line and column. -/
def text (s : Span) : String :=
  s.start.text ++ "-" ++ toString s.stop.line ++ ":" ++ toString s.stop.column

end Span

end ExprLang
