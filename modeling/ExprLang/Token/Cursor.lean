import ExprLang.Fault

/-!
A cursor over tokens. The last token marks the end and is never passed: a cursor holds the tokens
already passed, those still ahead, and that last one, so no position is out of range.
-/

set_option autoImplicit false

namespace ExprLang.Token

structure Cursor where
  /-- The tokens already passed, the most recent first. -/
  passed : List Token
  /-- The tokens still to come, without the last one. -/
  ahead : List Token
  last : Token

namespace Cursor

/-- Stands before the first token. A list that does not end in an end mark gets one, placed where
its last token ends. -/
def ofList (tokens : List Token) : Cursor :=
  match tokens.getLast? with
  | none => ⟨[], [], .zero⟩
  | some t =>
    if t.kind = .eof then ⟨[], tokens.dropLast, t⟩ else ⟨[], tokens, .endAt t.span.stop⟩

/-- All the tokens, in order. -/
def tokens (c : Cursor) : List Token := c.passed.reverse ++ c.ahead ++ [c.last]

/-- How many tokens were passed. -/
def index (c : Cursor) : Nat := c.passed.length

def atEnd (c : Cursor) : Bool := c.ahead.isEmpty

def peek (c : Cursor) : Token := c.ahead.headD c.last

/-- The cursor after the current token; the last token stays current. -/
def advance (c : Cursor) : Cursor :=
  match c.ahead with
  | [] => c
  | t :: rest => { c with passed := t :: c.passed, ahead := rest }

def next (c : Cursor) : Token × Cursor := (c.peek, c.advance)

/-- The token passed most recently, or the first token if none was. -/
def previous (c : Cursor) : Token := c.passed.headD c.peek

/-- At the end nothing matches, not even the end mark. -/
def check (c : Cursor) (kind : Kind) : Bool :=
  match c.ahead with
  | [] => false
  | t :: _ => t.kind = kind

def checkAny (c : Cursor) (kinds : List Kind) : Bool := kinds.any c.check

def accept (c : Cursor) (kind : Kind) : Bool × Cursor :=
  if c.check kind then (true, c.advance) else (false, c)

/-- The current token, passed, if it is one of `kinds`. -/
def acceptAny (c : Cursor) (kinds : List Kind) : Option Token × Cursor :=
  if c.checkAny kinds then (some c.peek, c.advance) else (none, c)

/-- The current token, passed, which must be of the given kind. -/
def expect (c : Cursor) (kind : Kind) (note : String) : Except Fault Token × Cursor :=
  if c.check kind then (.ok c.peek, c.advance)
  else (.error (.expected note kind c.peek.kind c.peek.span), c)

end Cursor

end ExprLang.Token
