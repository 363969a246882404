import ExprLang.Source.Position
import ExprLang.Text.Quoted

/-!
Tokens: a kind, the text it was read from, the number or name it carries, and where it stood. Kinds
are numbered from zero, and numbers that name no kind are kept apart as `unknown`.
-/

set_option autoImplicit false

namespace ExprLang

namespace Token

inductive Kind
  | eof
  | int
  | ident
  | «if»
  | «else»
  | «while»
  | func
  | plus
  | minus
  | multiply
  | divide
  | equal
  | notEqual
  | less
  | lessEqual
  | greater
  | greaterEqual
  | and
  | or
  | assign
  | lparen
  | rparen
  | lbrace
  | rbrace
  | lbracket
  | rbracket
  | semicolon
  | comma
  | unknown (code : Int)
  deriving DecidableEq, Repr, Inhabited

namespace Kind

/-- The kinds that have names, in the order of their numbers. -/
def named : List Kind :=
  [eof, int, ident, .if, .else, .while, func, plus, minus, multiply, divide, equal, notEqual, less,
    lessEqual, greater, greaterEqual, and, or, assign, lparen, rparen, lbrace, rbrace, lbracket,
    rbracket, semicolon, comma]

def name : Kind → String
  | eof => "EOF"
  | int => "INT"
  | ident => "IDENT"
  | .if => "IF"
  | .else => "ELSE"
  | .while => "WHILE"
  | func => "FUNC"
  | plus => "PLUS"
  | minus => "MINUS"
  | multiply => "MULTIPLY"
  | divide => "DIVIDE"
  | equal => "EQUAL"
  | notEqual => "NOT_EQUAL"
  | less => "LESS"
  | lessEqual => "LESS_EQUAL"
  | greater => "GREATER"
  | greaterEqual => "GREATER_EQUAL"
  | and => "AND"
  | or => "OR"
  | assign => "ASSIGN"
  | lparen => "LPAREN"
  | rparen => "RPAREN"
  | lbrace => "LBRACE"
  | rbrace => "RBRACE"
  | lbracket => "LBRACKET"
  | rbracket => "RBRACKET"
  | semicolon => "SEMICOLON"
  | comma => "COMMA"
  | unknown code => "TokenKind(" ++ toString code ++ ")"

def code : Kind → Int
  | unknown code => code
  | kind => named.idxOf kind

/-- The kind with number `code`. -/
def ofCode : Int → Kind
  | .ofNat n => named[n]?.getD (unknown n)
  | .negSucc n => unknown (.negSucc n)

def ofName? (name : String) : Option Kind := named.find? fun kind ↦ kind.name = name

/-- The kind of a reserved word. -/
def ofKeyword? : String → Option Kind
  | "if" => some .if
  | "else" => some .else
  | "while" => some .while
  | "func" => some func
  | _ => none

end Kind

/-- What a token carries beside its text. -/
inductive Literal
  | int (value : Int64)
  | ident (name : String)
  deriving DecidableEq

def Literal.text : Literal → String
  | .int value => toString value.toInt
  | .ident name => name

end Token

structure Token where
  kind : Token.Kind
  lexeme : String
  literal : Option Token.Literal
  span : Span
  deriving DecidableEq

namespace Token

/-- The token of nothing: end of input, no text, no place. -/
def zero : Token := ⟨.eof, "", none, .zero⟩

/-- The mark for the end of a text, at one place. -/
def endAt (place : Position) : Token := ⟨.eof, "", none, place.span⟩

def position (t : Token) : Position := t.span.start

/-- The number of an `int` token. -/
def int? (t : Token) : Option Int64 :=
  match t.kind, t.literal with
  | .int, some (.int value) => some value
  | _, _ => none

/-- The name of an `ident` token. -/
def ident? (t : Token) : Option String :=
  match t.kind, t.literal with
  | .ident, some (.ident name) => some name
  | _, _ => none

/-- `KIND("lexeme", literal) file:line:column`; a token without a literal leaves it out. -/
def text (t : Token) : String :=
  t.kind.name ++ "(" ++ Text.quoted t.lexeme ++
    (match t.literal with
    | some literal => ", " ++ literal.text
    | none => "") ++ ") " ++ t.position.text

end Token

end ExprLang
