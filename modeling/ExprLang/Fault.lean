import ExprLang.Token.Basic

/-!
What can go wrong, as causes. Each cause has one wording, a class, and, for text that cannot be
read, the place it points at. A cause can be wrapped: a trace mark leaves the wording alone and a
label is put in front of it. Class, place and incompleteness are those of the innermost cause.
-/

set_option autoImplicit false

namespace ExprLang

/-- Why characters form no token. -/
inductive LexicalCause
  /-- The character is an operator only when doubled. -/
  | unpaired (c : Char)
  /-- A run of digits beyond the integer range. -/
  | tooLarge (digits : String)
  | unexpected (c : Char)
  | stated (message : String)

namespace LexicalCause

def message : LexicalCause → String
  | unpaired c => "Expected '" ++ c.toString ++ c.toString ++ "'"
  | tooLarge digits => "Invalid numeric literal: " ++ digits
  | unexpected c => "Unexpected character '" ++ c.toString ++ "'"
  | stated message => message

end LexicalCause

/-- Why an evaluation stops, apart from values of the wrong kind. -/
inductive RuntimeCause
  | undefinedVariable (name : String)
  | undefinedFunction (name : String)
  | divisionByZero
  | outOfBounds (index : Int64) (size : Int)
  | loopLimit (limit : Int)
  | callLimit (limit : Int)
  | unknownOperator (symbol : String)
  /-- A place in a tree where an expression is missing. -/
  | missingExpression
  | outputClosed
  | stated (message : String)

namespace RuntimeCause

def message : RuntimeCause → String
  | undefinedVariable name => "Undefined variable: '" ++ name ++ "'"
  | undefinedFunction name => "Undefined function: '" ++ name ++ "'"
  | divisionByZero => "Division by zero"
  | outOfBounds index size =>
    "Array index out of bounds: " ++ toString index.toInt ++ " (size: " ++ toString size ++ ")"
  | loopLimit limit =>
    "Iteration limit exceeded (" ++ toString limit ++ "). Possible infinite loop"
  | callLimit limit => "Call depth limit exceeded (" ++ toString limit ++ ")"
  | unknownOperator symbol => "Unknown operator: " ++ symbol
  | missingExpression => "no evaluation rule for <nil>"
  | outputClosed => "print: output closed"
  | stated message => message

end RuntimeCause

/-- Which kind of value was found where another was needed. Kinds are given by name. -/
inductive TypingCause
  | operand (kind operation : String)
  | condition (kind operation : String)
  | element (kind : String)
  | notArray (kind : String)
  | lengthArgument (kind : String)
  | stated (message : String)

namespace TypingCause

def message : TypingCause → String
  | operand kind operation => "Cannot use " ++ kind ++ " in " ++ operation ++ " operation"
  | condition kind operation => "Cannot use type " ++ kind ++ " in " ++ operation ++ " operation"
  | element kind => "Array element must be integer, got: " ++ kind
  | notArray kind => "Expected array, got: " ++ kind
  | lengthArgument kind => "Function length expects array, got: " ++ kind
  | stated message => message

end TypingCause

inductive Fault
  | lexical (cause : LexicalCause) (place : Position)
  /-- One kind of token is needed here. -/
  | expected (note : String) (wanted got : Token.Kind) (span : Span)
  /-- Any of several forms could start here. -/
  | expectedOneOf (forms : List String) (got : Token.Kind) (span : Span)
  /-- The left side of the assignment sign at `span` cannot be assigned to. -/
  | assignmentTarget (span : Span)
  /-- A number or name token that carries no number or name. -/
  | emptyToken (wanted got : Token.Kind)
  | runtime (cause : RuntimeCause)
  | typing (cause : TypingCause)
  /-- Anything raised outside the language. It has no place of its own: only what is wrong with the
  text of a program has one. -/
  | foreign (message : String)
  | traced (inner : Fault)
  | labelled (label : String) (inner : Fault)

namespace Fault

inductive Class
  | unknown
  | lexical
  | parse
  | runtime
  | typing
  deriving DecidableEq, Repr

def Class.name : Class → String
  | unknown => "error"
  | lexical => "lex error"
  | parse => "parse error"
  | runtime => "runtime error"
  | typing => "type error"

/-- `a, b or c`; nothing at all reads `nothing`. -/
def alternatives : List String → String
  | [] => "nothing"
  | [form] => form
  | forms => ", ".intercalate forms.dropLast ++ " or " ++ forms.getLastD ""

def message : Fault → String
  | lexical cause place => place.text ++ ": " ++ cause.message
  | expected note wanted got span =>
    span.start.text ++ ": " ++ note ++ ". expected " ++ wanted.name ++ ", got " ++ got.name
  | expectedOneOf forms got span =>
    span.start.text ++ ": expected " ++ alternatives forms ++ ", got " ++ got.name
  | assignmentTarget span =>
    span.start.text ++ ": left side of assignment must be variable or array access"
  | emptyToken .int got => "token " ++ got.name ++ " is not an INT literal"
  | emptyToken _ got => "token " ++ got.name ++ " is not an IDENT"
  | runtime cause => cause.message
  | typing cause => cause.message
  | foreign message => message
  | traced inner => inner.message
  | labelled label inner => label ++ ": " ++ inner.message

def kind : Fault → Class
  | lexical .. => .lexical
  | expected .. | expectedOneOf .. | assignmentTarget .. => .parse
  | emptyToken .. | foreign .. => .unknown
  | runtime .. => .runtime
  | typing .. => .typing
  | traced inner | labelled _ inner => inner.kind

/-- The place in the source that the fault points at. -/
def position? : Fault → Option Position
  | lexical _ place => some place
  | expected _ _ _ span | expectedOneOf _ _ span | assignmentTarget span => some span.start
  | emptyToken .. | runtime .. | typing .. | foreign .. => none
  | traced inner | labelled _ inner => inner.position?

/-- The input ended where more could have followed. -/
def incomplete : Fault → Bool
  | expected _ _ got _ | expectedOneOf _ got _ => got = .eof
  | lexical .. | assignmentTarget .. | emptyToken .. | runtime .. | typing .. | foreign .. => false
  | traced inner | labelled _ inner => inner.incomplete

/-- The fault of a token of kind `wanted` without its payload. -/
def payload (wanted : Token.Kind) (t : Token) : Fault := emptyToken wanted t.kind

end Fault

end ExprLang
