import ExprLang.Expr.Basic

/-!
Trees as text. Every binary operation is written in parentheses, and an expression that would
otherwise reach into what follows it is enclosed, so that reading the text gives the tree back.
-/

set_option autoImplicit false

namespace ExprLang

/-- `s`, in parentheses if `enclosed`. -/
def parenthesised (enclosed : Bool) (s : String) : String :=
  if enclosed then "(" ++ s ++ ")" else s

namespace Expr

variable {μ : Type}

/-- Extends as far to the right as it can, so that it is enclosed before anything else follows. -/
def isOpen : Expr μ → Bool
  | assign .. | assignCell .. | branch .. | loop .. | define .. => true
  | _ => false

def isCall : Expr μ → Bool
  | call .. => true
  | _ => false

mutual

def text : Expr μ → String
  | int value => toString value.toInt
  | binary op left right =>
    "(" ++ parenthesised left.isOpen left.text ++ " " ++ op.symbol ++ " " ++
      parenthesised right.isOpen right.text ++ ")"
  | var name => name
  | assign name value => name ++ " = " ++ value.text
  | block [] => "\x7b\x7d"
  | block (e :: rest) => "\x7b " ++ "; ".intercalate (texts (e :: rest)) ++ " \x7d"
  | branch condition onTrue onFalse =>
    "if (" ++ condition.text ++ ") " ++ parenthesised onTrue.isOpen onTrue.text ++
      elseText onFalse
  | loop condition body => "while (" ++ condition.text ++ ") " ++ body.text
  | define _ name parameter body => "func " ++ name ++ "(" ++ parameter ++ ") " ++ body.text
  | call name argument => name ++ "(" ++ argument.text ++ ")"
  | array elements => "[" ++ ", ".intercalate (texts elements) ++ "]"
  | access base index =>
    parenthesised (base.isCall || base.isOpen) base.text ++ "[" ++ index.text ++ "]"
  | assignCell base index value =>
    parenthesised (base.isCall || base.isOpen) base.text ++ "[" ++ index.text ++ "] = " ++
      value.text
  | missing => ""

def texts : List (Expr μ) → List String
  | [] => []
  | e :: rest => e.text :: texts rest

def elseText : Option (Expr μ) → String
  | none => ""
  | some e => " else " ++ e.text

end

/-- The text of a program: its expressions, a semicolon and a new line between two of them. -/
def program (items : List (Expr μ)) : String := ";\n".intercalate (texts items)

/-- The text of an expression in a log line, where an unfinished tree shows as an unprintable
argument. -/
def logText : Expr μ → String
  | missing => "%!s(<nil>)"
  | e =>
    if e.hasGap then
      "%!s(PANIC=String method: runtime error: invalid memory address or nil pointer dereference)"
    else e.text

end Expr

end ExprLang
