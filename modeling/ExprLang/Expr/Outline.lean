import ExprLang.Expr.Basic
import ExprLang.Text.Outline

/-!
Trees with everything that they hold, as outlines. What is zero, the first operator or missing is
left out, and an empty list shows as nothing.
-/

set_option autoImplicit false

namespace ExprLang.Expr

open Text (Outline)

variable {μ : Type}

def nameOutline (label name : String) : List (String × Outline) :=
  if name = "" then [] else [(label, .leaf (Text.quoted name))]

def operatorOutline (op : Operator) : List (String × Outline) :=
  if op = .add then [] else [("Operator", .leaf ("ast.Operator(" ++ op.symbol ++ ")"))]

/-- A list under a label. -/
def listOutline (label : String) : List (String × Outline) → List (String × Outline)
  | [] => [(label, .leaf "")]
  | parts => [(label, .branch "[]ast.Expression" parts)]

mutual

/-- A tree, if it is there, under a label. -/
def labelled (label : String) : Expr μ → List (String × Outline)
  | int value =>
    let parts := if value = 0 then [] else [("Value", .leaf (toString value.toInt))]
    [(label, .branch "&ast.IntLiteral" parts)]
  | binary op left right =>
    [(label, .branch "&ast.BinaryOp"
      (operatorOutline op ++ left.labelled "Left" ++ right.labelled "Right"))]
  | var name => [(label, .branch "&ast.Variable" (nameOutline "Name" name))]
  | assign name value =>
    [(label, .branch "&ast.Assignment" (nameOutline "Name" name ++ value.labelled "Value"))]
  | block items => [(label, .branch "&ast.Block" (listOutline "Expressions" (allLabelled items)))]
  | branch condition onTrue onFalse =>
    [(label, .branch "&ast.IfExpression"
      (condition.labelled "Condition" ++ onTrue.labelled "Then" ++ elseLabelled onFalse))]
  | loop condition body =>
    [(label, .branch "&ast.WhileExpression"
      (condition.labelled "Condition" ++ body.labelled "Body"))]
  | define _ name parameter body =>
    [(label, .branch "&ast.FunctionDefinition"
      (nameOutline "Name" name ++ nameOutline "Parameter" parameter ++ body.labelled "Body"))]
  | call name argument =>
    [(label, .branch "&ast.FunctionCall"
      (nameOutline "Name" name ++ argument.labelled "Argument"))]
  | array elements =>
    [(label, .branch "&ast.ArrayLiteral" (listOutline "Elements" (allLabelled elements)))]
  | access base index =>
    [(label, .branch "&ast.ArrayAccess" (base.labelled "Array" ++ index.labelled "Index"))]
  | assignCell base index value =>
    [(label, .branch "&ast.ArrayAssignment"
      (base.labelled "Array" ++ index.labelled "Index" ++ value.labelled "Value"))]
  | missing => []

def elseLabelled : Option (Expr μ) → List (String × Outline)
  | none => []
  | some e => e.labelled "Else"

def allLabelled : List (Expr μ) → List (String × Outline)
  | [] => []
  | e :: rest => e.labelled "" ++ allLabelled rest

end

/-- All trees of a program. -/
def outlines : List (Expr μ) → Outline
  | [] => .leaf "nil"
  | trees => .branch "[]ast.Expression" (allLabelled trees)

end ExprLang.Expr
