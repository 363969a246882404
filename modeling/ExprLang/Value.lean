import ExprLang.Expr.Basic
import ExprLang.Fault

/-!
Values and the arrays they refer to. An array value is an address in a heap, so that everything
bound to it sees the same cells; all other values are immutable.
-/

set_option autoImplicit false

namespace ExprLang

/-- A function as it was defined. Two functions are the same exactly when their sites are. -/
structure Function where
  site : Site
  name : String
  parameter : String
  body : Code

inductive Builtin
  | length
  | print
  deriving DecidableEq, Repr

namespace Builtin

def name : Builtin → String
  | length => "length"
  | print => "print"

/-- The names of builtins are reserved: nothing bound under them is ever looked at. -/
def ofName? : String → Option Builtin
  | "length" => some length
  | "print" => some print
  | _ => none

end Builtin

inductive Value
  | int (n : Int64)
  | bit (b : Bool)
  | array (address : Nat)
  | function (f : Function)
  | builtin (name : String)
  | void

/-- The arrays in existence. An array keeps its length for good. -/
structure Heap where
  arrays : Array (Array Int64)

namespace Heap

def empty : Heap := ⟨#[]⟩

/-- The cells at `address`. Nothing refers to an address outside the heap, which reads as empty. -/
def cells (h : Heap) (address : Nat) : Array Int64 := h.arrays.getD address #[]

/-- A new array with the given cells. -/
def allocate (h : Heap) (cells : Array Int64) : Nat × Heap :=
  (h.arrays.size, ⟨h.arrays.push cells⟩)

/-- `index` as a position in an array of length `size`. -/
def index? (index : Int64) (size : Nat) : Option Nat :=
  if 0 ≤ index.toInt && index.toInt < size then some index.toInt.toNat else none

def outOfBounds (h : Heap) (address : Nat) (index : Int64) : Fault :=
  .runtime (.outOfBounds index (h.cells address).size)

/-- The position of the cell that `index` names in the array at `address`. -/
def position (h : Heap) (address : Nat) (index : Int64) : Except Fault Nat :=
  match index? index (h.cells address).size with
  | some i => .ok i
  | none => .error (h.outOfBounds address index)

/-- Puts `value` into the cell at a position that the array at `address` has. -/
def setCell (h : Heap) (address position : Nat) (value : Int64) : Heap :=
  ⟨h.arrays.modify address fun cells ↦ cells.setIfInBounds position value⟩

def read (h : Heap) (address : Nat) (index : Int64) : Except Fault Int64 :=
  (h.position address index).map fun i ↦ (h.cells address).getD i 0

def write (h : Heap) (address : Nat) (index value : Int64) : Except Fault Heap :=
  (h.position address index).map fun i ↦ h.setCell address i value

end Heap

namespace Value

inductive Kind
  | int
  | bit
  | array
  | function
  | builtin
  | void
  deriving DecidableEq, Repr

namespace Kind

def name : Kind → String
  | int => "int"
  | bit => "bit"
  | array => "array"
  | function => "function"
  | builtin => "builtin"
  | void => "void"

/-- The name of the kind with a given number. -/
def nameOfCode : Int → String
  | 0 => int.name
  | 1 => bit.name
  | 2 => array.name
  | 3 => function.name
  | 4 => builtin.name
  | 5 => void.name
  | _ => "unknown"

end Kind

def kind : Value → Kind
  | int _ => .int
  | bit _ => .bit
  | array _ => .array
  | function _ => .function
  | builtin _ => .builtin
  | void => .void

/-- A value as it is printed. -/
def text (h : Heap) : Value → String
  | int n => toString n.toInt
  | bit b => if b then "1" else "0"
  | array address =>
    "[" ++ ", ".intercalate ((h.cells address).toList.map fun n ↦ toString n.toInt) ++ "]"
  | function f => "function:" ++ f.name
  | builtin name => "builtin:" ++ name
  | void => "void"

/-- Equality of values of one kind; values of two kinds are never the same. -/
def same (h : Heap) : Value → Value → Bool
  | int a, int b => a = b
  | bit a, bit b => a = b
  | array a, array b => a = b || h.cells a = h.cells b
  | function f, function g => f.site = g.site
  | builtin a, builtin b => a = b
  | void, void => true
  | _, _ => false

/-- Integers as they are, and bits as zero and one. -/
def toInt? : Value → Option Int64
  | int n => some n
  | bit b => some (if b then 1 else 0)
  | _ => none

/-- The number to use in the named operation. -/
def asInt (operation : String) (v : Value) : Except Fault Int64 :=
  match v.toInt? with
  | some n => .ok n
  | none => .error (.typing (.operand v.kind.name operation))

/-- The truth value to use in the named operation; numbers have none. -/
def asBit (operation : String) : Value → Except Fault Bool
  | bit b => .ok b
  | v => .error (.typing (.condition v.kind.name operation))

/-- The equality that programs see: values of two kinds are compared as numbers where both are. -/
def equal (h : Heap) (a b : Value) : Bool :=
  if a.kind = b.kind then same h a b
  else match a.toInt?, b.toInt? with
    | some m, some n => m = n
    | _, _ => false

end Value

namespace Operator

/-- The name of an operation in messages. -/
def operation : Operator → String
  | add => "addition"
  | subtract => "subtraction"
  | multiply => "multiplication"
  | divide => "division"
  | less | lessEqual | greater | greaterEqual => "comparison"
  | and => "logical AND"
  | or => "logical OR"
  | equal | notEqual | other _ => ""

/-- An operator on two numbers. Arithmetic wraps around at 64 bits and division truncates. -/
def applyInt (op : Operator) (l r : Int64) : Except Fault Value :=
  match op with
  | add => .ok (.int (l + r))
  | subtract => .ok (.int (l - r))
  | multiply => .ok (.int (l * r))
  | divide => if r = 0 then .error (.runtime .divisionByZero) else .ok (.int (l / r))
  | less => .ok (.bit (l < r))
  | lessEqual => .ok (.bit (l ≤ r))
  | greater => .ok (.bit (r < l))
  | greaterEqual => .ok (.bit (r ≤ l))
  | equal | notEqual | and | or | other _ => .error (.runtime (.unknownOperator op.symbol))

/-- An operator on two values. Both sides are always evaluated before. -/
def apply (op : Operator) (h : Heap) (left right : Value) : Except Fault Value :=
  match op with
  | equal => .ok (.bit (left.equal h right))
  | notEqual => .ok (.bit (!left.equal h right))
  | and => do
    let l ← left.asBit op.operation
    let r ← right.asBit op.operation
    return .bit (l && r)
  | or => do
    let l ← left.asBit op.operation
    let r ← right.asBit op.operation
    return .bit (l || r)
  | _ => do
    let l ← left.asInt op.operation
    let r ← right.asInt op.operation
    op.applyInt l r

end Operator

end ExprLang
