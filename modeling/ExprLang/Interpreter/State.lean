import ExprLang.Expr.Printer
import ExprLang.Log
import ExprLang.Scope

/-!
What an interpreter keeps from one evaluation to the next: the current scope, the table of
functions, the arrays, the counters behind its limits, what was printed and what was logged.
-/

set_option autoImplicit false

namespace ExprLang.Interpreter

/-- How often a loop may check its condition, and how deep calls may nest. -/
structure Limits where
  iterations : Nat
  depth : Nat
  iterations_pos : 0 < iterations
  depth_pos : 0 < depth

namespace Limits

def standard : Limits := ⟨1000000, 100000, by decide, by decide⟩

/-- A new iteration limit; one that is not positive is ignored. -/
def withIterations (l : Limits) (n : Int) : Limits :=
  if h : 0 < n then ⟨n.toNat, l.depth, by omega, l.depth_pos⟩ else l

/-- A new depth limit; one that is not positive is ignored. -/
def withDepth (l : Limits) (n : Int) : Limits :=
  if h : 0 < n then ⟨l.iterations, n.toNat, l.iterations_pos, by omega⟩ else l

end Limits

/-- Where `print` writes. -/
structure Output where
  text : String
  /-- How many more writes are accepted, if their number is limited. -/
  room : Option Nat

namespace Output

def unlimited : Output := ⟨"", none⟩

/-- Writes `line` and a line end, unless the output has been closed. -/
def writeLine (o : Output) (line : String) : Option Output :=
  match o.room with
  | none => some { o with text := o.text ++ line ++ "\n" }
  | some 0 => none
  | some (n + 1) => some ⟨o.text ++ line ++ "\n", some n⟩

end Output

structure State where
  scope : Scope
  functions : Table Function
  heap : Heap
  /-- The first site that no definition has yet. -/
  nextSite : Site
  /-- How often the loops entered since the last one was entered have checked a condition. -/
  iterations : Nat
  /-- How many calls are active. -/
  depth : Nat
  limits : Limits
  output : Output
  journal : Log.Journal

namespace State

/-- An interpreter that has evaluated nothing. -/
def fresh (limits : Limits) (output : Output) (journal : Log.Journal) : State where
  scope := .empty
  functions := .empty
  heap := .empty
  nextSite := 0
  iterations := 0
  depth := 0
  limits := limits
  output := output
  journal := journal

/-- Forgets every binding and function. The arrays stay in the heap, where nothing refers to them
any more, and the sites of the functions are not used again. -/
def reset (s : State) : State :=
  { s with
    scope := .empty
    functions := .empty
    iterations := 0
    depth := 0 }

/-- Binds `name` in the current frame. -/
def bind (s : State) (name : String) (v : Value) : State := { s with scope := s.scope.put name v }

/-- Puts a function into the table, and binds its name to it. -/
def define (s : State) (f : Function) : State :=
  { s with
    functions := s.functions.insert f.name f
    scope := s.scope.put f.name (.function f) }

@[inline] def note (s : State) (level : Log.Level) (text : Unit → String) : State :=
  { s with journal := s.journal.note .interpreter level text }

def record (s : State) (records : List Log.Record) : State :=
  { s with journal := records.foldl Log.Journal.add s.journal }

/-- Starts the count of a loop that is being entered. -/
def enterLoop (s : State) (condition : Code) : State :=
  { s with iterations := 0 }.note .debug fun _ ↦ "entering loop " ++ condition.logText

/-- Counts a condition check, if the limit leaves one. -/
def countIteration (s : State) : Except Fault Unit × State :=
  if s.limits.iterations ≤ s.iterations then
    (.error (.runtime (.loopLimit s.limits.iterations)),
      s.note .warning fun _ ↦
        "iteration limit of " ++ toString s.limits.iterations ++ " reached")
  else
    let count := s.iterations + 1
    let s := { s with iterations := count }
    (.ok (),
      if count % 100000 = 0 then
        s.note .trace fun _ ↦ "loop at " ++ toString count ++ " iterations"
      else s)

/-- The state in which the body of `f` runs: a frame inside the caller's, with the parameter
bound. -/
def enterCall (s : State) (f : Function) (argument : Value) : State :=
  let s := s.note .debug fun _ ↦
    "call " ++ f.name ++ "(" ++ f.parameter ++ " = " ++ argument.text s.heap ++ ")"
  { s with scope := s.scope.child.put f.parameter argument, depth := s.depth + 1 }

/-- The state after a call, in the scope the call was made from. -/
def leaveCall (s : State) (caller : Scope) : State :=
  { s with scope := caller, depth := s.depth - 1 }

/-- The length of an array. -/
def applyLength (s : State) : Value → Except Fault Value × State
  | .array address => (.ok (.int (Int64.ofNat (s.heap.cells address).size)), s)
  | v => (.error (.typing (.lengthArgument v.kind.name)), s)

/-- Writes a value in a line of its own. -/
def applyPrint (s : State) (v : Value) : Except Fault Value × State :=
  match s.output.writeLine (v.text s.heap) with
  | some output => (.ok .void, { s with output := output })
  | none => (.error (.runtime .outputClosed), s)

/-- What each builtin does with its argument. -/
def builtins : List (Builtin × (State → Value → Except Fault Value × State)) :=
  [(.length, applyLength), (.print, applyPrint)]

/-- The result of a builtin. One that the table lacks is undefined like any other function. -/
def applyBuiltin (s : State) (b : Builtin) (argument : Value) : Except Fault Value × State :=
  match builtins.lookup b with
  | some function => function s argument
  | none => (.error (.runtime (.undefinedFunction b.name)), s)

end State

end ExprLang.Interpreter
