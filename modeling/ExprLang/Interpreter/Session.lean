import ExprLang.Expr.Reading
import ExprLang.Interpreter.Machine

/-!
Running programs in an interpreter. A program's value is that of its last expression, and its first
fault ends it; what was bound, defined, written and printed before stays. Evaluation of a program
that never ends has no outcome, so each of these takes a number of steps to give up after.
-/

set_option autoImplicit false

namespace ExprLang.Interpreter

namespace State

/-- Evaluates one expression, giving its definitions sites of their own. -/
def evaluate (fuel : Nat) (s : State) (e : Tree) : Option Outcome :=
  let (code, site) := e.marked s.nextSite
  (Machine.start code { s with nextSite := site }).run fuel

/-- Evaluates expressions in order; `last` is the value if there are none. -/
def executeFrom (fuel : Nat) (last : Value) (s : State) : List Tree → Option Outcome
  | [] => some (.ok last, s)
  | e :: rest =>
    match s.evaluate fuel e with
    | none => none
    | some (.error f, s) => some (.error f, s)
    | some (.ok v, s) => executeFrom fuel v s rest

def execute (fuel : Nat) (s : State) (program : List Tree) : Option Outcome :=
  executeFrom fuel .void s program

/-- Reads `source` and runs it. -/
def runSource (fuel : Nat) (s : State) (file source : String) : Option Outcome :=
  let reading := Reading.ofSource file source
  let s := s.record reading.records
  match reading.program with
  | .error f => some (.error f, s)
  | .ok program => s.execute fuel program

/-- What was printed and logged since the last time, and the state without it. -/
def drain (s : State) : String × List Log.Record × State :=
  (s.output.text, s.journal.records.toList,
    { s with
      output := { s.output with text := "" }
      journal := { s.journal with records := #[] } })

/-- An array in the heap, as a host makes it. -/
def newArray (s : State) (cells : List Int64) : Value × State :=
  let (address, heap) := s.heap.allocate cells.toArray
  (.array address, { s with heap := heap })

/-- A function that gives its argument back, as a host makes it. -/
def newFunction (s : State) (name : String) : Value × State :=
  (.function ⟨s.nextSite, name, "p", .var "p"⟩, { s with nextSite := s.nextSite + 1 })

end State

end ExprLang.Interpreter
