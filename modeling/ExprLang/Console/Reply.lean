import ExprLang.Console.Entry
import ExprLang.Interpreter.Session
import ExprLang.Text.Case

/-!
Replies to entries. An entry is a command, which starts with a colon and may be written in any case,
or a program, whose value or fault is the reply.
-/

set_option autoImplicit false

namespace ExprLang.Console

open Interpreter (State)

inductive Command
  | quit
  | environment
  | functions
  | reset
  | help

namespace Command

def ofName? : String → Option Command
  | ":quit" | ":q" => some quit
  | ":env" => some environment
  | ":funcs" => some functions
  | ":reset" => some reset
  | ":help" => some help
  | _ => none

def overview : String :=
  ":quit    leave the session\n" ++
  ":env     show the current bindings\n" ++
  ":funcs   list defined functions\n" ++
  ":reset   forget all bindings and functions\n" ++
  ":help    show this message\n"

end Command

structure Reply where
  /-- The session is over. -/
  quits : Bool
  output : String
  error : String
  /-- What was logged on the way. -/
  records : List Log.Record

namespace Reply

def silent : Reply := ⟨false, "", "", []⟩

def ofOutput (output : String) : Reply := { silent with output := output }

end Reply

def obey (s : State) : Command → Reply × State
  | .quit => ({ Reply.silent with quits := true }, s)
  | .environment => (.ofOutput (s.scope.text ++ "\n"), s)
  | .functions =>
    let names := s.functions.names
    let text := if names.isEmpty then "no functions defined" else ", ".intercalate names
    (.ofOutput (text ++ "\n"), s)
  | .reset => (.ofOutput "environment cleared\n", s.reset)
  | .help => (.ofOutput Command.overview, s)

/-- The reply to one entry. There is none if its evaluation takes more than `fuel` steps. -/
def reply (fuel : Nat) (s : State) (entry : String) : Option (Reply × State) :=
  let text := Text.trim entry
  if text = "" then some (.silent, s)
  else if isCommand entry then
    match Command.ofName? (Text.lower text) with
    | some command => some (obey s command)
    | none =>
      some ({ Reply.silent with
        error := "unknown command " ++ text ++ ". Type :help for a list.\n" }, s)
  else
    match s.runSource fuel sourceName entry with
    | none => none
    | some (result, s) =>
      let (printed, records, s) := s.drain
      match result with
      | .ok v => some (⟨false, printed ++ v.text s.heap ++ "\n", "", records⟩, s)
      | .error f => some (⟨false, printed, "Error: " ++ f.message ++ "\n", records⟩, s)

end ExprLang.Console
