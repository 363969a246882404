import ExprLang.Fault
import ExprLang.Files.Fault
import ExprLang.Settings.Basic

/-!
Why a command fails, and the exit code that tells so.
-/

set_option autoImplicit false

namespace ExprLang.CommandLine

inductive Failure
  /-- The command was called in a wrong way; the text says how to call it. -/
  | usage (text : String)
  | noHelpTopic (name : String)
  | file (fault : Files.Fault)
  | settings (problem : Settings.Problem)
  /-- What a settings file holds is wrong. -/
  | settingsIn (path : String) (problem : Settings.Problem)
  | settingsNotRead (path : String) (fault : Files.Fault)
  | settingsNotCreated (path : String) (fault : Files.Fault)
  /-- A program in the language could not be read or evaluated. -/
  | program (fault : Fault)

namespace Failure

def message : Failure → String
  | usage text => text
  | noHelpTopic name => "No help topic for '" ++ name ++ "'"
  | file fault => fault.message
  | settings problem => problem.message
  | settingsIn path problem => path ++ ": " ++ problem.message
  | settingsNotRead path fault => "error reading " ++ path ++ ": " ++ fault.message
  | settingsNotCreated path fault => "error creating " ++ path ++ ": " ++ fault.message
  | program fault => fault.message

def exitCode : Failure → Nat
  | usage _ => 2
  | noHelpTopic _ => 3
  | _ => 1

end Failure

/-- Why a command does not come to its end. -/
inductive Stop
  | failed (failure : Failure)
  /-- An evaluation took more steps than it was given. -/
  | unfinished

end ExprLang.CommandLine
