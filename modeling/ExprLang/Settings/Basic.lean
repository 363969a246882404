import ExprLang.Interpreter.State
import ExprLang.Text.Quoted

/-!
Settings of the program, what makes them valid, and what can be wrong with them.
-/

set_option autoImplicit false

namespace ExprLang

namespace Settings

/-- How an interactive session looks, and where it keeps what was entered. -/
structure Dialogue where
  prompt : String
  continuation : String
  historyFile : String
  deriving DecidableEq

namespace Dialogue

def standard : Dialogue := ⟨"jaf> ", "...  ", ".jaf_history"⟩

/-- Nothing set at all. -/
def empty : Dialogue := ⟨"", "", ""⟩

end Dialogue

end Settings

structure Settings where
  name : String
  iterationLimit : Int64
  callDepthLimit : Int64
  /-- The log level as it was given, which is kept even if it names no level. -/
  logLevel : String
  banner : Bool
  dialogue : Settings.Dialogue
  deriving DecidableEq

namespace Settings

def standard : Settings := ⟨"", 1000000, 100000, "WARNING", true, .standard⟩

/-- Nothing set at all. -/
def empty : Settings := ⟨"", 0, 0, "", false, .empty⟩

/-- A value of another type than its key needs. -/
structure Mismatch where
  line : Nat
  /-- The type that was found, and the value if it is short enough to be shown. -/
  found : String
  wanted : String
  deriving DecidableEq

def Mismatch.message (m : Mismatch) : String :=
  "line " ++ toString m.line ++ ": cannot unmarshal " ++ m.found ++ " into " ++ m.wanted

inductive Problem
  | malformed
  /-- At least one value has the wrong type. -/
  | mismatches (first : Mismatch) (others : List Mismatch)
  | iterationLimit (got : Int64)
  | callDepthLimit (got : Int64)
  | logLevel (got : String)
  deriving DecidableEq

namespace Problem

def message : Problem → String
  | malformed => "error reading configuration: yaml: <syntax>"
  | mismatches first others =>
    "error reading configuration: yaml: unmarshal errors:" ++
      String.join ((first :: others).map fun m ↦ "\n  " ++ m.message)
  | iterationLimit got => "iteration_limit must be positive, got " ++ toString got.toInt
  | callDepthLimit got => "call_depth_limit must be positive, got " ++ toString got.toInt
  | logLevel got => "unknown log level " ++ Text.quoted got

end Problem

/-- A log level by its text. -/
def readLevel (text : String) : Except Problem Log.Level :=
  match Log.Level.ofText? text with
  | some level => .ok level
  | none => .error (.logLevel text)

/-- The settings can be used: limits are positive and the log level is one. -/
def validate (s : Settings) : Except Problem Unit :=
  if s.iterationLimit ≤ 0 then .error (.iterationLimit s.iterationLimit)
  else if s.callDepthLimit ≤ 0 then .error (.callDepthLimit s.callDepthLimit)
  else (readLevel s.logLevel).map fun _ ↦ ()

/-- The log level, which is a warning level unless the settings say otherwise. -/
def level (s : Settings) : Log.Level := (Log.Level.ofText? s.logLevel).getD .warning

def limits (s : Settings) : Interpreter.Limits :=
  (Interpreter.Limits.standard.withIterations s.iterationLimit.toInt).withDepth
    s.callDepthLimit.toInt

/-- All settings on one line. -/
def summary (s : Settings) : String :=
  "\x7bName:" ++ s.name ++ " IterationLimit:" ++ toString s.iterationLimit.toInt ++
    " CallDepthLimit:" ++ toString s.callDepthLimit.toInt ++ " LogLevel:" ++ s.logLevel ++
    " Banner:" ++ (if s.banner then "true" else "false") ++ " REPL:\x7bPrompt:" ++
    s.dialogue.prompt ++ " Continuation:" ++ s.dialogue.continuation ++ " HistoryFile:" ++
    s.dialogue.historyFile ++ "\x7d\x7d"

end Settings

end ExprLang
