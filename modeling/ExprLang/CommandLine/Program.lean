import ExprLang.CommandLine.Failure
import ExprLang.CommandLine.Help
import ExprLang.Console.Conversation
import ExprLang.Expr.Outline
import ExprLang.Expr.Printer
import ExprLang.Files.Path
import ExprLang.Host.Basic
import ExprLang.Settings.Document
import ExprLang.Token.Outline

/-!
The program: settings are put together from a file, the environment and flags, then a command runs.
What it was started with and the host that it runs on decide everything it does.
-/

set_option autoImplicit false

namespace ExprLang.CommandLine

open Interpreter (State)

/-- What the program is started with. -/
structure Launch where
  arguments : List String
  /-- The home folder. -/
  home : Option String
  /-- The log level that the environment gives. -/
  logLevel : Option String

variable {m : Type → Type} [Monad m] [Host m]

/-! ### Output -/

/-- Writes log records, one a line. -/
def logAll (records : List Log.Record) : m Unit :=
  records.forM fun r ↦ do
    Host.writeError ((← Host.stamp) ++ " " ++ r.level.letter ++ " | " ++ r.origin.name ++ ": " ++
      r.text ++ "\n")

/-- Writes a record of the program itself, if the settings want it. -/
def note (settings : Settings) (level : Log.Level) (text : String) : m Unit :=
  logAll ((Log.Journal.atLevel settings.level).add ⟨.main, level, text⟩).records.toList

def fail {α : Type} (failure : Failure) : ExceptT Stop m α := throw (.failed failure)

def say (text : String) : ExceptT Stop m Unit := ExceptT.lift (Host.write text)

/-! ### Settings -/

/-- Settings from a file. -/
def readSettings (path : String) : ExceptT Stop m Settings := do
  match ← ExceptT.lift (Host.readFile path) with
  | .error fault => fail (.settingsNotRead path fault)
  | .ok bytes =>
    match Settings.ofBytes bytes with
    | .error problem => fail (.settingsIn path problem)
    | .ok settings => return settings

/-- Where the settings come from. -/
def settingsPath (flags : Flag.Parsed) : String := (flags.text? "config").getD settingsFile

/-- The settings that flags and environment leave: the file has to be there only if a flag names it,
and flags win over the environment, which wins over the file. -/
def setUp (launch : Launch) (flags : Flag.Parsed) : ExceptT Stop m Settings := do
  let path := settingsPath flags
  let isOptional := (flags.text? "config").isNone
  let found ← if isOptional && (← ExceptT.lift (Host.isMissing path)) then pure Settings.standard
    else readSettings path
  let settings := { found with
    logLevel := ((flags.text? "log-level").orElse fun _ ↦ launch.logLevel).getD found.logLevel
    iterationLimit := (flags.number? "iteration-limit").getD found.iterationLimit }
  match settings.validate with
  | .error problem => fail (.settings problem)
  | .ok _ =>
    ExceptT.lift (note settings .debug ("settings: " ++ settings.summary))
    return settings

/-! ### Commands -/

/-- An interpreter that has evaluated nothing yet. -/
def interpreter (settings : Settings) : State :=
  .fresh settings.limits .unlimited (.atLevel settings.level)

/-- Evaluates a source and shows its value. -/
def evaluate (fuel : Nat) (settings : Settings) (file source : String) : ExceptT Stop m Unit := do
  match (interpreter settings).runSource fuel file source with
  | none => throw .unfinished
  | some (result, state) =>
    let (printed, records, state) := state.drain
    say printed
    ExceptT.lift (logAll records)
    match result with
    | .error fault => fail (.program fault)
    | .ok value => say ("\nResult: " ++ value.text state.heap ++ "\n")

def runFile (fuel : Nat) (settings : Settings) (path : String) : ExceptT Stop m Unit := do
  match ← ExceptT.lift (Host.readFile path) with
  | .error fault => fail (.file fault)
  | .ok bytes =>
    if settings.banner then
      say ("Running file: " ++ path ++ "\n" ++ String.ofList (List.replicate 50 '=') ++ "\n")
    evaluate fuel settings path (Text.Utf8.decode bytes)

/-- The name and the text of the source that an argument names, where a dash is standard input. -/
def readSource (argument : String) : ExceptT Stop m (String × String) := do
  if argument = "" then fail (.usage "no file provided")
  else if argument = "-" then
    return ("<stdin>", Text.Utf8.decode (← ExceptT.lift Host.readInput))
  else
    match ← ExceptT.lift (Host.readFile argument) with
    | .error fault => fail (.file fault)
    | .ok bytes => return (argument, Text.Utf8.decode bytes)

/-- Logs records as far as the settings want them. -/
def logWanted (settings : Settings) (records : List Log.Record) : ExceptT Stop m Unit :=
  ExceptT.lift (logAll
    (records.foldl Log.Journal.add (.atLevel settings.level)).records.toList)

def showTokens (settings : Settings) (argument : String) (isRaw : Bool) :
    ExceptT Stop m Unit := do
  let (name, source) ← readSource argument
  match Token.scan name source with
  | .error fault => fail (.program fault)
  | .ok tokens =>
    logWanted settings [Reading.scanned name tokens.length]
    if isRaw then say ((Token.outlines tokens).text ++ "\n")
    else say (String.join (tokens.map fun t ↦ t.text ++ "\n"))

def showTrees (settings : Settings) (argument : String) (isRaw : Bool) :
    ExceptT Stop m Unit := do
  let (name, source) ← readSource argument
  let reading := Reading.ofSource name source
  logWanted settings reading.records
  match reading.program with
  | .error fault => fail (.program fault)
  | .ok trees =>
    if isRaw then say ((Expr.outlines trees).text ++ "\n") else say (Expr.program trees ++ "\n")

/-- Writes the settings to a file of their own, under a name. -/
def writeSettings (settings : Settings) (path name : String) : ExceptT Stop m Unit := do
  let text := { settings with name := name }.toText
  match ← ExceptT.lift (Host.createFile path (Text.Utf8.encode text)) with
  | .error fault => fail (.settingsNotCreated path fault)
  | .ok _ => say ("wrote " ++ path ++ "\n")

/-! ### Conversations -/

/-- Asks for a line, if the question can be shown. -/
def ask (dialogue : Settings.Dialogue) (c : Console.Conversation) : m Bool := do
  match c.prompt? dialogue with
  | some text =>
    Host.write text
    return true
  | none => return false

/-- The answer to a line, and the conversation after it: over after the command to quit, or when no
further line can be asked for. There is none if an evaluation was not finished. -/
def answerLine (fuel : Nat) (dialogue : Settings.Dialogue) (c : Console.Conversation)
    (line : List UInt8) : m (Except (Option Console.Conversation) Console.Conversation) := do
  match c.hear fuel line with
  | none => return .error none
  | some (reply, c) =>
    logAll reply.records
    Host.write reply.output
    Host.writeError reply.error
    if reply.quits then return .error (some c)
    else if ← ask dialogue c then return .ok c
    else
      Host.write "\n"
      return .error (some c)

/-- Answers all lines of standard input. -/
def converse (fuel : Nat) (dialogue : Settings.Dialogue) (start : Console.Conversation) :
    m (Option Console.Conversation) := do
  if ← ask dialogue start then
    Host.feedLines start (answerLine fuel dialogue) fun c ↦ do
      Host.write "\n"
      return some c
  else
    Host.write "\n"
    return some start

/-- Where entries are kept: in the home folder, unless the path starts at the root. -/
def historyPath (home : Option String) (name : String) : String :=
  if name = "" || Files.isAbsolute name then name
  else match home with
    | none | some "" => name
    | some home => Files.join home name

/-- The entries kept in a file, as far as they can be read. -/
def readHistory (path : String) : m Console.History := do
  if path = "" then return .empty
  else match ← Host.readFile path with
    | .error _ => return .empty
    | .ok bytes => return .ofBytes bytes

/-- Keeps entries in a file. -/
def writeHistory (settings : Settings) (path : String) (history : Console.History) : m Unit := do
  if path ≠ "" then
    match ← Host.replaceFile path history.toBytes with
    | .error fault => note settings .warning ("could not save history: " ++ fault.message)
    | .ok _ => return

/-- A session with its history. -/
def startSession (fuel : Nat) (settings : Settings) (home : Option String) :
    ExceptT Stop m Unit := do
  let path := historyPath home settings.dialogue.historyFile
  let history ← ExceptT.lift (readHistory path)
  say "jaf repl. Type :help for commands.\n"
  match ← ExceptT.lift (converse fuel settings.dialogue ⟨interpreter settings, history, []⟩) with
  | none => throw .unfinished
  | some c => ExceptT.lift (writeHistory settings path c.history)

/-! ### The program -/

/-- Runs a command whose flags and arguments have been read. -/
def perform (fuel : Nat) (launch : Launch) (path : String) (settings : Settings) (c : Command)
    (own : Flag.Parsed) : ExceptT Stop m Unit := do
  match c with
  | .run =>
    match own.arguments with
    | [file] => runFile fuel settings file
    | _ => fail (.usage "usage: jaf run <file.jaf>")
  | .eval =>
    let code := " ".intercalate own.arguments
    if Text.allBlank code then fail (.usage "usage: jaf eval <code...>")
    else evaluate fuel settings "<eval>" code
  | .repl => startSession fuel settings launch.home
  | .tokens => showTokens settings own.first (own.isOn "raw")
  | .ast => showTrees settings own.first (own.isOn "raw")
  | .init => writeSettings settings path own.first
  | .help =>
    if own.first = "" then say Help.language
    else match Command.ofName? own.first with
      | some topic => say (Help.command topic (topic = .help))
      | none => fail (.noHelpTopic own.first)

/-- Reads the flags of a command and runs it, or explains it. The result is an exit code. -/
def call (fuel : Nat) (launch : Launch) (path : String) (settings : Settings) (c : Command)
    (arguments : List String) : ExceptT Stop m Nat := do
  match Flag.read (c.flags ++ [Flag.help]) arguments with
  | .error problem =>
    say ("Incorrect Usage: " ++ problem.message ++ "\n\n" ++ Help.command c true)
    return 1
  | .ok own =>
    if own.isOn "help" || own.isOn "h" then say (Help.command c true)
    else perform fuel launch path settings c own
    return 0

/-- What the arguments after the flags ask for: a command, or a file to run; help in all other
cases. -/
def dispatch (fuel : Nat) (launch : Launch) (flags : Flag.Parsed) : ExceptT Stop m Nat := do
  let settings ← setUp launch flags
  match flags.arguments.head?.bind Command.ofName? with
  | some c => call fuel launch (settingsPath flags) settings c flags.arguments.tail
  | none =>
    match flags.arguments with
    | [file] =>
      if file.endsWith ".jaf" then runFile fuel settings file
      else say (Help.overview launch.logLevel)
    | _ => say (Help.overview launch.logLevel)
    return 0

/-- Runs the program. The result is an exit code; there is none if an evaluation takes more than
`fuel` steps. -/
def run (fuel : Nat) (launch : Launch) : m (Option Nat) := do
  match Flag.read (Flag.all launch.logLevel) launch.arguments with
  | .error problem =>
    Host.write ("Incorrect Usage. " ++ problem.message ++ "\n\n" ++ Help.overview launch.logLevel)
    return some 1
  | .ok flags =>
    match ← (dispatch fuel launch flags).run with
    | .ok code => return some code
    | .error .unfinished => return none
    | .error (.failed failure) =>
      Host.writeError
        (if flags.isOn "trace" then failure.message else "Error: " ++ failure.message ++ "\n")
      return some failure.exitCode

end ExprLang.CommandLine
