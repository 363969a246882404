import ExprLang.CommandLine.Flag

/-!
The commands, and the flags that they and the program as a whole take.
-/

set_option autoImplicit false

namespace ExprLang.CommandLine

/-- Where settings are looked for. -/
def settingsFile : String := "jaf.yml"

namespace Flag

/-- The flags before the command. The log level can also come from the environment. -/
def all (logLevel : Option String) : List Flag :=
  [{ name := "config", other := none, kind := .text, placeholder := "FILE",
     usage := "read settings from FILE", standard := Text.quoted settingsFile,
     environment := none },
   { name := "log-level", other := none, kind := .text, placeholder := "value",
     usage := "log level (CRITICAL, ERROR, WARNING, NOTICE, INFO, DEBUG, TRACE)",
     standard := match logLevel with
       | none | some "" => ""
       | some level => Text.quoted level,
     environment := some "JAF_LOG_LEVEL" },
   { name := "trace", other := none, kind := .switch, placeholder := "",
     usage := "print errors with stack traces", standard := "false", environment := none },
   { name := "iteration-limit", other := none, kind := .number, placeholder := "value",
     usage := "maximum condition checks per while loop", standard := "0", environment := none }]

/-- Every command can explain itself. -/
def help : Flag :=
  { name := "help", other := some "h", kind := .switch, placeholder := "", usage := "show help",
    standard := "false", environment := none }

/-- Shows what something is made of. -/
def raw (usage : String) : Flag :=
  { name := "raw", other := none, kind := .switch, placeholder := "", usage := usage,
    standard := "false", environment := none }

end Flag

inductive Command
  | run
  | eval
  | repl
  | tokens
  | ast
  | init
  | help
  deriving DecidableEq, Repr

namespace Command

def all : List Command := [run, eval, repl, tokens, ast, init, help]

/-- The names of a command, the main one first. -/
def names : Command → List String
  | run => ["run"]
  | eval => ["eval"]
  | repl => ["repl"]
  | tokens => ["tokens"]
  | ast => ["ast"]
  | init => ["init"]
  | help => ["help", "h"]

def name (c : Command) : String := c.names.headD ""

def ofName? (name : String) : Option Command := all.find? fun c ↦ c.names.contains name

def usage : Command → String
  | run => "run a file"
  | eval => "evaluate code given on the command line"
  | repl => "start an interactive session"
  | tokens => "dump the tokens of a file (- for stdin)"
  | ast => "dump the syntax tree of a file (- for stdin)"
  | init => "write a default configuration file"
  | help => "show the language syntax, or help for a command"

/-- The arguments, as help texts show them. -/
def arguments : Command → String
  | run => "<file.jaf>"
  | eval => "<code...>"
  | repl => "[arguments...]"
  | tokens | ast => "<file|->"
  | init => "[name]"
  | help => "[command]"

/-- The flags that belong to one command only. -/
def flags : Command → List Flag
  | tokens => [.raw "dump token structs"]
  | ast => [.raw "dump node structs"]
  | _ => []

end Command

end ExprLang.CommandLine
