import ExprLang.Text.Blank
import ExprLang.Text.Case

/-!
Log records and their levels. A journal keeps the records at its level and the more severe ones.
-/

set_option autoImplicit false

namespace ExprLang.Log

inductive Level
  | critical
  | error
  | warning
  | notice
  | info
  | debug
  | trace
  deriving DecidableEq, Repr

namespace Level

/-- Less severe levels have larger numbers. -/
def number : Level → Int
  | critical => -1
  | error => 0
  | warning => 1
  | notice => 2
  | info => 3
  | debug => 4
  | trace => 5

def name : Level → String
  | critical => "CRITICAL"
  | error => "ERROR"
  | warning => "WARNING"
  | notice => "NOTICE"
  | info => "INFO"
  | debug => "DEBUG"
  | trace => "TRACE"

/-- The first letter of the name, which stands for the level in log lines. -/
def letter (l : Level) : String := String.ofList (l.name.toList.take 1)

/-- A level by its full name, its letter, or, except for the most severe one, its digit. -/
def ofName? : String → Option Level
  | "CRITICAL" | "C" => some critical
  | "ERROR" | "0" | "E" => some error
  | "WARNING" | "1" | "W" => some warning
  | "NOTICE" | "2" | "N" => some notice
  | "INFO" | "3" | "I" => some info
  | "DEBUG" | "4" | "D" => some debug
  | "TRACE" | "5" | "T" => some trace
  | _ => none

/-- A level as settings name it, in any case and between blanks. -/
def ofText? (s : String) : Option Level := ofName? (Text.upper (Text.trim s))

end Level

/-- The part of the program that a record comes from. -/
inductive Origin
  | lexer
  | parser
  | interpreter
  | main
  deriving DecidableEq, Repr

def Origin.name : Origin → String
  | lexer => "lexer"
  | parser => "parser"
  | interpreter => "interpreter"
  | main => "main"

structure Record where
  origin : Origin
  level : Level
  text : String
  deriving DecidableEq, Repr

structure Journal where
  /-- The least severe level that is kept; nothing is kept without one. -/
  threshold : Option Level
  records : Array Record

namespace Journal

def silent : Journal := ⟨none, #[]⟩

def atLevel (l : Level) : Journal := ⟨some l, #[]⟩

def keeps (j : Journal) (l : Level) : Bool :=
  match j.threshold with
  | some threshold => l.number ≤ threshold.number
  | none => false

def add (j : Journal) (r : Record) : Journal :=
  if j.keeps r.level then { j with records := j.records.push r } else j

/-- A record whose text is made only if it is kept. -/
@[inline] def note (j : Journal) (origin : Origin) (level : Level) (text : Unit → String) :
    Journal :=
  if j.keeps level then { j with records := j.records.push ⟨origin, level, text ()⟩ } else j

end Journal

end ExprLang.Log
