import ExprLang.Text.Numeral
import ExprLang.Text.Quoted

/-!
Flags. A flag is an argument with one or two dashes in front, and its value follows after an equals
sign or as the next argument; a switch needs no value and takes one only after an equals sign. Flags
end at the first argument that is none, or after two dashes alone.
-/

set_option autoImplicit false

namespace ExprLang.CommandLine

namespace Flag

inductive Kind
  | switch
  | text
  | number
  deriving DecidableEq, Repr

inductive Value
  | switch (on : Bool)
  | text (text : String)
  | number (n : Int64)
  deriving DecidableEq

inductive Problem
  | malformed (argument : String)
  | undefined (name : String)
  | helpRequested
  | needsValue (name : String)
  | badSwitch (name value : String)
  | badNumber (name value : String) (problem : Text.Numeral.Problem)
  | twoForms (name other : String)
  deriving DecidableEq

def Problem.message : Problem → String
  | malformed argument => "bad flag syntax: " ++ argument
  | undefined name => "flag provided but not defined: -" ++ name
  | helpRequested => "flag: help requested"
  | needsValue name => "flag needs an argument: -" ++ name
  | badSwitch name value =>
    "invalid boolean value " ++ Text.quoted value ++ " for -" ++ name ++ ": parse error"
  | badNumber name value problem =>
    "invalid value " ++ Text.quoted value ++ " for flag -" ++ name ++ ": " ++
      (match problem with
      | .malformed => "parse error"
      | .outOfRange => "value out of range")
  | twoForms name other => "Cannot use two forms of the same flag: " ++ other ++ " " ++ name

end Flag

structure Flag where
  name : String
  /-- A second name. -/
  other : Option String
  kind : Flag.Kind
  /-- What stands for the value in help texts. -/
  placeholder : String
  usage : String
  /-- The value without the flag, as help texts show it. -/
  standard : String
  /-- The environment variable that stands in for the flag. -/
  environment : Option String

namespace Flag

/-- What one argument looks like. -/
inductive Shape
  | argument
  | terminator
  | malformed
  | flag (name : String) (value : Option String)

/-- The shape of an argument behind its dashes. -/
def Shape.ofBody (body : List Char) : Shape :=
  if body.isEmpty || body.head? = some '-' || body.head? = some '=' then malformed
  else
    let name := body.takeWhile (· ≠ '=')
    let value := body.drop name.length
    flag (String.ofList name) (if value.isEmpty then none else some (String.ofList value.tail))

def Shape.ofArgument (argument : String) : Shape :=
  match argument.toList with
  | ['-', '-'] => terminator
  | '-' :: '-' :: body => ofBody body
  | ['-'] => .argument
  | '-' :: body => ofBody body
  | _ => .argument

/-- The words for on and off. -/
def switch? : String → Option Bool
  | "1" | "t" | "T" | "TRUE" | "true" | "True" => some true
  | "0" | "f" | "F" | "FALSE" | "false" | "False" => some false
  | _ => none

/-- The value of a flag from its text. -/
def Kind.read (kind : Kind) (name value : String) : Except Problem Value :=
  match kind with
  | switch =>
    match switch? value with
    | some on => .ok (.switch on)
    | none => .error (.badSwitch name value)
  | text => .ok (.text value)
  | number =>
    match Text.Numeral.readSigned value.toList with
    | .ok n => .ok (.number (Int64.ofInt n))
    | .error problem => .error (.badNumber name value problem)

def kind? (flags : List Flag) (name : String) : Option Kind :=
  (flags.find? fun f ↦ f.name = name || f.other = some name).map Flag.kind

/-- The flags that were given, the last one first, and the arguments after them. -/
structure Parsed where
  given : List (String × Value)
  arguments : List String

/-- Reads flags up to the first argument that is none. -/
def readFrom (flags : List Flag) (given : List (String × Value)) :
    List String → Except Problem Parsed
  | [] => .ok ⟨given, []⟩
  | argument :: rest =>
    match Shape.ofArgument argument with
    | .argument => .ok ⟨given, argument :: rest⟩
    | .terminator => .ok ⟨given, rest⟩
    | .malformed => .error (.malformed argument)
    | .flag name value =>
      match kind? flags name with
      | none => .error (if name = "help" || name = "h" then .helpRequested else .undefined name)
      | some kind =>
        let value := if kind = .switch then some (value.getD "true") else value
        match value, rest with
        | some value, rest =>
          match kind.read name value with
          | .ok value => readFrom flags ((name, value) :: given) rest
          | .error problem => .error problem
        | none, [] => .error (.needsValue name)
        | none, value :: rest =>
          match kind.read name value with
          | .ok value => readFrom flags ((name, value) :: given) rest
          | .error problem => .error problem

/-- A flag that was given by both of its names. -/
def givenTwice? (flags : List Flag) (given : List (String × Value)) : Option Problem :=
  flags.findSome? fun f ↦
    match f.other with
    | none => none
    | some other =>
      if (given.lookup f.name).isSome && (given.lookup other).isSome then
        some (.twoForms f.name other)
      else none

/-- Reads the flags at the front of `arguments`. -/
def read (flags : List Flag) (arguments : List String) : Except Problem Parsed :=
  match readFrom flags [] arguments with
  | .error problem => .error problem
  | .ok parsed =>
    match givenTwice? flags parsed.given with
    | some problem => .error problem
    | none => .ok parsed

namespace Parsed

/-- A switch was turned on under this name. -/
def isOn (p : Parsed) (name : String) : Bool := p.given.lookup name = some (.switch true)

def text? (p : Parsed) (name : String) : Option String :=
  match p.given.lookup name with
  | some (.text text) => some text
  | _ => none

def number? (p : Parsed) (name : String) : Option Int64 :=
  match p.given.lookup name with
  | some (.number n) => some n
  | _ => none

/-- The first argument, or nothing. -/
def first (p : Parsed) : String := p.arguments.headD ""

end Parsed

end Flag

end ExprLang.CommandLine
