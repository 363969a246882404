import ExprLang.CommandLine.Command

/-!
Help texts.
-/

set_option autoImplicit false

namespace ExprLang.CommandLine.Help

/-- Two columns, the second one aligned. -/
def columns (rows : List (String × String)) : String :=
  let width := rows.foldl (fun width row ↦ max width row.1.length) 0 + 2
  String.join (rows.map fun (first, second) ↦
    "   " ++ first ++ String.ofList (List.replicate (width - first.length) ' ') ++ second ++ "\n")

/-- A flag by its names, with a placeholder for its value. -/
def flagNames (f : Flag) : String :=
  "--" ++ f.name ++ (match f.other with
    | some other => ", -" ++ other
    | none => "") ++ (if f.placeholder = "" then "" else " " ++ f.placeholder)

def flagUsage (f : Flag) : String :=
  f.usage ++ (if f.standard = "" then "" else " (default: " ++ f.standard ++ ")") ++
    (match f.environment with
    | some name => " [$" ++ name ++ "]"
    | none => "")

def flagColumns (flags : List Flag) : String :=
  columns (flags.map fun f ↦ (flagNames f, flagUsage f))

/-- Help for the program as a whole. -/
def overview (logLevel : Option String) : String :=
  "NAME:\n   jaf - jaf interpreter\n\n" ++
  "USAGE:\n   jaf [global options] command [arguments...]\n   jaf <file.jaf>\n\n" ++
  "COMMANDS:\n" ++
  columns (Command.all.map fun c ↦ (", ".intercalate c.names, c.usage)) ++
  "\nGLOBAL OPTIONS:\n" ++ flagColumns (Flag.all logLevel)

/-- Help for one command; the flag that asks for help is listed if the command has been called. -/
def command (c : Command) (isCalled : Bool) : String :=
  let flags := if isCalled then c.flags ++ [Flag.help] else c.flags
  "NAME:\n   jaf " ++ c.name ++ " - " ++ c.usage ++ "\n\n" ++
  "USAGE:\n   jaf " ++ c.name ++ (if flags.isEmpty then "" else " [command options]") ++ " " ++
  c.arguments ++ "\n" ++
  (if flags.isEmpty then "" else "\nOPTIONS:\n" ++ flagColumns flags ++ "   \n")

/-- The language on one page. -/
def language : String :=
  "jaf syntax\n\n" ++
  "  42                      integer literal\n" ++
  "  x = 5                   assignment, yields the assigned value\n" ++
  "  [1, 2, 3]               array literal (integers only)\n" ++
  "  a[0]  a[0] = 7          array access and element assignment\n" ++
  "  + - * /                 arithmetic (integer division)\n" ++
  "  == != < <= > >=         comparison, yields a bit (1 or 0)\n" ++
  "  && ||                   logical operators, both sides always evaluated\n" ++
  "  \x7b e1; e2 \x7d              block, yields its last expression\n" ++
  "  if (c) e1 else e2       conditional, else is optional\n" ++
  "  while (c) e             loop, yields the last body value\n" ++
  "  func f(x) e             function with one parameter\n" ++
  "  f(3)                    call\n\n" ++
  "builtins\n" ++
  "  length(a)               number of elements in array a\n" ++
  "  print(v)                print v on its own line\n\n" ++
  "while loops stop with an error after too many iterations.\n"

end ExprLang.CommandLine.Help
