import ExprLang.Expr.Parser
import ExprLang.Log

/-!
Reading a source with a record of how far it got: the number of tokens once it has been scanned, and
the number of expressions once it has been parsed.
-/

set_option autoImplicit false

namespace ExprLang

structure Reading where
  program : Except Fault (List Tree)
  records : List Log.Record

namespace Reading

/-- The record of a finished scan. -/
def scanned (file : String) (count : Nat) : Log.Record :=
  ⟨.lexer, .debug, file ++ ": scanned " ++ toString count ++ " tokens"⟩

/-- The record of a finished parse. -/
def parsed (count : Nat) : Log.Record :=
  ⟨.parser, .debug, "parsed " ++ toString count ++ " top-level expressions"⟩

def ofSource (file source : String) : Reading :=
  match Token.scan file source with
  | .error fault => ⟨.error fault, []⟩
  | .ok tokens =>
    match Parser.program (.ofList tokens) with
    | .error fault => ⟨.error fault, [scanned file tokens.length]⟩
    | .ok trees => ⟨.ok trees, [scanned file tokens.length, parsed trees.length]⟩

/-- The source stopped in the middle of an expression, so more of it could still be read. -/
def wantsMore (r : Reading) : Bool :=
  match r.program with
  | .error fault => fault.incomplete
  | .ok _ => false

end Reading

end ExprLang
