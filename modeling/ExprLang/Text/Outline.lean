/-!
Nested structures as indented text: one part a line, each with a comma after it, between braces.
-/

set_option autoImplicit false

namespace ExprLang.Text

inductive Outline
  | leaf (text : String)
  /-- A structure with its parts; a part without a label stands for itself. -/
  | branch (head : String) (parts : List (String × Outline))

namespace Outline

def margin (indent : Nat) : String := String.ofList (List.replicate indent ' ')

mutual

/-- Writes a structure behind `out`, on a line that is indented by `indent`. -/
def writeOnto (out : String) (indent : Nat) : Outline → String
  | leaf text => out ++ text
  | branch head parts =>
    partsOnto (out ++ head ++ "\x7b\n") (indent + 2) parts ++ margin indent ++ "\x7d"

/-- Writes one line for each part, or several if it has parts itself. -/
def partsOnto (out : String) (indent : Nat) : List (String × Outline) → String
  | [] => out
  | (label, part) :: rest =>
    let out := out ++ margin indent ++ (if label = "" then "" else label ++ ": ")
    partsOnto (part.writeOnto out indent ++ ",\n") indent rest

end

def text (o : Outline) : String := o.writeOnto "" 0

end Outline

end ExprLang.Text
