import ExprLang.Table
import ExprLang.Value

/-!
Scopes: a chain of frames, the current one first. A name means what the innermost frame that has it
says. Binding changes the current frame only, and a scope that was kept elsewhere stays as it was.
-/

set_option autoImplicit false

namespace ExprLang

abbrev Frame := Table Value

structure Scope where
  frame : Frame
  /-- The enclosing frames, the nearest first. -/
  parents : List Frame

namespace Scope

/-- A single empty frame. -/
def empty : Scope := ⟨.empty, []⟩

def frames (s : Scope) : List Frame := s.frame :: s.parents

def find? (s : Scope) (name : String) : Option Value := s.frames.findSome? (·.get? name)

def get (s : Scope) (name : String) : Except Fault Value :=
  match s.find? name with
  | some v => .ok v
  | none => .error (.runtime (.undefinedVariable name))

/-- Binds `name` in the current frame. -/
def put (s : Scope) (name : String) (v : Value) : Scope :=
  { s with frame := s.frame.insert name v }

/-- An empty frame inside `s`. -/
def child (s : Scope) : Scope := ⟨.empty, s.frames⟩

def containsLocal (s : Scope) (name : String) : Bool := s.frame.contains name

def contains (s : Scope) (name : String) : Bool := s.frames.any (·.contains name)

/-- The names bound in the current frame, in increasing order. -/
def names (s : Scope) : List String := s.frame.names

/-- The text of a chain of frames, each inside the text of the one before it. -/
def framesText : List Frame → String
  | [] => ""
  | f :: rest =>
    "Environment\x7bvariables=[" ++ ", ".intercalate f.names ++ "]" ++
      (if rest.isEmpty then "" else ", parent=" ++ framesText rest) ++ "\x7d"

def text (s : Scope) : String := framesText s.frames

end Scope

end ExprLang
