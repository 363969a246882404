/-!
What can go wrong with a file.
-/

set_option autoImplicit false

namespace ExprLang.Files

inductive Reason
  | missing
  | isFolder
  | notFolder
  | alreadyThere
  | nameTooLong
  | invalid
  | stated (text : String)
  deriving DecidableEq, Repr

def Reason.text : Reason → String
  | missing => "no such file or directory"
  | isFolder => "is a directory"
  | notFolder => "not a directory"
  | alreadyThere => "file exists"
  | nameTooLong => "file name too long"
  | invalid => "invalid argument"
  | stated text => text

/-- A folder can be opened, but not read. -/
inductive Action
  | «open»
  | read
  deriving DecidableEq, Repr

def Action.text : Action → String
  | .open => "open"
  | .read => "read"

structure Fault where
  action : Action
  path : String
  reason : Reason
  deriving DecidableEq, Repr

def Fault.message (f : Fault) : String := f.action.text ++ " " ++ f.path ++ ": " ++ f.reason.text

end ExprLang.Files
