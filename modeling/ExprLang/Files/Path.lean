/-!
Paths: names of folders and files with slashes between them.
-/

set_option autoImplicit false

namespace ExprLang.Files

/-- The number of bytes that a name and a path may have. -/
def maxNameLength : Nat := 255

def maxPathLength : Nat := 4095

/-- The pieces between slashes; two slashes in a row have an empty piece between them. -/
def pieces : List Char → List (List Char)
  | [] => [[]]
  | c :: rest =>
    if c = '/' then [] :: pieces rest
    else match pieces rest with
      | [] => [[c]]
      | piece :: others => (c :: piece) :: others

/-- The names of a path, in order. -/
def names (path : String) : List String := (pieces path.toList).map String.ofList

def isAbsolute (path : String) : Bool := path.toList.head? = some '/'

/-- Adds a name to the names before it, the last one first. Empty names and single dots add nothing,
and a double dot takes the last name back, as far as there is one; a path that does not start at the
root keeps double dots that lead out of it. -/
def push (absolute : Bool) (done : List String) (name : String) : List String :=
  if name = "" || name = "." then done
  else if name = ".." then
    match done with
    | [] => if absolute then [] else [".."]
    | last :: others => if last = ".." then ".." :: done else others
  else name :: done

/-- The shortest path that names the same place, if no name is a link. -/
def shortened (path : String) : String :=
  let absolute := isAbsolute path
  let done := (names path).foldl (push absolute) []
  let text := "/".intercalate done.reverse
  if absolute then "/" ++ text else if text = "" then "." else text

/-- The path of `name` inside `folder`. -/
def join (folder name : String) : String := shortened (folder ++ "/" ++ name)

end ExprLang.Files
