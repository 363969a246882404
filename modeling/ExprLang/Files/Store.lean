import ExprLang.Files.Fault
import ExprLang.Files.Path

/-!
A store of folders and files. Places are lists of names from the root, which is always a folder.
-/

set_option autoImplicit false

namespace ExprLang.Files

abbrev Place := List String

inductive Item
  | folder
  | file (bytes : List UInt8)
  deriving DecidableEq

structure Store where
  items : List (Place × Item)

namespace Store

def empty : Store := ⟨[]⟩

def item? (s : Store) (place : Place) : Option Item :=
  if place = [] then some .folder else s.items.lookup place

/-- The store with `item` at `place`. -/
def put (s : Store) (place : Place) (item : Item) : Store :=
  ⟨(place, item) :: s.items.filter fun entry ↦ entry.1 ≠ place⟩

/-- Makes the folders with these names inside `place`, each inside the one before. -/
def putFolders (s : Store) (place : Place) : List String → Store
  | [] => s
  | name :: rest => (s.put (place ++ [name]) .folder).putFolders (place ++ [name]) rest

/-- Follows names from `place`. Every name but the last has to lead to a folder. -/
def follow (s : Store) (place : Place) : List String → Except Reason Place
  | [] => .ok place
  | name :: rest =>
    match s.item? place with
    | none => .error .missing
    | some (.file _) => .error .notFolder
    | some .folder =>
      if name = "" || name = "." then s.follow place rest
      else if name = ".." then s.follow place.dropLast rest
      else if maxNameLength < name.utf8ByteSize then .error .nameTooLong
      else s.follow (place ++ [name]) rest

/-- What follows a path step by step begins here, if the path can be a path at all. -/
def origin (here : Place) (path : String) : Except Reason Place :=
  if path.toList.contains '\x00' then .error .invalid
  else if path = "" then .error .missing
  else if maxPathLength < path.utf8ByteSize then .error .nameTooLong
  else .ok (if isAbsolute path then [] else here)

/-- The place that a path names, as seen from `here`. -/
def locate (s : Store) (here : Place) (path : String) : Except Reason Place := do
  s.follow (← origin here path) (names path)

/-- The place where a path leads to something that can be a file. Where slashes follow the last
name, only a folder could be meant. -/
def locateFile (s : Store) (here : Place) (path : String) : Except Reason Place := do
  let start ← origin here path
  let reversed := (names path).reverse
  match reversed.dropWhile (· = "") with
  | [] => .ok []
  | last :: before =>
    let folder ← s.follow start (before.reverse ++ ["."])
    if last ≠ "." && last ≠ ".." && reversed.head? = some "" then .error .isFolder
    else s.follow folder [last]

/-- The bytes of a file. -/
def read (s : Store) (here : Place) (path : String) : Except Fault (List UInt8) :=
  match s.locate here path with
  | .error reason => .error ⟨.open, path, reason⟩
  | .ok place =>
    match s.item? place with
    | none => .error ⟨.open, path, .missing⟩
    | some .folder => .error ⟨.read, path, .isFolder⟩
    | some (.file bytes) => .ok bytes

/-- Nothing is there, and nothing else is in the way. -/
def isMissing (s : Store) (here : Place) (path : String) : Bool :=
  match s.locate here path with
  | .error reason => reason = .missing
  | .ok place => (s.item? place).isNone

/-- The store with a new file, where nothing has been before. -/
def create (s : Store) (here : Place) (path : String) (bytes : List UInt8) : Except Fault Store :=
  match s.locateFile here path with
  | .error reason => .error ⟨.open, path, reason⟩
  | .ok place =>
    match s.item? place with
    | none => .ok (s.put place (.file bytes))
    | some _ => .error ⟨.open, path, .alreadyThere⟩

/-- The store with a file, in place of the one that may have been there. -/
def replace (s : Store) (here : Place) (path : String) (bytes : List UInt8) : Except Fault Store :=
  match s.locateFile here path with
  | .error reason => .error ⟨.open, path, reason⟩
  | .ok place =>
    match s.item? place with
    | some .folder => .error ⟨.open, path, .isFolder⟩
    | _ => .ok (s.put place (.file bytes))

end Store

end ExprLang.Files
