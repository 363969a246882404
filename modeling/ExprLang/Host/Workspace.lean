import ExprLang.Files.Store
import ExprLang.Host.Basic
import ExprLang.Text.Line

/-!
A host as a value: a store of files with a current folder, the bytes on standard input, and what has
been written.
-/

set_option autoImplicit false

namespace ExprLang

structure Workspace where
  files : Files.Store
  /-- The current folder. -/
  here : Files.Place
  /-- What is left of standard input. -/
  input : List UInt8
  output : String
  errors : String
  /-- The time, which stands still. -/
  stamp : String

namespace Workspace

/-- Keeps a changed store. -/
def store (result : Except Files.Fault Files.Store) :
    StateM Workspace (Except Files.Fault Unit) := fun w ↦
  match result with
  | .ok files => (.ok (), { w with files := files })
  | .error fault => (.error fault, w)

/-- Gives lines to `onLine` until it has a result. -/
def feed {σ ρ : Type} (onLine : σ → List UInt8 → StateM Workspace (Except ρ σ))
    (onEnd : σ → StateM Workspace ρ) : σ → List Text.Line → StateM Workspace ρ
  | state, [] => onEnd state
  | state, line :: rest => do
    match ← onLine state line.bytes with
    | .error result => return result
    | .ok state => feed onLine onEnd state rest

instance : Host (StateM Workspace) where
  readFile path := do return (← get).files.read (← get).here path
  isMissing path := do return (← get).files.isMissing (← get).here path
  createFile path bytes := do store ((← get).files.create (← get).here path bytes)
  replaceFile path bytes := do store ((← get).files.replace (← get).here path bytes)
  readInput := modifyGet fun w ↦ (w.input, { w with input := [] })
  feedLines start onLine onEnd := do
    let input ← modifyGet fun w ↦ (w.input, { w with input := [] })
    feed onLine onEnd start (Text.Line.all input)
  write text := modify fun w ↦ { w with output := w.output ++ text }
  writeError text := modify fun w ↦ { w with errors := w.errors ++ text }
  stamp := do return (← get).stamp

end Workspace

end ExprLang
