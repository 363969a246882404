import ExprLang.Files.Fault

/-!
What the command line needs from the system that it runs on: files, standard input, two outputs and
the time. Commands are written for any host, so that the same commands run on the system and on a
`Workspace`, which is a value.
-/

set_option autoImplicit false

namespace ExprLang

class Host (m : Type → Type) where
  readFile (path : String) : m (Except Files.Fault (List UInt8))
  /-- No file or folder has this path. -/
  isMissing (path : String) : m Bool
  /-- Makes a file that must not be there yet. -/
  createFile (path : String) (bytes : List UInt8) : m (Except Files.Fault Unit)
  /-- Makes a file, or gives the one that is there new contents. -/
  replaceFile (path : String) (bytes : List UInt8) : m (Except Files.Fault Unit)
  /-- All of standard input. -/
  readInput : m (List UInt8)
  /-- Gives the lines of standard input one by one to `onLine`, until it has a result or no line is
  left. -/
  feedLines {σ ρ : Type} (start : σ) (onLine : σ → List UInt8 → m (Except ρ σ))
    (onEnd : σ → m ρ) : m ρ
  write (text : String) : m Unit
  writeError (text : String) : m Unit
  /-- The time as log lines show it. -/
  stamp : m String

end ExprLang
