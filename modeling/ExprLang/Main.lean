import ExprLang.CommandLine.Program
import ExprLang.Host.Basic
import ExprLang.Text.Line
import ExprLang.Text.Utf8

/-!
The command line on the system: its files, standard input and outputs, arguments and environment.
-/

set_option autoImplicit false

namespace ExprLang

namespace Host

/-- The reason behind a system error. -/
def reason : IO.Error → Files.Reason
  | .noFileOrDirectory .. => .missing
  | .alreadyExists .. => .alreadyThere
  | .inappropriateType _ _ details =>
    if details = "not a directory" then .notFolder else .isFolder
  | .permissionDenied _ _ details => .stated details
  | error => .stated (toString error)

/-- An action on a file, with what went wrong in place of an exception. -/
def attempt {α : Type} (path : String) (action : IO α) : IO (Except Files.Fault α) := do
  try
    return .ok (← action)
  catch error => return .error ⟨.open, path, reason error⟩

/-- The bytes of a file. A folder is found out only when it is read. -/
def readBytes (path : String) : IO (Except Files.Fault (List UInt8)) := do
  match ← attempt path (IO.FS.readBinFile path) with
  | .ok bytes => return .ok bytes.toList
  | .error fault =>
    return .error (if fault.reason = .isFolder then { fault with action := .read } else fault)

/-- Gives the pieces of one line to `onLine`. -/
def feedPieces {σ ρ : Type} (onLine : σ → List UInt8 → IO (Except ρ σ)) (state : σ) :
    List Text.Line → IO (Except ρ σ)
  | [] => return .ok state
  | piece :: rest => do
    match ← onLine state piece.bytes with
    | .error result => return .error result
    | .ok state => feedPieces onLine state rest

/-- Reads the bytes of a line behind those that have been read, the last one first. -/
partial def readLine (input : IO.FS.Stream) (done : List UInt8) : IO (List UInt8) := do
  match (← input.read 1).toList with
  | [] => return done.reverse
  | b :: _ => if b = 10 then return (b :: done).reverse else readLine input (b :: done)

/-- Reads lines until there is a result. -/
partial def feedFrom {σ ρ : Type} (input : IO.FS.Stream)
    (onLine : σ → List UInt8 → IO (Except ρ σ)) (onEnd : σ → IO ρ) (state : σ) : IO ρ := do
  let line ← readLine input []
  if line.isEmpty then onEnd state
  else
    match ← feedPieces onLine state (Text.Line.all line) with
    | .error result => return result
    | .ok state => feedFrom input onLine onEnd state

/-- Seconds on the system's clock, with six decimal places. -/
def clock : IO String := do
  let micros := (← IO.monoNanosNow) / 1000
  let places := toString (micros % 1000000)
  return toString (micros / 1000000) ++ "." ++
    String.ofList (List.replicate (6 - places.length) '0') ++ places

/-- Writes text at once. -/
def put (stream : IO.FS.Stream) (text : String) : IO Unit := do
  stream.putStr text
  stream.flush

instance : Host IO where
  readFile := readBytes
  isMissing path := do
    match ← attempt path (IO.FS.Handle.mk path .read) with
    | .ok _ => return false
    | .error fault => return fault.reason = .missing
  createFile path bytes :=
    attempt path (IO.FS.withFile path .writeNew fun file ↦ file.write ⟨bytes.toArray⟩)
  replaceFile path bytes :=
    attempt path (IO.FS.withFile path .write fun file ↦ file.write ⟨bytes.toArray⟩)
  readInput := do return (← (← IO.getStdin).readBinToEnd).toList
  feedLines start onLine onEnd := do
    feedFrom (← IO.getStdin) onLine onEnd start
  write text := do put (← IO.getStdout) text
  writeError text := do put (← IO.getStderr) text
  stamp := clock

end Host

end ExprLang

def main (arguments : List String) : IO UInt32 := do
  let launch : ExprLang.CommandLine.Launch :=
    ⟨arguments, ← IO.getEnv "HOME", ← IO.getEnv "JAF_LOG_LEVEL"⟩
  match ← ExprLang.CommandLine.run 0x4000000000000000 launch with
  | some code => return UInt32.ofNat code
  | none => return 1
