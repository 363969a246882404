import ExprLang.Text.Line
import ExprLang.Text.Utf8

/-!
The entries of earlier and present sessions, the oldest first. Their number is limited, and an entry
is not kept twice in a row. Entries are kept byte by byte, since they need not be well-formed text.
-/

set_option autoImplicit false

namespace ExprLang.Console

structure History where
  entries : List (List UInt8)

namespace History

/-- How many entries are kept. -/
def limit : Nat := 1000

def empty : History := ⟨[]⟩

/-- Adds an entry, and drops the oldest ones beyond the limit. -/
def push (h : History) (entry : List UInt8) : History :=
  let entries := h.entries ++ [entry]
  ⟨entries.drop (entries.length - limit)⟩

/-- Adds an entry unless it is the same as the last one. Line ends become spaces. -/
def add (h : History) (entry : List UInt8) : History :=
  let entry := entry.map fun b ↦ if b = 10 then 32 else b
  if h.entries.getLast? = some entry then h else h.push entry

/-- The entries of the lines up to the first one that is too long or no text. -/
def ofLines (h : History) : List Text.Line → History
  | [] => h
  | line :: rest =>
    if line.isCut || !Text.Utf8.wellFormed line.bytes then h
    else (h.push line.bytes).ofLines rest

def ofBytes (bytes : List UInt8) : History := empty.ofLines (Text.Line.all bytes)

/-- One line for each entry. -/
def toBytes (h : History) : List UInt8 := h.entries.flatMap (· ++ [10])

end History

end ExprLang.Console
