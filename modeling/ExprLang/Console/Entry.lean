import ExprLang.Expr.Reading
import ExprLang.Text.Blank

/-!
Entries from lines. Lines belong to one entry as long as they stop in the middle of an expression; a
first line that starts with a colon is an entry by itself. Entries are kept byte by byte, and read
as text to find out whether they are complete.
-/

set_option autoImplicit false

namespace ExprLang.Console

/-- The name under which entries are read. -/
def sourceName : String := "<repl>"

/-- Commands start with a colon. -/
def isCommand (text : String) : Bool := (Text.trim text).toList.head? = some ':'

/-- The lines of a text stop in the middle of an expression. -/
def needsMore (text : String) : Bool := (Reading.ofSource sourceName text).wantsMore

/-- A text can stand as an entry, so that no further line belongs to it. -/
def isComplete (text : String) : Bool := isCommand text || !needsMore text

/-- A draft with one more line. A line end goes between them, unless the draft has no bytes. -/
def extend (draft line : List UInt8) : List UInt8 :=
  if draft.isEmpty then line else draft ++ 10 :: line

end ExprLang.Console
