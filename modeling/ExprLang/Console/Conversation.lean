import ExprLang.Console.History
import ExprLang.Console.Reply
import ExprLang.Settings.Basic
import ExprLang.Text.Control

/-!
Conversations: lines come in one by one, and every complete entry is answered.
-/

set_option autoImplicit false

namespace ExprLang.Console

open Interpreter (State)

structure Conversation where
  interpreter : State
  history : History
  /-- The lines of an entry that is not complete yet, as one text. -/
  draft : List UInt8

namespace Conversation

/-- What asks for the next line. There is nothing if it could not be shown on a line. -/
def prompt? (d : Settings.Dialogue) (c : Conversation) : Option String :=
  let text := if c.draft.isEmpty then d.prompt else d.continuation
  if text.toList.any Text.isControl then none else some text

/-- The records of the attempt to read a text, which commands do not need. -/
def probe (c : Conversation) (text : String) : List Log.Record :=
  if isCommand text then []
  else
    let journal := { c.interpreter.journal with records := #[] }
    ((Reading.ofSource sourceName text).records.foldl Log.Journal.add journal).records.toList

/-- Takes in a line, and answers if an entry is complete. Entries of blanks only are passed over. -/
def hear (fuel : Nat) (c : Conversation) (line : List UInt8) : Option (Reply × Conversation) :=
  let entry := extend c.draft line
  let text := Text.Utf8.decode entry
  let records := c.probe text
  if !isComplete text then
    some ({ Reply.silent with records := records }, { c with draft := entry })
  else if Text.allBlank text then
    some ({ Reply.silent with records := records }, { c with draft := [] })
  else
    (reply fuel c.interpreter text).map fun (answer, interpreter) ↦
      ({ answer with records := records ++ answer.records },
        ⟨interpreter, c.history.add entry, []⟩)

end Conversation

end ExprLang.Console
