import ExprLang.Yaml.Cursor
import ExprLang.Yaml.Lexeme.Basic

/-!
What can be said about nodes and documents: names of nodes, tags, and directives.
-/

set_option autoImplicit false

namespace ExprLang.Yaml

/-! ### Names -/

/-- The characters that may stand right behind the name of a node. -/
def endsName (c : Char) : Bool :=
  endsWord c || c = '?' || c = ':' || c = ',' || c = ']' || c = '}' || c = '%' || c = '@' || c = '`'

/-- The name of a node, behind the mark that announces it. -/
def nodeName : Scan String := do
  Scan.step
  let name ← Scan.takeWhile isNameChar
  if name.isEmpty || !endsName (← Scan.char 0) then Scan.malformed
  else return String.ofList name

/-! ### Tags -/

/-- The characters of tags besides those of names. -/
def isTagMark (c : Char) : Bool := ";/?:@&=+$,.!~*'()[]%".toList.contains c

/-- Takes one byte that is written as a percent sign and two digits. -/
def tagByte : Scan UInt8 := do
  Scan.need 3
  match ← Scan.char 0, hexDigit? (← Scan.char 1), hexDigit? (← Scan.char 2) with
  | '%', some high, some low =>
    Scan.steps 3
    return UInt8.ofNat (high * 16 + low)
  | _, _, _ => Scan.malformed

/-- Takes the further bytes of a character. -/
def tagBytes : (count : Nat) → Scan (List UInt8)
  | 0 => return []
  | count + 1 => do
    let b ← tagByte
    if b &&& 0xc0 ≠ 0x80 then Scan.malformed
    else return b :: (← tagBytes count)

/-- Takes a character that is written byte by byte. -/
def tagEscape : Scan String := do
  let lead ← tagByte
  match Encoding.utf8Width? lead with
  | none => Scan.malformed
  | some width => return Text.Utf8.decode (lead :: (← tagBytes (width - 1)))

/-- Takes characters of a tag as long as there are any. -/
def tagText : (fuel : Nat) → Scan String
  | 0 => Scan.malformed
  | fuel + 1 => do
    Scan.need 1
    let c ← Scan.char 0
    if c = '%' then return (← tagEscape) ++ (← tagText fuel)
    else if isNameChar c || isTagMark c then
      Scan.step
      return c.toString ++ (← tagText fuel)
    else return ""

/-- A tag, or its start, which is not empty. -/
def wholeTag : Scan String := do
  let text ← Scan.bounded tagText
  if text.isEmpty then Scan.malformed else return text

/-- Takes a short form for the start of tags: a name between exclamation marks, the second of which
may be missing. -/
def tagHandle : Scan String := do
  Scan.need 1
  if (← Scan.char 0) ≠ '!' then Scan.malformed
  else
    Scan.step
    let name ← Scan.takeWhile isNameChar
    if (← Scan.char 0) = '!' then
      Scan.step
      return "!" ++ String.ofList name ++ "!"
    else return "!" ++ String.ofList name

/-- A handle that is closed by a second exclamation mark. -/
def isClosed (handle : String) : Bool := 1 < handle.length && handle.endsWith "!"

/-- A tag with its handle, which is empty for a tag that is written out. -/
def tagLexeme : Scan Lexeme := do
  Scan.need 2
  let (handle, rest) ←
    if (← Scan.char 1) = '<' then
      Scan.steps 2
      let text ← wholeTag
      if (← Scan.char 0) ≠ '>' then Scan.malformed
      else
        Scan.step
        pure ("", text)
    else
      let handle ← tagHandle
      if isClosed handle then pure (handle, ← wholeTag)
      else
        let text := String.ofList handle.toList.tail ++ (← Scan.bounded tagText)
        pure (if text.isEmpty then ("", "!") else ("!", text))
  Scan.need 1
  if endsWord (← Scan.char 0) then return .tag handle rest else Scan.malformed

/-! ### Directives -/

/-- A number of at most two digits. -/
def versionNumber : Scan Nat := do
  let digits ← Scan.takeWhile isDigit
  if digits.isEmpty || 2 < digits.length then Scan.malformed
  else return digits.foldl (fun n c ↦ n * 10 + (c.toNat - '0'.toNat)) 0

def versionLexeme : Scan Lexeme := do
  Scan.passBlanks
  let major ← versionNumber
  if (← Scan.char 0) ≠ '.' then Scan.malformed
  else
    Scan.step
    return .version major (← versionNumber)

def tagHandleLexeme : Scan Lexeme := do
  Scan.passBlanks
  let handle ← tagHandle
  if handle ≠ "!" && !isClosed handle then Scan.malformed
  else
    Scan.need 1
    if !isBlank (← Scan.char 0) then Scan.malformed
    else
      Scan.passBlanks
      let start ← wholeTag
      Scan.need 1
      if endsWord (← Scan.char 0) then return .tagHandle handle start else Scan.malformed

/-- A directive takes a line of its own. -/
def directiveLexeme : Scan Lexeme := do
  Scan.step
  let name ← Scan.takeWhile isNameChar
  if name.isEmpty || !endsWord (← Scan.char 0) then Scan.malformed
  else
    let lexeme ←
      if String.ofList name = "YAML" then versionLexeme
      else if String.ofList name = "TAG" then tagHandleLexeme
      else Scan.malformed
    Scan.passRestOfLine
    return lexeme

end ExprLang.Yaml
