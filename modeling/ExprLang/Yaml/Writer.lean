import ExprLang.Text.Quoted
import ExprLang.Yaml.Node
import ExprLang.Yaml.Scalar

/-!
Text as scalars of a document. Text that reads back as it stands is written plain; text that would
read as something else, or that needs escapes, stands in double quotes; other text that may not be
plain stands in single quotes; and text of several lines is a literal block where one can hold it.
Long lines are folded at single spaces.
-/

set_option autoImplicit false

namespace ExprLang.Yaml

inductive Style
  | plain
  | single
  | double
  | literal
  deriving DecidableEq, Repr

namespace Style

/-- Some two neighbours satisfy `holds`. -/
def anyPair (holds : Char → Char → Bool) : List Char → Bool
  | a :: b :: rest => holds a b || anyPair holds (b :: rest)
  | _ => false

/-- Marks that cannot begin a plain scalar, whatever follows. -/
def isReserved (c : Char) : Bool := "#,[]\x7b\x7d&*!|>'\x22%@`".toList.contains c

/-- The text begins like something else than a plain scalar. -/
def badStart : List Char → Bool
  | '-' :: '-' :: '-' :: _ | '.' :: '.' :: '.' :: _ => true
  | c :: rest =>
    c = ' ' || isReserved c || ((c = '?' || c = ':' || c = '-') && rest.head?.all isBlank)
  | [] => true

/-- A plain scalar would end at the first of these two characters, or before it. -/
def ends (a b : Char) : Bool := (a = ':' && isBlank b) || (isBlank a && b = '#')

/-- A plain scalar of a block can have this text. -/
def allowsPlain (text : List Char) : Bool :=
  text.all (fun c ↦ isPlain c && !isBreak c) && !badStart text && !anyPair ends text &&
    text.getLast? ≠ some ' ' && text.getLast? ≠ some ':'

/-- Single quotes can hold this text: it needs no escapes, and no blanks next to line ends. -/
def allowsSingle (text : List Char) : Bool :=
  text.all isPlain && !anyPair (fun a b ↦ (a = ' ' && isBreak b) || (isBreak a && b = ' ')) text

/-- A literal block can hold this text. -/
def allowsLiteral (text : List Char) : Bool :=
  text.all isPlain && !anyPair (fun a b ↦ a = ' ' && isBreak b) text && text.getLast? ≠ some ' '

/-- A plain scalar with this text reads as text. -/
def readsAsText (text : List Char) : Bool :=
  Meaning.ofScalar (String.ofList text) = .text && !Meaning.isSexagesimal text

/-- How a text is written. -/
def ofText (text : List Char) : Style :=
  if text.contains '\n' then if allowsLiteral text then literal else double
  else if !readsAsText text then double
  else if allowsPlain text then plain
  else if allowsSingle text then single
  else double

end Style

namespace Writer

/-- A line that is longer than this is folded at the next single space. -/
def width : Nat := 80

def spaces (count : Nat) : List Char := List.replicate count ' '

/-- The letter that stands for a character after a backslash. -/
def letter? : (code : Nat) → Option Char
  | 0x00 => some '0'
  | 0x07 => some 'a'
  | 0x08 => some 'b'
  | 0x09 => some 't'
  | 0x0a => some 'n'
  | 0x0b => some 'v'
  | 0x0c => some 'f'
  | 0x0d => some 'r'
  | 0x1b => some 'e'
  | 0x22 => some '\x22'
  | 0x5c => some '\\'
  | 0x85 => some 'N'
  | 0xa0 => some '_'
  | 0x2028 => some 'L'
  | 0x2029 => some 'P'
  | _ => none

/-- A character by its number, in as few of two, four or eight digits as hold it. -/
def numbered (code : Nat) : List Char :=
  if code ≤ 0xff then 'x' :: (Text.hex 2 code).toUpper.toList
  else if code ≤ 0xffff then 'u' :: (Text.hex 4 code).toUpper.toList
  else 'U' :: (Text.hex 8 code).toUpper.toList

/-- A character behind a backslash. -/
def escape (c : Char) : List Char :=
  match letter? c.toNat with
  | some letter => ['\\', letter]
  | none => '\\' :: numbered c.toNat

/-- How a character that is neither a space nor a line end is written. -/
def character (style : Style) (c : Char) : List Char :=
  match style with
  | .plain | .literal => [c]
  | .single => if c = '\x27' then [c, c] else [c]
  | .double => if isPlain c && !isBreak c && c ≠ '\x22' && c ≠ '\\' then [c] else escape c

/-- What has just been written. -/
inductive Last
  | start
  | space
  | lineEnd
  | other
  deriving DecidableEq

/-- The text of a scalar that is not a block, from `column` on. A long line is folded at a space
inside the text that follows no other space, and goes on at column `indent`. Only double quotes can
fold before another space, which a backslash then keeps. -/
def folded (style : Style) (indent : Nat) : (column : Nat) → Last → List Char → List Char
  | _, _, [] => []
  | column, last, c :: rest =>
    if c = ' ' then
      let spaceFollows := rest.head? = some ' '
      if width < column && last ≠ .start && last ≠ .space && !rest.isEmpty &&
          (style = .double || !spaceFollows) then
        if spaceFollows then
          '\n' :: spaces indent ++ '\\' :: folded style indent (indent + 1) .space rest
        else '\n' :: spaces indent ++ folded style indent indent .space rest
      else ' ' :: folded style indent (column + 1) .space rest
    else if isBreak c && style ≠ .double then c :: folded style indent 0 .lineEnd rest
    else
      let margin := if last = .lineEnd then spaces indent else []
      let written := margin ++ character style c
      written ++ folded style indent (column + written.length) .other rest

/-- The lines of a literal block; `atLineStart` where the indentation is still to be written. -/
def block (indent : Nat) : (atLineStart : Bool) → List Char → List Char
  | _, [] => []
  | atLineStart, c :: rest =>
    if isBreak c then c :: block indent true rest
    else (if atLineStart then spaces indent else []) ++ c :: block indent false rest

/-- The indentation, where the text does not show it, and what happens to its last line ends: none
is there, all of several are kept, or the single one goes without saying. -/
def hints (text : List Char) : List Char :=
  let indentation := if text.head?.any fun c ↦ c = ' ' || isBreak c then ['2'] else []
  let chomping := match text.reverse with
    | last :: others =>
      if !isBreak last then ['-'] else if others.head?.all isBreak then ['+'] else []
    | [] => ['-']
  indentation ++ chomping

/-- The text inside double quotes, from `column` on. Where it starts with a byte-order mark, every
character is escaped. -/
def doubleQuoted (indent column : Nat) (text : List Char) : List Char :=
  if text.head? = some byteOrderMark then text.flatMap escape
  else folded .double indent column .start text

/-- A scalar in the given style, written from `column` on in a collection at column `indent`. -/
def scalar (style : Style) (indent column : Nat) (text : List Char) : List Char :=
  match style with
  | .plain => folded .plain (indent + 2) column .start text
  | .single => '\x27' :: folded .single (indent + 2) (column + 1) .start text ++ ['\x27']
  | .double => '\x22' :: doubleQuoted (indent + 2) (column + 1) text ++ ['\x22']
  | .literal => '|' :: hints text ++ '\n' :: block (indent + 2) true text

/-- The line ends that a scalar leaves to be written after it. -/
def ending (style : Style) (text : List Char) : List Char :=
  if style = .literal && text.getLast?.any isBreak then [] else ['\n']

/-- An entry of a mapping at column `indent`: a key and what is written behind its colon. -/
def entry (indent : Nat) (key : String) (value : List Char) : List Char :=
  spaces indent ++ key.toList ++ ':' :: ' ' :: value

/-- An entry with a text. -/
def textEntry (indent : Nat) (key : String) (text : String) : List Char :=
  let text := text.toList
  let style := Style.ofText text
  entry indent key (scalar style indent (indent + key.length + 2) text ++ ending style text)

/-- An entry with an integer. -/
def intEntry (indent : Nat) (key : String) (value : Int) : List Char :=
  entry indent key ((toString value).toList ++ ['\n'])

/-- An entry with a truth value. -/
def boolEntry (indent : Nat) (key : String) (value : Bool) : List Char :=
  entry indent key ((if value then "true" else "false").toList ++ ['\n'])

end Writer

end ExprLang.Yaml
