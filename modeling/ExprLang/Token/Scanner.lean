import ExprLang.Fault

/-!
Tokens from text, one character at a time. A scanner holds the token text in progress; a character
either joins it or ends it, and what ends it is a blank or starts the next one. Because a scan is a
fold over the characters, scanning a text and then more text is scanning the two together.
-/

set_option autoImplicit false

namespace ExprLang.Token

def isDigit (c : Char) : Bool := '0' ≤ c && c ≤ '9'

/-- The characters a name can start with. -/
def isNameStart (c : Char) : Bool :=
  c = '_' || ('a' ≤ c && c ≤ 'z') || ('A' ≤ c && c ≤ 'Z')

def isNamePart (c : Char) : Bool := isNameStart c || isDigit c

/-- The characters that separate tokens and are dropped. -/
def isLayout (c : Char) : Bool := c = ' ' || c = '\t' || c = '\r' || c = '\n'

/-- The token text in progress: its first character, and the others with the last one first. -/
structure Draft where
  start : Position
  first : Char
  others : List Char

namespace Draft

def characters (d : Draft) : List Char := d.first :: d.others.reverse

/-- `c` belongs to the token that `d` has begun. -/
def joins (d : Draft) (c : Char) : Bool :=
  if isNameStart d.first then isNamePart c
  else if isDigit d.first then isDigit c
  else d.others.isEmpty &&
    match d.first with
    | '=' | '!' | '<' | '>' => c = '='
    | '&' => c = '&'
    | '|' => c = '|'
    | _ => false

def push (d : Draft) (c : Char) : Draft := { d with others := c :: d.others }

/-- The value of a run of digits. -/
def number (digits : List Char) : Nat :=
  digits.foldl (fun n c ↦ n * 10 + (c.toNat - '0'.toNat)) 0

/-- The kind of a token made of marks. -/
def markKind? : List Char → Option Kind
  | ['+'] => some .plus
  | ['-'] | ['!'] => some .minus
  | ['*'] => some .multiply
  | ['/'] => some .divide
  | ['('] => some .lparen
  | [')'] => some .rparen
  | ['{'] => some .lbrace
  | ['}'] => some .rbrace
  | ['['] => some .lbracket
  | [']'] => some .rbracket
  | [';'] => some .semicolon
  | [','] => some .comma
  | ['='] => some .assign
  | ['=', '='] => some .equal
  | ['!', '='] => some .notEqual
  | ['<'] => some .less
  | ['<', '='] => some .lessEqual
  | ['>'] => some .greater
  | ['>', '='] => some .greaterEqual
  | ['&', '&'] => some .and
  | ['|', '|'] => some .or
  | _ => none

/-- The kind and the payload of a finished token text. -/
def classify (characters : List Char) (first : Char) :
    Except LexicalCause (Kind × Option Literal) :=
  let lexeme := String.ofList characters
  if isNameStart first then
    match Kind.ofKeyword? lexeme with
    | some kind => .ok (kind, none)
    | none => .ok (.ident, some (.ident lexeme))
  else if isDigit first then
    let n := number characters
    if n < 0x8000000000000000 then .ok (.int, some (.int (Int64.ofNat n)))
    else .error (.tooLarge lexeme)
  else
    match markKind? characters with
    | some kind => .ok (kind, none)
    | none =>
      if first = '&' || first = '|' then .error (.unpaired first) else .error (.unexpected first)

/-- The finished token. A token stands on one line, so its length gives its last column. -/
def finish (d : Draft) : Except Fault Token :=
  match classify d.characters d.first with
  | .ok (kind, literal) =>
    .ok ⟨kind, String.ofList d.characters, literal, ⟨d.start, d.start.right d.others.length⟩⟩
  | .error cause => .error (.lexical cause d.start)

end Draft

structure Scanner where
  /-- The place of the next character. -/
  place : Position
  draft : Option Draft
  /-- The finished tokens. -/
  tokens : Array Token

namespace Scanner

def start (file : String) : Scanner := ⟨⟨file, 1, 1⟩, none, #[]⟩

/-- Finishes the token in progress, if there is one. -/
def flush (s : Scanner) : Except Fault Scanner :=
  match s.draft with
  | none => .ok s
  | some d => d.finish.map fun t ↦ { s with draft := none, tokens := s.tokens.push t }

/-- The place after a character at `place`. -/
def advance (place : Position) (c : Char) : Position :=
  if c = '\n' then { place with line := place.line + 1, column := 1 } else place.right 1

/-- Reads a character that does not join the token in progress. -/
def begin (s : Scanner) (c : Char) : Scanner :=
  { s with
    place := advance s.place c
    draft := if isLayout c then none else some ⟨s.place, c, []⟩ }

def feed (s : Scanner) (c : Char) : Except Fault Scanner :=
  match s.draft with
  | some d =>
    if d.joins c then .ok { s with place := advance s.place c, draft := some (d.push c) }
    else s.flush.map (·.begin c)
  | none => .ok (s.begin c)

/-- The tokens of the whole text, with the end mark. -/
def finish (s : Scanner) : Except Fault (List Token) :=
  s.flush.map fun s ↦ s.tokens.toList ++ [.endAt s.place]

end Scanner

/-- The tokens of `source`; the last one, and only the last one, is the end mark. -/
def scan (file source : String) : Except Fault (List Token) :=
  (source.toList.foldlM Scanner.feed (Scanner.start file)).bind Scanner.finish

end ExprLang.Token
