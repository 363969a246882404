import ExprLang.Yaml.Encoding

/-!
A place in a text that is read from left to right. Characters are looked at only after they have
been asked for, because asking may need a further block, which may be malformed. Behind the last
character there are end marks without end.
-/

set_option autoImplicit false

namespace ExprLang.Yaml

structure Cursor where
  /-- The characters that have been asked for. -/
  ahead : List Char
  /-- What can still be asked for. -/
  blocks : List Encoding.Block
  /-- When a block was last asked for, the text went on with a byte-order mark. -/
  sawMark : Bool
  /-- The number of characters of the whole text, which bounds every loop that reads it. -/
  size : Nat
  /-- The number of characters passed. -/
  index : Nat
  /-- Lines count from one, columns from zero. -/
  line : Nat
  column : Nat

namespace Cursor

/-- The start of a text. -/
def ofBytes (bytes : List UInt8) : Cursor :=
  let blocks := Encoding.decode bytes
  ⟨[], blocks, false, (blocks.flatMap (·.getD [])).length, 0, 1, 0⟩

/-- A list has at least this many members. -/
def hasLength {α : Type} : (count : Nat) → List α → Bool
  | 0, _ => true
  | _ + 1, [] => false
  | count + 1, _ :: rest => hasLength count rest

/-- Puts blocks behind `ahead` until there are `count` characters, or an end mark behind the last
block; none if a block is malformed. -/
def fill (count : Nat) (ahead : List Char) :
    List Encoding.Block → Option (List Char × List Encoding.Block)
  | [] => some (if hasLength count ahead then ahead else ahead ++ [endMark], [])
  | none :: rest => if hasLength count ahead then some (ahead, none :: rest) else none
  | some cs :: rest =>
    if hasLength count ahead then some (ahead, some cs :: rest) else fill count (ahead ++ cs) rest

/-- Asks for `count` characters. -/
def need (count : Nat) (c : Cursor) : Option Cursor :=
  if hasLength count c.ahead then some c
  else (fill count c.ahead c.blocks).map fun (ahead, blocks) ↦
    { c with ahead := ahead, blocks := blocks, sawMark := ahead.head? = some byteOrderMark }

/-- The character `offset` places further on. -/
def char (offset : Nat) (c : Cursor) : Char := c.ahead.getD offset endMark

/-- Behind one character of a line. -/
def step (c : Cursor) : Cursor :=
  { c with ahead := c.ahead.tail, index := c.index + 1, column := c.column + 1 }

/-- At the start of the next line, behind a line end of `width` characters. -/
def newLine (width : Nat) (c : Cursor) : Cursor :=
  { c with ahead := c.ahead.drop width, index := c.index + width, line := c.line + 1, column := 0 }

/-- The line end here as it stands in the text of a scalar, and the place behind it. Where none is,
nothing happens. -/
def passBreak (c : Cursor) : List Char × Cursor :=
  match c.ahead with
  | '\r' :: '\n' :: _ => (['\n'], c.newLine 2)
  | first :: _ =>
    if first.toNat = 0x2028 || first.toNat = 0x2029 then ([first], c.newLine 1)
    else if isBreak first then (['\n'], c.newLine 1)
    else ([], c)
  | [] => ([], c)

/-- Three dashes or dots at the start of a line divide documents. -/
def atDivider (c : Cursor) : Bool :=
  c.column = 0 && ((c.ahead.take 3 = ['-', '-', '-']) || (c.ahead.take 3 = ['.', '.', '.'])) &&
    endsWord (c.char 3)

end Cursor

/-! ### Reading -/

/-- Something that reads on from a cursor, unless the text is malformed. -/
abbrev Scan := StateT Cursor Option

namespace Scan

/-- Asks for `count` characters. -/
def need (count : Nat) : Scan Unit := fun c ↦ (c.need count).map ((), ·)

/-- The character `offset` places further on, which has been asked for. -/
def char (offset : Nat) : Scan Char := do return (← get).char offset

/-- The text is malformed. -/
def malformed {α : Type} : Scan α := fun _ ↦ none

/-- Passes one character. -/
def step : Scan Unit := modify Cursor.step

/-- Passes `count` characters. -/
def steps : (count : Nat) → Scan Unit
  | 0 => return
  | count + 1 => do
    step
    steps count

/-- Takes one character. -/
def take : Scan Char := do
  let c ← char 0
  step
  return c

/-- Passes a line end, as it stands in the text of a scalar. -/
def passBreak : Scan (List Char) := do
  need 2
  modifyGet Cursor.passBreak

/-- Runs a loop that takes at least one character in every round but the last. -/
def bounded {α : Type} (loop : (fuel : Nat) → Scan α) : Scan α := do loop ((← get).size + 2)

/-- Takes characters as long as they are `wanted`. -/
def takeWhile (wanted : Char → Bool) : Scan (List Char) := bounded fun fuel ↦ loop fuel
where
  /-- Takes at most `fuel` characters. -/
  loop : (fuel : Nat) → Scan (List Char)
    | 0 => malformed
    | fuel + 1 => do
      need 1
      if wanted (← char 0) then
        let first ← take
        return first :: (← loop fuel)
      else return []

/-- Passes blanks. -/
def passBlanks : Scan Unit := do let _ ← takeWhile isBlank

/-- Passes blanks and a comment, up to the end of the line, and the line end. -/
def passRestOfLine : Scan Unit := do
  passBlanks
  if (← char 0) = '#' then
    let _ ← takeWhile fun c ↦ !endsLine c
  if isBreak (← char 0) then
    let _ ← passBreak
  else if (← char 0) ≠ endMark then malformed

end Scan

end ExprLang.Yaml
