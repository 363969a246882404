import ExprLang.Yaml.Cursor

/-!
The texts of scalars: plain, in quotes, and as blocks. Line ends inside a scalar are folded: a
single one is a space, and of several the first is dropped.
-/

set_option autoImplicit false

namespace ExprLang.Yaml

/-! ### Gaps -/

/-- Blanks and line ends inside a scalar. -/
structure Gap where
  /-- The blanks before the first line end. -/
  blanks : List Char
  /-- The first line end; nothing stands for one that was escaped. -/
  firstBreak : List Char
  otherBreaks : List Char
  /-- There is a line end. -/
  isBroken : Bool
  deriving DecidableEq, Repr

namespace Gap

def empty : Gap := ⟨[], [], [], false⟩

/-- What a gap stands for. -/
def text (g : Gap) : List Char :=
  if g.isBroken then
    if g.firstBreak = ['\n'] then if g.otherBreaks.isEmpty then [' '] else g.otherBreaks
    else g.firstBreak ++ g.otherBreaks
  else g.blanks

def addBlank (g : Gap) (c : Char) : Gap :=
  if g.isBroken then g else { g with blanks := g.blanks ++ [c] }

def addBreak (g : Gap) (lineEnd : List Char) : Gap :=
  if g.isBroken then { g with otherBreaks := g.otherBreaks ++ lineEnd }
  else ⟨[], lineEnd, g.otherBreaks, true⟩

/-- Takes the rest of a gap. Behind a line end, no tab may stand before column `margin`. -/
def takeFrom (margin : Int) : (fuel : Nat) → Gap → Scan Gap
  | 0, _ => Scan.malformed
  | fuel + 1, g => do
    Scan.need 1
    let c ← Scan.char 0
    if isBlank c then
      if g.isBroken && c = '\t' && ((← get).column : Int) < margin then Scan.malformed
      else
        Scan.step
        takeFrom margin fuel (g.addBlank c)
    else if isBreak c then takeFrom margin fuel (g.addBreak (← Scan.passBreak))
    else return g

end Gap

/-! ### Plain scalars -/

/-- The marks that end a plain scalar inside a flow collection. -/
def isFlowMark (c : Char) : Bool :=
  c = ',' || c = '?' || c = '[' || c = ']' || c = '{' || c = '}'

/-- Takes the characters of a plain scalar up to the next blank, line end, or mark that ends it. -/
def plainWord (inFlow : Bool) : (fuel : Nat) → Scan (List Char)
  | 0 => Scan.malformed
  | fuel + 1 => do
    let c ← Scan.char 0
    if endsWord c || (c = ':' && endsWord (← Scan.char 1)) || (inFlow && isFlowMark c) then
      return []
    else
      Scan.step
      Scan.need 2
      return c :: (← plainWord inFlow fuel)

/-- Takes a plain scalar on, after `gap`: the rest of its text, and the gap at its end. Outside flow
collections, lines that are indented less than `margin` do not belong to it. -/
def plainFrom (inFlow : Bool) (margin : Int) : (fuel : Nat) → Gap → Scan (List Char × Gap)
  | 0, _ => Scan.malformed
  | fuel + 1, gap => do
    Scan.need 4
    if (← get).atDivider || (← Scan.char 0) = '#' then return ([], gap)
    else
      let word ← Scan.bounded (plainWord inFlow)
      let (text, gap) := if word.isEmpty then ([], gap) else (gap.text ++ word, .empty)
      let next ← Scan.char 0
      if !(isBlank next || isBreak next) then return (text, gap)
      else
        let gap ← Scan.bounded fun fuel ↦ gap.takeFrom margin fuel
        if !inFlow && ((← get).column : Int) < margin then return (text, gap)
        else
          let (rest, gap) ← plainFrom inFlow margin fuel gap
          return (text ++ rest, gap)

/-- A plain scalar, and whether it ends with a line end. -/
def plainText (inFlow : Bool) (margin : Int) : Scan (String × Bool) := do
  let (text, gap) ← Scan.bounded fun fuel ↦ plainFrom inFlow margin fuel .empty
  return (String.ofList text, gap.isBroken)

/-! ### Quoted scalars -/

/-- The character that a letter after a backslash stands for. -/
def escaped? : Char → Option Char
  | '0' => some '\x00'
  | 'a' => some '\x07'
  | 'b' => some '\x08'
  | 't' | '\t' => some '\t'
  | 'n' => some '\n'
  | 'v' => some '\x0b'
  | 'f' => some '\x0c'
  | 'r' => some '\r'
  | 'e' => some '\x1b'
  | ' ' => some ' '
  | '\x22' => some '\x22'
  | '\x27' => some '\x27'
  | '\\' => some '\\'
  | 'N' => some '\u0085'
  | '_' => some '\u00a0'
  | 'L' => some '\u2028'
  | 'P' => some '\u2029'
  | _ => none

/-- The number of digits after a letter that gives a character by its number. -/
def codeLength? : Char → Option Nat
  | 'x' => some 2
  | 'u' => some 4
  | 'U' => some 8
  | _ => none

/-- Takes a backslash and what it escapes, which is no line end. -/
def escape : Scan Char := do
  let letter ← Scan.char 1
  match codeLength? letter with
  | none =>
    match escaped? letter with
    | none => Scan.malformed
    | some c =>
      Scan.steps 2
      return c
  | some length =>
    Scan.steps 2
    Scan.need length
    match hexValue? ((← get).ahead.take length) with
    | none => Scan.malformed
    | some code =>
      if code.isValidChar then
        Scan.steps length
        return Char.ofNat code
      else Scan.malformed

/-- Takes the characters inside quotes up to the next blank, line end or closing quote, and whether
an escaped line end follows. -/
def quotedWord (isDouble : Bool) : (fuel : Nat) → Scan (List Char × Bool)
  | 0 => Scan.malformed
  | fuel + 1 => do
    let c ← Scan.char 0
    let next ← Scan.char 1
    let goOn (c : Char) : Scan (List Char × Bool) := do
      Scan.need 2
      let (rest, isBroken) ← quotedWord isDouble fuel
      return (c :: rest, isBroken)
    if endsWord c then return ([], false)
    else if !isDouble && c = '\x27' then
      if next = '\x27' then
        Scan.steps 2
        goOn c
      else return ([], false)
    else if isDouble && c = '\x22' then return ([], false)
    else if isDouble && c = '\\' then
      if isBreak next then
        Scan.need 3
        Scan.step
        let _ ← Scan.passBreak
        return ([], true)
      else goOn (← escape)
    else
      Scan.step
      goOn c

/-- Takes a quoted scalar on, up to its closing quote. -/
def quotedFrom (isDouble : Bool) : (fuel : Nat) → Scan (List Char)
  | 0 => Scan.malformed
  | fuel + 1 => do
    Scan.need 4
    if (← get).atDivider || (← Scan.char 0) = endMark then Scan.malformed
    else
      let (word, isBroken) ← Scan.bounded (quotedWord isDouble)
      Scan.need 1
      if (← Scan.char 0) = (if isDouble then '\x22' else '\x27') then return word
      else
        let start := if isBroken then { Gap.empty with isBroken := true } else Gap.empty
        let gap ← Scan.bounded fun fuel ↦ start.takeFrom 0 fuel
        return word ++ gap.text ++ (← quotedFrom isDouble fuel)

/-- A scalar in quotes. -/
def quotedText (isDouble : Bool) : Scan String := do
  Scan.step
  let text ← Scan.bounded (quotedFrom isDouble)
  Scan.step
  return String.ofList text

/-! ### Block scalars -/

/-- What happens to the line ends at the end of a block. -/
inductive Chomping
  | strip
  | clip
  | keep
  deriving DecidableEq, Repr

/-- Takes a mark for the line ends at the end. -/
def chomping? : Scan (Option Chomping) := do
  Scan.need 1
  match ← Scan.char 0 with
  | '+' =>
    Scan.step
    return some .keep
  | '-' =>
    Scan.step
    return some .strip
  | _ => return none

/-- Takes a digit that gives the indentation. -/
def indentation? : Scan (Option Nat) := do
  Scan.need 1
  let c ← Scan.char 0
  if !isDigit c then return none
  else if c = '0' then Scan.malformed
  else
    Scan.step
    return some (c.toNat - '0'.toNat)

/-- Takes the marks behind the first character of a block, which come in any order. -/
def blockMarks : Scan (Chomping × Option Nat) := do
  match ← chomping? with
  | some chomping => return (chomping, ← indentation?)
  | none =>
    let indentation ← indentation?
    let chomping ← if indentation.isSome then chomping? else pure none
    return (chomping.getD .clip, indentation)

/-- Takes spaces up to column `indent`, if it is known. -/
def indentSpaces (indent : Option Nat) : (fuel : Nat) → Scan Unit
  | 0 => Scan.malformed
  | fuel + 1 => do
    Scan.need 1
    let column := (← get).column
    if indent.all (column < ·) && (← Scan.char 0) = ' ' then
      Scan.step
      indentSpaces indent fuel

/-- Takes empty lines and the indentation of the next line: the line ends, and the deepest column
that was reached. -/
def emptyLines (indent : Option Nat) : (fuel deepest : Nat) → Scan (List Char × Nat)
  | 0, _ => Scan.malformed
  | fuel + 1, deepest => do
    Scan.bounded (indentSpaces indent)
    let column := (← get).column
    let deepest := max deepest column
    let c ← Scan.char 0
    if c = '\t' && indent.all (column < ·) then Scan.malformed
    else if isBreak c then
      let lineEnd ← Scan.passBreak
      let (others, deepest) ← emptyLines indent fuel deepest
      return (lineEnd ++ others, deepest)
    else return ([], deepest)

/-- Takes the lines of a block at column `indent`: its text, and the line ends behind it. `lineEnd`
ends the line before, and `empties` are the line ends of the empty lines after that. A blank at the
start of a line keeps the line ends around it. -/
def blockLines (isLiteral : Bool) (indent : Nat) : (fuel : Nat) → (lineEnd empties : List Char) →
    (startedBlank : Bool) → Scan (List Char × List Char × List Char)
  | 0, _, _, _ => Scan.malformed
  | fuel + 1, lineEnd, empties, startedBlank => do
    let c ← Scan.char 0
    if (← get).column ≠ indent || c = endMark then return ([], lineEnd, empties)
    else
      let folds := !isLiteral && !startedBlank && !isBlank c && lineEnd = ['\n']
      let joint := if folds then if empties.isEmpty then [' '] else [] else lineEnd
      let line ← Scan.takeWhile fun c ↦ !endsLine c
      let newEnd ← Scan.passBreak
      let (newEmpties, _) ← Scan.bounded fun fuel ↦ emptyLines (some indent) fuel 0
      let (rest, lastEnd, lastEmpties) ←
        blockLines isLiteral indent fuel newEnd newEmpties (isBlank c)
      return (joint ++ empties ++ line ++ rest, lastEnd, lastEmpties)

/-- A block scalar inside a collection at column `outer`. -/
def blockText (isLiteral : Bool) (outer : Int) : Scan String := do
  Scan.step
  let (chomping, indentation) ← blockMarks
  Scan.passRestOfLine
  let given := indentation.map fun n ↦ (max outer 0).toNat + n
  let (empties, deepest) ← Scan.bounded fun fuel ↦ emptyLines given fuel 0
  let indent := given.getD (max deepest (max (outer + 1).toNat 1))
  Scan.need 1
  let (text, lineEnd, empties) ←
    Scan.bounded fun fuel ↦ blockLines isLiteral indent fuel [] empties false
  return String.ofList (match chomping with
    | .strip => text
    | .clip => text ++ lineEnd
    | .keep => text ++ lineEnd ++ empties)

end ExprLang.Yaml
