import ExprLang.Yaml.Lexeme.Basic
import ExprLang.Yaml.Lexeme.Property
import ExprLang.Yaml.Lexeme.Text

/-!
Tokens in the order in which they count. A scalar turns out to be a key only when a colon follows
it, on the same line and not too far away; then a token is put before it that says so, and another
one if a mapping starts there. So tokens wait in a queue as long as the first of them may still be a
key.
-/

set_option autoImplicit false

namespace ExprLang.Yaml

/-- Something that can still turn out to be a key. -/
structure Candidate where
  /-- The number of its first token, counted from the start of the text. -/
  number : Nat
  /-- At this place nothing but a key can stand. -/
  isRequired : Bool
  index : Nat
  line : Nat
  column : Nat

structure Queue where
  cursor : Cursor
  /-- The tokens that nobody has taken yet. -/
  waiting : List Token
  /-- The number of tokens that have been taken. -/
  taken : Nat
  hasStarted : Bool
  /-- The column of the block around the cursor, and those of the blocks around that block. -/
  indent : Int
  outerIndents : List Int
  /-- A key may start here. -/
  keyAllowed : Bool
  /-- The number of flow collections around the cursor. -/
  depth : Nat
  /-- The candidate of the collection around the cursor, and those of the flow collections and the
  block around that. Where this list ends, the collections further out have no candidates. -/
  candidate : Option Candidate
  outerCandidates : List (Option Candidate)

namespace Queue

/-- How many characters a key may be away from its colon. -/
def keyReach : Nat := 1024

def ofBytes (bytes : List UInt8) : Queue :=
  ⟨.ofBytes bytes, [], 0, false, -1, [], true, 0, none, []⟩

/-- The cursor is inside a flow collection. -/
def inFlow (q : Queue) : Bool := q.depth ≠ 0

/-! ### Candidates -/

/-- Gives a candidate up, which nothing may require. -/
def dismiss : Option Candidate → Option (Option Candidate)
  | some c => if c.isRequired then none else some none
  | none => some none

/-- The candidate is on an earlier line or too far away. -/
def isStale (q : Queue) (c : Candidate) : Bool :=
  c.line < q.cursor.line || c.index + keyReach < q.cursor.index

/-- Gives up the candidates that are stale. What is further out started earlier, so behind a stale
candidate all are. -/
def dismissStale (q : Queue) : Option Queue :=
  let isLost (c : Option Candidate) : Bool := c.any q.isStale
  if isLost q.candidate then
    if (q.candidate :: q.outerCandidates).all fun c ↦ (dismiss c).isSome then
      some { q with candidate := none, outerCandidates := [] }
    else none
  else if q.outerCandidates.any isLost then
    let (kept, lost) := q.outerCandidates.span fun c ↦ !isLost c
    if lost.all fun c ↦ (dismiss c).isSome then some { q with outerCandidates := kept } else none
  else some q

/-- No key can end here any more. -/
def dismissKey (q : Queue) : Option Queue :=
  (dismiss q.candidate).map fun c ↦ { q with candidate := c }

/-- The next token may be a key. -/
def offerKey (q : Queue) : Option Queue :=
  if q.keyAllowed then
    let here : Candidate :=
      { number := q.taken + q.waiting.length
        isRequired := !q.inFlow && q.indent = (q.cursor.column : Int)
        index := q.cursor.index
        line := q.cursor.line
        column := q.cursor.column }
    q.dismissKey.map fun q ↦ { q with candidate := some here }
  else some q

/-! ### Tokens -/

/-- Puts a lexeme at the end, as it stands at the cursor. -/
def push (q : Queue) (lexeme : Lexeme) : Queue :=
  { q with waiting := q.waiting ++ [⟨lexeme, q.cursor.index, q.cursor.line⟩] }

/-- Passes `count` characters, which are the lexeme. -/
def pushMark (q : Queue) (lexeme : Lexeme) (count : Nat) : Queue :=
  let cursor := Nat.repeat Cursor.step count q.cursor
  { q.push lexeme with cursor := cursor }

/-- Puts a lexeme before the token with the given number. -/
def insert (q : Queue) (number index line : Nat) (lexeme : Lexeme) : Queue :=
  let (before, after) := q.waiting.splitAt (number - q.taken)
  { q with waiting := before ++ ⟨lexeme, index, line⟩ :: after }

/-- Reads something that is one token. -/
def scan (q : Queue) (lexeme : Scan Lexeme) : Option Queue :=
  (lexeme q.cursor).map fun (lexeme, cursor) ↦ { q.push lexeme with cursor := cursor }

/-! ### Indentation -/

/-- A block starts at this column, if it is further right than the block around it. -/
def openBlock (q : Queue) (column : Nat) (add : Queue → Queue) : Queue :=
  if !q.inFlow && q.indent < (column : Int) then
    add { q with outerIndents := q.indent :: q.outerIndents, indent := column }
  else q

/-- Ends blocks from the inside out, as long as they are further right than `column`. -/
def closeFrom (column : Int) (token : Token) : (indent : Int) → (outer : List Int) →
    Int × List Int × List Token
  | indent, [] => (indent, [], [])
  | indent, next :: outer =>
    if column < indent then
      let (indent, outer, tokens) := closeFrom column token next outer
      (indent, outer, token :: tokens)
    else (indent, next :: outer, [])

/-- Ends all blocks that are further right than `column`. -/
def closeBlocks (q : Queue) (column : Int) : Queue :=
  if q.inFlow then q
  else
    let token : Token := ⟨.blockEnd, q.cursor.index, q.cursor.line⟩
    let (indent, outer, tokens) := closeFrom column token q.indent q.outerIndents
    { q with indent := indent, outerIndents := outer, waiting := q.waiting ++ tokens }

/-! ### Marks -/

/-- Dividers and directives end everything before them. -/
def atTopLevel (q : Queue) : Option Queue :=
  (q.closeBlocks (-1)).dismissKey.map fun q ↦ { q with keyAllowed := false }

def fetchEnd (q : Queue) : Option Queue :=
  let cursor := q.cursor
  let cursor :=
    if cursor.column = 0 then cursor else { cursor with line := cursor.line + 1, column := 0 }
  let q : Queue := { q with cursor := cursor }
  q.atTopLevel.map fun q ↦ q.push .textEnd

def fetchFlowStart (q : Queue) (lexeme : Lexeme) : Option Queue :=
  q.offerKey.map fun q ↦
    { q with
      depth := q.depth + 1
      outerCandidates := q.candidate :: q.outerCandidates
      candidate := none
      keyAllowed := true }.pushMark lexeme 1

def fetchFlowEnd (q : Queue) (lexeme : Lexeme) : Option Queue :=
  q.dismissKey.map fun q ↦
    let q :=
      if q.inFlow then
        { q with
          depth := q.depth - 1
          candidate := q.outerCandidates.head?.join
          outerCandidates := q.outerCandidates.tail }
      else q
    { q with keyAllowed := false }.pushMark lexeme 1

def fetchFlowItem (q : Queue) : Option Queue :=
  q.dismissKey.map fun q ↦ { q with keyAllowed := true }.pushMark .flowItem 1

/-- A dash or a question mark, which may start a block of its own. -/
def fetchBlockMark (q : Queue) (start mark : Lexeme) : Option Queue :=
  if !q.inFlow && !q.keyAllowed then none
  else
    (q.openBlock q.cursor.column (·.push start)).dismissKey.map fun q ↦
      { q with keyAllowed := mark = Lexeme.blockItem || !q.inFlow }.pushMark mark 1

/-- A colon. What stands before it is a key if it is still a candidate. -/
def fetchValue (q : Queue) : Option Queue :=
  match q.candidate with
  | some c =>
    let q := q.insert c.number c.index c.line .key
    let q := q.openBlock c.column fun q ↦ q.insert c.number c.index c.line .blockMappingStart
    some ({ q with candidate := none, keyAllowed := false }.pushMark .value 1)
  | none =>
    if !q.inFlow && !q.keyAllowed then none
    else
      let q := q.openBlock q.cursor.column (·.push .blockMappingStart)
      some ({ q with keyAllowed := !q.inFlow }.pushMark .value 1)

/-- A name, a tag or a quoted scalar, any of which may start a key. -/
def fetchWord (q : Queue) (lexeme : Scan Lexeme) : Option Queue :=
  q.offerKey.bind fun q ↦ { q with keyAllowed := false }.scan lexeme

/-- A plain scalar. Behind the line end that ends it, a key may start. -/
def fetchPlain (q : Queue) : Option Queue := do
  let q ← q.offerKey
  let ((text, isBroken), cursor) ← plainText q.inFlow (q.indent + 1) q.cursor
  return { q.push (.scalar text true) with cursor := cursor, keyAllowed := isBroken }

def fetchBlockText (q : Queue) (isLiteral : Bool) : Option Queue :=
  q.dismissKey.bind fun q ↦
    { q with keyAllowed := true }.scan do
      return .scalar (← blockText isLiteral q.indent) false

/-! ### Fetching -/

/-- Passes blanks, comments and line ends. Outside flow collections no tab may stand where a key may
start. A byte-order mark at the start of a line is passed. -/
def toToken (q : Queue) : (fuel : Nat) → Option Queue
  | 0 => none
  | fuel + 1 => do
    let passMark : Scan Unit := do
      Scan.need 1
      let c ← get
      if c.column = 0 && c.sawMark then Scan.step
    let blanks : Scan Unit := do
      let _ ← Scan.takeWhile fun c ↦ c = ' ' || (c = '\t' && (q.inFlow || !q.keyAllowed))
      if (← Scan.char 0) = '#' then
        let _ ← Scan.takeWhile fun c ↦ !endsLine c
    let (_, cursor) ← (do passMark; blanks : Scan Unit) q.cursor
    if isBreak (cursor.char 0) then
      let (_, cursor) ← Scan.passBreak cursor
      { q with cursor := cursor, keyAllowed := q.keyAllowed || !q.inFlow }.toToken fuel
    else return { q with cursor := cursor }

/-- The characters with a meaning of their own at the start of a token. -/
def isIndicator (c : Char) : Bool := "-?:,[]\x7b\x7d#&*!|>'\"%@`".toList.contains c

/-- A plain scalar can start with `c` before `next`. -/
def startsPlain (inFlow : Bool) (c next : Char) : Bool :=
  if c = '-' then !isBlank next
  else if c = '?' || c = ':' then !inFlow && !endsWord next
  else !endsWord c && !isIndicator c

/-- Fetches the token at the cursor, together with those that come before it. -/
def fetchHere (q : Queue) : Option Queue :=
  let c := q.cursor.char 0
  let next := q.cursor.char 1
  if c = endMark then q.fetchEnd
  else if q.cursor.column = 0 && c = '%' then q.atTopLevel.bind (·.scan directiveLexeme)
  else if q.cursor.atDivider then
    q.atTopLevel.map fun q ↦ q.pushMark (if c = '-' then .documentStart else .documentEnd) 3
  else match c with
    | '[' => q.fetchFlowStart .flowSequenceStart
    | '{' => q.fetchFlowStart .flowMappingStart
    | ']' => q.fetchFlowEnd .flowSequenceEnd
    | '}' => q.fetchFlowEnd .flowMappingEnd
    | ',' => q.fetchFlowItem
    | '*' => q.fetchWord do return .reference (← nodeName)
    | '&' => q.fetchWord do return .anchor (← nodeName)
    | '!' => q.fetchWord tagLexeme
    | '\x27' => q.fetchWord do return .scalar (← quotedText false) false
    | '\x22' => q.fetchWord do return .scalar (← quotedText true) false
    | _ =>
      if c = '-' && endsWord next then q.fetchBlockMark .blockSequenceStart .blockItem
      else if c = '?' && (q.inFlow || endsWord next) then q.fetchBlockMark .blockMappingStart .key
      else if c = ':' && (q.inFlow || endsWord next) then q.fetchValue
      else if (c = '|' || c = '>') && !q.inFlow then q.fetchBlockText (c = '|')
      else if startsPlain q.inFlow c next then q.fetchPlain
      else none

/-- Fetches at least one token. -/
def fetch (q : Queue) : Option Queue := do
  let cursor ← q.cursor.need 1
  let q := { q with cursor := cursor }
  if !q.hasStarted then return { q.push .textStart with hasStarted := true }
  else
    let q ← q.toToken (cursor.size + 2)
    let q ← q.dismissStale
    let q := q.closeBlocks q.cursor.column
    let cursor ← q.cursor.need 4
    { q with cursor := cursor }.fetchHere

/-- The first waiting token may still be a key. -/
def mayBeKey (q : Queue) : Bool :=
  (q.candidate :: q.outerCandidates).any fun c ↦ c.any fun c ↦ c.number = q.taken

/-- Fetches tokens until the first one that waits is sure to be the next. -/
def settle : (fuel : Nat) → Queue → Option Queue
  | 0, _ => none
  | fuel + 1, q =>
    if q.waiting.isEmpty then q.fetch.bind (settle fuel)
    else
      q.dismissStale.bind fun q ↦
        if q.mayBeKey then q.fetch.bind (settle fuel) else some q

/-- The next token, which stays where it is. -/
def peek (q : Queue) : Option (Token × Queue) :=
  (settle (q.cursor.size + 3) q).bind fun q ↦ q.waiting.head?.map (·, q)

/-- Takes the next token away. -/
def pop (q : Queue) : Queue := { q with waiting := q.waiting.tail, taken := q.taken + 1 }

end Queue

end ExprLang.Yaml
