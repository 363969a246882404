import ExprLang.Yaml.Lexeme.Queue

/-!
Documents from tokens. Only the first document of a text is read, and the token behind it is looked
at, so that a text is malformed if that token is.
-/

set_option autoImplicit false

namespace ExprLang.Yaml

structure Reader where
  queue : Queue
  /-- What the handles of tags stand for. -/
  handles : List (String × String)
  /-- The nodes with a name so far; one that is not complete yet is absent. -/
  anchors : List (String × Node)

/-- Something that reads tokens, unless the text is malformed. -/
abbrev Read := StateT Reader Option

namespace Read

def malformed {α : Type} : Read α := fun _ ↦ none

/-- The next token. -/
def peek : Read Token := fun r ↦
  r.queue.peek.map fun (token, queue) ↦ (token, { r with queue := queue })

/-- Takes the next token away. -/
def pop : Read Unit := modify fun r ↦ { r with queue := r.queue.pop }

/-- The next token is one of these. -/
def sees (lexemes : List Lexeme) : Read Bool := do return lexemes.contains (← peek).lexeme

/-- Takes the next token away if it is the given one. -/
def accept (lexeme : Lexeme) : Read Bool := do
  if (← peek).lexeme = lexeme then
    pop
    return true
  else return false

/-- Takes a comma away, which is missing before the first item only. -/
def comma (isFirst : Bool) : Read Bool := if isFirst then return true else accept .flowItem

/-! ### Properties -/

/-- The tag that a handle and the rest after it stand for. -/
def wholeTag (handle rest : String) : Read String := do
  if handle = "" then return rest
  else
    match (← get).handles.lookup handle with
    | none => malformed
    | some start => return start ++ rest

def anchor? : Read (Option String) := do
  match (← peek).lexeme with
  | .anchor name =>
    pop
    return some name
  | _ => return none

/-- The tag of a node, or nothing. -/
def tag : Read String := do
  match (← peek).lexeme with
  | .tag handle rest =>
    pop
    wholeTag handle rest
  | _ => return ""

/-- The name and the tag of a node, which come in any order. -/
def properties : Read (Option String × String) := do
  match ← anchor? with
  | some name => return (some name, ← tag)
  | none =>
    let tag ← tag
    return (← anchor?, tag)

/-- Keeps room for a node with a name. -/
def declare (name : String) : Read Nat :=
  modifyGet fun r ↦ (r.anchors.length, { r with anchors := r.anchors ++ [(name, .absent)] })

/-- A node with a name is complete. -/
def define (name : String) (place : Nat) (node : Node) : Read Unit :=
  modify fun r ↦ { r with anchors := r.anchors.set place (name, node) }

/-- The place of the last node with a name. -/
def place (name : String) : Read Nat := do
  let anchors := (← get).anchors
  match anchors.reverse.findIdx? fun a ↦ a.1 = name with
  | none => malformed
  | some back => return anchors.length - 1 - back

/-! ### Nodes -/

mutual

/-- A node. Block collections can stand only where `isBlock` says so, and items without indentation
of their own only where `isIndentless` does. -/
def node (isBlock isIndentless : Bool) : (fuel : Nat) → Read Node
  | 0 => malformed
  | fuel + 1 => do
    let first ← peek
    match first.lexeme with
    | .reference name =>
      pop
      return .reference name (← place name) first.index
    | _ =>
      match ← properties with
      | (none, tag) => content isBlock isIndentless (tag ≠ "") tag first.line fuel
      | (some name, tag) =>
        let place ← declare name
        let node ← content isBlock isIndentless true tag first.line fuel
        define name place node
        return node
termination_by structural fuel => fuel

/-- A node behind its properties. With properties, it can be absent. -/
def content (isBlock isIndentless hasProperties : Bool) (tag : String) (line : Nat) :
    (fuel : Nat) → Read Node
  | 0 => malformed
  | fuel + 1 => do
    match (← peek).lexeme, isBlock with
    | .scalar text isPlain, _ =>
      pop
      return .scalar text tag ((tag = "" && isPlain) || tag = "!") line
    | .flowSequenceStart, _ =>
      pop
      return .sequence (← flowItems true [] fuel) line
    | .flowMappingStart, _ =>
      pop
      return .mapping (← flowEntries true [] fuel) line
    | .blockSequenceStart, true =>
      pop
      return .sequence (← blockItems [] fuel) line
    | .blockMappingStart, true =>
      pop
      return .mapping (← blockEntries [] fuel) line
    | lexeme, _ =>
      if isIndentless && lexeme = .blockItem then
        return .sequence (← indentlessItems [] fuel) line
      else if hasProperties then return .scalar "" tag (tag = "") line
      else malformed
termination_by structural fuel => fuel

/-- A node, unless one of these tokens shows that it is absent. -/
def optional (isBlock isIndentless : Bool) (ends : List Lexeme) : (fuel : Nat) → Read Node
  | 0 => malformed
  | fuel + 1 => do
    if ← sees ends then return .absent else node isBlock isIndentless fuel
termination_by structural fuel => fuel

/-- The value of an entry, if a colon announces it. -/
def value (isBlock : Bool) (ends : List Lexeme) : (fuel : Nat) → Read Node
  | 0 => malformed
  | fuel + 1 => do
    if ← accept .value then optional isBlock isBlock ends fuel else return .absent
termination_by structural fuel => fuel

/-- The items of a block sequence behind those that have been read, the last one first. -/
def blockItems (items : List Node) : (fuel : Nat) → Read (List Node)
  | 0 => malformed
  | fuel + 1 => do
    if ← accept .blockItem then
      let item ← optional true false [.blockItem, .blockEnd] fuel
      blockItems (item :: items) fuel
    else if ← accept .blockEnd then return items.reverse
    else malformed
termination_by structural fuel => fuel

/-- The items of a sequence in the column of the mapping around it. -/
def indentlessItems (items : List Node) : (fuel : Nat) → Read (List Node)
  | 0 => malformed
  | fuel + 1 => do
    if ← accept .blockItem then
      let item ← optional true false [.blockItem, .key, .value, .blockEnd] fuel
      indentlessItems (item :: items) fuel
    else return items.reverse
termination_by structural fuel => fuel

/-- The entries of a block mapping. -/
def blockEntries (entries : List (Node × Node)) : (fuel : Nat) → Read (List (Node × Node))
  | 0 => malformed
  | fuel + 1 => do
    if ← accept .key then
      let key ← optional true true [.key, .value, .blockEnd] fuel
      let value ← value true [.key, .value, .blockEnd] fuel
      blockEntries ((key, value) :: entries) fuel
    else if ← accept .blockEnd then return entries.reverse
    else malformed
termination_by structural fuel => fuel

/-- The items of a flow sequence. An item with a colon is a mapping of one entry. -/
def flowItems (isFirst : Bool) (items : List Node) : (fuel : Nat) → Read (List Node)
  | 0 => malformed
  | fuel + 1 => do
    if ← accept .flowSequenceEnd then return items.reverse
    else if !(← comma isFirst) then malformed
    else if ← accept .flowSequenceEnd then return items.reverse
    else
      let line := (← peek).line
      if ← accept .key then
        let entry ← flowPair fuel
        flowItems false (.mapping [entry] line :: items) fuel
      else
        let item ← node false false fuel
        flowItems false (item :: items) fuel
termination_by structural fuel => fuel

/-- The entry that is an item of a flow sequence. The token that ends a key before it starts goes
with it. -/
def flowPair : (fuel : Nat) → Read (Node × Node)
  | 0 => malformed
  | fuel + 1 => do
    let key ← if ← sees [.value, .flowItem, .flowSequenceEnd] then
        pop
        pure Node.absent
      else node false false fuel
    return (key, ← value false [.flowItem, .flowSequenceEnd] fuel)
termination_by structural fuel => fuel

/-- The entries of a flow mapping. A key without a colon has no value. -/
def flowEntries (isFirst : Bool) (entries : List (Node × Node)) :
    (fuel : Nat) → Read (List (Node × Node))
  | 0 => malformed
  | fuel + 1 => do
    if ← accept .flowMappingEnd then return entries.reverse
    else if !(← comma isFirst) then malformed
    else if ← accept .flowMappingEnd then return entries.reverse
    else if ← accept .key then
      let key ← optional false false [.value, .flowItem, .flowMappingEnd] fuel
      let value ← value false [.flowItem, .flowMappingEnd] fuel
      flowEntries false ((key, value) :: entries) fuel
    else
      let key ← node false false fuel
      flowEntries false ((key, .absent) :: entries) fuel
termination_by structural fuel => fuel

end

/-! ### Documents -/

/-- The handles that every document has. -/
def standardHandles : List (String × String) := [("!", "!"), ("!!", "tag:yaml.org,2002:")]

/-- Reads directives. At most one gives a version, which has to be 1.1, and no handle is explained
twice. -/
def directives (sawVersion : Bool) : (fuel : Nat) → Read Unit
  | 0 => malformed
  | fuel + 1 => do
    match (← peek).lexeme with
    | .version major minor =>
      if sawVersion || major ≠ 1 || minor ≠ 1 then malformed
      else
        pop
        directives true fuel
    | .tagHandle handle start =>
      let handles := (← get).handles
      if (handles.lookup handle).isSome then malformed
      else
        pop
        modify fun r ↦ { r with handles := handles ++ [(handle, start)] }
        directives sawVersion fuel
    | _ => modify fun r ↦ { r with handles := r.handles ++ standardHandles }

/-- A lexeme that stands between documents. -/
def endsDocument : Lexeme → Bool
  | .version .. | .tagHandle .. | .documentStart | .documentEnd | .textEnd => true
  | _ => false

/-- The root of the first document, if there is one. -/
def root (fuel : Nat) : Read (Option Node) := do
  let _ ← accept .textStart
  if (← peek).lexeme = .textEnd then return none
  else
    let isBare := (← peek).lexeme = .documentEnd || !endsDocument (← peek).lexeme
    directives false fuel
    let isMarked ← accept .documentStart
    if !isMarked && !isBare then malformed
    else
      let root ← if isMarked && endsDocument (← peek).lexeme then pure Node.absent
        else node true false fuel
      let _ ← peek
      return some root

end Read

/-- The first document: `none` if the text is malformed, `some none` if it holds no document. -/
def read (bytes : List UInt8) : Option (Option Document) :=
  let queue := Queue.ofBytes bytes
  (Read.root (8 * (queue.cursor.size + 8)) ⟨queue, [], []⟩).map fun (root, reader) ↦
    root.map (⟨·, reader.anchors⟩)

end ExprLang.Yaml
