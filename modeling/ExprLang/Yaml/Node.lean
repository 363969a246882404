/-!
Documents as trees, and the characters their text is made of.
-/

set_option autoImplicit false

namespace ExprLang.Yaml

/-- Lines are counted from one and say where a node starts. -/
inductive Node
  /-- A scalar. Without a tag its look decides what it means if it `isOpen`; otherwise, as in
  quotes, it is text. -/
  | scalar (text tag : String) (isOpen : Bool) (line : Nat)
  | sequence (items : List Node) (line : Nat)
  | mapping (entries : List (Node × Node)) (line : Nat)
  /-- The node that stands elsewhere under a name, as one of the anchors of the document. `place`
  tells apart references to the same node. -/
  | reference (name : String) (anchor place : Nat)
  deriving Inhabited

namespace Node

/-- The node that stands where nothing is written. -/
def absent : Node := scalar "" "" true 0

def isMapping : Node → Bool
  | mapping .. => true
  | _ => false

end Node

/-- The node that a text consists of, and all nodes with a name in the order in which they start. -/
structure Document where
  root : Node
  anchors : List (String × Node)

/-- The last node with a name. -/
def Document.named? (d : Document) (name : String) : Option Node := d.anchors.reverse.lookup name

/-! ### Characters -/

/-- The mark that may open a text and tells how it is encoded. -/
def byteOrderMark : Char := '\uFEFF'

/-- Stands behind the last character of a text. -/
def endMark : Char := '\x00'

/-- Line ends. -/
def isBreak (c : Char) : Bool :=
  c = '\n' || c = '\r' || c.toNat = 0x85 || c.toNat = 0x2028 || c.toNat = 0x2029

def isBlank (c : Char) : Bool := c = ' ' || c = '\t'

/-- A word cannot go on with this character. -/
def endsWord (c : Char) : Bool := isBlank c || isBreak c || c = endMark

/-- A line cannot go on with this character. -/
def endsLine (c : Char) : Bool := isBreak c || c = endMark

def isDigit (c : Char) : Bool := '0' ≤ c && c ≤ '9'

/-- The characters of names. -/
def isNameChar (c : Char) : Bool :=
  isDigit c || ('A' ≤ c && c ≤ 'Z') || ('a' ≤ c && c ≤ 'z') || c = '_' || c = '-'

/-- The value of a hexadecimal digit. -/
def hexDigit? (c : Char) : Option Nat :=
  if isDigit c then some (c.toNat - '0'.toNat)
  else if 'a' ≤ c && c ≤ 'f' then some (c.toNat - 'a'.toNat + 10)
  else if 'A' ≤ c && c ≤ 'F' then some (c.toNat - 'A'.toNat + 10)
  else none

/-- The value of hexadecimal digits. -/
def hexValue? (digits : List Char) : Option Nat :=
  digits.foldlM (fun n c ↦ (hexDigit? c).map fun d ↦ n * 16 + d) 0

/-- The characters that may occur in a document at all. -/
def isAllowed (c : Char) : Bool :=
  let n := c.toNat
  n = 0x09 || n = 0x0a || n = 0x0d || (0x20 ≤ n && n ≤ 0x7e) || n = 0x85 ||
    (0xa0 ≤ n && n ≤ 0xfffd) || 0x10000 ≤ n

/-- The characters that are written as they are. -/
def isPlain (c : Char) : Bool :=
  let n := c.toNat
  n = 0x0a || (0x20 ≤ n && n ≤ 0x7e) || (0xa0 ≤ n && n ≤ 0xfffd && n ≠ 0xfeff)

end ExprLang.Yaml
