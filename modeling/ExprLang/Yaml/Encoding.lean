import ExprLang.Text.Utf8
import ExprLang.Yaml.Node

/-!
Characters from the bytes of a document, which is UTF-8 unless a mark at its start says UTF-16. The
bytes come in blocks of a fixed size, and a block is decoded as a whole: one wrong byte or character
spoils its block, but not the blocks before it.
-/

set_option autoImplicit false

namespace ExprLang.Yaml

inductive Encoding
  | utf8
  | utf16 (lowFirst : Bool)
  deriving DecidableEq, Repr

namespace Encoding

/-- The encoding, and the length of the mark that tells it. -/
def detect : List UInt8 → Encoding × Nat
  | 0xff :: 0xfe :: _ => (utf16 true, 2)
  | 0xfe :: 0xff :: _ => (utf16 false, 2)
  | 0xef :: 0xbb :: 0xbf :: _ => (utf8, 3)
  | _ => (utf8, 0)

/-- What stands at the front of some bytes. -/
inductive Front
  | char (c : Char) (width : Nat)
  /-- The first bytes of a character. -/
  | part
  | malformed
  deriving DecidableEq, Repr

/-- How many bytes a character has that starts with this byte. -/
def utf8Width? (lead : UInt8) : Option Nat :=
  if lead < 0x80 then some 1
  else if 0xc0 ≤ lead && lead < 0xe0 then some 2
  else if 0xe0 ≤ lead && lead < 0xf0 then some 3
  else if 0xf0 ≤ lead && lead < 0xf8 then some 4
  else none

/-- The number that two bytes stand for. -/
def unit (lowFirst : Bool) (a b : UInt8) : Nat :=
  if lowFirst then a.toNat + 256 * b.toNat else b.toNat + 256 * a.toNat

def isHighSurrogate (n : Nat) : Bool := 0xd800 ≤ n && n < 0xdc00

def isLowSurrogate (n : Nat) : Bool := 0xdc00 ≤ n && n < 0xe000

/-- The first character of some bytes. -/
def front (e : Encoding) (bytes : List UInt8) : Front :=
  match e, bytes with
  | _, [] => .part
  | utf8, lead :: rest =>
    match utf8Width? lead with
    | none => .malformed
    | some width =>
      if (rest.take 3).length + 1 < width then .part
      else match Text.Utf8.sequence? lead rest with
        | some (c, _) => .char c width
        | none => .malformed
  | utf16 lowFirst, a :: b :: rest =>
    let high := unit lowFirst a b
    if isLowSurrogate high then .malformed
    else if isHighSurrogate high then
      match rest with
      | c :: d :: _ =>
        let low := unit lowFirst c d
        if isLowSurrogate low then
          .char (Char.ofNat (0x10000 + (high - 0xd800) * 0x400 + (low - 0xdc00))) 4
        else .malformed
      | _ => .part
    else .char (Char.ofNat high) 2
  | utf16 _, [_] => .part

/-- The characters of a block, and the bytes of the last one if it is not complete; none if a
character is malformed or not allowed. -/
def characters (e : Encoding) : (fuel : Nat) → List UInt8 → Option (List Char × List UInt8)
  | 0, bytes => some ([], bytes)
  | fuel + 1, bytes =>
    match e.front bytes with
    | .part => some ([], bytes)
    | .malformed => none
    | .char c width =>
      if isAllowed c then
        (e.characters fuel (bytes.drop width)).map fun (cs, left) ↦ (c :: cs, left)
      else none

/-- The characters of a block, as far as they are well formed. -/
abbrev Block := Option (List Char)

/-- How many bytes are decoded at once. -/
def blockSize : Nat := 512

/-- The blocks of some bytes, the first one of the given size. What a block leaves over goes to the
next one, and nothing may be left over in the end. -/
def blocks (e : Encoding) : (fuel size : Nat) → List UInt8 → List Block
  | 0, _, _ => []
  | _, _, [] => []
  | fuel + 1, size, bytes =>
    let rest := bytes.drop size
    match e.characters size (bytes.take size) with
    | none => [none]
    | some (cs, left) =>
      some cs ::
        if rest.isEmpty then if left.isEmpty then [] else [none]
        else e.blocks fuel blockSize (left ++ rest)

/-- The blocks of a whole text, without the mark of its encoding. -/
def decode (bytes : List UInt8) : List Block :=
  let (e, width) := detect bytes
  e.blocks bytes.length (blockSize - width) (bytes.drop width)

end Encoding

end ExprLang.Yaml
