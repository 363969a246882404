/-!
Bytes as text in base 64: four characters for three bytes, with equals signs in place of characters
that the last group does not need.
-/

set_option autoImplicit false

namespace ExprLang.Text.Base64

/-- The six bits that a character stands for. -/
def bits? (c : Char) : Option Nat :=
  if 'A' ≤ c && c ≤ 'Z' then some (c.toNat - 'A'.toNat)
  else if 'a' ≤ c && c ≤ 'z' then some (c.toNat - 'a'.toNat + 26)
  else if '0' ≤ c && c ≤ '9' then some (c.toNat - '0'.toNat + 52)
  else if c = '+' then some 62
  else if c = '/' then some 63
  else none

/-- The first `count` of the three bytes in four characters. -/
def group? (count : Nat) (a b c d : Char) : Option (List UInt8) := do
  let n := ((← bits? a) * 64 + (← bits? b)) * 4096 + (← bits? c) * 64 + (← bits? d)
  return [UInt8.ofNat (n / 65536), UInt8.ofNat (n / 256), UInt8.ofNat n].take count

/-- The bytes of groups without line ends between them. -/
def groups? : List Char → Option (List UInt8)
  | [] => some []
  | [a, b, '=', '='] => group? 1 a b 'A' 'A'
  | [a, b, c, '='] => group? 2 a b c 'A'
  | a :: b :: c :: d :: rest => do
    let first ← group? 3 a b c d
    return first ++ (← groups? rest)
  | _ => none

/-- The bytes that a text stands for. Line ends do not count. -/
def decode? (text : List Char) : Option (List UInt8) :=
  groups? (text.filter fun c ↦ c ≠ '\n' && c ≠ '\r')

end ExprLang.Text.Base64
