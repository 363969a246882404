/-!
Integers as text: an optional sign, then decimal digits, or digits after `0x`, `0o`, `0b` or a plain
leading zero for octal. Underscores may separate digits. Values are bounded by 64 bits, and what is
out of range is told apart from what is no numeral.
-/

set_option autoImplicit false

namespace ExprLang.Text.Numeral

inductive Problem
  | malformed
  | outOfRange
  deriving DecidableEq, Repr

/-- The value of a digit, letters included. -/
def digit? (c : Char) : Option Nat :=
  if '0' ≤ c && c ≤ '9' then some (c.toNat - '0'.toNat)
  else if 'a' ≤ c && c ≤ 'z' then some (c.toNat - 'a'.toNat + 10)
  else if 'A' ≤ c && c ≤ 'Z' then some (c.toNat - 'A'.toNat + 10)
  else none

/-- The base that a numeral's start names, and the digits after that start. -/
def radix : List Char → Nat × List Char
  | ['0'] => (10, ['0'])
  | '0' :: mark :: rest =>
    if rest.isEmpty then (8, mark :: rest)
    else match mark.toLower with
      | 'x' => (16, rest)
      | 'o' => (8, rest)
      | 'b' => (2, rest)
      | _ => (8, mark :: rest)
  | digits => (10, digits)

/-- Reads digits from the left; the first one that is wrong or too much decides. -/
def readDigits (base : Nat) : (value : Nat) → List Char → Except Problem Nat
  | value, [] => .ok value
  | value, '_' :: rest => readDigits base value rest
  | value, c :: rest =>
    match digit? c with
    | none => .error .malformed
    | some d =>
      if base ≤ d then .error .malformed
      else if 0x10000000000000000 ≤ value * base + d then .error .outOfRange
      else readDigits base (value * base + d) rest

/-- Every underscore has a digit, or the start that names the base, before it and a digit after. -/
def separated : (afterDigit : Bool) → List Char → Bool
  | _, [] => true
  | _, ['_'] => false
  | afterDigit, '_' :: c :: rest => afterDigit && c ≠ '_' && separated false (c :: rest)
  | _, _ :: rest => separated true rest

/-- An unsigned numeral below `2 ^ 64`. -/
def readUnsigned (digits : List Char) : Except Problem Nat :=
  if digits.isEmpty then .error .malformed
  else
    let (base, rest) := radix digits
    match readDigits base 0 rest with
    | .error problem => .error problem
    | .ok value =>
      if separated (rest.length < digits.length) rest then .ok value else .error .malformed

/-- A numeral with an optional sign, from `-2 ^ 63` up to `2 ^ 63 - 1`. -/
def readSigned (text : List Char) : Except Problem Int :=
  let (negative, digits) := match text with
    | '-' :: rest => (true, rest)
    | '+' :: rest => (false, rest)
    | _ => (false, text)
  match readUnsigned digits with
  | .error problem => .error problem
  | .ok value =>
    if negative then
      if value ≤ 0x8000000000000000 then .ok (-(value : Int)) else .error .outOfRange
    else if value < 0x8000000000000000 then .ok value else .error .outOfRange

end ExprLang.Text.Numeral
