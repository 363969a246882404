import ExprLang.Text.Base64
import ExprLang.Text.Numeral
import ExprLang.Text.Utf8
import ExprLang.Yaml.Node

/-!
What a scalar means. A tag can say so; without one, a plain scalar means by its look alone nothing,
a truth value, an integer, a decimal fraction, a point in time, or text.
-/

set_option autoImplicit false

namespace ExprLang.Yaml

/-- A decimal fraction `± mantissa · 10 ^ exponent`. -/
structure Decimal where
  negative : Bool
  mantissa : Nat
  exponent : Int
  deriving DecidableEq, Repr

namespace Decimal

/-- The fraction `num / den`, divided by `2 ^ shift`. -/
def shifted (num den : Nat) (shift : Int) : Nat × Nat :=
  if shift < 0 then (num * Nat.pow 2 (-shift).toNat, den)
  else (num, den * Nat.pow 2 shift.toNat)

/-- The integer nearest to `num / den`, ties to even. -/
def nearest (num den : Nat) : Nat :=
  let q := num / den
  let r := num % den
  if den < 2 * r || (den = 2 * r && q % 2 = 1) then q + 1 else q

/-- The integer part of the double-precision number nearest to `num / den`: the fraction is shifted
to 53 binary digits, rounded, and shifted back. -/
def nearestFloor (num den : Nat) : Nat :=
  if num = 0 then 0
  else
    let guess : Int := (num.log2 : Int) - den.log2 - 52
    let (n, d) := shifted num den guess
    let shift := if n / d < Nat.pow 2 52 then guess - 1 else guess
    let (n, d) := shifted num den shift
    let m := nearest n d
    if shift < 0 then m / Nat.pow 2 (-shift).toNat else m * Nat.pow 2 shift.toNat

/-- The integer part of the nearest double-precision magnitude, unless that overflows. -/
def magnitude? (x : Decimal) : Option Nat :=
  let digits := (Nat.toDigits 10 x.mantissa).length
  if x.mantissa = 0 || x.exponent + digits < 0 then some 0
  else if 310 < x.exponent + digits then none
  else
    let value :=
      if x.exponent < 0 then nearestFloor x.mantissa (Nat.pow 10 (-x.exponent).toNat)
      else nearestFloor (x.mantissa * Nat.pow 10 x.exponent.toNat) 1
    if value < Nat.pow 2 1024 then some value else none

/-- The nearest double-precision number without its fraction, as far as it fits 64 bits. Numbers
beyond the lower end, and the one just beyond the upper end, become the least integer. -/
def toInt64? (x : Decimal) : Option Int64 :=
  match x.magnitude? with
  | none => none
  | some magnitude =>
    let value : Int := if x.negative then -(magnitude : Int) else magnitude
    if 0x8000000000000000 < value then none
    else if value = 0x8000000000000000 || value < -0x8000000000000000 then some Int64.minValue
    else some (Int64.ofInt value)

end Decimal

inductive Meaning
  | nothing
  | bool (b : Bool)
  | int (n : Int)
  | float (x : Decimal)
  | notNumber
  | infinite (negative : Bool)
  | time
  | text
  /-- Text that is written in an encoding of its bytes. -/
  | binary (content : String)
  deriving DecidableEq, Repr

namespace Meaning

/-- The short name of the type, as messages show it. -/
def tag : Meaning → String
  | nothing => "!!null"
  | bool _ => "!!bool"
  | int _ => "!!int"
  | float _ | notNumber | infinite _ => "!!float"
  | time => "!!timestamp"
  | text => "!!str"
  | binary _ => "!!binary"

/-- The words with a meaning of their own. -/
def word? : String → Option Meaning
  | "" | "~" | "null" | "Null" | "NULL" => some nothing
  | "y" | "Y" | "yes" | "Yes" | "YES" | "true" | "True" | "TRUE" | "on" | "On" | "ON" =>
    some (bool true)
  | "n" | "N" | "no" | "No" | "NO" | "false" | "False" | "FALSE" | "off" | "Off" | "OFF" =>
    some (bool false)
  | ".nan" | ".NaN" | ".NAN" => some notNumber
  | ".inf" | ".Inf" | ".INF" | "+.inf" | "+.Inf" | "+.INF" => some (infinite false)
  | "-.inf" | "-.Inf" | "-.INF" => some (infinite true)
  | _ => none

def digitsValue (digits : List Char) : Nat :=
  digits.foldl (fun n c ↦ n * 10 + (c.toNat - '0'.toNat)) 0

/-- A sign in front, and the rest. -/
def signed : List Char → Bool × List Char
  | '-' :: rest => (true, rest)
  | '+' :: rest => (false, rest)
  | rest => (false, rest)

/-- Every underscore stands between two digits. -/
def separatesDigits : (last : Char) → List Char → Bool
  | _, [] => true
  | last, '_' :: rest => isDigit last && rest.head?.any isDigit && separatesDigits '_' rest
  | _, c :: rest => separatesDigits c rest

/-- The exponent part of a fraction, which may be missing. -/
def exponent? : List Char → Option Int
  | [] => some 0
  | c :: rest =>
    let (negative, digits) := signed rest
    if (c = 'e' || c = 'E') && !digits.isEmpty && digits.all isDigit then
      some (if negative then -(digitsValue digits : Int) else digitsValue digits)
    else none

/-- Digits with or without a point, and an optional exponent. -/
def decimal? (text : List Char) : Option Decimal :=
  let (negative, rest) := signed text
  let whole := rest.takeWhile isDigit
  let rest := rest.dropWhile isDigit
  let (fraction, rest) := match rest with
    | '.' :: rest => (rest.takeWhile isDigit, rest.dropWhile isDigit)
    | _ => ([], rest)
  if whole.isEmpty && fraction.isEmpty then none
  else (exponent? rest).map fun e ↦ ⟨negative, digitsValue (whole ++ fraction), e - fraction.length⟩

/-- A fraction that does not overflow. -/
def float? (text : List Char) : Option Meaning :=
  (decimal? text).bind fun x ↦ x.magnitude?.map fun _ ↦ float x

/-- A fraction that starts with its point, and may have underscores between digits. -/
def pointFloat? (text : List Char) : Option Meaning :=
  if separatesDigits '.' text then float? (text.filter (· ≠ '_')) else none

/-- Integers in any base; those without a sign may reach `2 ^ 64 - 1`. -/
def int? (text : List Char) : Option Meaning :=
  match Text.Numeral.readSigned text with
  | .ok n => some (int n)
  | .error _ =>
    match Text.Numeral.readUnsigned text with
    | .ok n => some (int n)
    | .error _ => none

/-- Binary digits with a sign behind the start that names their base. -/
def signedBits? : List Char → Option Meaning
  | '0' :: 'b' :: sign :: digits =>
    if sign = '+' || sign = '-' then int? (sign :: '0' :: 'b' :: digits) else none
  | _ => none

/-- One or two digits with a value in the given range, and the rest. -/
def field? (low high : Nat) (text : List Char) : Option (Nat × List Char) :=
  let digits := (text.take 2).takeWhile isDigit
  if digits.isEmpty then none
  else
    let n := digitsValue digits
    if low ≤ n && n ≤ high then some (n, text.drop digits.length) else none

/-- `text` behind the character `c`. -/
def past? (c : Char) : List Char → Option (List Char)
  | [] => none
  | first :: rest => if first = c then some rest else none

def daysIn (year month : Nat) : Nat :=
  if month = 2 then
    if year % 4 = 0 && (year % 100 ≠ 0 || year % 400 = 0) then 29 else 28
  else if month = 4 || month = 6 || month = 9 || month = 11 then 30 else 31

/-- A date, and what follows it. -/
def date? (text : List Char) : Option (List Char) := do
  let year := text.takeWhile isDigit
  if year.length ≠ 4 then none
  let rest ← past? '-' (text.drop 4)
  let (month, rest) ← field? 1 12 rest
  let rest ← past? '-' rest
  let (_, rest) ← field? 1 (daysIn (digitsValue year) month) rest
  return rest

/-- Hours, minutes, seconds and an optional fraction, and what follows them. -/
def clock? (text : List Char) : Option (List Char) := do
  let (_, rest) ← field? 0 23 text
  let rest ← past? ':' rest
  let (_, rest) ← field? 0 59 rest
  let rest ← past? ':' rest
  let (_, rest) ← field? 0 59 rest
  match rest with
  | point :: c :: more =>
    if (point = '.' || point = ',') && isDigit c then return more.dropWhile isDigit else return rest
  | _ => return rest

/-- `Z`, or an offset in hours and minutes of two digits each. -/
def isZone : List Char → Bool
  | ['Z'] => true
  | [sign, a, b, ':', c, d] =>
    (sign = '+' || sign = '-') && [a, b, c, d].all isDigit && digitsValue [a, b] ≤ 24 &&
      digitsValue [c, d] ≤ 60
  | _ => false

/-- A date alone, with a time of day after spaces, or with a time of day and a zone after `T`. -/
def isTime (text : List Char) : Bool :=
  match date? text with
  | none => false
  | some [] => true
  | some (mark :: rest) =>
    if mark = ' ' then clock? (rest.dropWhile (· = ' ')) = some []
    else (mark = 'T' || mark = 't') && (clock? rest).any isZone

/-- A number, for text that starts with a digit or a sign. Underscores do not count. -/
def number? (text : List Char) : Option Meaning :=
  let digits := text.filter (· ≠ '_')
  ((int? digits).orElse fun _ ↦ float? digits).orElse fun _ ↦ signedBits? digits

/-- What a text looks like; a time only where times are `timely`. The first character decides what a
scalar can be. -/
def ofLook (timely : Bool) (s : String) : Meaning :=
  match s.toList with
  | [] => nothing
  | c :: rest =>
    (word? s).getD
      (if isDigit c || c = '+' || c = '-' then
        if timely && isTime (c :: rest) then time else (number? (c :: rest)).getD text
      else if c = '.' then (pointFloat? (c :: rest)).getD text
      else text)

/-- What a plain scalar without a tag means. -/
def ofScalar (s : String) : Meaning := ofLook true s

/-! ### Tags -/

/-- What the tags of the language start with. -/
def tagStart : String := "tag:yaml.org,2002:"

/-- A tag as messages show it. -/
def shortTag (tag : String) : String :=
  if tag.startsWith tagStart then "!!" ++ String.ofList (tag.toList.drop tagStart.length) else tag

/-- Integers can be taken for fractions. -/
def asFloat : Meaning → Meaning
  | int n => if n < 0x8000000000000000 then float ⟨n < 0, n.natAbs, 0⟩ else int n
  | other => other

/-- What a scalar means under a tag: its look has to fit the tags of the language, and under any
other tag it is text. -/
def ofTagged (tag s : String) : Option Meaning :=
  match shortTag tag with
  | "!!str" => some text
  | "!!binary" => (Text.Base64.decode? s.toList).map fun bytes ↦ binary (Text.Utf8.decode bytes)
  | "!!float" => fits (asFloat (ofLook false s))
  | "!!timestamp" => fits (ofLook true s)
  | "!!null" | "!!bool" | "!!int" => fits (ofLook false s)
  | _ => some text
where
  /-- The look is the one that the tag asks for. -/
  fits (look : Meaning) : Option Meaning := if look.tag = shortTag tag then some look else none

/-- What a scalar means as it is written; none if its look does not fit its tag. -/
def ofWritten (s tag : String) (isOpen : Bool) : Option Meaning :=
  if tag ≠ "" then ofTagged tag s else some (if isOpen then ofScalar s else text)

/-! ### Values -/

/-- The text that a scalar can be taken for: itself as it is written, or what it encodes. -/
def toText (written : String) : Meaning → String
  | nothing => ""
  | binary content => content
  | _ => written

/-- The integer that a scalar can be taken for; nothing counts as zero. -/
def toInt64? : Meaning → Option Int64
  | nothing => some 0
  | int n => if n < 0x8000000000000000 then some (Int64.ofInt n) else none
  | float x => x.toInt64?
  | infinite true => some Int64.minValue
  | _ => none

/-- The truth value that a scalar can be taken for; nothing counts as false. -/
def toBool? : Meaning → Option Bool
  | nothing => some false
  | bool b => some b
  | _ => none

/-- Digits in groups of sixty, which other readers take for a number. -/
def isSexagesimal (text : List Char) : Bool :=
  let (_, rest) := signed text
  match rest with
  | [] => false
  | c :: _ =>
    let groups := (rest.dropWhile fun c ↦ isDigit c || c = '_')
    isDigit c && groups.head? = some ':' && goes groups.length groups
where
  /-- Groups of one or two digits below sixty, and a fraction of digits and underscores. -/
  goes : (fuel : Nat) → List Char → Bool
    | _, [] => true
    | 0, _ => false
    | fuel + 1, ':' :: rest =>
      match rest with
      | a :: b :: more =>
        if isDigit a && isDigit b && a ≤ '5' then goes fuel more
        else isDigit a && goes fuel (b :: more)
      | [a] => isDigit a
      | [] => false
    | _ + 1, '.' :: rest => rest.all fun c ↦ isDigit c || c = '_'
    | _ + 1, _ => false

end Meaning

end ExprLang.Yaml
