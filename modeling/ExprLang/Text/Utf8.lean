/-!
Characters from bytes. Well-formed UTF-8 sequences are decoded; a byte that starts none becomes one
replacement character, so that decoding never fails and every byte is accounted for.
-/

set_option autoImplicit false

namespace ExprLang.Text.Utf8

/-- The character that stands for a byte outside every well-formed sequence. -/
def replacement : Char := Char.ofNat 0xfffd

/-- The six payload bits of a continuation byte. -/
def continuation? (b : UInt8) : Option Nat :=
  if 0x80 ≤ b.toNat && b.toNat < 0xc0 then some (b.toNat - 0x80) else none

/-- The value collected from a lead byte's payload and `count` continuation bytes. -/
def collect? (payload : Nat) : (count : Nat) → List UInt8 → Option Nat
  | 0, _ => some payload
  | _ + 1, [] => none
  | count + 1, b :: rest =>
    match continuation? b with
    | some bits => collect? (payload * 64 + bits) count rest
    | none => none

/-- A scalar value that is not below the least value its length is meant for. -/
def scalar? (least value : Nat) : Option Char :=
  if least ≤ value && decide value.isValidChar then some (Char.ofNat value) else none

/-- The multi-byte character that starts with `lead`, and how many bytes of `rest` belong to it. -/
def sequence? (lead : UInt8) (rest : List UInt8) : Option (Char × Nat) :=
  let b := lead.toNat
  if b < 0x80 then some (Char.ofNat b, 0)
  else if 0xc0 ≤ b && b < 0xe0 then
    ((collect? (b - 0xc0) 1 rest).bind (scalar? 0x80)).map (·, 1)
  else if 0xe0 ≤ b && b < 0xf0 then
    ((collect? (b - 0xe0) 2 rest).bind (scalar? 0x800)).map (·, 2)
  else if 0xf0 ≤ b && b < 0xf8 then
    ((collect? (b - 0xf0) 3 rest).bind (scalar? 0x10000)).map (·, 3)
  else none

/-- Puts the characters of `bytes` in front of `done`, the last one first. -/
def decodeOnto (done : List Char) : List UInt8 → List Char
  | [] => done
  | b :: rest =>
    match sequence? b rest with
    | some (c, count) => decodeOnto (c :: done) (rest.drop count)
    | none => decodeOnto (replacement :: done) rest
termination_by bytes => bytes.length
decreasing_by
  · simp only [List.length_drop, List.length_cons]; omega
  · simp

def decode (bytes : List UInt8) : String := String.ofList (decodeOnto [] bytes).reverse

/-- Every byte belongs to a well-formed sequence. -/
def wellFormed : List UInt8 → Bool
  | [] => true
  | b :: rest =>
    match sequence? b rest with
    | some (_, count) => wellFormed (rest.drop count)
    | none => false
termination_by bytes => bytes.length
decreasing_by simp only [List.length_drop, List.length_cons]; omega

def encode (s : String) : List UInt8 := s.toUTF8.toList

end ExprLang.Text.Utf8
