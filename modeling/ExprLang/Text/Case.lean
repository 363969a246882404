/-!
Case folding for comparison with ASCII words. A character whose capital (or small) form is an ASCII
letter is replaced by that letter; every other character stays, since no ASCII word contains it in
either form.
-/

set_option autoImplicit false

namespace ExprLang.Text

/-- Beside the small ASCII letters, the dotless `ı` and the long `ſ` have ASCII capitals. -/
def upperAscii (c : Char) : Char :=
  if c.toNat = 0x131 then 'I' else if c.toNat = 0x17f then 'S' else c.toUpper

/-- Beside the ASCII capitals, the dotted `İ` and the Kelvin sign have small ASCII letters. -/
def lowerAscii (c : Char) : Char :=
  if c.toNat = 0x130 then 'i' else if c.toNat = 0x212a then 'k' else c.toLower

def upper (s : String) : String := s.map upperAscii

def lower (s : String) : String := s.map lowerAscii

end ExprLang.Text
