import ExprLang.Text.Printable

/-!
Characters that cannot be shown in a line: controls, format marks, characters for private use, and
code points that stand for no character. All others can be printed or separate words.
-/

set_option autoImplicit false

namespace ExprLang.Text

/-- The characters of the general category `Separator`. -/
def isSeparator (c : Char) : Bool :=
  let n := c.toNat
  n == 0x20 || n == 0xa0 || n == 0x1680 || (0x2000 ≤ n && n ≤ 0x200a) || n == 0x2028 ||
    n == 0x2029 || n == 0x202f || n == 0x205f || n == 0x3000

/-- The characters of the general category `Other`. -/
def isControl (c : Char) : Bool := !isPrintable c && !isSeparator c

end ExprLang.Text
