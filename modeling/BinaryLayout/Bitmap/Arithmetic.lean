import BinaryLayout.Bitmap.Basic

/-!
# Arithmetic on bitmaps

The operand is the number that the bits stand for, and the result is reduced to the same width.
Division truncates toward zero, and the remainder has the sign of the dividend.

## Main definitions

* `Bitmap.add`, `Bitmap.sub`, `Bitmap.mul`, `Bitmap.div?`, `Bitmap.rem?`.
-/

namespace BinaryLayout.Bitmap

/-- An integer in the width and under the sign flag of `b`. -/
def wrapped (b : Bitmap) (value : Int) : Bitmap := ofInt value b.width b.signed

/-- The sum with an integer, in the same width. -/
def add (b : Bitmap) (n : Int) : Bitmap := b.wrapped (b.toInt + n)

/-- The difference with an integer, in the same width. -/
def sub (b : Bitmap) (n : Int) : Bitmap := b.wrapped (b.toInt - n)

/-- The product with an integer, in the same width. -/
def mul (b : Bitmap) (n : Int) : Bitmap := b.wrapped (b.toInt * n)

/-- The quotient truncated toward zero, in the same width; none by zero. -/
def div? (b : Bitmap) (n : Int) : Option Bitmap :=
  if n = 0 then none else some (b.wrapped (b.toInt.tdiv n))

/-- The remainder of the truncated quotient, in the same width; none by zero. -/
def rem? (b : Bitmap) (n : Int) : Option Bitmap :=
  if n = 0 then none else some (b.wrapped (b.toInt.tmod n))

end BinaryLayout.Bitmap
