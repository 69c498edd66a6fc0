import Almanac.Text.Bounds

set_option autoImplicit false

/-!
White space, as it is cut from both ends of a value: the Unicode separators and the control
characters that end lines, pages or records.
-/

namespace Almanac.Text

def blankBounds : List Nat :=
  [9, 14, 28, 33, 133, 134, 160, 161, 5760, 5761, 8192, 8203, 8232, 8234, 8239, 8240, 8287, 8288,
  12288, 12289]

def isBlank (c : Char) : Bool := inBounds blankBounds c.toNat

def dropBlanks (s : List Char) : List Char := s.dropWhile isBlank

/-- The text without white space at either end. -/
def trim (s : List Char) : List Char := (dropBlanks (dropBlanks s).reverse).reverse

end Almanac.Text
