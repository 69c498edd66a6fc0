set_option autoImplicit false

/-!
Sets of code points given by their bounds: an ascending list in which the first of each pair
starts a run of members and the second is the first code point after it.
-/

namespace Almanac.Text

def inBounds : List Nat → Nat → Bool
  | lo :: hi :: rest, n => if n < lo then false else if n < hi then true else inBounds rest n
  | _, _ => false

end Almanac.Text
